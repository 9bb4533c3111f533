import CodeTools.Lib.Heap
import CodeTools.Lib.Text
import CodeTools.IniParser.Cuts

/-!
# The buffer for section and key

`iniparser_load_mem` builds the name of an entry in `tmp`. The section comes from
an earlier line than the key, and `sprintf` does not ask for the room that both
need.
-/

namespace code_tools.iniparser

open cmem cstring

/-- The terminator is one byte more. -/
def sprintf_tmp (section_ key : List UInt8) : Except Fault (List UInt8) :=
  let name := section_ ++ [':'.toUInt8] ++ key
  if name.length + 1 ≤ ASCIILINESZ + 1 then .ok name else .error .outOfBounds

/-- The `switch` over the status of a line, with the buffer as large as it is. -/
def process_tmp (p : Parser) (line : List UInt8) : Except Fault Parser :=
  let l := iniparser_line line p.section_ p.key p.val
  match l.sta with
  | .LINE_VALUE => do
    let tmp ← sprintf_tmp l.section_ l.key
    let (dict, errs) := dictionary_set p.dict tmp (some l.value)
    .ok { section_ := l.section_, key := l.key, val := l.value, errs, dict }
  | _ => .ok (process p line)

/-- The loop of `iniparser_load_mem` with this `switch`. -/
def load_mem_tmp_loop (ini : Nat → UInt8) (inilen : Nat) :
    Nat → List UInt8 → Nat → Nat → Parser → Except Fault (Option dictionary)
  | 0, _, _, _, _ => .error .outOfFuel
  | fuel + 1, line, last, tpos, p =>
    let got := getnstr (fun i => ini (tpos + i)) (ASCIILINESZ - last)
    if got.r ≠ 0 ∧ tpos < inilen then
      let tpos := tpos + got.r
      let line := terminated (line.take last ++ got.buf)
      let (line, len) := trim line (line.length + 1)
      if continues line len then load_mem_tmp_loop ini inilen fuel line (len - 1) tpos p
      else do
        let p ← process_tmp p (terminated line)
        if p.errs < 0 then .ok p.result else load_mem_tmp_loop ini inilen fuel [] 0 tpos p
    else .ok p.result

def load_mem_tmp (ini : Nat → UInt8) (inilen : Nat) : Except Fault (Option dictionary) :=
  load_mem_tmp_loop ini inilen (inilen + 1) [] 0 0 Parser.start

/-! ## One line -/

theorem process_tmp_eq (p : Parser) (line : List UInt8) :
    process_tmp p line =
      if (iniparser_line line p.section_ p.key p.val).sta = .LINE_VALUE ∧
        ASCIILINESZ < (iniparser_line line p.section_ p.key p.val).section_.length +
          (iniparser_line line p.section_ p.key p.val).key.length + 1 then .error .outOfBounds
      else .ok (process p line) := by
  unfold process_tmp process sprintf_tmp
  generalize iniparser_line line p.section_ p.key p.val = l
  obtain ⟨sta, section_, key, value⟩ := l
  have hlength : (section_ ++ [':'.toUInt8] ++ key).length = section_.length + key.length + 1 := by
    simp only [List.length_append, List.length_singleton]
    omega
  cases sta with
  | LINE_VALUE =>
    dsimp only
    rw [hlength]
    by_cases hroom : section_.length + key.length + 1 ≤ ASCIILINESZ
    · rw [if_pos (by omega), if_neg (fun h => absurd h.2 (by omega)), ok_bind]
    · rw [if_neg (by omega), if_pos ⟨rfl, by omega⟩]
      rfl
  | LINE_UNPROCESSED => exact (if_neg (fun h => by cases h.1)).symm
  | LINE_ERROR => exact (if_neg (fun h => by cases h.1)).symm
  | LINE_EMPTY => exact (if_neg (fun h => by cases h.1)).symm
  | LINE_COMMENT => exact (if_neg (fun h => by cases h.1)).symm
  | LINE_SECTION => exact (if_neg (fun h => by cases h.1)).symm

theorem process_tmp_congr (p : Parser) {line line' : List UInt8} (hsame : strip line = strip line') :
    process_tmp p line = process_tmp p line' := by
  rw [process_tmp_eq, process_tmp_eq, iniparser_line_congr hsame, process_congr p hsame]

theorem eq_process_of_process_tmp {p p' : Parser} {line : List UInt8} (hprocess : process_tmp p line = .ok p') :
    p' = process p line := by
  rw [process_tmp_eq] at hprocess
  split at hprocess
  · cases hprocess
  · exact (Except.ok.inj hprocess).symm

/-- Where the buffer is never overrun, the loop is the one without it. -/
theorem load_mem_loop_of_tmp {ini : Nat → UInt8} {inilen fuel : Nat} {line : List UInt8} {last tpos : Nat} {p : Parser}
    {result : Option dictionary} (hload : load_mem_tmp_loop ini inilen fuel line last tpos p = .ok result) :
    (load_mem_loop ini inilen fuel line last tpos p).map Prod.fst = some result := by
  induction fuel generalizing line last tpos p with
  | zero => cases hload
  | succ fuel ih =>
    rw [load_mem_tmp_loop] at hload
    rw [load_mem_loop]
    dsimp only at hload ⊢
    split at hload
    case isFalse hstop =>
      rw [if_neg hstop]
      exact congrArg some (Except.ok.inj hload)
    case isTrue hgot =>
    rw [if_pos hgot]
    split at hload
    case isTrue hcontinues =>
      rw [if_pos hcontinues, Option.map_map]
      exact ih hload
    case isFalse hcontinues =>
    obtain ⟨p', hprocess, hrest⟩ := bind_eq_ok_iff.mp hload
    rw [if_neg hcontinues, ← eq_process_of_process_tmp hprocess]
    split at hrest
    case isTrue hneg =>
      rw [if_pos hneg]
      exact congrArg some (Except.ok.inj hrest)
    case isFalse hneg =>
      rw [if_neg hneg, Option.map_map]
      exact ih hrest

/-! ## The loop -/

theorem load_mem_tmp_loop_stop {ini : Nat → UInt8} {inilen tpos : Nat}
    (hstop : (getnstr (fun i => ini (tpos + i)) ASCIILINESZ).r = 0 ∨ inilen ≤ tpos) (fuel : Nat) (p : Parser) :
    load_mem_tmp_loop ini inilen (fuel + 1) [] 0 tpos p = .ok p.result := by
  rw [load_mem_tmp_loop]
  dsimp only
  rw [Nat.sub_zero, if_neg (by omega)]

theorem load_mem_tmp_loop_line {ini : Nat → UInt8} {inilen tpos : Nat} {seg t : List UInt8}
    (htaken : Taken seg t (getnstr (fun i => ini (tpos + i)) ASCIILINESZ)) (hmore : tpos < inilen) (fuel : Nat)
    {p : Parser} (hp : 0 ≤ p.errs) :
    load_mem_tmp_loop ini inilen (fuel + 1) [] 0 tpos p =
      process_tmp p seg >>= fun p => load_mem_tmp_loop ini inilen fuel [] 0 (tpos + (seg.length + t.length)) p := by
  have hline := htaken.line
  rw [← htaken.advance]
  rw [load_mem_tmp_loop]
  dsimp only
  rw [Nat.sub_zero, if_pos ⟨htaken.nonzero, hmore⟩, List.take_nil, List.nil_append]
  generalize getnstr (fun i => ini (tpos + i)) ASCIILINESZ = got at hline
  obtain ⟨htrim, hlast⟩ := trim_terminator (terminated got.buf)
  rw [htrim]
  dsimp only
  rw [hlast, terminated_of_notMem (zero_notMem_terminated got.buf), process_tmp_congr p hline, if_neg (by simp)]
  cases hprocess : process_tmp p seg with
  | error e => rfl
  | ok p' =>
    have herrs := process_errs_nonneg hp seg
    rw [ok_bind, ok_bind, eq_process_of_process_tmp hprocess, if_neg (by omega)]

/-- From a position on, the loop is the fold over the lines of the text that is
    left. -/
def LoopFolds (consumed rest : List UInt8) (beyond : Nat → UInt8) (fuel : Nat) (p : Parser) : Prop :=
  ∃ segs overrun, Cuts rest segs overrun ∧
    load_mem_tmp_loop (memory (consumed ++ rest) beyond) (consumed ++ rest).length fuel [] 0 consumed.length p =
      (segs.foldlM process_tmp p >>= fun p => .ok p.result)

section Loop

variable (consumed : List UInt8) (beyond : Nat → UInt8)

theorem loopFolds_unfinished {rest : List UInt8} (hrest : NoEnd rest) (hlen : rest.length < ASCIILINESZ) {fuel : Nat}
    (hfuel : rest.length < fuel) {p : Parser} (hp : 0 ≤ p.errs) : LoopFolds consumed rest beyond fuel p := by
  have hsize : (consumed ++ rest).length = consumed.length + rest.length := List.length_append
  obtain ⟨fuel, rfl⟩ := Nat.exists_eq_add_of_lt hfuel
  by_cases hempty : rest = []
  · refine ⟨[], false, hempty ▸ .done, load_mem_tmp_loop_stop (.inr ?_) _ p⟩
    rw [hempty, List.append_nil]
  · have hpos := List.length_pos_iff.mpr hempty
    obtain ⟨hline, hr, _⟩ := getnstr_last hrest (fun i => beyond (consumed.length + i)) hlen
    rw [← memory_append consumed] at hline hr
    obtain ⟨fuel', hfuel'⟩ : ∃ fuel', rest.length + fuel = fuel' + 1 := ⟨rest.length + fuel - 1, by omega⟩
    rw [hfuel']
    have hmore : consumed.length < (consumed ++ rest).length := by omega
    -- behind the text the loop stops, whether the terminator was counted or not
    have hstop : ∀ tpos q, (consumed ++ rest).length ≤ tpos →
        load_mem_tmp_loop (memory (consumed ++ rest) beyond) (consumed ++ rest).length (fuel' + 1) [] 0 tpos q =
          .ok q.result := fun tpos q hbehind => load_mem_tmp_loop_stop (.inr hbehind) fuel' q
    by_cases hfull : rest.length + 1 = ASCIILINESZ
    · rw [if_pos hfull] at hr
      refine ⟨[rest], false, .full hrest hfull, ?_⟩
      rw [load_mem_tmp_loop_line (t := []) ⟨hline, hr, by omega⟩ hmore (fuel' + 1) hp]
      simp only [List.foldlM_cons, List.foldlM_nil, bind_assoc, pure_bind]
      congr 1
      funext q
      exact hstop _ q (by rw [hsize]; exact Nat.le_refl _)
    · rw [if_neg hfull] at hr
      refine ⟨[rest], true, .last hrest hempty (by omega), ?_⟩
      rw [load_mem_tmp_loop_line (t := [0]) ⟨hline, hr, by omega⟩ hmore (fuel' + 1) hp]
      simp only [List.foldlM_cons, List.foldlM_nil, bind_assoc, pure_bind]
      congr 1
      funext q
      exact hstop _ q (by rw [hsize]; exact Nat.add_le_add_left (Nat.le_add_right _ _) _)

theorem loopFolds_line {seg tail : List UInt8} {e : UInt8} (hseg : NoEnd seg) (hlen : seg.length < ASCIILINESZ)
    (he : is_end e = true) {fuel : Nat} {p : Parser} (hp : 0 ≤ p.errs)
    (hrest : ∀ consumed' rest', rest'.length ≤ seg.length + tail.length →
      LoopFolds consumed' rest' beyond fuel (process p seg)) :
    LoopFolds consumed (seg ++ e :: tail) beyond (fuel + 1) p := by
  obtain ⟨t, rest, hsplit, hends, htaken, _⟩ := getnstr_line hseg he tail
    (fun i => beyond (consumed.length + i)) hlen (by decide)
  rw [← memory_append consumed] at htaken
  have hsize : tail.length + 1 = t.length + rest.length := by
    rw [← List.length_append, ← hsplit, List.length_cons]
  have hpos := htaken.nonzero
  rw [htaken.advance] at hpos
  obtain ⟨segs, overrun, hcuts, hloop⟩ := hrest (consumed ++ (seg ++ t)) rest (by omega)
  have hsame : consumed ++ (seg ++ t) ++ rest = consumed ++ (seg ++ e :: tail) := by
    rw [hsplit]
    simp only [List.append_assoc]
  have hat : (consumed ++ (seg ++ t)).length = consumed.length + (seg.length + t.length) := by
    simp only [List.length_append]
  rw [hsame, hat] at hloop
  have hmore : consumed.length < (consumed ++ (seg ++ e :: tail)).length := by
    simp only [List.length_append, List.length_cons]
    omega
  refine ⟨seg :: segs, overrun, hsplit ▸ .line hseg hlen hends hcuts, ?_⟩
  rw [load_mem_tmp_loop_line htaken hmore fuel hp, List.foldlM_cons, bind_assoc]
  cases hprocess : process_tmp p seg with
  | error e => rfl
  | ok p' =>
    rw [ok_bind, ok_bind, eq_process_of_process_tmp hprocess]
    exact hloop

theorem load_mem_tmp_loop_folds (rest : List UInt8) {fuel : Nat} (hfuel : rest.length < fuel) {p : Parser}
    (hp : 0 ≤ p.errs) : LoopFolds consumed rest beyond fuel p := by
  induction fuel generalizing consumed rest p with
  | zero => omega
  | succ fuel ih =>
    obtain ⟨seg, tail, hrest, hseg, hlen⟩ | ⟨hrest, hlen⟩ | ⟨seg, e, tail, hrest, hseg, hlen, he⟩ :=
      first_line rest
    · have hget := getnstr_overlong hseg tail fun i => beyond (consumed.length + i)
      rw [← memory_append consumed (seg ++ tail), hlen] at hget
      rw [hrest]
      exact ⟨[], false, .overlong hseg hlen, load_mem_tmp_loop_stop (.inl (by rw [hget])) fuel p⟩
    · exact loopFolds_unfinished consumed beyond hrest hlen hfuel hp
    · rw [hrest, List.length_append, List.length_cons] at hfuel
      rw [hrest]
      refine loopFolds_line consumed beyond hseg hlen he hp fun consumed' rest' hshort => ?_
      exact ih consumed' rest' (by omega) (process_errs_nonneg hp seg)

end Loop

/-- Empty lines are no lines of the text. -/
theorem foldlM_process_tmp_filter (segs : List (List UInt8)) (p : Parser) :
    (segs.filter (· ≠ [])).foldlM process_tmp p = segs.foldlM process_tmp p := by
  induction segs generalizing p with
  | nil => rfl
  | cons seg segs ih =>
    by_cases hseg : seg = []
    · rw [List.filter_cons_of_neg (by simp [hseg]), ih, List.foldlM_cons, hseg]
      rfl
    · rw [List.filter_cons_of_pos (by simp [hseg]), List.foldlM_cons, List.foldlM_cons]
      congr 1
      funext q
      exact ih q

/-- The reader with its buffer processes the lines of the text in order. -/
theorem load_mem_tmp_spec (text : List UInt8) (beyond : Nat → UInt8) :
    load_mem_tmp (memory text beyond) text.length =
      (((segments text).takeWhile fits).foldlM process_tmp Parser.start >>= fun p => .ok p.result) := by
  obtain ⟨segs, overrun, hcuts, hloop⟩ :=
    load_mem_tmp_loop_folds [] beyond text (Nat.lt_succ_self text.length) (p := Parser.start) (Int.le_refl 0)
  rw [← foldlM_process_tmp_filter segs, hcuts.filter_eq, foldlM_process_tmp_filter] at hloop
  exact hloop

/-! ## Names in a text -/

/-- What stands between the brackets of a section line. -/
def bracketed (line : List UInt8) : List UInt8 := ((strip line).drop 1).takeWhile (· ≠ CLOSING)

/-- The line starts a section; that of the line `[]` is the one before. -/
def Names (line : List UInt8) : Prop := status line = .LINE_SECTION ∧ bracketed line ≠ []

instance (line : List UInt8) : Decidable (Names line) := inferInstanceAs (Decidable (_ ∧ _))

/-- The section after a line. -/
def section_after (section_ line : List UInt8) : List UInt8 :=
  if Names line then strip (bracketed line) else section_

/-- The section that the last of the lines is in. -/
def current_section (lines : List (List UInt8)) : List UInt8 := lines.foldl section_after []

/-- The key of a value line. -/
def key_name (line : List UInt8) : List UInt8 := strip ((strip line).takeWhile (· ≠ EQUALS))

theorem isspace_tolower : ∀ c, isspace (tolower c) = isspace c := text.forall_byte (by decide +kernel)

theorem tolower_tolower : ∀ c, tolower (tolower c) = tolower c := text.forall_byte (by decide +kernel)

theorem strip_map_tolower (s : List UInt8) : strip (s.map tolower) = (strip s).map tolower := by
  have hsame : isspace ∘ tolower = isspace := funext isspace_tolower
  unfold strip List.rdropWhile
  rw [List.dropWhile_map, hsame, ← List.map_reverse, List.dropWhile_map, hsame, List.map_reverse]

theorem length_strip_le (s : List UInt8) : (strip s).length ≤ s.length := by
  unfold strip
  exact Nat.le_trans (List.rdropWhile_prefix isspace _).length_le (List.dropWhile_sublist isspace).length_le

theorem strip_strip (s : List UInt8) : strip (strip s) = strip s := by
  calc
    strip (strip s) = strip (s.dropWhile isspace) := strip_rdropWhile _
    _ = strip s := by rw [strip, List.dropWhile_idempotent]; rfl

/-- What the parser has for a section. -/
structure InSection (p : Parser) (s : List UInt8) : Prop where
  lower : p.section_ = s.map tolower
  stripped : strip s = s
  short : s.length ≤ ASCIILINESZ

theorem InSection.length {p : Parser} {s : List UInt8} (h : InSection p s) : p.section_.length = s.length := by
  rw [h.lower, List.length_map]

theorem process_section (p : Parser) (line : List UInt8) :
    (process p line).section_ = (iniparser_line line p.section_ p.key p.val).section_ := by
  unfold process
  generalize iniparser_line line p.section_ p.key p.val = l
  obtain ⟨sta, section_, key, value⟩ := l
  cases sta <;> rfl

theorem iniparser_line_section (line section_ key value : List UInt8) :
    (iniparser_line line section_ key value).section_ =
      if status line = .LINE_SECTION then
        strlwc (strstrip ((sscanf section_format (strstrip line)).getD 0 section_))
      else section_ := by
  rw [← iniparser_line_sta line section_ key value]
  unfold iniparser_line
  dsimp only
  split
  case isTrue => rfl
  case isFalse =>
  split
  case isTrue => rfl
  case isFalse =>
  split
  case isTrue => rfl
  case isFalse =>
  split
  case isTrue => rfl
  case isFalse => split <;> rfl

theorem head_of_section {line : List UInt8} (hsection : status line = .LINE_SECTION) :
    ∃ s, strip line = OPENING :: s := by
  unfold status iniparser_line at hsection
  dsimp only at hsection
  split at hsection
  case isTrue => cases hsection
  case isFalse =>
  split at hsection
  case isTrue => cases hsection
  case isFalse =>
  split at hsection
  case isTrue hbrackets =>
    obtain ⟨s, hs⟩ := List.head?_eq_some_iff.mp hbrackets.1
    exact ⟨s, hs⟩
  case isFalse =>
  split at hsection
  case isTrue => cases hsection
  case isFalse => split at hsection <;> cases hsection

theorem sscanf_section {line : List UInt8} (hsection : status line = .LINE_SECTION) (old : List UInt8) :
    (sscanf section_format (strstrip line)).getD 0 old = if bracketed line = [] then old else bracketed line := by
  obtain ⟨s, hs⟩ := head_of_section hsection
  unfold bracketed strstrip section_format
  rw [hs, sscanf, if_pos rfl, sscanf, List.drop_succ_cons, List.drop_zero]
  split
  · rfl
  · rfl

/-- The section after a line, in lower case. -/
theorem InSection.process {p : Parser} {s : List UInt8} (h : InSection p s) {line : List UInt8}
    (hfits : fits line = true) : InSection (iniparser.process p line) (section_after s line) := by
  have hline : line.length < ASCIILINESZ := by simpa [fits] using hfits
  have hlwc : ∀ x : List UInt8, x.length ≤ ASCIILINESZ → strlwc (strstrip x) = (strip x).map tolower := by
    intro x hx
    unfold strlwc strstrip
    rw [List.take_of_length_le (Nat.le_trans (length_strip_le x) hx)]
  have hsection := iniparser_line_section line p.section_ p.key p.val
  rw [← process_section] at hsection
  unfold section_after
  by_cases hstatus : status line = .LINE_SECTION
  · rw [if_pos hstatus, sscanf_section hstatus] at hsection
    by_cases hempty : bracketed line = []
    · rw [if_pos hempty, hlwc _ (by rw [h.length]; exact h.short), h.lower, strip_map_tolower, h.stripped,
        List.map_map] at hsection
      rw [if_neg (fun hnames => hnames.2 hempty)]
      refine ⟨?_, h.stripped, h.short⟩
      rw [hsection]
      exact List.map_congr_left fun c _ => tolower_tolower c
    · have hshort : (bracketed line).length ≤ ASCIILINESZ := by
        have htake : (bracketed line).length ≤ ((strip line).drop 1).length :=
          (List.takeWhile_sublist _).length_le
        have hstrip := length_strip_le line
        rw [List.length_drop] at htake
        omega
      rw [if_neg hempty, hlwc _ hshort] at hsection
      rw [if_pos ⟨hstatus, hempty⟩]
      exact ⟨hsection, strip_strip _, Nat.le_trans (length_strip_le _) hshort⟩
  · rw [if_neg hstatus] at hsection
    rw [if_neg (fun hnames => hstatus hnames.1)]
    exact ⟨hsection.trans h.lower, h.stripped, h.short⟩

/-! ## Keys in a text -/

/-- A format that stores what is in front of the first `=`. -/
def KeyFirst (format : List Directive) : Prop := ∃ more, format = .set (· ≠ EQUALS) :: more

theorem sscanf_any_key (line : List UInt8) {formats : List (List Directive)}
    (hformats : ∀ format ∈ formats, KeyFirst format) (key value : List UInt8) :
    ((sscanf_any line formats key value).1 = true → line.takeWhile (· ≠ EQUALS) ≠ []) ∧
      (sscanf_any line formats key value).2.1 =
        if line.takeWhile (· ≠ EQUALS) = [] ∨ formats = [] then key else line.takeWhile (· ≠ EQUALS) := by
  induction formats generalizing key value with
  | nil => exact ⟨nofun, (if_pos (Or.inr rfl)).symm⟩
  | cons format formats ih =>
    obtain ⟨⟨more, hmore⟩, hothers⟩ := List.forall_mem_cons.mp hformats
    unfold sscanf_any
    dsimp only
    rw [hmore, sscanf]
    by_cases hnone : line.takeWhile (· ≠ EQUALS) = []
    · obtain ⟨hone, htwo⟩ := ih hothers key value
      rw [if_pos (Or.inl hnone)] at htwo
      rw [if_pos hnone, if_neg (by decide), if_pos (Or.inl hnone)]
      exact ⟨hone, htwo⟩
    · rw [if_neg hnone]
      refine ⟨fun _ => hnone, ?_⟩
      rw [if_neg (not_or.mpr ⟨hnone, List.cons_ne_nil _ _⟩ : ¬(line.takeWhile (· ≠ EQUALS) = [] ∨ _))]
      split
      · rfl
      · rw [(ih hothers _ _).2]
        split
        · rfl
        · rfl

/-- The key of a value line, in lower case. -/
theorem iniparser_line_key {line : List UInt8} (hvalue : status line = .LINE_VALUE) (section_ key value : List UInt8) :
    (iniparser_line line section_ key value).key = strlwc (key_name line) := by
  have hfirst : ∀ format ∈ [quoted_format DOUBLE_QUOTE, quoted_format SINGLE_QUOTE, plain_format],
      KeyFirst format := by
    simp only [List.forall_mem_cons]
    exact ⟨⟨_, rfl⟩, ⟨_, rfl⟩, ⟨_, rfl⟩, nofun⟩
  have hsecond : ∀ format ∈ [comment_format, no_value_format], KeyFirst format := by
    simp only [List.forall_mem_cons]
    exact ⟨⟨_, rfl⟩, ⟨_, rfl⟩, nofun⟩
  rw [← iniparser_line_sta line section_ key value] at hvalue
  unfold iniparser_line at hvalue ⊢
  dsimp only at hvalue ⊢
  split
  case isTrue hempty =>
    rw [if_pos hempty] at hvalue
    cases hvalue
  case isFalse hempty =>
  rw [if_neg hempty] at hvalue
  split
  case isTrue hcomment =>
    rw [if_pos hcomment] at hvalue
    cases hvalue
  case isFalse hcomment =>
  rw [if_neg hcomment] at hvalue
  split
  case isTrue hsection =>
    rw [if_pos hsection] at hvalue
    cases hvalue
  case isFalse hsection =>
  rw [if_neg hsection] at hvalue
  obtain ⟨hone, hkey⟩ := sscanf_any_key (strstrip line) hfirst key value
  split
  case isTrue htwo =>
    rw [hkey, if_neg (not_or.mpr ⟨hone htwo, by simp⟩)]
    rfl
  case isFalse htwo =>
  rw [if_neg htwo] at hvalue
  obtain ⟨hone', hkey'⟩ := sscanf_any_key (strstrip line) hsecond
    (sscanf_any (strstrip line) [quoted_format DOUBLE_QUOTE, quoted_format SINGLE_QUOTE, plain_format] key value).2.1
    (sscanf_any (strstrip line) [quoted_format DOUBLE_QUOTE, quoted_format SINGLE_QUOTE, plain_format] key value).2.2
  split
  case isTrue hlast =>
    rw [hkey', if_neg (not_or.mpr ⟨hone' hlast, by simp⟩)]
    rfl
  case isFalse hlast =>
    rw [if_neg hlast] at hvalue
    cases hvalue

/-! ## When the names fit -/

/-- At every value line, the section that the lines before it name and the key have
    room in the buffer, with the colon and the terminator. -/
def NamesFit (lines : List (List UInt8)) : Prop :=
  ∀ before line after, lines = before ++ line :: after → status line = .LINE_VALUE →
    (current_section before).length + (key_name line).length + 2 ≤ ASCIILINESZ + 1

/-- The reader gets to the end of the text without writing behind `tmp`. -/
def StaysInTmp (text : List UInt8) (beyond : Nat → UInt8) : Prop :=
  ∃ dict, load_mem_tmp (memory text beyond) text.length = .ok dict

/-- One line of a run. -/
theorem process_tmp_fits {p : Parser} {s : List UInt8} (h : InSection p s) {line : List UInt8}
    (hfits : fits line = true) :
    process_tmp p line =
      if status line = .LINE_VALUE ∧ ASCIILINESZ < s.length + (key_name line).length + 1 then .error .outOfBounds
      else .ok (process p line) := by
  have hline : line.length < ASCIILINESZ := by simpa [fits] using hfits
  rw [process_tmp_eq, iniparser_line_sta]
  by_cases hvalue : status line = .LINE_VALUE
  · have hlength : (strlwc (key_name line)).length = (key_name line).length := by
      have htake := (List.takeWhile_sublist (fun c : UInt8 => decide (c ≠ EQUALS)) (l := strip line)).length_le
      have hstrip := length_strip_le line
      have hkey := length_strip_le ((strip line).takeWhile (· ≠ EQUALS))
      unfold strlwc
      rw [List.take_of_length_le, List.length_map]
      unfold key_name
      omega
    have hsection : (iniparser_line line p.section_ p.key p.val).section_ = p.section_ := by
      rw [iniparser_line_section, if_neg (by rw [hvalue]; decide)]
    rw [iniparser_line_key hvalue, hlength, hsection, h.length]
  · rw [if_neg (fun hboth => hvalue hboth.1), if_neg (fun hboth => hvalue hboth.1)]

theorem foldlM_process_tmp_ok_iff {lines : List (List UInt8)} (hfits : ∀ line ∈ lines, fits line = true) {p : Parser}
    {s : List UInt8} (h : InSection p s) :
    (∃ p', lines.foldlM process_tmp p = .ok p') ↔
      ∀ before line after, lines = before ++ line :: after → status line = .LINE_VALUE →
        (before.foldl section_after s).length + (key_name line).length + 2 ≤ ASCIILINESZ + 1 := by
  induction lines generalizing p s with
  | nil =>
    constructor
    · intro _ before line after hsplit
      cases before <;> cases hsplit
    · intro _
      exact ⟨p, rfl⟩
  | cons line lines ih =>
    obtain ⟨hfirst, hothers⟩ := List.forall_mem_cons.mp hfits
    rw [List.foldlM_cons, process_tmp_fits h hfirst]
    by_cases hover : status line = .LINE_VALUE ∧ ASCIILINESZ < s.length + (key_name line).length + 1
    · rw [if_pos hover]
      constructor
      · rintro ⟨p', hp'⟩
        cases hp'
      · intro hall
        have hroom := hall [] line lines rfl hover.1
        rw [List.foldl_nil] at hroom
        omega
    · rw [if_neg hover, ok_bind, ih hothers (h.process hfirst)]
      constructor
      · intro hall before line' after hsplit hvalue
        cases before with
        | nil =>
          obtain ⟨rfl, _⟩ := List.cons.inj hsplit
          rw [List.foldl_nil]
          by_contra hroom
          exact hover ⟨hvalue, by omega⟩
        | cons first before =>
          obtain ⟨rfl, hrest⟩ := List.cons.inj hsplit
          exact hall before line' after hrest hvalue
      · intro hall before line' after hsplit hvalue
        exact hall (line :: before) line' after (by rw [hsplit]; rfl) hvalue

theorem staysInTmp_iff_lines {text : List UInt8} (hfits : ∀ line ∈ segments text, fits line = true)
    (beyond : Nat → UInt8) :
    StaysInTmp text beyond ↔ ∃ p, (segments text).foldlM process_tmp Parser.start = .ok p := by
  unfold StaysInTmp
  rw [load_mem_tmp_spec, List.takeWhile_eq_self_iff.mpr hfits]
  constructor
  · rintro ⟨dict, hload⟩
    obtain ⟨p, hp, _⟩ := bind_eq_ok_iff.mp hload
    exact ⟨p, hp⟩
  · rintro ⟨p, hp⟩
    exact ⟨p.result, by rw [hp]; rfl⟩

theorem inSection_start : InSection Parser.start [] := ⟨rfl, rfl, Nat.zero_le _⟩

/-- For a text whose lines fit the line buffer, the reader stays inside `tmp`
    exactly when every key fits behind the section that it is in. -/
theorem staysInTmp_iff {text : List UInt8} (hfits : ∀ line ∈ segments text, fits line = true) (beyond : Nat → UInt8) :
    StaysInTmp text beyond ↔ NamesFit (segments text) :=
  (staysInTmp_iff_lines hfits beyond).trans (foldlM_process_tmp_ok_iff hfits inSection_start)

theorem namesFit_small :
    (∀ line ∈ segments (bytes_of "[s]\nk=v\n"), fits line = true) ∧ NamesFit (segments (bytes_of "[s]\nk=v\n")) := by
  have hfits : ∀ line ∈ segments (bytes_of "[s]\nk=v\n"), fits line = true := by decide +kernel
  refine ⟨hfits, (staysInTmp_iff hfits fun _ => 0).mp ?_⟩
  apply (staysInTmp_iff_lines hfits _).mpr
  have hok : ((segments (bytes_of "[s]\nk=v\n")).foldlM process_tmp Parser.start).isOk = true := by decide +kernel
  cases hrun : (segments (bytes_of "[s]\nk=v\n")).foldlM process_tmp Parser.start with
  | error e =>
    rw [hrun] at hok
    cases hok
  | ok p => exact ⟨p, rfl⟩

/-- A section of 600 bytes. -/
def long_section : List UInt8 := bytes_of "[" ++ List.replicate 600 115 ++ bytes_of "]"

/-- A key of 500 bytes. -/
def long_key : List UInt8 := List.replicate 500 107 ++ bytes_of "=v"

theorem long_names_overrun :
    (∀ line ∈ segments (long_section ++ LF :: long_key), fits line = true) ∧
      ¬StaysInTmp (long_section ++ LF :: long_key) fun _ => 0 := by
  have hlines : segments (long_section ++ LF :: long_key) = [long_section, long_key] := by decide +kernel
  have hfits : ∀ line ∈ segments (long_section ++ LF :: long_key), fits line = true := by
    rw [hlines]
    decide +kernel
  refine ⟨hfits, fun hstays => ?_⟩
  have hnames := (foldlM_process_tmp_ok_iff hfits inSection_start).mp ((staysInTmp_iff_lines hfits _).mp hstays)
  have hroom := hnames [long_section] long_key [] hlines (by decide +kernel)
  exact absurd hroom (by decide +kernel)

end code_tools.iniparser
