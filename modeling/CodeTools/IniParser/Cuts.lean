import CodeTools.IniParser.Load

/-!
# How the buffer reader cuts a text

`Cuts` says which lines the loop of `iniparser_load_mem` takes from a text. The
loop is the fold of `process` overrun them.
-/

namespace code_tools.iniparser

open cstring

/-! ## The buffer -/

theorem memory_of_getElem? {text : List UInt8} {i : Nat} {b : UInt8} (hb : text[i]? = some b)
    (beyond : Nat → UInt8) : memory text beyond i = b := by
  unfold memory
  rw [if_pos (List.getElem?_eq_some_iff.mp hb).1, List.getD_eq_getElem?_getD, hb, Option.getD_some]

theorem memory_length (text : List UInt8) (beyond : Nat → UInt8) : memory text beyond text.length = 0 := by
  unfold memory
  rw [if_neg (Nat.lt_irrefl _), if_pos rfl]

/-- Behind the bytes that were consumed lies a buffer with the rest. -/
theorem memory_append (consumed rest : List UInt8) (beyond : Nat → UInt8) :
    (fun i => memory (consumed ++ rest) beyond (consumed.length + i)) =
      memory rest fun i => beyond (consumed.length + i) := by
  funext i
  unfold memory
  rw [List.length_append]
  by_cases hlt : i < rest.length
  · rw [if_pos (by omega), if_pos hlt, List.getD_eq_getElem?_getD, List.getD_eq_getElem?_getD,
      List.getElem?_append_right (by omega), Nat.add_sub_cancel_left]
  · rw [if_neg (by omega), if_neg hlt]
    by_cases heq : i = rest.length
    · rw [if_pos (by omega), if_pos heq]
    · rw [if_neg (by omega), if_neg heq]

/-! ## One call of `getnstr` -/

def NoEnd (seg : List UInt8) : Prop := ∀ b ∈ seg, is_end b = false

theorem NoEnd.zero_notMem {seg : List UInt8} (hseg : NoEnd seg) : 0 ∉ seg := fun hzero =>
  absurd (hseg 0 hzero) (by decide)

/-- Bytes that do not end a line are copied. -/
theorem getnstr_loop_copies {str : Nat → UInt8} {seg : List UInt8} (hseg : NoEnd seg) {i : Nat}
    (hstr : ∀ j b, seg[j]? = some b → str (i + j) = b) (n : Nat) :
    getnstr_loop str i (seg.length + n) =
      { buf := seg ++ (getnstr_loop str (i + seg.length) n).buf
        r := (getnstr_loop str (i + seg.length) n).r
        seen := (getnstr_loop str (i + seg.length) n).seen } := by
  induction seg generalizing i with
  | nil => simp
  | cons b seg ih =>
    have hb : str i = b := hstr 0 b rfl
    have hnext : ∀ j c, seg[j]? = some c → str (i + 1 + j) = c := by
      intro j c hc
      rw [Nat.add_assoc, Nat.add_comm 1]
      exact hstr (j + 1) c hc
    have hrest := ih (fun c hc => hseg c (List.mem_cons_of_mem b hc)) hnext
    have hstart : i + 1 + seg.length = i + (b :: seg).length := by
      rw [List.length_cons]
      omega
    rw [List.length_cons, Nat.add_right_comm, getnstr_loop, hb, if_neg (by simp [hseg b])]
    rw [hstart] at hrest
    rw [hrest]
    rfl

theorem getnstr_copies {seg : List UInt8} (hseg : NoEnd seg) (rest : List UInt8) (beyond : Nat → UInt8)
    (n : Nat) :
    getnstr (memory (seg ++ rest) beyond) (seg.length + n) =
      { buf := seg ++ (getnstr_loop (memory (seg ++ rest) beyond) seg.length n).buf
        r := (getnstr_loop (memory (seg ++ rest) beyond) seg.length n).r
        seen := (getnstr_loop (memory (seg ++ rest) beyond) seg.length n).seen } := by
  have hstr : ∀ j b, seg[j]? = some b → memory (seg ++ rest) beyond (0 + j) = b := by
    intro j b hb
    have hlt := (List.getElem?_eq_some_iff.mp hb).1
    rw [Nat.zero_add]
    exact memory_of_getElem? (by rw [List.getElem?_append_left hlt, hb]) beyond
  have hloop := getnstr_loop_copies hseg hstr n
  rw [Nat.zero_add] at hloop
  exact hloop

theorem getnstr_overlong {seg : List UInt8} (hseg : NoEnd seg) (rest : List UInt8) (beyond : Nat → UInt8) :
    getnstr (memory (seg ++ rest) beyond) seg.length = { buf := seg, r := 0, seen := seg.length } := by
  have hcopies := getnstr_copies hseg rest beyond 0
  simpa [getnstr_loop] using hcopies

/-- `getnstr` took the line `seg` and the bytes `t` that end it; blanks that stay
    behind the line do not matter. -/
structure Taken (seg t : List UInt8) (got : Getnstr) : Prop where
  line : strip (terminated got.buf) = strip seg
  advance : got.r = seg.length + t.length
  nonzero : got.r ≠ 0

theorem Taken.of_blanks (blanks : List UInt8) {seg t : List UInt8} {r seen : Nat} (hseg : NoEnd seg)
    (hblanks : ∀ b ∈ blanks, isspace b = true) (hr : r = seg.length + t.length) (hpos : r ≠ 0)
    (buf : List UInt8) : Taken seg t { buf := seg ++ (blanks ++ 0 :: buf), r := r, seen := seen } := by
  have hzero : 0 ∉ seg ++ blanks := by
    rw [List.mem_append]
    rintro (hmem | hmem)
    · exact hseg.zero_notMem hmem
    · exact absurd (hblanks 0 hmem) (by decide)
  refine ⟨?_, hr, hpos⟩
  dsimp only
  rw [← List.append_assoc, terminated_concat_zero hzero, strip_append_blanks seg hblanks]

theorem getnstr_end_seen (str : Nat → UInt8) (i n : Nat) : i < (getnstr_end str i n).seen := by
  have hseen : i < if str i = CR then i + 2 else i + 1 := by split <;> omega
  unfold getnstr_end
  dsimp only
  split
  case isTrue => split <;> exact hseen
  case isFalse => split <;> exact hseen

theorem getnstr_loop_seen (str : Nat → UInt8) (i n : Nat) : i ≤ (getnstr_loop str i n).seen := by
  induction n generalizing i with
  | zero => exact Nat.le_refl i
  | succ n ih =>
    rw [getnstr_loop]
    split
    case isTrue => exact Nat.le_of_lt (getnstr_end_seen str i n)
    case isFalse => exact Nat.le_of_succ_le (ih (i + 1))

/-- A call always looks at a byte. -/
theorem getnstr_seen_pos (str : Nat → UInt8) {n : Nat} (hn : 0 < n) : 0 < (getnstr str n).seen := by
  obtain ⟨n, rfl⟩ := Nat.exists_eq_add_of_lt hn
  rw [getnstr, getnstr_loop]
  split
  case isTrue => exact getnstr_end_seen str 0 _
  case isFalse => exact getnstr_loop_seen str 1 _

/-- What may follow a line that was taken: the bytes that end it, or, when the
    line filled the buffer, nothing yet. -/
def Ends (t rest : List UInt8) : Prop :=
  (t = [] ∧ ∃ e tail, rest = e :: tail ∧ is_end e = true) ∨ (∃ e, t = [e] ∧ is_end e = true) ∨
    t = [CR, LF]

/-- A text without line ends. -/
theorem getnstr_last {seg : List UInt8} (hseg : NoEnd seg) (beyond : Nat → UInt8) {n : Nat}
    (hroom : seg.length < n) :
    strip (terminated (getnstr (memory seg beyond) n).buf) = strip seg ∧
      (getnstr (memory seg beyond) n).r = (if seg.length + 1 = n then seg.length else seg.length + 1) ∧
      (getnstr (memory seg beyond) n).seen = seg.length + 1 := by
  obtain ⟨k, rfl⟩ := Nat.exists_eq_add_of_lt hroom
  have hcopies := getnstr_copies hseg [] beyond (k + 1)
  rw [List.append_nil] at hcopies
  have hend : getnstr_loop (memory seg beyond) seg.length (k + 1) =
      getnstr_end (memory seg beyond) seg.length k := by
    rw [getnstr_loop, if_pos (by rw [memory_length]; decide)]
  rw [Nat.add_assoc, hcopies, hend]
  have hcr : ¬(0 : UInt8) = CR := by decide
  unfold getnstr_end
  simp only [memory_length, hcr, false_and, if_false]
  by_cases hk : k = 0
  · rw [if_neg (by simpa using hk), if_pos (by omega)]
    exact ⟨by rw [terminated_concat_zero hseg.zero_notMem], rfl, rfl⟩
  · rw [if_pos hk, if_neg (by omega)]
    exact ⟨by rw [terminated_concat_zero hseg.zero_notMem], rfl, rfl⟩

/-- A text whose first line end comes within the buffer. -/
theorem getnstr_line {seg : List UInt8} {e : UInt8} (hseg : NoEnd seg) (he : is_end e = true)
    (tail : List UInt8) (beyond : Nat → UInt8) {n : Nat} (hroom : seg.length < n) (hn : 2 ≤ n) :
    ∃ t rest, e :: tail = t ++ rest ∧ Ends t rest ∧
      Taken seg t (getnstr (memory (seg ++ e :: tail) beyond) n) ∧
      (getnstr (memory (seg ++ e :: tail) beyond) n).seen ≤ seg.length + tail.length + 2 := by
  obtain ⟨k, rfl⟩ := Nat.exists_eq_add_of_lt hroom
  have hhere : memory (seg ++ e :: tail) beyond seg.length = e :=
    memory_of_getElem? (by simp) beyond
  have hcopies := getnstr_copies hseg (e :: tail) beyond (k + 1)
  have hend : getnstr_loop (memory (seg ++ e :: tail) beyond) seg.length (k + 1) =
      getnstr_end (memory (seg ++ e :: tail) beyond) seg.length k := by
    rw [getnstr_loop, hhere, if_pos he]
  rw [Nat.add_assoc, hcopies, hend]
  unfold getnstr_end
  rw [hhere]
  have hseen : (if e = CR then seg.length + 2 else seg.length + 1) ≤ seg.length + tail.length + 2 := by
    split <;> omega
  by_cases hpair : e = CR ∧ memory (seg ++ e :: tail) beyond (seg.length + 1) = LF ∧ k ≠ 0
  · obtain ⟨rfl, hnext, hk⟩ := hpair
    -- the byte after the carriage return is one of the text
    obtain ⟨tail, rfl⟩ : ∃ tail', tail = LF :: tail' := by
      cases tail with
      | nil =>
        have hzero := memory_length (seg ++ [CR]) beyond
        rw [List.length_append, List.length_singleton, hnext] at hzero
        exact absurd hzero (by decide)
      | cons c tail =>
        have hc : memory (seg ++ CR :: c :: tail) beyond (seg.length + 1) = c :=
          memory_of_getElem? (by simp) beyond
        exact ⟨tail, by rw [← hc, hnext]⟩
    rw [if_pos ⟨rfl, hnext, hk⟩, hnext]
    by_cases hone : k - 1 = 0
    · rw [if_neg (by simpa using hone)]
      exact ⟨[CR], LF :: tail, rfl, .inr (.inl ⟨CR, rfl, he⟩),
        Taken.of_blanks [CR] hseg (by simp) rfl (by simp) [], hseen⟩
    · rw [if_pos hone]
      exact ⟨[CR, LF], tail, rfl, .inr (.inr rfl),
        Taken.of_blanks [CR, LF] hseg (by simp) rfl (by simp) [], hseen⟩
  · rw [if_neg hpair]
    by_cases hk : k = 0
    · rw [if_neg (by simpa using hk)]
      exact ⟨[], e :: tail, rfl, .inl ⟨rfl, e, tail, rfl, he⟩,
        Taken.of_blanks [] hseg (by simp) rfl (by omega) [], hseen⟩
    · rw [if_pos hk]
      refine ⟨[e], tail, rfl, .inr (.inl ⟨e, rfl, he⟩), ?_, hseen⟩
      by_cases hzero : e = 0
      · rw [hzero]
        exact Taken.of_blanks [] hseg (by simp) rfl (by simp) [0]
      · have hspace : isspace e = true := by
          simp only [is_end, Bool.or_eq_true, decide_eq_true_eq] at he
          obtain (rfl | rfl) | rfl := he
          · decide
          · decide
          · exact absurd rfl hzero
        exact Taken.of_blanks [e] hseg (by simpa using hspace) rfl (by simp) []

/-! ## Processing -/

theorem process_congr (p : Parser) {line line' : List UInt8} (hsame : strip line = strip line') :
    process p line = process p line' := by
  unfold process
  rw [iniparser_line_congr hsame]

/-- What a line does to `errs`: `dictionary_set` assigns it, an error counts up. -/
def errs_after (errs : Int) (line : List UInt8) : Int :=
  match status line with
  | .LINE_SECTION => 0
  | .LINE_VALUE => 0
  | .LINE_ERROR => errs + 1
  | _ => errs

theorem process_errs (p : Parser) (line : List UInt8) :
    (process p line).errs = errs_after p.errs line := by
  unfold process errs_after
  rw [← iniparser_line_sta line p.section_ p.key p.val]
  obtain ⟨sta, section_, key, value⟩ := iniparser_line line p.section_ p.key p.val
  cases sta <;> simp [dictionary_set_returns]

theorem errs_after_nonneg {errs : Int} (herrs : 0 ≤ errs) (line : List UInt8) :
    0 ≤ errs_after errs line := by
  unfold errs_after
  cases status line <;> simp <;> omega

theorem process_errs_nonneg {p : Parser} (hp : 0 ≤ p.errs) (line : List UInt8) :
    0 ≤ (process p line).errs := by
  rw [process_errs]
  exact errs_after_nonneg hp line

theorem process_nil (p : Parser) : process p [] = p := rfl

/-! ## The loop -/

/-- Which of the bytes that were read lie in the buffer. -/
def InBounds (inilen : Nat) (reads : List Read) : Prop :=
  ∀ read ∈ reads, read.start + read.seen ≤ inilen + 1

theorem inBounds_cons {inilen : Nat} {read : Read} {reads : List Read} :
    InBounds inilen (read :: reads) ↔ read.start + read.seen ≤ inilen + 1 ∧ InBounds inilen reads :=
  List.forall_mem_cons

theorem inBounds_singleton {inilen : Nat} {read : Read} :
    InBounds inilen [read] ↔ read.start + read.seen ≤ inilen + 1 :=
  List.forall_mem_singleton

/-- The terminator is no blank and no backslash: the loop strips nothing, and no
    line is continued. -/
theorem trim_terminator (line : List UInt8) :
    trim line (line.length + 1) = (line, line.length + 1) ∧ continues line (line.length + 1) = false := by
  have hend : line.getD line.length 0 = 0 := by simp
  unfold trim continues
  simp only [hend]
  exact ⟨if_neg (by decide), by decide⟩

section Step

variable {ini : Nat → UInt8} {inilen tpos : Nat}

theorem load_mem_loop_stop (hstop : (getnstr (fun i => ini (tpos + i)) ASCIILINESZ).r = 0 ∨ inilen ≤ tpos)
    (fuel : Nat) (p : Parser) :
    load_mem_loop ini inilen (fuel + 1) [] 0 tpos p =
      some (p.result, [{ start := tpos, seen := (getnstr (fun i => ini (tpos + i)) ASCIILINESZ).seen }]) := by
  rw [load_mem_loop]
  dsimp only
  rw [Nat.sub_zero, if_neg (by omega)]

theorem load_mem_loop_line {seg t : List UInt8}
    (htaken : Taken seg t (getnstr (fun i => ini (tpos + i)) ASCIILINESZ)) (hmore : tpos < inilen)
    (fuel : Nat) {p : Parser} (hp : 0 ≤ p.errs) :
    load_mem_loop ini inilen (fuel + 1) [] 0 tpos p =
      (load_mem_loop ini inilen fuel [] 0 (tpos + (seg.length + t.length)) (process p seg)).map
        (Prod.map id
          ({ start := tpos, seen := (getnstr (fun i => ini (tpos + i)) ASCIILINESZ).seen } :: ·)) := by
  have hline := htaken.line
  rw [← htaken.advance]
  rw [load_mem_loop]
  dsimp only
  rw [Nat.sub_zero, if_pos ⟨htaken.nonzero, hmore⟩, List.take_nil, List.nil_append]
  generalize getnstr (fun i => ini (tpos + i)) ASCIILINESZ = got at hline
  obtain ⟨htrim, hlast⟩ := trim_terminator (terminated got.buf)
  rw [htrim]
  dsimp only
  rw [hlast, terminated_of_notMem (zero_notMem_terminated got.buf), process_congr p hline,
    if_neg (by simp), if_neg (by have := process_errs_nonneg hp seg; omega)]

end Step

/-- The lines that the loop takes from a text, and whether it ends by looking
    behind the terminator. -/
inductive Cuts : List UInt8 → List (List UInt8) → Bool → Prop where
  /-- A line that does not fit ends the loop. -/
  | overlong {seg tail : List UInt8} (hseg : NoEnd seg) (hlen : seg.length = ASCIILINESZ) :
      Cuts (seg ++ tail) [] false
  | done : Cuts [] [] false
  /-- The terminator of the text is taken for a line end. -/
  | last {seg : List UInt8} (hseg : NoEnd seg) (hne : seg ≠ []) (hlen : seg.length + 1 < ASCIILINESZ) :
      Cuts seg [seg] true
  /-- The last line fills the buffer, and the terminator is not reached with it. -/
  | full {seg : List UInt8} (hseg : NoEnd seg) (hlen : seg.length + 1 = ASCIILINESZ) :
      Cuts seg [seg] false
  | line {seg t rest : List UInt8} {segs : List (List UInt8)} {overrun : Bool} (hseg : NoEnd seg)
      (hlen : seg.length < ASCIILINESZ) (hends : Ends t rest) (hcuts : Cuts rest segs overrun) :
      Cuts (seg ++ (t ++ rest)) (seg :: segs) overrun

theorem first_line (rest : List UInt8) :
    (∃ seg tail, rest = seg ++ tail ∧ NoEnd seg ∧ seg.length = ASCIILINESZ) ∨
      (NoEnd rest ∧ rest.length < ASCIILINESZ) ∨
      ∃ seg e tail, rest = seg ++ e :: tail ∧ NoEnd seg ∧ seg.length < ASCIILINESZ ∧
        is_end e = true := by
  have hsplit := (List.takeWhile_append_dropWhile (p := fun b => !is_end b) (l := rest)).symm
  have hseg : NoEnd (rest.takeWhile fun b => !is_end b) := by
    intro b hb
    simpa using List.mem_takeWhile_imp hb
  generalize rest.takeWhile (fun b => !is_end b) = seg at hsplit hseg
  by_cases hlen : ASCIILINESZ ≤ seg.length
  · refine .inl ⟨seg.take ASCIILINESZ, seg.drop ASCIILINESZ ++ rest.dropWhile (fun b => !is_end b),
      ?_, fun b hb => hseg b (List.mem_of_mem_take hb), ?_⟩
    · rw [← List.append_assoc, List.take_append_drop]
      exact hsplit
    · rw [List.length_take]
      omega
  · cases htail : rest.dropWhile fun b => !is_end b with
    | nil =>
      rw [htail, List.append_nil] at hsplit
      rw [hsplit]
      exact .inr (.inl ⟨hseg, by omega⟩)
    | cons e tail =>
      have hne : rest.dropWhile (fun b => !is_end b) ≠ [] := by rw [htail]; simp
      have he := List.head_dropWhile_not (fun b => !is_end b) hne
      simp only [htail, List.head_cons] at he
      rw [htail] at hsplit
      exact .inr (.inr ⟨seg, e, tail, hsplit, hseg, by omega, by simpa using he⟩)

/-- From a position on, the loop is the fold of `process` overrun the lines of the
    text that is left; it reads nothing but the text and its terminator unless the
    text ends in the middle of a line. -/
def LoopCuts (consumed rest : List UInt8) (beyond : Nat → UInt8) (fuel : Nat) (p : Parser) : Prop :=
  ∃ segs overrun reads, Cuts rest segs overrun ∧
    load_mem_loop (memory (consumed ++ rest) beyond) (consumed ++ rest).length fuel [] 0
      consumed.length p = some ((segs.foldl process p).result, reads) ∧
    (InBounds (consumed ++ rest).length reads ↔ overrun = false)

section Loop

variable (consumed : List UInt8) (beyond : Nat → UInt8)

theorem loopCuts_overlong {seg : List UInt8} (hseg : NoEnd seg) (hlen : seg.length = ASCIILINESZ)
    (tail : List UInt8) (fuel : Nat) (p : Parser) :
    LoopCuts consumed (seg ++ tail) beyond (fuel + 1) p := by
  have hget := getnstr_overlong hseg tail fun i => beyond (consumed.length + i)
  rw [← memory_append consumed (seg ++ tail), hlen] at hget
  refine ⟨[], false, _, .overlong hseg hlen, load_mem_loop_stop (.inl (by rw [hget])) fuel p, ?_⟩
  have hsize : (consumed ++ (seg ++ tail)).length = consumed.length + (seg.length + tail.length) := by
    rw [List.length_append, List.length_append]
  rw [hget, inBounds_singleton, hsize]
  exact iff_of_true (by dsimp only; omega) rfl

/-- Where the loop stops behind the text: it looks at one byte more. -/
theorem load_mem_loop_behind (text : List UInt8) (tpos : Nat) (hbehind : text.length ≤ tpos)
    (fuel : Nat) (p : Parser) :
    ∃ read, load_mem_loop (memory text beyond) text.length (fuel + 1) [] 0 tpos p =
        some (p.result, [read]) ∧ read.start = tpos ∧ 0 < read.seen ∧
      (tpos = text.length → read.seen = 1) := by
  refine ⟨_, load_mem_loop_stop (.inr hbehind) fuel p, rfl, ?_, ?_⟩
  · exact getnstr_seen_pos _ (by decide)
  · intro htpos
    have hnone := getnstr_last (by simp [NoEnd] : NoEnd []) (fun i => beyond (text.length + i))
      (by decide : [].length < ASCIILINESZ)
    rw [← memory_append text [], List.append_nil, ← htpos] at hnone
    exact hnone.2.2

theorem loopCuts_unfinished {rest : List UInt8} (hrest : NoEnd rest) (hlen : rest.length < ASCIILINESZ)
    {fuel : Nat} (hfuel : rest.length < fuel) {p : Parser} (hp : 0 ≤ p.errs) :
    LoopCuts consumed rest beyond fuel p := by
  have hsize : (consumed ++ rest).length = consumed.length + rest.length := List.length_append
  obtain ⟨fuel, rfl⟩ := Nat.exists_eq_add_of_lt hfuel
  by_cases hempty : rest = []
  · obtain ⟨read, hloop, hstart, _, hseen⟩ :=
      load_mem_loop_behind beyond (consumed ++ rest) consumed.length
        (by rw [hempty, List.append_nil]) (rest.length + fuel) p
    refine ⟨[], false, [read], hempty ▸ .done, hloop, ?_⟩
    rw [inBounds_singleton, hstart, hseen (by rw [hempty, List.append_nil])]
    exact iff_of_true (by omega) rfl
  · have hpos := List.length_pos_iff.mpr hempty
    obtain ⟨hline, hr, hseen⟩ := getnstr_last hrest (fun i => beyond (consumed.length + i)) hlen
    rw [← memory_append consumed] at hline hr hseen
    obtain ⟨fuel', hfuel'⟩ : ∃ fuel', rest.length + fuel = fuel' + 1 :=
      ⟨rest.length + fuel - 1, by omega⟩
    rw [hfuel']
    have hmore : consumed.length < (consumed ++ rest).length := by omega
    by_cases hfull : rest.length + 1 = ASCIILINESZ
    · rw [if_pos hfull] at hr
      obtain ⟨read, hloop, hstart, _, hone⟩ := load_mem_loop_behind beyond (consumed ++ rest)
        (consumed.length + rest.length) (by omega) fuel' (process p rest)
      have hstep := load_mem_loop_line (t := []) ⟨hline, hr, by omega⟩ hmore (fuel' + 1) hp
      rw [List.length_nil, Nat.add_zero rest.length, hloop] at hstep
      refine ⟨[rest], false, _, .full hrest hfull, hstep, ?_⟩
      change InBounds _ (_ :: [read]) ↔ _
      rw [inBounds_cons, inBounds_singleton, hstart, hone hsize.symm, hseen]
      exact iff_of_true ⟨by dsimp only; omega, by omega⟩ rfl
    · rw [if_neg hfull] at hr
      obtain ⟨read, hloop, hstart, hread, _⟩ := load_mem_loop_behind beyond (consumed ++ rest)
        (consumed.length + (rest.length + 1)) (by omega) fuel' (process p rest)
      have hstep := load_mem_loop_line (t := [0]) ⟨hline, hr, by omega⟩ hmore (fuel' + 1) hp
      rw [List.length_singleton, hloop] at hstep
      refine ⟨[rest], true, _, .last hrest hempty (by omega), hstep, ?_⟩
      change InBounds _ (_ :: [read]) ↔ _
      rw [inBounds_cons, inBounds_singleton, hstart]
      exact iff_of_false (fun hinside => by omega) (by simp)

theorem loopCuts_line {seg tail : List UInt8} {e : UInt8} (hseg : NoEnd seg)
    (hlen : seg.length < ASCIILINESZ) (he : is_end e = true) {fuel : Nat} {p : Parser} (hp : 0 ≤ p.errs)
    (hrest : ∀ consumed' rest', rest'.length ≤ seg.length + tail.length →
      LoopCuts consumed' rest' beyond fuel (process p seg)) :
    LoopCuts consumed (seg ++ e :: tail) beyond (fuel + 1) p := by
  obtain ⟨t, rest, hsplit, hends, htaken, hseen⟩ := getnstr_line hseg he tail
    (fun i => beyond (consumed.length + i)) hlen (by decide)
  rw [← memory_append consumed] at htaken hseen
  have hsize : tail.length + 1 = t.length + rest.length := by
    rw [← List.length_append, ← hsplit, List.length_cons]
  have hpos := htaken.nonzero
  rw [htaken.advance] at hpos
  obtain ⟨segs, overrun, reads, hcuts, hloop, hbounds⟩ := hrest (consumed ++ (seg ++ t)) rest (by omega)
  have hsame : consumed ++ (seg ++ t) ++ rest = consumed ++ (seg ++ e :: tail) := by
    rw [hsplit]
    simp only [List.append_assoc]
  have hat : (consumed ++ (seg ++ t)).length = consumed.length + (seg.length + t.length) := by
    simp only [List.length_append]
  rw [hsame, hat] at hloop
  rw [hsame] at hbounds
  have hmore : consumed.length < (consumed ++ (seg ++ e :: tail)).length := by
    simp only [List.length_append, List.length_cons]
    omega
  have hstep := load_mem_loop_line htaken hmore fuel hp
  rw [hloop] at hstep
  refine ⟨seg :: segs, overrun, _, hsplit ▸ .line hseg hlen hends hcuts, hstep, ?_⟩
  rw [← hbounds]
  change InBounds _ (_ :: reads) ↔ _
  rw [inBounds_cons]
  refine and_iff_right_of_imp fun _ => ?_
  have htotal : (consumed ++ (seg ++ e :: tail)).length =
      consumed.length + (seg.length + (tail.length + 1)) := by
    rw [List.length_append, List.length_append, List.length_cons]
  dsimp only
  omega

theorem load_mem_loop_cuts (rest : List UInt8) {fuel : Nat} (hfuel : rest.length < fuel) {p : Parser}
    (hp : 0 ≤ p.errs) : LoopCuts consumed rest beyond fuel p := by
  induction fuel generalizing consumed rest p with
  | zero => omega
  | succ fuel ih =>
    obtain ⟨seg, tail, hrest, hseg, hlen⟩ | ⟨hrest, hlen⟩ | ⟨seg, e, tail, hrest, hseg, hlen, he⟩ :=
      first_line rest
    · rw [hrest]
      exact loopCuts_overlong consumed beyond hseg hlen tail fuel p
    · exact loopCuts_unfinished consumed beyond hrest hlen hfuel hp
    · rw [hrest, List.length_append, List.length_cons] at hfuel
      rw [hrest]
      refine loopCuts_line consumed beyond hseg hlen he hp fun consumed' rest' hshort => ?_
      exact ih consumed' rest' (by omega) (process_errs_nonneg hp seg)

end Loop

/-! ## Segments -/

/-- A text cut at every byte that ends a line. -/
def segments (text : List UInt8) : List (List UInt8) := text.splitOnP is_end

def fits (seg : List UInt8) : Bool := seg.length < ASCIILINESZ

/-- The text ends with a line end, or with a line that fills the buffer exactly,
    or the reader does not get to its end. -/
def EndsClean (text : List UInt8) : Prop :=
  (∃ seg ∈ segments text, fits seg = false) ∨
    ∃ seg, (segments text).getLast? = some seg ∧ (seg = [] ∨ seg.length + 1 = ASCIILINESZ)

theorem segments_of_noEnd {seg : List UInt8} (hseg : NoEnd seg) : segments seg = [seg] :=
  List.splitOnP_eq_singleton hseg

theorem segments_append_end {seg : List UInt8} (hseg : NoEnd seg) {e : UInt8} (he : is_end e = true)
    (tail : List UInt8) : segments (seg ++ e :: tail) = seg :: segments tail := by
  unfold segments
  rw [List.splitOnP_append_cons seg tail he, List.splitOnP_eq_singleton hseg]
  rfl

theorem segments_append {seg : List UInt8} (hseg : NoEnd seg) (tail : List UInt8) :
    ∃ s ss, segments tail = s :: ss ∧ segments (seg ++ tail) = (seg ++ s) :: ss := by
  induction seg with
  | nil =>
    obtain ⟨s, ss, hs⟩ := List.exists_cons_of_ne_nil (List.splitOnP_ne_nil is_end tail)
    exact ⟨s, ss, hs, hs⟩
  | cons b seg ih =>
    obtain ⟨s, ss, htail, happend⟩ := ih fun c hc => hseg c (List.mem_cons_of_mem b hc)
    refine ⟨s, ss, htail, ?_⟩
    unfold segments at happend ⊢
    rw [List.cons_append, List.splitOnP_cons_eq_if_modifyHead,
      if_neg (by simp [hseg b]), happend]
    rfl

/-- A line end that is left behind, or taken in two, is an empty segment more. -/
theorem segments_line {seg t rest : List UInt8} (hseg : NoEnd seg) (hends : Ends t rest) :
    ∃ first last ss, segments (seg ++ (t ++ rest)) = seg :: (first ++ ss) ∧
      segments rest = last ++ ss ∧ ss ≠ [] ∧ (∀ s ∈ first, s = []) ∧ ∀ s ∈ last, s = [] := by
  have hne := List.splitOnP_ne_nil is_end
  have hnil : NoEnd [] := by simp [NoEnd]
  obtain ⟨rfl, e, tail, rfl, he⟩ | ⟨e, rfl, he⟩ | rfl := hends
  · exact ⟨[], [[]], segments tail, segments_append_end hseg he tail,
      segments_append_end hnil he tail, hne tail, by simp, by simp⟩
  · exact ⟨[], [], segments rest, segments_append_end hseg he rest, rfl, hne rest, by simp, by simp⟩
  · refine ⟨[[]], [], segments rest, ?_, rfl, hne rest, by simp, by simp⟩
    have hlf := segments_append_end hnil (by decide : is_end LF = true) rest
    rw [List.nil_append] at hlf
    have hcr := segments_append_end hseg (by decide : is_end CR = true) (LF :: rest)
    rw [hlf] at hcr
    exact hcr

/-- Segments that fit make no difference to where a text ends. -/
theorem unfit_append_iff {segs : List (List UInt8)} (hsegs : ∀ s ∈ segs, fits s = true)
    (ss : List (List UInt8)) :
    (∃ s ∈ segs ++ ss, fits s = false) ↔ ∃ s ∈ ss, fits s = false := by
  constructor
  · rintro ⟨s, hs, hunfit⟩
    obtain hmem | hmem := List.mem_append.mp hs
    · rw [hsegs s hmem] at hunfit
      cases hunfit
    · exact ⟨s, hmem, hunfit⟩
  · rintro ⟨s, hs, hunfit⟩
    exact ⟨s, List.mem_append_right segs hs, hunfit⟩

theorem fits_of_empty {segs : List (List UInt8)} (hsegs : ∀ s ∈ segs, s = []) :
    ∀ s ∈ segs, fits s = true := by
  intro s hs
  rw [hsegs s hs]
  decide

theorem filter_eq_nil_of_empty {segs : List (List UInt8)} (hsegs : ∀ s ∈ segs, s = []) :
    segs.filter (· ≠ []) = [] := by
  rw [List.filter_eq_nil_iff]
  intro s hs
  simp [hsegs s hs]

/-- The lines that are taken are the segments before the first that does not fit. -/
theorem Cuts.filter_eq {text : List UInt8} {segs : List (List UInt8)} {overrun : Bool}
    (hcuts : Cuts text segs overrun) :
    segs.filter (· ≠ []) = ((segments text).takeWhile fits).filter (· ≠ []) := by
  induction hcuts with
  | @overlong seg tail hseg hlen =>
    obtain ⟨s, ss, _, hsegments⟩ := segments_append hseg tail
    have hlong : ¬fits (seg ++ s) = true := by
      simp only [fits, List.length_append, decide_eq_true_eq]
      omega
    rw [hsegments, List.takeWhile_cons_of_neg hlong]
  | done => rfl
  | @last seg hseg hne hlen =>
    have hfits : fits seg = true := decide_eq_true (by omega)
    rw [segments_of_noEnd hseg, List.takeWhile_cons_of_pos hfits, List.takeWhile_nil]
  | @full seg hseg hlen =>
    have hfits : fits seg = true := decide_eq_true (by omega)
    rw [segments_of_noEnd hseg, List.takeWhile_cons_of_pos hfits, List.takeWhile_nil]
  | @line seg t rest segs overrun hseg hlen hends _ ih =>
    obtain ⟨first, last, ss, hall, hrest, _, hfirst, hlast⟩ := segments_line hseg hends
    have hfits : fits seg = true := decide_eq_true hlen
    rw [hall, List.takeWhile_cons_of_pos hfits, List.takeWhile_append_of_pos (fits_of_empty hfirst), List.filter_cons,
      List.filter_cons, List.filter_append, filter_eq_nil_of_empty hfirst, List.nil_append, ih, hrest,
      List.takeWhile_append_of_pos (fits_of_empty hlast), List.filter_append, filter_eq_nil_of_empty hlast,
      List.nil_append]

/-- Empty lines make no difference to the parser. -/
theorem foldl_process_filter (segs : List (List UInt8)) (p : Parser) :
    (segs.filter (· ≠ [])).foldl process p = segs.foldl process p := by
  induction segs generalizing p with
  | nil => rfl
  | cons seg segs ih =>
    by_cases hseg : seg = []
    · rw [List.filter_cons_of_neg (by simp [hseg]), ih, List.foldl_cons, hseg, process_nil]
    · rw [List.filter_cons_of_pos (by simp [hseg]), List.foldl_cons, List.foldl_cons, ih]

/-- The lines that the loop takes are the segments before the first that does not
    fit, up to empty ones. -/
theorem Cuts.foldl_eq {text : List UInt8} {segs : List (List UInt8)} {overrun : Bool}
    (hcuts : Cuts text segs overrun) (p : Parser) :
    segs.foldl process p = ((segments text).takeWhile fits).foldl process p := by
  rw [← foldl_process_filter segs, hcuts.filter_eq, foldl_process_filter]

theorem Cuts.overrun_iff {text : List UInt8} {segs : List (List UInt8)} {overrun : Bool}
    (hcuts : Cuts text segs overrun) : overrun = false ↔ EndsClean text := by
  induction hcuts with
  | @overlong seg tail hseg hlen =>
    obtain ⟨s, ss, _, hsegments⟩ := segments_append hseg tail
    have hlong : fits (seg ++ s) = false := by
      simp only [fits, List.length_append, decide_eq_false_iff_not]
      omega
    exact ⟨fun _ => .inl ⟨seg ++ s, by rw [hsegments]; simp, hlong⟩, fun _ => rfl⟩
  | done => exact ⟨fun _ => .inr ⟨[], rfl, .inl rfl⟩, fun _ => rfl⟩
  | @last seg hseg hne hlen =>
    have hfits : fits seg = true := decide_eq_true (by omega)
    simp only [EndsClean, segments_of_noEnd hseg, Bool.true_eq_false, false_iff]
    simp [hfits, hne]
    omega
  | @full seg hseg hlen =>
    refine ⟨fun _ => .inr ⟨seg, by rw [segments_of_noEnd hseg]; rfl, .inr hlen⟩, fun _ => rfl⟩
  | @line seg t rest segs overrun hseg hlen hends _ ih =>
    obtain ⟨first, last, ss, hall, hrest, hne, hfirst, hlast⟩ := segments_line hseg hends
    have hfits : ∀ s ∈ seg :: first, fits s = true := by
      intro s hs
      obtain rfl | hs := List.mem_cons.mp hs
      · exact decide_eq_true hlen
      · exact fits_of_empty hfirst s hs
    rw [ih]
    unfold EndsClean
    rw [hall, hrest, ← List.cons_append, unfit_append_iff hfits, unfit_append_iff (fits_of_empty hlast),
      List.getLast?_append_of_ne_nil _ hne, List.getLast?_append_of_ne_nil _ hne]

/-- What the buffer reader returns and where it reads: it processes the lines of
    the text up to the first that does not fit. -/
theorem load_mem_spec (text : List UInt8) (beyond : Nat → UInt8) :
    ∃ reads, load_mem (memory text beyond) text.length =
        some ((((segments text).takeWhile fits).foldl process Parser.start).result, reads) ∧
      (InBounds text.length reads ↔ EndsClean text) := by
  obtain ⟨segs, overrun, reads, hcuts, hloop, hbounds⟩ :=
    load_mem_loop_cuts [] beyond text (Nat.lt_succ_self text.length) (p := Parser.start) (Int.le_refl 0)
  rw [hcuts.foldl_eq] at hloop
  exact ⟨reads, hloop, hbounds.trans hcuts.overrun_iff⟩

end code_tools.iniparser
