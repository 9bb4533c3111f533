import CodeTools.IniParser.Dump
import CodeTools.IniParser.NameBuffer

/-!
# Loading what was saved

A line that `iniparser_dump_ini` writes for a key and a value is read back as the key
and a value, which is not always the same.
-/

namespace code_tools.iniparser

open cmem cstring keyed

/-! ## Blanks -/

theorem rdropWhile_append_cons (s : List UInt8) {c : UInt8} (hc : isspace c = false) (t : List UInt8) :
    (s ++ c :: t).rdropWhile isspace = s ++ c :: t.rdropWhile isspace := by
  unfold List.rdropWhile
  rw [List.reverse_append, List.reverse_cons, List.append_assoc, List.dropWhile_append]
  split
  case isTrue hblank =>
    have hempty : t.reverse.dropWhile isspace = [] := List.isEmpty_iff.mp hblank
    simp [hempty, hc]
  case isFalse => simp

theorem dropWhile_rdropWhile (s : List UInt8) : (s.rdropWhile isspace).dropWhile isspace = strip s := by
  have hstrip := strip_rdropWhile s
  unfold strip at hstrip
  rw [List.rdropWhile_eq_self_iff.mpr ?_] at hstrip
  · exact hstrip
  · intro hne
    have hsuffix := List.dropWhile_suffix (l := s.rdropWhile isspace) isspace
    have hsome : s.rdropWhile isspace ≠ [] := fun hempty => by simp [hempty] at hne
    rw [hsuffix.getLast hne]
    exact List.rdropWhile_last_not isspace s hsome

/-- A string without blanks at its ends begins and ends with something else. -/
theorem dropWhile_of_strip {s : List UInt8} (hs : strip s = s) : s.dropWhile isspace = s := by
  have hlen : (s.dropWhile isspace).length ≤ s.length := (List.dropWhile_suffix isspace).length_le
  have hshort : (strip s).length ≤ (s.dropWhile isspace).length := (List.rdropWhile_prefix isspace _).length_le
  rw [hs] at hshort
  exact (List.dropWhile_suffix isspace).eq_of_length (by omega)

/-! ## The value of a dumped line -/

/-- What stands between a quote at the front and the next. -/
def quoted (quote : UInt8) : List UInt8 → Option (List UInt8)
  | [] => none
  | c :: s => if c = quote ∧ s.takeWhile (· ≠ quote) ≠ [] then some (s.takeWhile (· ≠ quote)) else none

def is_plain (c : UInt8) : Bool := c ≠ SEMICOLON && c ≠ HASH

/-- Two quotes stand for the empty value. -/
def emptied (value : List UInt8) : List UInt8 :=
  if value = [DOUBLE_QUOTE, DOUBLE_QUOTE] ∨ value = [SINGLE_QUOTE, SINGLE_QUOTE] then [] else value

/-- What is read as the value where `s` follows the `=` and blanks. -/
def read_value (s : List UInt8) : List UInt8 :=
  emptied (strip (((quoted DOUBLE_QUOTE s).or (quoted SINGLE_QUOTE s)).getD (s.takeWhile is_plain)))

/-- A key as the parser reads it. -/
structure KeyName (key : List UInt8) : Prop where
  ne_nil : key ≠ []
  stripped : strip key = key
  lower : key.map tolower = key
  short : key.length ≤ ASCIILINESZ
  no_equals : EQUALS ∉ key
  no_comment : key.head? ≠ some HASH

theorem value_line_eq (key val : List UInt8) :
    value_line key val = key ++ List.replicate (30 - key.length + 1) 32 ++ EQUALS :: 32 :: val := by
  have hequals : bytes_of " = " = [32, EQUALS, 32] := by decide
  simp [value_line, padded, hequals, List.replicate_succ']

section

variable {key : List UInt8} (hkey : KeyName key) (val : List UInt8)

include hkey

theorem dropWhile_value_line : (value_line key val).dropWhile isspace = value_line key val := by
  obtain ⟨c, rest, rfl⟩ := List.exists_cons_of_ne_nil hkey.ne_nil
  have hc : isspace c = false := by
    have hdrop := dropWhile_of_strip hkey.stripped
    by_contra hblank
    rw [List.dropWhile_cons_of_pos (by simpa using hblank)] at hdrop
    have hlen := (List.dropWhile_suffix (l := rest) isspace).length_le
    rw [hdrop, List.length_cons] at hlen
    omega
  rw [value_line_eq, List.cons_append, List.cons_append, List.dropWhile_cons_of_neg (by simp [hc])]

/-- The line without blanks at its ends. -/
theorem strip_value_line :
    strip (value_line key val) =
      key ++ List.replicate (30 - key.length + 1) 32 ++ EQUALS :: (32 :: val).rdropWhile isspace := by
  rw [strip, dropWhile_value_line hkey, value_line_eq, rdropWhile_append_cons _ (by decide)]

theorem value_line_start :
    ¬(strip (value_line key val)).length < 1 ∧ (strip (value_line key val)).head? = key.head? := by
  obtain ⟨c, rest, rfl⟩ := List.exists_cons_of_ne_nil hkey.ne_nil
  rw [strip_value_line hkey]
  exact ⟨by simp, rfl⟩

/-- The key with its blanks and the rest of the line. -/
theorem takeWhile_value_line :
    (strip (value_line key val)).takeWhile (· ≠ EQUALS) = key ++ List.replicate (30 - key.length + 1) 32 ∧
      (strip (value_line key val)).dropWhile (· ≠ EQUALS) = EQUALS :: (32 :: val).rdropWhile isspace := by
  have hblanks : ∀ c ∈ key ++ List.replicate (30 - key.length + 1) 32, decide (c ≠ EQUALS) = true := by
    intro c hc
    rw [decide_eq_true_eq]
    rcases List.mem_append.mp hc with hmem | hmem
    · exact fun heq => hkey.no_equals (heq ▸ hmem)
    · rw [List.eq_of_mem_replicate hmem]
      decide
  rw [strip_value_line hkey, List.takeWhile_append_of_pos hblanks, List.takeWhile_cons_of_neg (by simp),
    List.append_nil, List.dropWhile_append_of_pos hblanks, List.dropWhile_cons_of_neg (by simp)]
  exact ⟨rfl, rfl⟩

/-- The formats that a line is scanned with begin alike. -/
theorem sscanf_value_line (format : List Directive) :
    sscanf (.set (· ≠ EQUALS) :: .space :: .char EQUALS :: .space :: format) (strip (value_line key val)) =
      (key ++ List.replicate (30 - key.length + 1) 32) :: sscanf format (strip val) := by
  obtain ⟨htake, hdrop⟩ := takeWhile_value_line hkey val
  have hspace : (EQUALS :: (32 :: val).rdropWhile isspace).dropWhile isspace =
      EQUALS :: (32 :: val).rdropWhile isspace := List.dropWhile_cons_of_neg (by decide)
  have hval : strip (32 :: val) = strip val := by
    rw [strip, List.dropWhile_cons_of_pos (by decide), strip]
  rw [sscanf, htake, if_neg (by simp [hkey.ne_nil]), hdrop, sscanf, hspace, sscanf, if_pos rfl, sscanf,
    dropWhile_rdropWhile, hval]

end

theorem sscanf_quoted (quote : UInt8) (s : List UInt8) :
    sscanf [.char quote, .set (· ≠ quote), .char quote] s = (quoted quote s).toList := by
  cases s with
  | nil => rfl
  | cons c s =>
    have hlast : ∀ t, sscanf [.char quote] t = [] := by
      intro t
      cases t with
      | nil => rfl
      | cons b t => simp [sscanf]
    by_cases hc : c = quote
    · rw [sscanf, if_pos hc, sscanf, hlast, quoted]
      by_cases hempty : s.takeWhile (· ≠ quote) = []
      · rw [if_pos hempty, if_neg (fun h => h.2 hempty)]
        rfl
      · rw [if_neg hempty, if_pos ⟨hc, hempty⟩]
        rfl
    · rw [sscanf, if_neg hc, quoted, if_neg (fun h => hc h.1)]
      rfl

theorem quoted_some {quote : UInt8} {s w : List UInt8} (hw : quoted quote s = some w) :
    (∃ t, s = quote :: t) ∧ quote ∉ w := by
  cases s with
  | nil => cases hw
  | cons c t =>
    by_cases hquote : c = quote ∧ t.takeWhile (· ≠ quote) ≠ []
    · rw [quoted, if_pos hquote] at hw
      obtain rfl := Option.some.inj hw
      refine ⟨⟨t, by rw [hquote.1]⟩, fun hmem => ?_⟩
      simpa using List.mem_takeWhile_imp hmem
    · rw [quoted, if_neg hquote] at hw
      cases hw

/-- The first format of which two fields are stored decides. -/
theorem sscanf_any_cons {line name : List UInt8} {format : List Directive} {field : Option (List UInt8)}
    (hformat : sscanf format line = name :: field.toList) (formats : List (List Directive)) (key value : List UInt8) :
    sscanf_any line (format :: formats) key value =
      field.elim (sscanf_any line formats name value) fun w => (true, name, w) := by
  rw [sscanf_any, hformat]
  cases field with
  | none => rfl
  | some w => rfl

/-- A scanset that has to take something. -/
def taken (p : UInt8 → Bool) (s : List UInt8) : Option (List UInt8) :=
  if s.takeWhile p = [] then none else some (s.takeWhile p)

theorem sscanf_taken (p : UInt8 → Bool) (s : List UInt8) : sscanf [.set p] s = (taken p s).toList := by
  rw [sscanf, taken]
  split
  · rfl
  · rfl

/-- The formats for values. -/
theorem sscanf_any_value_line {key : List UInt8} (hkey : KeyName key) (val old_key old_value : List UInt8) :
    sscanf_any (strip (value_line key val))
        [quoted_format DOUBLE_QUOTE, quoted_format SINGLE_QUOTE, plain_format] old_key old_value =
      match (quoted DOUBLE_QUOTE (strip val)).or (quoted SINGLE_QUOTE (strip val)) with
      | some w => (true, key ++ List.replicate (30 - key.length + 1) 32, w)
      | none =>
        match taken is_plain (strip val) with
        | some w => (true, key ++ List.replicate (30 - key.length + 1) 32, w)
        | none => (false, key ++ List.replicate (30 - key.length + 1) 32, old_value) := by
  have hquoted : ∀ quote, sscanf (quoted_format quote) (strip (value_line key val)) =
      (key ++ List.replicate (30 - key.length + 1) 32) :: (quoted quote (strip val)).toList := by
    intro quote
    rw [← sscanf_quoted]
    exact sscanf_value_line hkey val _
  have hplain : sscanf plain_format (strip (value_line key val)) =
      (key ++ List.replicate (30 - key.length + 1) 32) :: (taken is_plain (strip val)).toList := by
    rw [← sscanf_taken]
    exact sscanf_value_line hkey val _
  rw [sscanf_any_cons (hquoted _), sscanf_any_cons (hquoted _), sscanf_any_cons hplain]
  cases quoted DOUBLE_QUOTE (strip val) with
  | some w => rfl
  | none =>
    cases quoted SINGLE_QUOTE (strip val) with
    | some w => rfl
    | none => cases taken is_plain (strip val) <;> rfl

/-- The formats for no value: one of them fits. -/
theorem sscanf_any_no_value {key : List UInt8} (hkey : KeyName key) (val old_key old_value : List UInt8) :
    ∃ w, sscanf_any (strip (value_line key val)) [comment_format, no_value_format] old_key old_value =
      (true, key ++ List.replicate (30 - key.length + 1) 32, w) := by
  let is_comment : UInt8 → Bool := fun c => c = SEMICOLON || c = HASH
  have hcomment : sscanf comment_format (strip (value_line key val)) =
      (key ++ List.replicate (30 - key.length + 1) 32) :: (taken is_comment (strip val)).toList := by
    rw [← sscanf_taken]
    exact sscanf_value_line hkey val _
  have hnone : sscanf no_value_format (strip (value_line key val)) =
      (key ++ List.replicate (30 - key.length + 1) 32) ::
        (some ((EQUALS :: (32 :: val).rdropWhile isspace).takeWhile (· = EQUALS))).toList := by
    obtain ⟨htake, hdrop⟩ := takeWhile_value_line hkey val
    have hspace : (EQUALS :: (32 :: val).rdropWhile isspace).dropWhile isspace =
        EQUALS :: (32 :: val).rdropWhile isspace := List.dropWhile_cons_of_neg (by decide)
    have hequals : (EQUALS :: (32 :: val).rdropWhile isspace).takeWhile (· = EQUALS) ≠ [] := by simp
    rw [no_value_format, sscanf, htake, if_neg (by simp [hkey.ne_nil]), hdrop, sscanf, hspace, sscanf_taken, taken,
      if_neg hequals]
  rw [sscanf_any_cons hcomment, sscanf_any_cons hnone]
  cases taken is_comment (strip val) with
  | some w => exact ⟨w, rfl⟩
  | none => exact ⟨_, rfl⟩

/-- A dumped line that is no section is read as the key and what is made of the value. -/
theorem iniparser_line_value_line {key : List UInt8} (hkey : KeyName key) {val : List UInt8}
    (hsection : ¬(key.head? = some OPENING ∧ (strip (value_line key val)).getLast? = some CLOSING))
    (section_ old_key old_value : List UInt8) :
    iniparser_line (value_line key val) section_ old_key old_value =
      { sta := .LINE_VALUE, section_, key, value := read_value (strip val) } := by
  obtain ⟨hlen, hhead⟩ := value_line_start hkey val
  have hname : strlwc (strstrip (key ++ List.replicate (30 - key.length + 1) 32)) = key := by
    have hstrip : strip (key ++ List.replicate (30 - key.length + 1) 32) = key := by
      rw [strip_append_blanks key fun b hb => List.eq_of_mem_replicate hb ▸ by decide, hkey.stripped]
    rw [strstrip, hstrip, strlwc, List.take_of_length_le hkey.short, hkey.lower]
  have hvalue := sscanf_any_value_line hkey val old_key old_value
  unfold iniparser_line
  dsimp only
  rw [strstrip, if_neg hlen, hhead, if_neg hkey.no_comment, if_neg hsection, hvalue, read_value]
  cases (quoted DOUBLE_QUOTE (strip val)).or (quoted SINGLE_QUOTE (strip val)) with
  | some w =>
    dsimp only
    rw [if_pos rfl, hname]
    rfl
  | none =>
    by_cases hempty : (strip val).takeWhile is_plain = []
    · have hrest := sscanf_any_no_value hkey val (key ++ List.replicate (30 - key.length + 1) 32) old_value
      obtain ⟨w, hrest⟩ := hrest
      dsimp only
      rw [taken, if_pos hempty]
      dsimp only
      rw [if_neg (by decide), hrest]
      dsimp only
      rw [if_pos rfl, hname, Option.getD_none, hempty]
      rfl
    · rw [taken, if_neg hempty]
      dsimp only
      rw [if_pos rfl, hname]
      rfl

/-! ## Values that are read back -/

/-- A value without blanks at its ends and without comments that is not quoted. -/
structure Readable (val : List UInt8) : Prop where
  stripped : strip val = val
  plain : ∀ c ∈ val, is_plain c = true
  no_double : quoted DOUBLE_QUOTE val = none ∧ val ≠ [DOUBLE_QUOTE, DOUBLE_QUOTE]
  no_single : quoted SINGLE_QUOTE val = none ∧ val ≠ [SINGLE_QUOTE, SINGLE_QUOTE]

theorem emptied_cases (value : List UInt8) :
    emptied value = [] ∨
      emptied value = value ∧ value ≠ [DOUBLE_QUOTE, DOUBLE_QUOTE] ∧ value ≠ [SINGLE_QUOTE, SINGLE_QUOTE] := by
  unfold emptied
  split
  case isTrue => exact Or.inl rfl
  case isFalse hquotes => exact Or.inr ⟨rfl, not_or.mp hquotes⟩

theorem readable_nil : Readable [] := ⟨rfl, nofun, ⟨rfl, by decide⟩, rfl, by decide⟩

theorem strip_of_read_value {val : List UInt8} (hread : read_value (strip val) = val) : strip val = val := by
  obtain hempty | ⟨hkept, _⟩ :=
    emptied_cases (strip (((quoted DOUBLE_QUOTE (strip val)).or (quoted SINGLE_QUOTE (strip val))).getD
      ((strip val).takeWhile is_plain)))
  · rw [read_value, hempty] at hread
    rw [← hread]
    rfl
  · rw [read_value, hkept] at hread
    rw [← hread, strip_strip, hread]

/-- What was quoted has lost its quotes. -/
theorem quoted_eq_none {quote : UInt8} {val : List UInt8}
    (hread : ∀ w, quoted quote val = some w → emptied (strip w) = val) : quoted quote val = none := by
  cases hquoted : quoted quote val with
  | none => rfl
  | some w =>
    obtain ⟨⟨t, rfl⟩, hnotMem⟩ := quoted_some hquoted
    have hval := hread w hquoted
    obtain hempty | ⟨hkept, _⟩ := emptied_cases (strip w)
    · rw [hempty] at hval
      cases hval
    · have hmem : quote ∈ strip w := by
        rw [← hkept, hval]
        exact List.mem_cons_self
      exact absurd (mem_of_mem_strip hmem) hnotMem

theorem read_value_eq_iff (val : List UInt8) : read_value (strip val) = val ↔ Readable val := by
  constructor
  · intro hread
    have hstripped := strip_of_read_value hread
    rw [hstripped, read_value] at hread
    have hdouble : quoted DOUBLE_QUOTE val = none := by
      refine quoted_eq_none fun w hw => ?_
      rwa [hw] at hread
    rw [hdouble, Option.none_or] at hread
    have hsingle : quoted SINGLE_QUOTE val = none := by
      refine quoted_eq_none fun w hw => ?_
      rwa [hw] at hread
    rw [hsingle, Option.getD_none] at hread
    obtain hempty | ⟨hkept, hdoubles, hsingles⟩ := emptied_cases (strip (val.takeWhile is_plain))
    · rw [hempty] at hread
      rw [← hread]
      exact readable_nil
    · rw [hkept] at hread
      rw [hread] at hdoubles hsingles
      refine ⟨hstripped, fun c hc => ?_, ⟨hdouble, hdoubles⟩, hsingle, hsingles⟩
      rw [← hread] at hc
      exact List.mem_takeWhile_imp (mem_of_mem_strip hc)
  · rintro ⟨hstripped, hplain, ⟨hdouble, hdoubles⟩, hsingle, hsingles⟩
    rw [hstripped, read_value, hdouble, hsingle, Option.none_or, Option.getD_none,
      List.takeWhile_eq_self_iff.mpr hplain, hstripped, emptied, if_neg (not_or.mpr ⟨hdoubles, hsingles⟩)]

/-- What a line ends in where the value ends in no blank. -/
theorem getLast?_value_line {key : List UInt8} (hkey : KeyName key) {val : List UInt8} (hval : strip val = val) :
    (strip (value_line key val)).getLast? = some ((val.getLast?).getD EQUALS) := by
  have hdrop : val.rdropWhile isspace = val := by
    have hstrip := dropWhile_of_strip hval
    rwa [strip, hstrip] at hval
  rw [strip_value_line hkey]
  cases hlast : val.getLast? with
  | none =>
    obtain rfl := List.getLast?_eq_none_iff.mp hlast
    have hblank : [(32 : UInt8)].rdropWhile isspace = [] := by decide
    rw [hblank, List.getLast?_concat]
    rfl
  | some c =>
    obtain ⟨front, rfl⟩ := List.getLast?_eq_some_iff.mp hlast
    have hc : isspace c = false := by
      by_contra hblank
      rw [rdropWhile_append_blanks front (by simpa using hblank)] at hdrop
      have hlen := (List.rdropWhile_prefix isspace front).length_le
      rw [hdrop, List.length_append, List.length_singleton] at hlen
      omega
    rw [← List.cons_append, rdropWhile_append_cons (32 :: front) hc []]
    have hline : key ++ List.replicate (30 - key.length + 1) 32 ++ EQUALS :: (32 :: front ++ [c]) =
        (key ++ List.replicate (30 - key.length + 1) 32 ++ EQUALS :: 32 :: front) ++ [c] := by simp
    exact (congrArg List.getLast? hline).trans List.getLast?_concat

/-- Where the value is readable, only the value can give a line the end of a section. -/
theorem getLast?_value_line_closing {key : List UInt8} (hkey : KeyName key) {val : List UInt8} (hval : Readable val) :
    (strip (value_line key val)).getLast? = some CLOSING ↔ val.getLast? = some CLOSING := by
  rw [getLast?_value_line hkey hval.stripped]
  cases val.getLast? with
  | none => decide
  | some c => rfl

theorem iniparser_line_readable {key : List UInt8} (hkey : KeyName key) {val : List UInt8} (hval : Readable val)
    (hsection : ¬(key.head? = some OPENING ∧ val.getLast? = some CLOSING)) (section_ old_key old_value : List UInt8) :
    iniparser_line (value_line key val) section_ old_key old_value =
      { sta := .LINE_VALUE, section_, key, value := val } := by
  rw [iniparser_line_value_line hkey fun h => hsection ⟨h.1, (getLast?_value_line_closing hkey hval).mp h.2⟩,
    (read_value_eq_iff val).mpr hval]

end code_tools.iniparser
