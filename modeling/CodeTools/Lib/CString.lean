import Mathlib.Data.List.DropRight

/-!
# C strings

Strings are lists of bytes without their terminator. Character classes and
scanning follow the C locale.
-/

namespace cstring

def LF : UInt8 := 10

def CR : UInt8 := 13

def isspace (c : UInt8) : Bool := c = 32 || (9 ≤ c && c ≤ 13)

@[simp] theorem isspace_LF : isspace LF = true := by decide

@[simp] theorem isspace_CR : isspace CR = true := by decide

def tolower (c : UInt8) : UInt8 := if 65 ≤ c ∧ c ≤ 90 then c + 32 else c

/-- The string at the start of a buffer. -/
def terminated (buf : List UInt8) : List UInt8 := buf.takeWhile (· ≠ 0)

/-- The bytes of a literal. -/
def bytes_of (s : String) : List UInt8 := s.toList.map Char.toUInt8

/-- Whether `strcasecmp` returns 0. -/
def strcasecmp_eq (s t : List UInt8) : Bool := s.map tolower == t.map tolower

def strncasecmp_eq (s t : List UInt8) (n : Nat) : Bool := strcasecmp_eq (s.take n) (t.take n)

/-! ## Scanning -/

/-- A directive of a `sscanf` format: a scanset that is stored, white space or a
    character of its own. -/
inductive Directive where
  | set (p : UInt8 → Bool)
  | space
  | char (c : UInt8)

/-- The fields that `sscanf` stores before the first directive that fails. -/
def sscanf : List Directive → List UInt8 → List (List UInt8)
  | [], _ => []
  | .set p :: format, s =>
    if s.takeWhile p = [] then [] else s.takeWhile p :: sscanf format (s.dropWhile p)
  | .space :: format, s => sscanf format (s.dropWhile isspace)
  | .char _ :: _, [] => []
  | .char c :: format, b :: s => if b = c then sscanf format s else []

/-! ## Lines of a stream -/

def through_newline : List UInt8 → List UInt8
  | [] => []
  | b :: s => if b = LF then [b] else b :: through_newline s

/-- The bytes that `fgets` stores before the terminator, and the rest of the
    stream; `none` at the end of the stream. -/
def fgets (n : Nat) (stream : List UInt8) : Option (List UInt8 × List UInt8) :=
  if n = 0 then none
  else if n = 1 then some ([], stream)
  else if stream = [] then none
  else
    let bytes := through_newline (stream.take (n - 1))
    some (bytes, stream.drop bytes.length)

theorem zero_notMem_terminated (buf : List UInt8) : 0 ∉ terminated buf := by
  intro hzero
  simpa using List.mem_takeWhile_imp hzero

theorem terminated_of_notMem {s : List UInt8} (hs : 0 ∉ s) : terminated s = s := by
  unfold terminated
  rw [List.takeWhile_eq_self_iff]
  intro b hb
  simp only [ne_eq, decide_eq_true_eq]
  intro hzero
  exact hs (hzero ▸ hb)

theorem terminated_append_zero (s buf : List UInt8) : terminated (s ++ 0 :: buf) = terminated s := by
  unfold terminated
  induction s with
  | nil => rfl
  | cons b s ih =>
    by_cases hb : b = 0
    · rw [List.cons_append, List.takeWhile_cons_of_neg (by simp [hb]), List.takeWhile_cons_of_neg (by simp [hb])]
    · rw [List.cons_append, List.takeWhile_cons_of_pos (by simp [hb]), List.takeWhile_cons_of_pos (by simp [hb]), ih]

theorem terminated_concat_zero {s : List UInt8} (hs : 0 ∉ s) (buf : List UInt8) :
    terminated (s ++ 0 :: buf) = s := by
  rw [terminated_append_zero, terminated_of_notMem hs]

theorem through_newline_line {line : List UInt8} (hline : LF ∉ line) (s : List UInt8) :
    through_newline (line ++ LF :: s) = line ++ [LF] := by
  induction line with
  | nil => simp [through_newline]
  | cons b line ih =>
    obtain ⟨hb, hrest⟩ : LF ≠ b ∧ LF ∉ line := by simpa using hline
    rw [List.cons_append, through_newline, if_neg (Ne.symm hb), ih hrest]
    rfl

/-- A line that fits is read with its newline. -/
theorem fgets_line {line : List UInt8} (hline : LF ∉ line) {n : Nat} (hfits : line.length + 1 < n)
    (s : List UInt8) : fgets n (line ++ LF :: s) = some (line ++ [LF], s) := by
  have hread : through_newline ((line ++ LF :: s).take (n - 1)) = line ++ [LF] := by
    have htake : (line ++ LF :: s).take (n - 1) = line ++ LF :: s.take (n - 2 - line.length) := by
      rw [List.take_append, List.take_of_length_le (by omega),
        show n - 1 - line.length = n - 2 - line.length + 1 by omega, List.take_succ_cons]
    rw [htake, through_newline_line hline]
  unfold fgets
  rw [if_neg (by omega), if_neg (by omega), if_neg (by simp)]
  dsimp only
  rw [hread]
  simp

/-! ## Stripping -/

/-- A string without the blanks at its ends. -/
def strip (s : List UInt8) : List UInt8 := (s.dropWhile isspace).rdropWhile isspace

theorem rdropWhile_append_blanks (s : List UInt8) {blanks : List UInt8}
    (hblanks : ∀ b ∈ blanks, isspace b = true) :
    (s ++ blanks).rdropWhile isspace = s.rdropWhile isspace := by
  unfold List.rdropWhile
  rw [List.reverse_append, List.dropWhile_append_of_pos (by simpa using hblanks)]

theorem strip_append_blanks (s : List UInt8) {blanks : List UInt8}
    (hblanks : ∀ b ∈ blanks, isspace b = true) : strip (s ++ blanks) = strip s := by
  unfold strip
  rw [List.dropWhile_append]
  split
  case isTrue hempty =>
    rw [List.isEmpty_iff.mp hempty, List.dropWhile_eq_nil_iff.mpr hblanks]
  case isFalse => exact rdropWhile_append_blanks _ hblanks

/-- Stripping the end first changes nothing. -/
theorem strip_rdropWhile (s : List UInt8) : strip (s.rdropWhile isspace) = strip s := by
  calc
    strip (s.rdropWhile isspace) = strip (s.rdropWhile isspace ++ s.rtakeWhile isspace) :=
      (strip_append_blanks _ fun b hb => List.mem_rtakeWhile_imp hb).symm
    _ = strip s := by rw [List.rdropWhile_append_rtakeWhile]

end cstring
