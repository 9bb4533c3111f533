import CodeTools.IniParser.Cuts
import Mathlib.Algebra.Group.Int.Defs
import Mathlib.Algebra.Group.Nat.Defs

/-!
# What `getnstr` cuts off

A call copies a line together with the bytes that end it. The position behind
the copy is a difference of pointers, and the result is an `int`.
-/

namespace code_tools.iniparser

open cstring

/-- `r = d - buf` -/
def getnstr_rc (str : Nat → UInt8) (n : Nat) : Int := ((getnstr str n).r + 2 ^ 31) % 2 ^ 32 - 2 ^ 31

/-- How many bytes end a line. -/
def end_width (c next : UInt8) : Nat := if c = CR ∧ next = LF then 2 else 1

/-- The first line end lies at `i`. -/
structure FirstEnd (str : Nat → UInt8) (i : Nat) : Prop where
  ends : is_end (str i) = true
  before : ∀ j < i, is_end (str j) = false

/-- `buf` begins with the bytes of `str` up to `r` and a terminator, and what ends
    a line comes last among them. -/
structure CutOff (str : Nat → UInt8) (n r : Nat) (buf : List UInt8) : Prop where
  pos : 1 ≤ r
  le : r ≤ n - 1
  copied : buf.take r = (List.range r).map str
  terminated : buf[r]? = some 0
  ends : ∀ i < r, is_end (str i) = true → i + 1 = r ∨ (i + 2 = r ∧ str i = CR ∧ str (i + 1) = LF)

/-- A result of 0 says that there is no line end within `n` bytes, and any other
    where the line was cut off; nothing is written behind the `n` bytes. -/
structure Lossless (str : Nat → UInt8) (n : Nat) (rc : Int) (buf : List UInt8) : Prop where
  zero : rc = 0 ↔ ∀ i < n, is_end (str i) = false
  cut : rc ≠ 0 → ∃ r : Nat, rc = r ∧ CutOff str n r buf
  inside : buf.length ≤ n

/-! ## One call -/

section Call

variable {str : Nat → UInt8} {i n : Nat}

/-- Where the first line end is found, or there is none. -/
theorem first_end_cases (str : Nat → UInt8) (n : Nat) :
    (∃ i < n, FirstEnd str i) ∨ ∀ i < n, is_end (str i) = false := by
  induction n with
  | zero => exact Or.inr (by simp)
  | succ n ih =>
    obtain ⟨i, hi, hfirst⟩ | hnone := ih
    · exact Or.inl ⟨i, by omega, hfirst⟩
    · cases hend : is_end (str n) with
      | true => exact Or.inl ⟨n, by omega, hend, hnone⟩
      | false =>
        refine Or.inr fun i hi => ?_
        obtain hlt | rfl := Nat.lt_succ_iff_lt_or_eq.mp hi
        · exact hnone i hlt
        · exact hend

theorem FirstEnd.not_none (hfirst : FirstEnd str i) (hi : i < n) : ¬∀ j < n, is_end (str j) = false := by
  intro hnone
  have hends := hfirst.ends
  simp [hnone i hi] at hends

theorem FirstEnd.unique (hfirst : FirstEnd str i) {j : Nat} (hother : FirstEnd str j) : j = i := by
  have hle : ¬j < i := fun hlt => hother.not_none (Nat.lt_succ_self j) fun k hk => hfirst.before k (by omega)
  have hge : ¬i < j := fun hlt => hfirst.not_none (Nat.lt_succ_self i) fun k hk => hother.before k (by omega)
  omega

theorem noEnd_range (hbefore : ∀ j < i, is_end (str j) = false) : NoEnd ((List.range i).map str) := by
  intro b hb
  obtain ⟨j, hj, rfl⟩ := List.mem_map.mp hb
  exact hbefore j (List.mem_range.mp hj)

/-- The bytes before a line end are copied. -/
theorem getnstr_copies_range (hbefore : ∀ j < i, is_end (str j) = false) (n : Nat) :
    getnstr str (i + n) =
      { buf := (List.range i).map str ++ (getnstr_loop str i n).buf
        r := (getnstr_loop str i n).r
        seen := (getnstr_loop str i n).seen } := by
  have hstr : ∀ j b, ((List.range i).map str)[j]? = some b → str (0 + j) = b := by
    intro j b hb
    obtain ⟨hj, rfl⟩ := List.getElem?_eq_some_iff.mp hb
    simp
  have hloop := getnstr_loop_copies (noEnd_range hbefore) hstr n
  simpa [getnstr] using hloop

theorem getnstr_none (hnone : ∀ j < n, is_end (str j) = false) :
    (getnstr str n).buf = (List.range n).map str ∧ (getnstr str n).r = 0 := by
  have hcopies := getnstr_copies_range hnone 0
  simp [getnstr_loop] at hcopies
  simp [hcopies]

/-- The terminator follows the line end where there is room, and is put over its
    last byte where there is none. -/
theorem getnstr_end_spec (str : Nat → UInt8) (i k : Nat) :
    (getnstr_end str i k).r = min (i + end_width (str i) (str (i + 1))) (i + k) ∧
      (List.range i).map str ++ (getnstr_end str i k).buf =
        (List.range (getnstr_end str i k).r).map str ++ [0] := by
  unfold getnstr_end end_width
  by_cases hpair : str i = CR ∧ str (i + 1) = LF
  · match k with
    | 0 => simp
    | 1 => simp [hpair, List.range_succ]
    | k + 2 => simp [hpair, List.range_succ, ← Nat.add_assoc]
  · match k with
    | 0 => simp [hpair]
    | k + 1 => simp [hpair, List.range_succ]

/-- The result and the buffer of a call that finds a line end. -/
theorem getnstr_cut (hfirst : FirstEnd str i) (hi : i < n) :
    (getnstr str n).r = min (i + end_width (str i) (str (i + 1))) (n - 1) ∧
      (getnstr str n).buf = (List.range (getnstr str n).r).map str ++ [0] := by
  obtain ⟨k, rfl⟩ := Nat.exists_eq_add_of_lt hi
  have hcopies := getnstr_copies_range hfirst.before (k + 1)
  have hhere : getnstr_loop str i (k + 1) = getnstr_end str i k := by
    rw [getnstr_loop, if_pos hfirst.ends]
  obtain ⟨hr, hbuf⟩ := getnstr_end_spec str i k
  rw [Nat.add_assoc, hcopies, hhere]
  exact ⟨hr, hbuf⟩

theorem end_width_pos (c next : UInt8) : 1 ≤ end_width c next := by
  unfold end_width
  split <;> omega

/-- Nothing that ends a line is copied but the first line end. -/
theorem ends_last (hfirst : FirstEnd str i) {r : Nat} (hr : r ≤ i + end_width (str i) (str (i + 1))) {j : Nat}
    (hj : j < r) (hend : is_end (str j) = true) :
    j + 1 = r ∨ (j + 2 = r ∧ str j = CR ∧ str (j + 1) = LF) := by
  have hle : i ≤ j := by
    by_contra hlt
    simp [hfirst.before j (by omega)] at hend
  unfold end_width at hr
  split at hr
  case isTrue hpair =>
    by_cases heq : i = j
    · subst heq
      by_cases hone : i + 1 = r
      · exact Or.inl hone
      · exact Or.inr ⟨by omega, hpair⟩
    · exact Or.inl (by omega)
  case isFalse => exact Or.inl (by omega)

/-- A call cuts the text behind its first line end, wherever this lies. -/
theorem getnstr_cutOff (hn : 2 ≤ n) (hfirst : FirstEnd str i) (hi : i < n) :
    CutOff str n (getnstr str n).r (getnstr str n).buf ∧ (getnstr str n).buf.length ≤ n := by
  obtain ⟨hr, hbuf⟩ := getnstr_cut hfirst hi
  have hwidth := end_width_pos (str i) (str (i + 1))
  generalize getnstr str n = got at hr hbuf
  refine ⟨⟨by omega, by omega, by simp [hbuf], by simp [hbuf], ?_⟩, ?_⟩
  · intro j hj hend
    exact ends_last hfirst (by omega) hj hend
  · simp only [hbuf, List.length_append, List.length_map, List.length_range, List.length_singleton]
    omega

end Call

/-! ## The result -/

/-- The position that the result should tell fits an `int`: the buffer is no larger
    than this allows, or the first line end comes early enough. -/
def Fits (str : Nat → UInt8) (n : Nat) : Prop :=
  n ≤ 2 ^ 31 ∨ ∀ i < n, FirstEnd str i → i + end_width (str i) (str (i + 1)) < 2 ^ 31

theorem getnstr_rc_of_lt {str : Nat → UInt8} {n : Nat} (hlt : (getnstr str n).r < 2 ^ 31) :
    getnstr_rc str n = (getnstr str n).r := by
  unfold getnstr_rc
  omega

/-- A position that is no `int` comes out as another, before it. -/
theorem getnstr_rc_of_le {str : Nat → UInt8} {n : Nat} (hle : 2 ^ 31 ≤ (getnstr str n).r) :
    getnstr_rc str n + 2 ^ 32 ≤ (getnstr str n).r := by
  unfold getnstr_rc
  omega

theorem fits_iff {str : Nat → UInt8} {i n : Nat} (hfirst : FirstEnd str i) (hi : i < n) :
    Fits str n ↔ (getnstr str n).r < 2 ^ 31 := by
  rw [(getnstr_cut hfirst hi).1]
  constructor
  · rintro (hsmall | hearly)
    · omega
    · have hlt := hearly i hi hfirst
      omega
  · intro hlt
    by_cases hsmall : n ≤ 2 ^ 31
    · exact Or.inl hsmall
    · refine Or.inr fun j _ hother => ?_
      rw [hfirst.unique hother]
      omega

/-- A cut that is reported at another place is no cut. -/
theorem not_cutOff_before {str : Nat → UInt8} {i n r : Nat} (hfirst : FirstEnd str i) (hi : i < n) (hr : r < i) :
    ¬CutOff str n r (getnstr str n).buf := by
  intro hcut
  obtain ⟨hcount, hbuf⟩ := getnstr_cut hfirst hi
  have hlt : r < (getnstr str n).r := by
    have hwidth := end_width_pos (str i) (str (i + 1))
    omega
  have hhere : (getnstr str n).buf[r]? = some (str r) := by
    rw [hbuf, List.getElem?_append_left (by simpa using hlt)]
    simp [hlt]
  have hzero : str r = 0 := by simpa [hcut.terminated] using hhere.symm
  have hnone := hfirst.before r hr
  rw [hzero] at hnone
  exact absurd hnone (by decide)

/-- For every text and every buffer of at least two bytes, the result of `getnstr`
    and what it leaves in the buffer cut the text losslessly exactly when the cut is
    not so far behind that its position is no `int`. -/
theorem getnstr_lossless_iff (str : Nat → UInt8) {n : Nat} (hn : 2 ≤ n) :
    Lossless str n (getnstr_rc str n) (getnstr str n).buf ↔ Fits str n := by
  obtain ⟨i, hi, hfirst⟩ | hnone := first_end_cases str n
  · obtain ⟨hcut, hinside⟩ := getnstr_cutOff hn hfirst hi
    rw [fits_iff hfirst hi]
    constructor
    · intro hlossless
      by_contra hlarge
      have hle := getnstr_rc_of_le (Nat.le_of_not_lt hlarge)
      have hne : getnstr_rc str n ≠ 0 := fun hzero => hfirst.not_none hi (hlossless.zero.mp hzero)
      obtain ⟨r, hrc, hearly⟩ := hlossless.cut hne
      have hwidth : end_width (str i) (str (i + 1)) ≤ 2 := by
        unfold end_width
        split <;> omega
      have hcount := (getnstr_cut hfirst hi).1
      exact not_cutOff_before hfirst hi (by omega) hearly
    · intro hlt
      have hrc := getnstr_rc_of_lt hlt
      have hpos := hcut.pos
      refine ⟨?_, fun _ => ⟨_, hrc, hcut⟩, hinside⟩
      exact iff_of_false (by omega) (hfirst.not_none hi)
  · obtain ⟨hbuf, hr⟩ := getnstr_none hnone
    have hrc : getnstr_rc str n = 0 := by simp [getnstr_rc, hr]
    refine iff_of_true ⟨?_, ?_, ?_⟩ (Or.inr ?_)
    · exact iff_of_true hrc hnone
    · exact fun hne => absurd hrc hne
    · simp [hbuf]
    · exact fun i hi hfirst => absurd hnone (hfirst.not_none hi)

/-- The text `ab`, a line feed and a terminator. -/
def short_line (i : Nat) : UInt8 := [97, 98, 10].getD i 0

theorem getnstr_lossless_iff_short_line :
    getnstr_rc short_line 8 = 3 ∧ Lossless short_line 8 (getnstr_rc short_line 8) (getnstr short_line 8).buf :=
  ⟨by decide, (getnstr_lossless_iff short_line (by decide)).mpr (Or.inl (by decide))⟩

/-- A line of 2^31 letters. -/
def long_line (i : Nat) : UInt8 := if i < 2 ^ 31 then 97 else if i = 2 ^ 31 then LF else 0

theorem long_line_end : long_line (2 ^ 31) = LF := by
  rw [long_line, if_neg (Nat.lt_irrefl _), if_pos rfl]

theorem firstEnd_long_line : FirstEnd long_line (2 ^ 31) := by
  constructor
  · rw [long_line_end]
    decide
  · intro j hj
    rw [long_line, if_pos hj]
    decide

/-- The position behind the line feed is returned as a negative number. -/
theorem long_line_negative :
    getnstr_rc long_line (2 ^ 32) < 0 ∧
      ¬Lossless long_line (2 ^ 32) (getnstr_rc long_line (2 ^ 32)) (getnstr long_line (2 ^ 32)).buf := by
  have hi : 2 ^ 31 < 2 ^ 32 := by omega
  have hr := (getnstr_cut firstEnd_long_line hi).1
  have hwidth : end_width LF (long_line (2 ^ 31 + 1)) = 1 := if_neg (by decide)
  rw [long_line_end, hwidth] at hr
  have hneg : getnstr_rc long_line (2 ^ 32) < 0 := by
    unfold getnstr_rc
    omega
  refine ⟨hneg, fun hlossless => ?_⟩
  obtain ⟨r, hrc, _⟩ := hlossless.cut (by omega)
  omega

end code_tools.iniparser
