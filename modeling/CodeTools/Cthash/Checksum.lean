import CodeTools.Lib.EndAround
import Mathlib.Data.List.GetD

/-!
# The checksum `CRC_hash`: `cthash.c`

The words of a string are added in 64 bits, and the carries are added back twice.
The length of the string is kept in 32 bits.
-/

namespace code_tools.cthash

open end_around

/-- The word at `w`, the low byte first. -/
def word (str : List UInt8) (w : Nat) : UInt16 :=
  (str.getD (2 * w) 0).toUInt16 + (str.getD (2 * w + 1) 0).toUInt16 * 256

/-- The loop over the words, with `nleft`, `w` and `sum` as it leaves them. -/
def CRC_hash_loop (str : List UInt8) : Nat → Nat → UInt64 → Nat × Nat × UInt64
  | nleft + 2, w, sum => CRC_hash_loop str nleft (w + 1) (sum + (word str w).toUInt64)
  | nleft, w, sum => (nleft, w, sum)

/-- The odd byte is the low byte of `answer`. -/
def mop_up (str : List UInt8) : Nat × Nat × UInt64 → UInt64
  | (nleft, w, sum) =>
    if nleft = 1 then
      let answer : UInt16 := (str.getD (2 * w) 0).toUInt16
      sum + answer.toUInt64
    else sum

def CRC_hash (str : List UInt8) : UInt32 :=
  let nleft := str.length % 2 ^ 32
  let sum := mop_up str (CRC_hash_loop str nleft 0 0)
  let sum := (sum >>> 16) + (sum &&& 0xFFFF)
  let sum := sum + (sum >>> 16)
  let answer := (~~~sum).toUInt16
  answer.toUInt32 &&& 0xFFFFFFFF

/-! ## The one's-complement checksum -/

/-- The sum of the words of a string; an odd byte at the end is a low byte. -/
def word_sum : List UInt8 → Nat
  | [] => 0
  | [low] => low.toNat
  | low :: high :: s => low.toNat + 256 * high.toNat + word_sum s

/-- The complement of the sum in 16 bits, with every carry added back. -/
def checksum (str : List UInt8) : Nat := 2 ^ 16 - 1 - fold (2 ^ 16) (word_sum str)

/-! ## The sum -/

theorem word_sum_le (s : List UInt8) : word_sum s ≤ 65535 * ((s.length + 1) / 2) := by
  induction s using word_sum.induct with
  | case1 => exact Nat.zero_le _
  | case2 low =>
    have hlow := low.toNat_lt
    rw [word_sum, List.length_singleton]
    omega
  | case3 low high s ih =>
    have hlow := low.toNat_lt
    have hhigh := high.toNat_lt
    rw [word_sum, List.length_cons, List.length_cons]
    omega

/-- The bytes of a prefix can be taken out, if the others stay in their place. -/
theorem word_sum_append (s t : List UInt8) :
    word_sum (s ++ t) = word_sum s + word_sum (List.replicate s.length 0 ++ t) := by
  induction s using word_sum.induct with
  | case1 => exact (Nat.zero_add _).symm
  | case2 low =>
    cases t with
    | nil => rfl
    | cons high t =>
      rw [List.length_singleton, List.replicate_one, List.singleton_append, List.singleton_append, word_sum, word_sum,
        word_sum, UInt8.toNat_zero]
      omega
  | case3 low high s ih =>
    rw [List.cons_append, List.cons_append, List.length_cons, List.length_cons, List.replicate_succ,
      List.replicate_succ, List.cons_append, List.cons_append, word_sum, word_sum, word_sum, ih, UInt8.toNat_zero]
    omega

theorem word_toNat (str : List UInt8) (w : Nat) :
    (word str w).toNat = (str.getD (2 * w) 0).toNat + 256 * (str.getD (2 * w + 1) 0).toNat := by
  have hlow := (str.getD (2 * w) 0).toNat_lt
  have hhigh := (str.getD (2 * w + 1) 0).toNat_lt
  rw [word, UInt16.toNat_add, UInt16.toNat_mul, UInt8.toNat_toUInt16, UInt8.toNat_toUInt16]
  have h256 : (256 : UInt16).toNat = 256 := rfl
  rw [h256]
  omega

theorem drop_word {str : List UInt8} {w : Nat} (hroom : 2 * w + 2 ≤ str.length) :
    str.drop (2 * w) = str.getD (2 * w) 0 :: str.getD (2 * w + 1) 0 :: str.drop (2 * (w + 1)) := by
  have hlow : 2 * w < str.length := by omega
  have hhigh : 2 * w + 1 < str.length := by omega
  rw [List.drop_eq_getElem_cons hlow, List.drop_eq_getElem_cons hhigh, List.getD_eq_getElem _ _ hlow,
    List.getD_eq_getElem _ _ hhigh]
  rfl

/-- The loop adds the bytes that are left as words, while 64 bits are enough. -/
theorem mop_up_loop {str : List UInt8} {nleft w : Nat} {sum : UInt64} (hleft : 2 * w + nleft ≤ str.length)
    (hsum : sum.toNat + word_sum ((str.drop (2 * w)).take nleft) < 2 ^ 64) :
    (mop_up str (CRC_hash_loop str nleft w sum)).toNat = sum.toNat + word_sum ((str.drop (2 * w)).take nleft) := by
  induction nleft, w, sum using CRC_hash_loop.induct str with
  | case1 nleft w sum ih =>
    rw [drop_word (by omega), List.take_succ_cons, List.take_succ_cons, word_sum] at hsum ⊢
    have hadd : (sum + (word str w).toUInt64).toNat =
        sum.toNat + ((str.getD (2 * w) 0).toNat + 256 * (str.getD (2 * w + 1) 0).toNat) := by
      rw [UInt64.toNat_add, UInt16.toNat_toUInt64, word_toNat]
      exact Nat.mod_eq_of_lt (by omega)
    rw [CRC_hash_loop, ih (by omega) (by omega), hadd]
    omega
  | case2 nleft w sum hshort =>
    rw [CRC_hash_loop.eq_2 str nleft w sum hshort, mop_up]
    obtain rfl | rfl : nleft = 0 ∨ nleft = 1 := by
      by_contra hmore
      exact hshort (nleft - 2) (by omega)
    · rw [if_neg (by decide), List.take_zero, word_sum, Nat.add_zero]
    · have hlow : 2 * w < str.length := by omega
      have hodd : (str.drop (2 * w)).take 1 = [str.getD (2 * w) 0] := by
        rw [List.drop_eq_getElem_cons hlow, List.take_succ_cons, List.take_zero, List.getD_eq_getElem _ _ hlow]
      rw [hodd, word_sum] at hsum ⊢
      rw [if_pos rfl, UInt64.toNat_add, UInt16.toNat_toUInt64, UInt8.toNat_toUInt16]
      exact Nat.mod_eq_of_lt hsum

/-- What `nleft` counts. -/
def counted (str : List UInt8) : List UInt8 := str.take (str.length % 2 ^ 32)

theorem word_sum_counted_lt (str : List UInt8) : word_sum (counted str) < 2 ^ 47 := by
  have hsum := word_sum_le (counted str)
  have hlength : (counted str).length < 2 ^ 32 := by
    rw [counted, List.length_take]
    omega
  omega

/-- The sum never outgrows its 64 bits. -/
theorem CRC_hash_sum (str : List UInt8) :
    (mop_up str (CRC_hash_loop str (str.length % 2 ^ 32) 0 0)).toNat = word_sum (counted str) := by
  have hsmall := word_sum_counted_lt str
  have hleft : 2 * 0 + str.length % 2 ^ 32 ≤ str.length := by
    have hle := Nat.mod_le str.length (2 ^ 32)
    omega
  have hstart : (0 : UInt64).toNat + word_sum ((str.drop (2 * 0)).take (str.length % 2 ^ 32)) =
      word_sum (counted str) := by
    rw [UInt64.toNat_zero, Nat.mul_zero, List.drop_zero, Nat.zero_add, counted]
  rw [mop_up_loop hleft (by omega), hstart]

theorem shiftRight_toNat (sum : UInt64) : (sum >>> 16).toNat = sum.toNat / 2 ^ 16 := by
  rw [UInt64.toNat_shiftRight, Nat.shiftRight_eq_div_pow]
  rfl

theorem low_toNat (sum : UInt64) : (sum &&& 0xFFFF).toNat = sum.toNat % 2 ^ 16 := by
  rw [UInt64.toNat_and]
  exact Nat.and_two_pow_sub_one_eq_mod _ 16

theorem add_back_toNat (sum : UInt64) : ((sum >>> 16) + (sum &&& 0xFFFF)).toNat = carry (2 ^ 16) sum.toNat := by
  have hsum := sum.toNat_lt
  rw [UInt64.toNat_add, shiftRight_toNat, low_toNat, carry]
  exact Nat.mod_eq_of_lt (by omega)

theorem add_carry_toNat (sum : UInt64) :
    (sum + (sum >>> 16)).toNat % 2 ^ 16 = carry (2 ^ 16) sum.toNat % 2 ^ 16 := by
  rw [UInt64.toNat_add, shiftRight_toNat, carry]
  omega

theorem answer_toNat (sum : UInt64) :
    ((~~~sum).toUInt16.toUInt32 &&& 0xFFFFFFFF).toNat = 2 ^ 16 - 1 - sum.toNat % 2 ^ 16 := by
  have hsum := sum.toNat_lt
  have hanswer : (~~~sum).toUInt16.toNat = 2 ^ 16 - 1 - sum.toNat % 2 ^ 16 := by
    rw [UInt64.toNat_toUInt16, UInt64.toNat_not]
    simp only [UInt64.size]
    omega
  rw [UInt32.toNat_and, UInt16.toNat_toUInt32, hanswer]
  calc
    (2 ^ 16 - 1 - sum.toNat % 2 ^ 16) &&& (2 ^ 32 - 1) = (2 ^ 16 - 1 - sum.toNat % 2 ^ 16) % 2 ^ 32 :=
      Nat.and_two_pow_sub_one_eq_mod _ 32
    _ = 2 ^ 16 - 1 - sum.toNat % 2 ^ 16 := Nat.mod_eq_of_lt (by omega)

/-- The low 16 bits after the carries were added back twice. -/
theorem CRC_hash_toNat (str : List UInt8) :
    (CRC_hash str).toNat = 2 ^ 16 - 1 - carry (2 ^ 16) (carry (2 ^ 16) (word_sum (counted str))) % 2 ^ 16 := by
  unfold CRC_hash
  dsimp only
  rw [answer_toNat, add_carry_toNat, add_back_toNat, CRC_hash_sum]

/-! ## Lost carries -/

/-- Adding the carries back twice leaves none. -/
def TwiceIsEnough (sum : Nat) : Prop := carry (2 ^ 16) (carry (2 ^ 16) sum) < 2 ^ 16

instance (sum : Nat) : Decidable (TwiceIsEnough sum) := inferInstanceAs (Decidable (_ < _))

/-- The carry that goes out of `answer`. -/
def lost (sum : Nat) : Nat := if TwiceIsEnough sum then 0 else 1

theorem carry_carry {sum : Nat} (hsum : sum < 2 ^ 47) :
    carry (2 ^ 16) (carry (2 ^ 16) sum) % 2 ^ 16 + lost sum = fold (2 ^ 16) sum := by
  rw [← fold_carry (by decide), ← fold_carry (by decide)]
  unfold lost
  split
  case isTrue henough =>
    rw [Nat.mod_eq_of_lt henough, fold_of_lt henough]
    rfl
  case isFalse hmore =>
    have honce : carry (2 ^ 16) sum < 2 ^ 32 := by
      unfold carry
      omega
    rw [TwiceIsEnough] at hmore
    have hagain : carry (2 ^ 16) (carry (2 ^ 16) sum) < 2 ^ 17 - 1 := by
      unfold carry at honce ⊢
      omega
    generalize carry (2 ^ 16) (carry (2 ^ 16) sum) = twice at hmore hagain ⊢
    rw [← fold_carry (by decide), fold_of_lt]
    · unfold carry
      omega
    · unfold carry
      omega

/-- The sum of the words when the bytes that are counted are taken out of them. -/
def uncounted (str : List UInt8) : Nat :=
  word_sum (List.replicate (str.length % 2 ^ 32) 0 ++ str.drop (str.length % 2 ^ 32))

/-- A string shorter than 2 ^ 32 bytes whose carries are added back twice, or a
    longer one where the bytes that are not counted make up for the lost carry. -/
def Meets (str : List UInt8) : Prop :=
  if str.length < 2 ^ 32 then TwiceIsEnough (word_sum str)
  else (uncounted str + lost (word_sum (counted str))) % (2 ^ 16 - 1) = 0 ∧
    lost (word_sum (counted str)) < fold (2 ^ 16) (word_sum (counted str))

theorem word_sum_pos {s : List UInt8} (hs : 0 ∉ s) (hne : s ≠ []) : 0 < word_sum s := by
  have hpos : ∀ low : UInt8, 0 ≠ low → 0 < low.toNat := fun low hlow =>
    Nat.pos_of_ne_zero fun hzero => hlow (UInt8.toNat_inj.mp hzero.symm)
  cases s with
  | nil => exact absurd rfl hne
  | cons low s =>
    have hlow := hpos low (List.ne_of_not_mem_cons hs)
    cases s with
    | nil => exact hlow
    | cons high s =>
      rw [word_sum]
      omega

theorem word_sum_split (str : List UInt8) : word_sum str = word_sum (counted str) + uncounted str := by
  have hlength : (counted str).length = str.length % 2 ^ 32 := by
    rw [counted, List.length_take]
    exact Nat.min_eq_left (Nat.mod_le _ _)
  calc
    word_sum str = word_sum (counted str ++ str.drop (str.length % 2 ^ 32)) := by
      rw [counted, List.take_append_drop]
    _ = word_sum (counted str) + uncounted str := by rw [word_sum_append, hlength, uncounted]

theorem counted_of_short {str : List UInt8} (hshort : str.length < 2 ^ 32) : counted str = str := by
  rw [counted, Nat.mod_eq_of_lt hshort, List.take_length]

theorem lost_eq_zero_iff (sum : Nat) : lost sum = 0 ↔ TwiceIsEnough sum := by
  unfold lost
  split
  case isTrue henough => exact ⟨fun _ => henough, fun _ => rfl⟩
  case isFalse hmore => exact ⟨fun hone => absurd hone (by decide), fun henough => absurd henough hmore⟩

/-- `CRC_hash` is the checksum exactly when no carry is lost, or the loss is made up
    for. -/
theorem CRC_hash_eq_checksum_iff {str : List UInt8} (hstr : 0 ∉ str) :
    (CRC_hash str).toNat = checksum str ↔ Meets str := by
  have hcarry := carry_carry (Nat.lt_of_lt_of_le (word_sum_counted_lt str) (Nat.le_refl _))
  have hcode := CRC_hash_toNat str
  obtain ⟨hfold, _, _⟩ := fold_spec (by decide : 1 < 2 ^ 16) (word_sum str)
  have hdigit : carry (2 ^ 16) (carry (2 ^ 16) (word_sum (counted str))) % 2 ^ 16 < 2 ^ 16 :=
    Nat.mod_lt _ (by decide)
  generalize carry (2 ^ 16) (carry (2 ^ 16) (word_sum (counted str))) % 2 ^ 16 = d at hcarry hcode hdigit
  have hsame : (CRC_hash str).toNat = checksum str ↔ d = fold (2 ^ 16) (word_sum str) := by
    rw [hcode, checksum]
    omega
  rw [hsame, Meets]
  by_cases hshort : str.length < 2 ^ 32
  · rw [if_pos hshort, ← lost_eq_zero_iff]
    rw [counted_of_short hshort] at hcarry
    omega
  · rw [if_neg hshort, eq_fold_iff (by decide) (word_sum_pos hstr ?_) hdigit]
    · obtain ⟨_, hmod, _⟩ := fold_spec (by decide : 1 < 2 ^ 16) (word_sum (counted str))
      rw [← hcarry, Nat.ModEq] at hmod
      rw [← hcarry, Nat.ModEq, word_sum_split str]
      omega
    · rintro rfl
      exact hshort (by decide)

theorem CRC_hash_small : 0 ∉ ([97, 98, 99] : List UInt8) ∧ (CRC_hash [97, 98, 99]).toNat = checksum [97, 98, 99] := by
  refine ⟨by decide, (CRC_hash_eq_checksum_iff (by decide)).mpr ?_⟩
  rw [Meets, if_pos (by decide)]
  decide

theorem word_sum_replicate (words : Nat) (s : List UInt8) :
    word_sum (List.replicate (2 * words) 255 ++ s) = 65535 * words + word_sum s := by
  induction words with
  | zero => exact (Nat.zero_add _).symm
  | succ words ih =>
    have hnext : List.replicate (2 * (words + 1)) (255 : UInt8) ++ s =
        255 :: 255 :: (List.replicate (2 * words) 255 ++ s) := rfl
    have hbyte : (255 : UInt8).toNat = 255 := rfl
    rw [hnext, word_sum, ih, hbyte]
    omega

/-- 65538 words of ones and a byte. -/
def carries_twice : List UInt8 := List.replicate (2 * 65538) 255 ++ [1]

theorem carries_twice_lost :
    0 ∉ carries_twice ∧ (CRC_hash carries_twice).toNat = 0xFFFF ∧ checksum carries_twice = 0xFFFE ∧
      (CRC_hash carries_twice).toNat ≠ checksum carries_twice := by
  have hsum : word_sum carries_twice = 2 ^ 32 + 65535 := by
    rw [carries_twice, word_sum_replicate]
    rfl
  have hshort : carries_twice.length < 2 ^ 32 := by
    rw [carries_twice, List.length_append, List.length_replicate]
    decide
  have hbytes : 0 ∉ carries_twice := by
    rw [carries_twice, List.mem_append, List.mem_replicate]
    decide
  have hcode : (CRC_hash carries_twice).toNat = 0xFFFF := by
    rw [CRC_hash_toNat, counted_of_short hshort, hsum]
    decide
  have hright : checksum carries_twice = 0xFFFE := by
    rw [checksum, hsum, ← fold_carry (by decide), ← fold_carry (by decide), ← fold_carry (by decide), fold_of_lt]
    · decide
    · decide
  refine ⟨hbytes, hcode, hright, ?_⟩
  rw [hcode, hright]
  decide

end code_tools.cthash
