import Mathlib.Data.Nat.ModEq

/-!
# End-around carry

A sum is folded into one digit by adding what stands above the low digit to it until
nothing does. The result is the sum modulo the base less one, where only an empty sum
gives zero.
-/

namespace end_around

/-- What stands above the low digit goes around the end, once. -/
def carry (base sum : Nat) : Nat := sum / base + sum % base

theorem carry_lt {base sum : Nat} (hbase : 1 < base) (hsum : base ≤ sum) : carry base sum < sum := by
  have hquot : 1 ≤ sum / base := (Nat.one_le_div_iff (by omega)).mpr hsum
  have hsplit : base * (sum / base) + sum % base = sum := Nat.div_add_mod sum base
  have hmul : 2 * (sum / base) ≤ base * (sum / base) := Nat.mul_le_mul_right _ hbase
  unfold carry
  omega

/-- The sum in one digit. -/
def fold (base sum : Nat) : Nat :=
  if _ : 1 < base ∧ base ≤ sum then fold base (carry base sum) else sum
termination_by sum
decreasing_by exact carry_lt (by omega) (by omega)

section Fold

variable {base : Nat}

theorem fold_of_lt {sum : Nat} (hsum : sum < base) : fold base sum = sum := by
  rw [fold, dif_neg (by omega)]

theorem carry_of_lt {sum : Nat} (hsum : sum < base) : carry base sum = sum := by
  rw [carry, Nat.div_eq_of_lt hsum, Nat.mod_eq_of_lt hsum, Nat.zero_add]

theorem carry_pos {sum : Nat} (hsum : 0 < sum) : 0 < carry base sum := by
  have hsplit : base * (sum / base) + sum % base = sum := Nat.div_add_mod sum base
  apply Nat.pos_of_ne_zero
  intro hzero
  obtain ⟨hquot, hrem⟩ := Nat.add_eq_zero_iff.mp hzero
  rw [hquot, hrem, Nat.mul_zero] at hsplit
  omega

/-- Modulo the base less one, a digit is worth the same at every place. -/
theorem carry_modEq (hbase : 1 < base) (sum : Nat) : carry base sum ≡ sum [MOD base - 1] := by
  have hone : base ≡ 1 [MOD base - 1] := by
    have hself : base - 1 + 1 ≡ 0 + 1 [MOD base - 1] := Nat.ModEq.add_right 1 (Nat.modEq_zero_iff_dvd.mpr dvd_rfl)
    rwa [Nat.sub_add_cancel (by omega)] at hself
  calc
    carry base sum = 1 * (sum / base) + sum % base := by rw [Nat.one_mul, carry]
    _ ≡ base * (sum / base) + sum % base [MOD base - 1] := (hone.symm.mul_right _).add_right _
    _ = sum := Nat.div_add_mod sum base

theorem fold_carry (hbase : 1 < base) (sum : Nat) : fold base (carry base sum) = fold base sum := by
  by_cases hsum : base ≤ sum
  · rw [fold.eq_1 base sum, dif_pos ⟨hbase, hsum⟩]
  · rw [carry_of_lt (by omega)]

theorem fold_spec (hbase : 1 < base) (sum : Nat) :
    fold base sum < base ∧ fold base sum ≡ sum [MOD base - 1] ∧ (0 < sum → 0 < fold base sum) := by
  induction sum using Nat.strongRecOn with
  | ind sum ih =>
    by_cases hsum : base ≤ sum
    · obtain ⟨hlt, hmod, hpos⟩ := ih (carry base sum) (carry_lt hbase hsum)
      rw [fold_carry hbase] at hlt hmod hpos
      exact ⟨hlt, hmod.trans (carry_modEq hbase sum), fun h => hpos (carry_pos h)⟩
    · rw [fold_of_lt (by omega)]
      exact ⟨by omega, Nat.ModEq.refl sum, id⟩

/-- A digit other than zero is the fold of what is congruent to it. -/
theorem eq_fold_iff (hbase : 1 < base) {sum d : Nat} (hsum : 0 < sum) (hd : d < base) :
    d = fold base sum ↔ 0 < d ∧ d ≡ sum [MOD base - 1] := by
  obtain ⟨hlt, hmod, hpos⟩ := fold_spec hbase sum
  constructor
  · rintro rfl
    exact ⟨hpos hsum, hmod⟩
  · rintro ⟨hdpos, hdmod⟩
    have hsame := hdmod.trans hmod.symm
    have hfold := hpos hsum
    rw [← Nat.sub_add_cancel hdpos, ← Nat.sub_add_cancel hfold] at hsame
    have heq := (hsame.add_right_cancel' 1).eq_of_lt_of_lt (by omega) (by omega)
    omega

end Fold

end end_around
