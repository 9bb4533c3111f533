import Mathlib.Algebra.BigOperators.Group.List.Basic
import Mathlib.RingTheory.Coprime.Basic
import Mathlib.Tactic.Ring

/-!
# Numbers read digit by digit

A value is multiplied by a factor before each digit is added. The factors need not
be the same.
-/

namespace horner

variable {R : Type*} [CommRing R]

/-- Read the digits, each with its factor, behind what was read before. -/
def feed (h : R) (ds : List (R × R)) : R := ds.foldl (fun h d => h * d.1 + d.2) h

/-- By how much the digits push what was read before them. -/
def weight (ds : List (R × R)) : R := (ds.map Prod.fst).prod

@[simp] theorem feed_nil (h : R) : feed h [] = h := rfl

@[simp] theorem feed_cons (h : R) (d : R × R) (ds : List (R × R)) : feed h (d :: ds) = feed (h * d.1 + d.2) ds := rfl

@[simp] theorem weight_nil : weight ([] : List (R × R)) = 1 := rfl

@[simp] theorem weight_cons (d : R × R) (ds : List (R × R)) : weight (d :: ds) = d.1 * weight ds :=
  List.prod_cons

theorem feed_append (h : R) (ds es : List (R × R)) : feed h (ds ++ es) = feed (feed h ds) es :=
  List.foldl_append

/-- What was read before adds to the value of the digits alone. -/
theorem feed_eq (h : R) (ds : List (R × R)) : feed h ds = h * weight ds + feed 0 ds := by
  induction ds generalizing h with
  | nil => simp
  | cons d ds ih =>
    rw [feed_cons, feed_cons, weight_cons, ih, ih (0 * d.1 + d.2)]
    ring

theorem feed_sub (h h' : R) (ds : List (R × R)) : feed h ds - feed h' ds = (h - h') * weight ds := by
  rw [feed_eq, feed_eq h']
  ring

theorem isCoprime_weight {n : R} {ds : List (R × R)} (hunits : ∀ d ∈ ds, IsCoprime n d.1) :
    IsCoprime n (weight ds) := by
  induction ds with
  | nil => exact isCoprime_one_right
  | cons d ds ih =>
    rw [weight_cons]
    exact (hunits d List.mem_cons_self).mul_right (ih fun e he => hunits e (List.mem_cons_of_mem d he))

/-- Digits whose factors are units keep different residues different. -/
theorem dvd_feed_sub_iff {n : R} (h h' : R) {ds : List (R × R)} (hunits : ∀ d ∈ ds, IsCoprime n d.1) :
    n ∣ feed h ds - feed h' ds ↔ n ∣ h - h' := by
  rw [feed_sub]
  constructor
  · exact (isCoprime_weight hunits).dvd_of_dvd_mul_right
  · exact fun hdvd => hdvd.mul_right (weight ds)

end horner
