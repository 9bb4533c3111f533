import Mathlib.Data.List.Count

/-!
# Tables of slots

The first `n` entries of a table are its slots. A change of one slot changes how
many of them pass a test by what the two entries differ in.
-/

namespace slots

variable {α : Type*}

theorem countP_set_add (p : α → Bool) {l : List α} {i : Nat} {x : α} (hx : l[i]? = some x)
    (y : α) : (l.set i y).countP p + (if p x then 1 else 0) = l.countP p + (if p y then 1 else 0) := by
  induction l generalizing i with
  | nil => simp at hx
  | cons z l ih =>
    cases i with
    | zero =>
      obtain rfl : z = x := by simpa using hx
      rw [List.set_cons_zero, List.countP_cons, List.countP_cons]
      omega
    | succ i =>
      have htail := ih (by simpa using hx : l[i]? = some x)
      rw [List.set_cons_succ, List.countP_cons, List.countP_cons]
      omega

/-- The number of slots that pass a test. -/
def passing (test : α → Bool) (n : Nat) (table : List α) : Nat := (table.take n).countP test

variable {test : α → Bool} {n i : Nat} {table : List α} {x : α}

theorem passing_set_add (test : α → Bool) (hi : i < n) (hx : table[i]? = some x) (y : α) :
    passing test n (table.set i y) + (if test x then 1 else 0) =
      passing test n table + (if test y then 1 else 0) := by
  unfold passing
  rw [List.take_set]
  apply countP_set_add
  rw [List.getElem?_take_of_lt hi, hx]

theorem passing_le (test : α → Bool) (n : Nat) (table : List α) : passing test n table ≤ n :=
  Nat.le_trans List.countP_le_length (List.length_take_le n table)

theorem passing_mono {test' : α → Bool} (himp : ∀ x, test x = true → test' x = true) (n : Nat) (table : List α) :
    passing test n table ≤ passing test' n table := List.countP_mono_left fun x _ => himp x

/-- A search for a slot that fails a test finds none exactly when all slots pass. -/
theorem findIdx?_not_eq_none_iff (hn : n ≤ table.length) :
    (table.take n).findIdx? (fun x => !test x) = none ↔ passing test n table = n := by
  have hlength : (table.take n).length = n := List.length_take_of_le hn
  have hall : passing test n table = n ↔ ∀ x ∈ table.take n, test x = true := by
    conv_lhs => rhs; rw [← hlength]
    exact List.countP_eq_length
  rw [hall, List.findIdx?_eq_none_iff]
  simp only [Bool.not_eq_false']

/-- What a search finds is a slot that passes. -/
theorem findIdx?_take_eq_some (hfind : (table.take n).findIdx? test = some i) :
    i < n ∧ ∃ x, table[i]? = some x ∧ test x = true := by
  obtain ⟨hi, htest, _⟩ := List.findIdx?_eq_some_iff_getElem.mp hfind
  rw [List.length_take] at hi
  rw [List.getElem_take] at htest
  exact ⟨by omega, _, List.getElem?_eq_getElem (by omega), htest⟩

end slots
