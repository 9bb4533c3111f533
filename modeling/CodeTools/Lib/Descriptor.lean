import Mathlib.Tactic.Common
import Mathlib.Data.List.Perm.Subperm

/-!
# Descriptor tables

A table maps the numbers of open descriptors to what they refer to. A new
descriptor gets the lowest number that is free.
-/

namespace descriptor

abbrev Table (α : Type) := List (Nat × α)

namespace Table

variable {α : Type} {t : Table α} {fd k : Nat}

/-- What a descriptor refers to, if it is open. -/
def get? (t : Table α) (fd : Nat) : Option α := t.lookup fd

def lowest_free (t : Table α) : Nat :=
  ((List.range (t.length + 1)).find? fun fd => (t.get? fd).isNone).getD 0

/-- The lowest number from `low` on that is free. -/
def lowest_free_from (t : Table α) (low : Nat) : Nat :=
  low + ((List.range (t.length + 1)).find? fun i => (t.get? (low + i)).isNone).getD 0

def insert (t : Table α) (fd : Nat) (x : α) : Table α := (fd, x) :: t

def close (t : Table α) (fd : Nat) : Table α := t.filter (·.1 ≠ fd)

theorem get?_insert (t : Table α) (fd : Nat) (x : α) (k : Nat) :
    (t.insert fd x).get? k = if k = fd then some x else t.get? k := by
  unfold get? insert
  by_cases hk : k = fd
  · rw [if_pos hk, hk, List.lookup_cons_self]
  · have hne : (k == fd) = false := by simpa using hk
    rw [if_neg hk, List.lookup_cons, hne]

theorem get?_close (t : Table α) (fd k : Nat) :
    (t.close fd).get? k = if k = fd then none else t.get? k := by
  unfold get? close
  induction t with
  | nil => simp
  | cons x t ih =>
    obtain ⟨a, x⟩ := x
    by_cases ha : a = fd
    · rw [List.filter_cons_of_neg (by simpa using ha), ih]
      by_cases hk : k = fd
      · rw [if_pos hk, if_pos hk]
      · have hne : (k == a) = false := by simpa [ha] using hk
        rw [if_neg hk, if_neg hk, List.lookup_cons, hne]
    · rw [List.filter_cons_of_pos (by simpa using ha), List.lookup_cons, List.lookup_cons, ih]
      by_cases hk : k = fd
      · have hne : (k == a) = false := by simpa [hk] using Ne.symm ha
        rw [if_pos hk, if_pos hk, hne]
      · rw [if_neg hk, if_neg hk]

/-- A descriptor that is opened and closed again leaves no trace. -/
theorem get?_close_insert (hfree : t.get? fd = none) (x : α) (k : Nat) :
    ((t.insert fd x).close fd).get? k = t.get? k := by
  rw [get?_close, get?_insert]
  by_cases hk : k = fd
  · rw [if_pos hk, hk, hfree]
  · rw [if_neg hk, if_neg hk]

/-- Numbers that refer to different things are different. -/
theorem ne_of_get? {x : α} (hk : t.get? k = some x) (hfd : t.get? fd ≠ some x) : k ≠ fd := by
  rintro rfl
  exact hfd hk

/-- A number that is open is one of the table's. -/
theorem mem_of_isSome (h : (t.get? fd).isSome) : fd ∈ t.map Prod.fst := by
  obtain ⟨x, hx⟩ := Option.isSome_iff_exists.mp h
  have hmem := List.lookup_eq_some_iff.mp hx
  obtain ⟨pre, post, rfl, _⟩ := hmem
  simp

private theorem exists_free (t : Table α) (low : Nat) :
    ∃ i ∈ List.range (t.length + 1), (t.get? (low + i)).isNone := by
  by_contra hnone
  have hsub : (List.range (t.length + 1)).map (low + ·) ⊆ t.map Prod.fst := by
    intro fd hfd
    obtain ⟨i, hi, rfl⟩ := List.mem_map.mp hfd
    apply mem_of_isSome
    by_contra hfree
    exact hnone ⟨i, hi, by simpa using hfree⟩
  have hnodup : ((List.range (t.length + 1)).map (low + ·)).Nodup :=
    List.Pairwise.map (low + ·) (fun i j hne heq => hne (Nat.add_left_cancel heq)) List.nodup_range
  have hlen := (List.subperm_of_subset hnodup hsub).length_le
  simp only [List.length_map, List.length_range] at hlen
  omega

/-- There is a free number from `low` on, and everything between is open. -/
theorem lowest_free_from_spec (t : Table α) (low : Nat) :
    low ≤ t.lowest_free_from low ∧ t.get? (t.lowest_free_from low) = none ∧
      ∀ k, low ≤ k → k < t.lowest_free_from low → (t.get? k).isSome := by
  obtain ⟨i, hmem, hfree⟩ := exists_free t low
  unfold lowest_free_from
  cases hfind : (List.range (t.length + 1)).find? (fun i => (t.get? (low + i)).isNone) with
  | none => exact absurd hfree (List.find?_eq_none.mp hfind i hmem)
  | some j =>
    obtain ⟨hnone, n, hn, heq, hbefore⟩ := List.find?_eq_some_iff_getElem.mp hfind
    rw [List.getElem_range] at heq
    rw [Option.getD_some]
    refine ⟨Nat.le_add_right low j, by simpa using hnone, fun k hlow hk => ?_⟩
    have hopen := hbefore (k - low) (by omega)
    rw [List.getElem_range, Nat.add_sub_cancel' hlow] at hopen
    simpa using hopen

/-- A free number is taken itself. -/
theorem lowest_free_from_eq {low : Nat} (hfree : t.get? low = none) : t.lowest_free_from low = low := by
  obtain ⟨hle, _, hopen⟩ := t.lowest_free_from_spec low
  by_contra hne
  have hsome := hopen low (Nat.le_refl low) (by omega)
  simp [hfree] at hsome

theorem lowest_free_from_zero (t : Table α) : t.lowest_free_from 0 = t.lowest_free := by
  simp [lowest_free_from, lowest_free]

@[simp] theorem get?_lowest_free (t : Table α) : t.get? t.lowest_free = none := by
  rw [← lowest_free_from_zero]
  exact (t.lowest_free_from_spec 0).2.1

theorem isSome_of_lt_lowest_free (hlt : k < t.lowest_free) : (t.get? k).isSome := by
  rw [← lowest_free_from_zero] at hlt
  exact (t.lowest_free_from_spec 0).2.2 k (Nat.zero_le k) hlt

/-- Where everything up to a number is open, the next descriptor is above it. -/
theorem lt_lowest_free (hopen : ∀ k ≤ fd, (t.get? k).isSome) : fd < t.lowest_free := by
  by_contra hle
  have hsome := hopen t.lowest_free (by omega)
  rw [get?_lowest_free] at hsome
  cases hsome

theorem lowest_free_eq (hfree : t.get? fd = none) (hopen : ∀ k < fd, (t.get? k).isSome) :
    t.lowest_free = fd := by
  apply Nat.le_antisymm
  · by_contra hlt
    have hsome := isSome_of_lt_lowest_free (by omega : fd < t.lowest_free)
    rw [hfree] at hsome
    cases hsome
  · by_contra hlt
    have hsome := hopen t.lowest_free (by omega)
    rw [get?_lowest_free] at hsome
    cases hsome

end Table

end descriptor
