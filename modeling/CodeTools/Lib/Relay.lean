import Mathlib.Tactic.Common

/-!
# Links that carry a stream

A relay takes elements from a source and gives them to a sink. What it holds
back in between is what it still owes.
-/

namespace relay

variable {α : Type*}

/-- All that was taken from the source and all that the sink accepted. -/
structure Link (α : Type*) where
  taken : List α
  given : List α
deriving DecidableEq, Repr

namespace Link

def empty : Link α := { taken := [], given := [] }

def take (l : Link α) (xs : List α) : Link α := { l with taken := l.taken ++ xs }

def give (l : Link α) (xs : List α) : Link α := { l with given := l.given ++ xs }

/-- All that was taken was given on in order and once, except for `rest`. -/
def Owes (l : Link α) (rest : List α) : Prop := l.taken = l.given ++ rest

/-- Nothing is held back. -/
def Settled (l : Link α) : Prop := l.given = l.taken

variable {l : Link α} {rest : List α}

theorem owes_nil_iff : l.Owes [] ↔ l.Settled := by
  unfold Owes Settled
  rw [List.append_nil, eq_comm]

theorem settled_empty : (empty : Link α).Settled := rfl

theorem Owes.in_order (h : l.Owes rest) : l.given <+: l.taken := ⟨rest, h.symm⟩

theorem Settled.in_order (h : l.Settled) : l.given <+: l.taken := (owes_nil_iff.mpr h).in_order

/-- Taking from the source adds to the debt. -/
theorem Settled.take (h : l.Settled) (xs : List α) : (l.take xs).Owes xs := by
  unfold Owes Link.take
  rw [← h]

/-- What the sink accepts from the front of the debt is paid. -/
theorem Owes.give (h : l.Owes rest) (n : Nat) : (l.give (rest.take n)).Owes (rest.drop n) := by
  unfold Owes Link.give
  rw [List.append_assoc, List.take_append_drop]
  exact h

/-- A debt that was accepted as a whole leaves nothing. -/
theorem Owes.give_all (h : l.Owes rest) {n : Nat} (hn : rest.length ≤ n) :
    (l.give (rest.take n)).Settled := by
  apply owes_nil_iff.mp
  have howes := h.give n
  rwa [List.drop_of_length_le hn] at howes

end Link

end relay
