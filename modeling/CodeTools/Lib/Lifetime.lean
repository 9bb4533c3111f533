import Mathlib.Tactic.Common

/-!
# Lifetimes of objects behind pointers

A program gets objects, uses them and gives them back, always through pointers
that may be `NULL`. A pointer may come back with another object once the first is
gone. The rules follow a program that has at most one object at a time.
-/

namespace lifetime

inductive Event (α : Type*) where
  | acquire (p : Option α)
  | use (p : Option α)
  | release (p : Option α)
deriving DecidableEq, Repr

variable {α : Type*} [DecidableEq α]

/-- How often an object was got behind the pointer. -/
def acquired (t : List (Event α)) (a : α) : Nat := t.count (.acquire (some a))

def released (t : List (Event α)) (a : α) : Nat := t.count (.release (some a))

/-- There is an object behind the pointer: the last one was not given back. -/
def Open (t : List (Event α)) (a : α) : Prop := acquired t a = released t a + 1

/-- What is got is new; what is used or given back is open. `NULL` may only be
    given back. -/
def Event.Lawful (t : List (Event α)) : Event α → Prop
  | .acquire p => ∀ a, p = some a → acquired t a = released t a
  | .use p => ∃ a, p = some a ∧ Open t a
  | .release p => ∀ a, p = some a → Open t a

/-- Every event is lawful after those before it. -/
def Lawful (t : List (Event α)) : Prop :=
  ∀ before e after, t = before ++ e :: after → e.Lawful before

/-- The events are lawful, and exactly the object behind `p` is open. -/
structure Holds (t : List (Event α)) (p : Option α) : Prop where
  lawful : Lawful t
  count : ∀ a, acquired t a = released t a + if p = some a then 1 else 0

/-- The events lead from a program that holds `p` to one that holds `q`. -/
def Moves (p : Option α) (t : List (Event α)) (q : Option α) : Prop :=
  ∀ before, Holds before p → Holds (before ++ t) q

variable {p q r : Option α} {t t' : List (Event α)} {a : α}

theorem Holds.nil : Holds ([] : List (Event α)) none := by
  refine ⟨fun before e after heq => ?_, fun a => rfl⟩
  exact absurd heq.symm (List.append_ne_nil_of_right_ne_nil before (List.cons_ne_nil e after))

theorem lawful_concat {e : Event α} (hlawful : Lawful t) (he : e.Lawful t) : Lawful (t ++ [e]) := by
  intro before e' after heq
  rcases List.eq_nil_or_concat after with rfl | ⟨after', e'', rfl⟩
  · obtain ⟨rfl, hlast⟩ := List.append_inj' heq rfl
    cases hlast
    exact he
  · rw [List.concat_eq_append, ← List.cons_append, ← List.append_assoc] at heq
    obtain ⟨hinit, _⟩ := List.append_inj' heq rfl
    exact hlawful before e' after' hinit

theorem Holds.open_iff (hholds : Holds t p) : Open t a ↔ p = some a := by
  unfold Open
  rw [hholds.count a]
  by_cases hp : p = some a <;> simp [hp]

theorem acquired_concat (t : List (Event α)) (e : Event α) (a : α) :
    acquired (t ++ [e]) a = acquired t a + if e = .acquire (some a) then 1 else 0 := by
  unfold acquired
  rw [List.count_append, List.count_singleton]
  simp

theorem released_concat (t : List (Event α)) (e : Event α) (a : α) :
    released (t ++ [e]) a = released t a + if e = .release (some a) then 1 else 0 := by
  unfold released
  rw [List.count_append, List.count_singleton]
  simp

theorem Moves.nil (p : Option α) : Moves p [] p := fun before hholds => by rwa [List.append_nil]

theorem Moves.trans (hmoves : Moves p t q) (hmoves' : Moves q t' r) : Moves p (t ++ t') r := by
  intro before hholds
  rw [← List.append_assoc]
  exact hmoves' _ (hmoves before hholds)

/-- An attempt to get an object, which may fail. -/
theorem Moves.acquire (q : Option α) : Moves none [.acquire q] q := by
  intro before hholds
  refine ⟨lawful_concat hholds.lawful fun a _ => by simpa using hholds.count a, fun a => ?_⟩
  rw [acquired_concat, released_concat, hholds.count a]
  simp

theorem Moves.use (a : α) : Moves (some a) [.use (some a)] (some a) := by
  intro before hholds
  refine ⟨lawful_concat hholds.lawful ⟨a, rfl, hholds.open_iff.mpr rfl⟩, fun b => ?_⟩
  rw [acquired_concat, released_concat, hholds.count b]
  simp

/-- What is held, if anything, is given back. -/
theorem Moves.release (p : Option α) : Moves p [.release p] none := by
  intro before hholds
  refine ⟨lawful_concat hholds.lawful fun a hp => hholds.open_iff.mpr hp, fun b => ?_⟩
  rw [acquired_concat, released_concat, hholds.count b]
  simp

/-- Several uses of one object. -/
theorem Moves.uses (hall : ∀ e ∈ t, e = .use (some a)) : Moves (some a) t (some a) := by
  induction t with
  | nil => exact Moves.nil _
  | cons e t ih =>
    rw [hall e List.mem_cons_self]
    exact (Moves.use a).trans (ih fun e' he' => hall e' (List.mem_cons_of_mem e he'))

/-- When nothing is held at the end, every object was given back as often as it was got. -/
theorem Holds.acquired_eq_released (hholds : Holds t none) (a : α) : acquired t a = released t a :=
  hholds.count a

end lifetime
