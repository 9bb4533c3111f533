import Mathlib.Algebra.Group.Int.Defs
import Mathlib.Algebra.Group.Nat.Defs
import Mathlib.Tactic.Common

/-!
# Heaps of separately allocated objects

An object is named by the position of its allocation and no name is given out
twice, so a pointer to a freed object never denotes a later one.
-/

namespace cmem

/-- The ways an execution can leave the behavior that C defines. `outOfFuel`
    stands for a loop that was not given enough steps. -/
inductive Fault where
  | nullPointer
  | danglingPointer
  | outOfBounds
  | divideByZero
  | outOfFuel
deriving DecidableEq, Repr

theorem bind_eq_ok_iff {ε α β : Type} {x : Except ε α} {f : α → Except ε β} {y : β} :
    (x >>= f) = .ok y ↔ ∃ a, x = .ok a ∧ f a = .ok y := by
  cases x <;> simp [Bind.bind, Except.bind]

theorem ok_bind {ε α β : Type} (a : α) (f : α → Except ε β) :
    ((Except.ok a : Except ε α) >>= f) = f a := rfl

/-- A computation has one result. -/
theorem ok_inj {ε α β : Type} {x : Except ε (α × β)} {a a' : α} {b b' : β} (h : x = .ok (a, b))
    (h' : x = .ok (a', b')) : a = a' ∧ b = b' :=
  Prod.mk.inj (Except.ok.inj (h.symm.trans h'))

/-- The computation does not end in the given fault. -/
def Avoids {α : Type*} (f : Fault) (x : Except Fault α) : Prop := x ≠ .error f

theorem avoids_ok {α : Type*} (f : Fault) (a : α) : Avoids f (.ok a) := nofun

theorem Avoids.bind {α β : Type} {f : Fault} {x : Except Fault α} {g : α → Except Fault β} (hx : Avoids f x)
    (hg : ∀ a, x = .ok a → Avoids f (g a)) : Avoids f (x >>= g) := by
  cases x with
  | error e => exact fun heq => hx (congrArg Except.error (Except.error.inj heq))
  | ok a => exact hg a rfl

/-- A nullable pointer; `none` is `NULL`. -/
abbrev Ptr := Option Nat

structure Heap (α : Type*) where
  cells : List (Option α)
deriving DecidableEq, Repr

namespace Heap

variable {α : Type*}

def empty : Heap α := ⟨[]⟩

/-- The live object at an address. -/
def get? (h : Heap α) (a : Nat) : Option α := (h.cells[a]?).join

/-- Read through a pointer. -/
def deref (h : Heap α) : Ptr → Except Fault α
  | none => .error .nullPointer
  | some a => (h.get? a).elim (.error .danglingPointer) .ok

/-- Replace the object at an address. -/
def put (h : Heap α) (a : Nat) (x : α) : Heap α := ⟨h.cells.set a (some x)⟩

/-- Update the object behind a pointer in place. -/
def modify (h : Heap α) (p : Ptr) (f : α → α) : Except Fault (Heap α) :=
  match p with
  | none => .error .nullPointer
  | some a => (h.get? a).elim (.error .danglingPointer) fun x => .ok (h.put a (f x))

/-- The guarded update `if (p) ... p->field = ...`. -/
def modifyNonNull (h : Heap α) (p : Ptr) (f : α → α) : Except Fault (Heap α) :=
  if p.isNone then .ok h else h.modify p f

/-- Allocate an object under a fresh address. -/
def alloc (h : Heap α) (x : α) : Heap α × Nat := (⟨h.cells ++ [some x]⟩, h.cells.length)

/-- End the life of an object. -/
def erase (h : Heap α) (a : Nat) : Heap α := ⟨h.cells.set a none⟩

/-- `free` of a pointer; `NULL` is allowed, a freed object is not. -/
def free (h : Heap α) : Ptr → Except Fault (Heap α)
  | none => .ok h
  | some a => (h.get? a).elim (.error .danglingPointer) fun _ => .ok (h.erase a)

theorem lt_length_of_get? {h : Heap α} {a : Nat} {x : α} (hget : h.get? a = some x) :
    a < h.cells.length := by
  by_contra hnot
  have hnone : h.cells[a]? = none := List.getElem?_eq_none (Nat.le_of_not_lt hnot)
  simp [get?, hnone] at hget

theorem get?_fresh (h : Heap α) : h.get? h.cells.length = none := by
  simp [get?]

theorem deref_eq_ok_iff {h : Heap α} {p : Ptr} {x : α} :
    h.deref p = .ok x ↔ ∃ a, p = some a ∧ h.get? a = some x := by
  cases p with
  | none => simp [deref]
  | some a => cases hget : h.get? a <;> simp [deref, hget]

@[simp] theorem deref_some {h : Heap α} {a : Nat} {x : α} (hget : h.get? a = some x) :
    h.deref (some a) = .ok x :=
  deref_eq_ok_iff.mpr ⟨a, rfl, hget⟩

theorem modify_some {h : Heap α} {a : Nat} {x : α} (f : α → α) (hget : h.get? a = some x) :
    h.modify (some a) f = .ok (h.put a (f x)) := by
  simp [modify, hget]

theorem modifyNonNull_none (h : Heap α) (f : α → α) : h.modifyNonNull none f = .ok h := rfl

theorem modifyNonNull_some {h : Heap α} {a : Nat} {x : α} (f : α → α) (hget : h.get? a = some x) :
    h.modifyNonNull (some a) f = .ok (h.put a (f x)) := by
  simp [modifyNonNull, modify_some f hget]

theorem free_some {h : Heap α} {a : Nat} {x : α} (hget : h.get? a = some x) :
    h.free (some a) = .ok (h.erase a) := by
  simp [free, hget]

theorem get?_put_self {h : Heap α} {a : Nat} {x y : α} (hget : h.get? a = some x) :
    (h.put a y).get? a = some y := by
  have hlt := lt_length_of_get? hget
  simp [get?, put, hlt]

theorem get?_put_of_ne (h : Heap α) {a b : Nat} (x : α) (hne : b ≠ a) :
    (h.put a x).get? b = h.get? b := by
  simp [get?, put, Ne.symm hne]

theorem get?_erase_self (h : Heap α) (a : Nat) : (h.erase a).get? a = none := by
  by_cases hlt : a < h.cells.length <;> simp [get?, erase, hlt]

theorem get?_erase_of_ne (h : Heap α) {a b : Nat} (hne : b ≠ a) :
    (h.erase a).get? b = h.get? b := by
  simp [get?, erase, Ne.symm hne]

theorem get?_alloc_self (h : Heap α) (x : α) : (h.alloc x).1.get? (h.alloc x).2 = some x := by
  simp [get?, alloc]

theorem get?_alloc_of_live {h : Heap α} {a : Nat} {x : α} (y : α) (hget : h.get? a = some x) :
    (h.alloc y).1.get? a = some x := by
  have hlt := lt_length_of_get? hget
  simpa [get?, alloc, List.getElem?_append_left hlt] using hget

theorem get?_alloc_of_ne (h : Heap α) {a : Nat} (x : α) (hne : a ≠ h.cells.length) :
    (h.alloc x).1.get? a = h.get? a := by
  unfold get? alloc
  by_cases hlt : a < h.cells.length
  · rw [List.getElem?_append_left hlt]
  · rw [List.getElem?_eq_none (by simp; omega), List.getElem?_eq_none (by omega)]

/-- How many objects are live. -/
def live (h : Heap α) : Nat := h.cells.countP (·.isSome)

/-- Freeing an object leaves one less. -/
theorem live_erase {h : Heap α} {a : Nat} {x : α} (hget : h.get? a = some x) : (h.erase a).live + 1 = h.live := by
  have hlt := lt_length_of_get? hget
  have hsome : h.cells[a].isSome = true := by
    rw [get?, List.getElem?_eq_getElem hlt, Option.join_some] at hget
    rw [hget]
    rfl
  have hpos : 0 < h.cells.countP (·.isSome) := List.countP_pos_iff.mpr ⟨_, List.getElem_mem hlt, hsome⟩
  unfold live erase
  rw [List.countP_set hlt, if_pos hsome, if_neg (by simp)]
  omega

/-- A name that is out of use is not among the live ones. -/
theorem live_lt_length {h : Heap α} {a : Nat} (hlt : a < h.cells.length) (hdead : h.get? a = none) :
    h.live < h.cells.length := by
  have hnone : h.cells[a] = none := by
    rwa [get?, List.getElem?_eq_getElem hlt, Option.join_some] at hdead
  unfold live
  rw [List.countP_eq_length_filter]
  refine List.length_filter_lt_length_iff_exists.mpr ⟨_, List.getElem_mem hlt, ?_⟩
  rw [hnone, Option.isSome_none]
  exact Bool.false_ne_true

/-- The heap `h'` comes after `h`: objects were allocated, updated and freed, and a
    name that was out of use is so still. -/
structure Later (h h' : Heap α) : Prop where
  length : h.cells.length ≤ h'.cells.length
  dead : ∀ a, a < h.cells.length → h.get? a = none → h'.get? a = none

theorem Later.refl (h : Heap α) : Later h h := ⟨Nat.le_refl _, fun _ _ hdead => hdead⟩

theorem Later.trans {h₁ h₂ h₃ : Heap α} (h : Later h₁ h₂) (h' : Later h₂ h₃) : Later h₁ h₃ :=
  ⟨Nat.le_trans h.length h'.length,
    fun a hlt hdead => h'.dead a (Nat.lt_of_lt_of_le hlt h.length) (h.dead a hlt hdead)⟩

theorem later_alloc (h : Heap α) (x : α) : Later h (h.alloc x).1 := by
  refine ⟨by simp [alloc], ?_⟩
  intro a hlt hdead
  rw [get?_alloc_of_ne h x (Nat.ne_of_lt hlt), hdead]

theorem later_erase (h : Heap α) (a : Nat) : Later h (h.erase a) := by
  refine ⟨by simp [erase], ?_⟩
  intro b _ hdead
  by_cases hb : b = a
  · rw [hb, get?_erase_self]
  · rw [get?_erase_of_ne h hb, hdead]

theorem later_of_modify {h h' : Heap α} {p : Ptr} {f : α → α} (hmodify : h.modify p f = .ok h') : Later h h' := by
  cases p with
  | none => cases hmodify
  | some a =>
    cases hget : h.get? a with
    | none => simp [modify, hget] at hmodify
    | some x =>
      rw [modify_some f hget] at hmodify
      cases hmodify
      refine ⟨by simp [put], ?_⟩
      intro b _ hdead
      rw [get?_put_of_ne, hdead]
      rintro rfl
      rw [hget] at hdead
      cases hdead

theorem later_of_modifyNonNull {h h' : Heap α} {p : Ptr} {f : α → α} (hmodify : h.modifyNonNull p f = .ok h') :
    Later h h' := by
  cases p with
  | none =>
    cases hmodify
    exact .refl h
  | some a =>
    unfold modifyNonNull at hmodify
    rw [if_neg (by simp)] at hmodify
    exact later_of_modify hmodify

/-- A live object is kept or updated. -/
theorem get?_of_modifyNonNull {h h' : Heap α} {p : Ptr} {f : α → α} (hmodify : h.modifyNonNull p f = .ok h') {a : Nat}
    {x : α} (hget : h.get? a = some x) : h'.get? a = some x ∨ h'.get? a = some (f x) := by
  cases p with
  | none =>
    cases hmodify
    exact Or.inl hget
  | some b =>
    cases hlive : h.get? b with
    | none => simp [modifyNonNull, modify, hlive] at hmodify
    | some y =>
      rw [modifyNonNull_some f hlive] at hmodify
      cases hmodify
      by_cases hab : a = b
      · subst b
        obtain rfl : x = y := Option.some.inj (hget.symm.trans hlive)
        exact Or.inr (get?_put_self hget)
      · exact Or.inl ((get?_put_of_ne h (f y) hab).trans hget)

theorem later_of_free {h h' : Heap α} {a : Nat} (hfree : h.free (some a) = .ok h') : Later h h' := by
  cases hget : h.get? a with
  | none => simp [free, hget] at hfree
  | some x =>
    rw [free_some hget] at hfree
    cases hfree
    exact later_erase h a

/-! Reading, writing and freeing through a pointer can only go wrong for the
pointer's sake. -/

section Faults

variable {f : Fault} (hnull : f ≠ .nullPointer) (hdangling : f ≠ .danglingPointer)

include hdangling in
theorem elim_avoids {β : Type*} {x : Option α} (g : α → β) :
    Avoids f (x.elim (.error .danglingPointer) fun a => .ok (g a)) := by
  cases x with
  | none => exact fun heq => hdangling (Except.error.inj heq).symm
  | some a => exact avoids_ok f (g a)

include hnull hdangling in
theorem deref_avoids (h : Heap α) (p : Ptr) : Avoids f (h.deref p) := by
  cases p with
  | none => exact fun heq => hnull (Except.error.inj heq).symm
  | some a => exact elim_avoids hdangling id

include hnull hdangling in
theorem modify_avoids (h : Heap α) (p : Ptr) (g : α → α) : Avoids f (h.modify p g) := by
  cases p with
  | none => exact fun heq => hnull (Except.error.inj heq).symm
  | some a => exact elim_avoids hdangling fun x => h.put a (g x)

include hnull hdangling in
theorem modifyNonNull_avoids (h : Heap α) (p : Ptr) (g : α → α) : Avoids f (h.modifyNonNull p g) := by
  unfold modifyNonNull
  split
  · exact avoids_ok f h
  · exact modify_avoids hnull hdangling h p g

include hdangling in
theorem free_avoids (h : Heap α) (p : Ptr) : Avoids f (h.free p) := by
  cases p with
  | none => exact avoids_ok f h
  | some a => exact elim_avoids hdangling fun _ => h.erase a

end Faults

/-- A guarded update through a pointer that is `NULL` or live rewrites just the
    object it points to. -/
theorem modifyNonNull_spec {h : Heap α} {p : Ptr} (f : α → α)
    (hlive : ∀ a, p = some a → ∃ x, h.get? a = some x) :
    ∃ h', h.modifyNonNull p f = .ok h' ∧ h'.cells.length = h.cells.length ∧
      (∀ a, p = some a → h'.get? a = (h.get? a).map f) ∧
      (∀ a, p ≠ some a → h'.get? a = h.get? a) := by
  cases p with
  | none => exact ⟨h, modifyNonNull_none h f, rfl, by simp, fun _ _ => rfl⟩
  | some b =>
    obtain ⟨x, hx⟩ := hlive b rfl
    refine ⟨_, modifyNonNull_some f hx, by simp [put], ?_, ?_⟩
    · intro a ha
      obtain rfl : b = a := Option.some.inj ha
      rw [get?_put_self hx, hx, Option.map_some]
    · intro a ha
      exact get?_put_of_ne h _ fun heq => ha (by rw [heq])

/-! ## One field of every object -/

section View

variable {β : Type*} (f : α → β)

/-- The field `f` of the object at an address, if that object is live. -/
def view (h : Heap α) (a : Nat) : Option β := (h.get? a).map f

variable {f}

theorem view_eq_some_iff {h : Heap α} {a : Nat} {y : β} :
    h.view f a = some y ↔ ∃ x, h.get? a = some x ∧ f x = y := by
  simp [view]

theorem view_put_self {h : Heap α} {a : Nat} {x y : α} (hget : h.get? a = some x) :
    (h.put a y).view f a = some (f y) := by
  simp [view, get?_put_self hget]

theorem view_put_of_ne (h : Heap α) {a b : Nat} (x : α) (hne : b ≠ a) :
    (h.put a x).view f b = h.view f b := by
  simp [view, get?_put_of_ne h x hne]

/-- A write that keeps the field of the object it replaces is not seen. -/
theorem view_put_of_eq {h : Heap α} {a : Nat} {x y : α} (hget : h.get? a = some x)
    (hsame : f y = f x) : (h.put a y).view f = h.view f := by
  funext b
  by_cases hb : b = a
  · subst b
    rw [view_put_self hget, hsame, view, hget, Option.map_some]
  · exact view_put_of_ne h y hb

theorem view_erase_of_ne (h : Heap α) {a b : Nat} (hne : b ≠ a) :
    (h.erase a).view f b = h.view f b := by
  simp [view, get?_erase_of_ne h hne]

end View

@[simp] theorem length_put (h : Heap α) (a : Nat) (x : α) :
    (h.put a x).cells.length = h.cells.length := by
  simp [put]

@[simp] theorem length_erase (h : Heap α) (a : Nat) :
    (h.erase a).cells.length = h.cells.length := by
  simp [erase]

end Heap

end cmem
