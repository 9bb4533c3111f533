import Mathlib.Data.List.Nodup
import CodeTools.Lib.Heap

/-!
# Rings of cells

A queue of doubly linked entries and the head that it hangs on. The head has the
same two fields as an entry, so that the queue is a ring: `next` of the last entry
is `NULL` where the ring would go back to the head.
-/

namespace cmem

/-- What a pointer to a link can point into. -/
inductive Cell where
  | head (h : Nat)
  | entry (a : Nat)
deriving DecidableEq, Repr

/-- How a cell is named in a `next` field. -/
def Cell.ptr : Cell → Ptr
  | .head _ => none
  | .entry a => some a

/-- The pointer to the next entry, and the address of the field that points here. -/
structure Links where
  next : Ptr
  prev : Option Cell
deriving DecidableEq, Repr

/-- The links of every cell that there is. -/
abbrev Cells := Cell → Option Links

namespace Cells

def read (m : Cells) (c : Cell) : Except Fault Links := (m c).elim (.error .danglingPointer) .ok

/-- Follow the address of a field. -/
def deref (m : Cells) (c : Option Cell) : Except Fault Links := c.elim (.error .nullPointer) m.read

def put (m : Cells) (c : Cell) (x : Links) : Cells := Function.update m c (some x)

def setNext (m : Cells) (c : Cell) (p : Ptr) : Except Fault Cells := do
  let x ← m.read c
  .ok (m.put c { x with next := p })

def setPrev (m : Cells) (c : Cell) (p : Option Cell) : Except Fault Cells := do
  let x ← m.read c
  .ok (m.put c { x with prev := p })

def nextOf (m : Cells) (c : Cell) : Option Ptr := (m c).map (·.next)

def prevOf (m : Cells) (c : Cell) : Option (Option Cell) := (m c).map (·.prev)

variable {m m' : Cells} {c x y : Cell}

theorem read_of_next {p : Ptr} (hnext : m.nextOf c = some p) : ∃ x, m.read c = .ok x ∧ x.next = p := by
  obtain ⟨x, hx, hp⟩ := Option.map_eq_some_iff.mp hnext
  exact ⟨x, by rw [read, hx]; rfl, hp⟩

theorem read_of_prev {p : Option Cell} (hprev : m.prevOf c = some p) : ∃ x, m.read c = .ok x ∧ x.prev = p := by
  obtain ⟨x, hx, hp⟩ := Option.map_eq_some_iff.mp hprev
  exact ⟨x, by rw [read, hx]; rfl, hp⟩

theorem live_of_next {p : Ptr} (hnext : m.nextOf c = some p) : (m c).isSome := by
  obtain ⟨x, hx, _⟩ := Option.map_eq_some_iff.mp hnext
  rw [hx, Option.isSome_some]

theorem live_of_prev {p : Option Cell} (hprev : m.prevOf c = some p) : (m c).isSome := by
  obtain ⟨x, hx, _⟩ := Option.map_eq_some_iff.mp hprev
  rw [hx, Option.isSome_some]

theorem nextOf_put (m : Cells) (c : Cell) (x : Links) :
    (m.put c x).nextOf = Function.update m.nextOf c (some x.next) := by
  funext d
  unfold nextOf put
  by_cases hd : d = c
  · rw [hd, Function.update_self, Function.update_self]
    rfl
  · rw [Function.update_of_ne hd, Function.update_of_ne hd]

theorem prevOf_put (m : Cells) (c : Cell) (x : Links) :
    (m.put c x).prevOf = Function.update m.prevOf c (some x.prev) := by
  funext d
  unfold prevOf put
  by_cases hd : d = c
  · rw [hd, Function.update_self, Function.update_self]
    rfl
  · rw [Function.update_of_ne hd, Function.update_of_ne hd]

/-- A write to one field of a cell that there is. -/
theorem setNext_spec (hlive : (m c).isSome) (p : Ptr) :
    ∃ m', m.setNext c p = .ok m' ∧ m'.nextOf = Function.update m.nextOf c (some p) ∧ m'.prevOf = m.prevOf ∧
      ∀ d, (m' d).isSome = (m d).isSome := by
  obtain ⟨x, hx⟩ := Option.isSome_iff_exists.mp hlive
  refine ⟨m.put c { x with next := p }, ?_, nextOf_put m c _, ?_, ?_⟩
  · rw [setNext, read, hx]
    rfl
  · rw [prevOf_put]
    refine Function.update_eq_self_iff.mpr ?_
    rw [prevOf, hx]
    rfl
  · intro d
    unfold put
    by_cases hd : d = c
    · rw [hd, Function.update_self, hx, Option.isSome_some, Option.isSome_some]
    · rw [Function.update_of_ne hd]

theorem setPrev_spec (hlive : (m c).isSome) (p : Option Cell) :
    ∃ m', m.setPrev c p = .ok m' ∧ m'.nextOf = m.nextOf ∧ m'.prevOf = Function.update m.prevOf c (some p) ∧
      ∀ d, (m' d).isSome = (m d).isSome := by
  obtain ⟨x, hx⟩ := Option.isSome_iff_exists.mp hlive
  refine ⟨m.put c { x with prev := p }, ?_, ?_, prevOf_put m c _, ?_⟩
  · rw [setPrev, read, hx]
    rfl
  · rw [nextOf_put]
    refine Function.update_eq_self_iff.mpr ?_
    rw [nextOf, hx]
    rfl
  · intro d
    unfold put
    by_cases hd : d = c
    · rw [hd, Function.update_self, hx, Option.isSome_some, Option.isSome_some]
    · rw [Function.update_of_ne hd]

end Cells

/-! ## Consecutive cells -/

/-- Each cell is linked to the one after it, and that one back. -/
def Joined (m : Cells) : List Cell → Prop
  | x :: y :: cs => m.nextOf x = some y.ptr ∧ m.prevOf y = some (some x) ∧ Joined m (y :: cs)
  | _ => True

variable {m m' : Cells} {x y : Cell} {cs ds : List Cell}

/-- Only `next` of all cells but the last and `prev` of all but the first matter. -/
theorem Joined.congr (h : Joined m cs) (hnext : ∀ c ∈ cs.dropLast, m'.nextOf c = m.nextOf c)
    (hprev : ∀ c ∈ cs.tail, m'.prevOf c = m.prevOf c) : Joined m' cs := by
  induction cs with
  | nil => trivial
  | cons x cs ih =>
    cases cs with
    | nil => trivial
    | cons y cs =>
      obtain ⟨hx, hy, hrest⟩ := h
      refine ⟨(hnext x List.mem_cons_self).trans hx, (hprev y List.mem_cons_self).trans hy, ih hrest ?_ ?_⟩
      · intro c hc
        exact hnext c (List.mem_cons_of_mem x hc)
      · intro c hc
        exact hprev c (List.mem_of_mem_tail hc)

/-- Two stretches and the seam between them. -/
theorem joined_append : Joined m (cs ++ x :: y :: ds) ↔
    Joined m (cs ++ [x]) ∧ (m.nextOf x = some y.ptr ∧ m.prevOf y = some (some x)) ∧ Joined m (y :: ds) := by
  induction cs with
  | nil => exact ⟨fun h => ⟨trivial, ⟨h.1, h.2.1⟩, h.2.2⟩, fun h => ⟨h.2.1.1, h.2.1.2, h.2.2⟩⟩
  | cons c cs ih =>
    cases cs with
    | nil =>
      constructor
      · rintro ⟨hc, hx, hxy, hy, hrest⟩
        exact ⟨⟨hc, hx, trivial⟩, ⟨hxy, hy⟩, hrest⟩
      · rintro ⟨⟨hc, hx, _⟩, ⟨hxy, hy⟩, hrest⟩
        exact ⟨hc, hx, hxy, hy, hrest⟩
    | cons d cs =>
      constructor
      · rintro ⟨hc, hd, hrest⟩
        obtain ⟨hleft, hseam, hright⟩ := ih.mp hrest
        exact ⟨⟨hc, hd, hleft⟩, hseam, hright⟩
      · rintro ⟨⟨hc, hd, hleft⟩, hseam, hright⟩
        exact ⟨hc, hd, ih.mpr ⟨hleft, hseam, hright⟩⟩

theorem Joined.left (h : Joined m (cs ++ ds)) : Joined m cs := by
  induction cs with
  | nil => trivial
  | cons x cs ih =>
    cases cs with
    | nil => trivial
    | cons y cs => exact ⟨h.1, h.2.1, ih h.2.2⟩

theorem Joined.right (h : Joined m (cs ++ ds)) : Joined m ds := by
  induction cs with
  | nil => exact h
  | cons x cs ih =>
    cases cs with
    | nil =>
      cases ds with
      | nil => trivial
      | cons y ds => exact h.2.2
    | cons y cs => exact ih h.2.2

/-! ## The ring of a queue -/

/-- The cell that a queue which holds `as` so far ends at. -/
def before (h : Nat) (as : List Nat) : Cell := as.getLast?.elim (.head h) .entry

/-- The cell that it goes on with when `as` is still to come. -/
def after (h : Nat) (as : List Nat) : Cell := as.head?.elim (.head h) .entry

/-- The cells of a queue. -/
def Queued (h : Nat) (as : List Nat) (c : Cell) : Prop := c = .head h ∨ ∃ b ∈ as, c = .entry b

def Ring (m : Cells) (h : Nat) (as : List Nat) : Prop := Joined m (.head h :: (as.map .entry ++ [.head h]))

variable {h a : Nat} {l r : List Nat}

theorem after_ptr (h : Nat) (as : List Nat) : (after h as).ptr = as.head? := by
  cases as <;> rfl

/-- The queue as seen from a place in it. -/
theorem ring_append : Ring m h (l ++ r) ↔ Joined m (.head h :: l.map .entry) ∧
    (m.nextOf (before h l) = some (after h r).ptr ∧ m.prevOf (after h r) = some (some (before h l))) ∧
      Joined m (r.map .entry ++ [.head h]) := by
  have hleft : ∃ cs, Cell.head h :: l.map .entry = cs ++ [before h l] := by
    obtain rfl | ⟨l', b, rfl⟩ := List.eq_nil_or_concat l
    · exact ⟨[], rfl⟩
    · exact ⟨.head h :: l'.map .entry, by simp [before]⟩
  have hright : ∃ ds, r.map .entry ++ [.head h] = after h r :: ds := by
    cases r with
    | nil => exact ⟨[], rfl⟩
    | cons b r => exact ⟨_, rfl⟩
  obtain ⟨cs, hcs⟩ := hleft
  obtain ⟨ds, hds⟩ := hright
  unfold Ring
  rw [List.map_append, List.append_assoc, hds, ← List.cons_append, hcs, List.append_assoc, List.singleton_append]
  exact joined_append

theorem joined_cons : Joined m (.entry a :: (r.map .entry ++ [.head h])) ↔
    (m.nextOf (.entry a) = some (after h r).ptr ∧ m.prevOf (after h r) = some (some (.entry a))) ∧
      Joined m (r.map .entry ++ [.head h]) := by
  cases r with
  | nil => exact ⟨fun h => ⟨⟨h.1, h.2.1⟩, h.2.2⟩, fun h => ⟨h.1.1, h.1.2, h.2⟩⟩
  | cons b r => exact ⟨fun h => ⟨⟨h.1, h.2.1⟩, h.2.2⟩, fun h => ⟨h.1.1, h.1.2, h.2⟩⟩

theorem mem_of_before {b : Nat} (hb : before h l = .entry b) : b ∈ l := by
  unfold before at hb
  cases hlast : l.getLast? with
  | none =>
    rw [hlast] at hb
    cases hb
  | some c =>
    rw [hlast] at hb
    cases hb
    exact List.mem_of_getLast? hlast

theorem mem_of_after {b : Nat} (hb : after h r = .entry b) : b ∈ r := by
  cases r with
  | nil => cases hb
  | cons c r =>
    cases hb
    exact List.mem_cons_self

/-- Writing the two fields at a place in the queue keeps what is on either side. -/
theorem joined_halves (hnodup : (l ++ r).Nodup) (hleft : Joined m (.head h :: l.map .entry))
    (hright : Joined m (r.map .entry ++ [.head h]))
    (hnext : ∀ c, Queued h (l ++ r) c → c ≠ before h l → m'.nextOf c = m.nextOf c)
    (hprev : ∀ c, Queued h (l ++ r) c → c ≠ after h r → m'.prevOf c = m.prevOf c) :
    Joined m' (.head h :: l.map .entry) ∧ Joined m' (r.map .entry ++ [.head h]) := by
  obtain ⟨hl, hr, hapart⟩ := List.nodup_append.mp hnodup
  refine ⟨hleft.congr ?_ ?_, hright.congr ?_ ?_⟩
  · intro c hc
    obtain rfl | ⟨l, b, rfl⟩ := List.eq_nil_or_concat l
    · cases hc
    · rw [List.concat_eq_append, List.map_append, List.map_singleton, ← List.cons_append, List.dropLast_concat] at hc
      have hlast : before h (l ++ [b]) = .entry b := by simp [before]
      rw [List.concat_eq_append] at hnext hl
      rcases List.mem_cons.mp hc with rfl | hc
      · exact hnext _ (Or.inl rfl) (by rw [hlast]; nofun)
      · obtain ⟨d, hd, rfl⟩ := List.mem_map.mp hc
        refine hnext _ (Or.inr ⟨d, by simp [hd], rfl⟩) ?_
        rw [hlast]
        intro heq
        exact (List.nodup_append.mp hl).2.2 d hd b (by simp) (Cell.entry.inj heq)
  · intro c hc
    obtain ⟨d, hd, rfl⟩ := List.mem_map.mp hc
    refine hprev _ (Or.inr ⟨d, by simp [hd], rfl⟩) fun heq => ?_
    exact hapart d hd d (mem_of_after heq.symm) rfl
  · intro c hc
    rw [List.dropLast_concat] at hc
    obtain ⟨d, hd, rfl⟩ := List.mem_map.mp hc
    refine hnext _ (Or.inr ⟨d, by simp [hd], rfl⟩) fun heq => ?_
    exact hapart d (mem_of_before heq.symm) d hd rfl
  · intro c hc
    cases r with
    | nil => cases hc
    | cons e r =>
      rcases List.mem_append.mp hc with hc | hc
      · obtain ⟨d, hd, rfl⟩ := List.mem_map.mp hc
        refine hprev _ (Or.inr ⟨d, by simp [hd], rfl⟩) ?_
        rintro ⟨⟩
        exact (List.nodup_cons.mp hr).1 hd
      · rw [List.mem_singleton.mp hc]
        exact hprev _ (Or.inl rfl) nofun

/-- A queue whose own fields are kept is kept. -/
theorem Ring.congr {as : List Nat} (hring : Ring m h as)
    (hnext : ∀ c, Queued h as c → m'.nextOf c = m.nextOf c)
    (hprev : ∀ c, Queued h as c → m'.prevOf c = m.prevOf c) : Ring m' h as := by
  refine Joined.congr hring ?_ ?_
  · intro c hc
    rw [← List.cons_append, List.dropLast_concat] at hc
    rcases List.mem_cons.mp hc with rfl | hc
    · exact hnext _ (Or.inl rfl)
    · obtain ⟨d, hd, rfl⟩ := List.mem_map.mp hc
      exact hnext _ (Or.inr ⟨d, hd, rfl⟩)
  · intro c hc
    rcases List.mem_append.mp hc with hc | hc
    · obtain ⟨d, hd, rfl⟩ := List.mem_map.mp hc
      exact hprev _ (Or.inr ⟨d, hd, rfl⟩)
    · rw [List.mem_singleton.mp hc]
      exact hprev _ (Or.inl rfl)

/-- The rest of a queue under another head. -/
theorem joined_rehead {h' : Nat} (hr : r ≠ []) (hright : Joined m (r.map .entry ++ [.head h]))
    (hnext : ∀ b ∈ r, m'.nextOf (.entry b) = m.nextOf (.entry b))
    (hprev : ∀ b ∈ r.tail, m'.prevOf (.entry b) = m.prevOf (.entry b))
    (hhead : m'.prevOf (.head h') = some (some (before h r))) : Joined m' (r.map .entry ++ [.head h']) := by
  induction r with
  | nil => exact absurd rfl hr
  | cons v r ih =>
    cases r with
    | nil => exact ⟨(hnext v List.mem_cons_self).trans hright.1, hhead, trivial⟩
    | cons w r =>
      obtain ⟨hv, hw, hrest⟩ := hright
      refine ⟨(hnext v List.mem_cons_self).trans hv, (hprev w List.mem_cons_self).trans hw, ih nofun hrest ?_ ?_ ?_⟩
      · exact fun b hb => hnext b (List.mem_cons_of_mem v hb)
      · exact fun b hb => hprev b (List.mem_cons_of_mem w hb)
      · exact hhead

/-- The four fields that put an entry between two neighbours. -/
structure Inserts (m m' : Cells) (x y : Cell) (a : Nat) : Prop where
  next : m'.nextOf = Function.update (Function.update m.nextOf (.entry a) (some y.ptr)) x (some (some a))
  prev : m'.prevOf = Function.update (Function.update m.prevOf (.entry a) (some (some x))) y (some (some (.entry a)))

theorem Inserts.ring (hinserts : Inserts m m' (before h l) (after h r) a) (hring : Ring m h (l ++ r))
    (hnodup : (l ++ r).Nodup) (ha : a ∉ l ++ r) : Ring m' h (l ++ a :: r) := by
  obtain ⟨hleft, _, hright⟩ := ring_append.mp hring
  have hbefore : before h l ≠ .entry a := fun heq => ha (List.mem_append_left _ (mem_of_before heq))
  have hafter : after h r ≠ .entry a := fun heq => ha (List.mem_append_right _ (mem_of_after heq))
  have hother : ∀ c, Queued h (l ++ r) c → c ≠ .entry a := by
    rintro c (rfl | ⟨b, hb, rfl⟩)
    · nofun
    · rintro ⟨⟩
      exact ha hb
  have hsides : Joined m' (.head h :: l.map .entry) ∧ Joined m' (r.map .entry ++ [.head h]) :=
    joined_halves hnodup hleft hright
      (fun c hc hne => by rw [hinserts.next, Function.update_of_ne hne, Function.update_of_ne (hother c hc)])
      (fun c hc hne => by rw [hinserts.prev, Function.update_of_ne hne, Function.update_of_ne (hother c hc)])
  obtain ⟨hleft', hright'⟩ := hsides
  refine ring_append.mpr ⟨hleft', ⟨?_, ?_⟩, joined_cons.mpr ⟨⟨?_, ?_⟩, hright'⟩⟩
  · rw [hinserts.next, Function.update_self]
    rfl
  · show m'.prevOf (.entry a) = _
    rw [hinserts.prev, Function.update_of_ne (Ne.symm hafter), Function.update_self]
  · rw [hinserts.next, Function.update_of_ne (Ne.symm hbefore), Function.update_self]
  · rw [hinserts.prev, Function.update_self]

/-- The two fields that link the neighbours of an entry to each other. -/
structure Removes (m m' : Cells) (x y : Cell) : Prop where
  next : m'.nextOf = Function.update m.nextOf x (some y.ptr)
  prev : m'.prevOf = Function.update m.prevOf y (some (some x))

theorem Removes.ring (hremoves : Removes m m' (before h l) (after h r)) (hring : Ring m h (l ++ a :: r))
    (hnodup : (l ++ r).Nodup) : Ring m' h (l ++ r) := by
  obtain ⟨hleft, _, hrest⟩ := ring_append.mp hring
  obtain ⟨_, hright⟩ := joined_cons.mp hrest
  have hsides : Joined m' (.head h :: l.map .entry) ∧ Joined m' (r.map .entry ++ [.head h]) :=
    joined_halves hnodup hleft hright
      (fun c _ hne => by rw [hremoves.next, Function.update_of_ne hne])
      (fun c _ hne => by rw [hremoves.prev, Function.update_of_ne hne])
  obtain ⟨hleft', hright'⟩ := hsides
  refine ring_append.mpr ⟨hleft', ⟨?_, ?_⟩, hright'⟩
  · rw [hremoves.next, Function.update_self]
  · rw [hremoves.prev, Function.update_self]

end cmem
