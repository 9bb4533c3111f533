import Mathlib.Data.List.Nodup
import CodeTools.Lib.Heap

/-!
# Tail queues

A tail queue is the list of its elements in order, each with the address that
pointers to it hold.
-/

namespace cmem

abbrev Tailq (α : Type) := List (Nat × α)

namespace Tailq

variable {α : Type}

/-- `TAILQ_FIRST` -/
def first (q : Tailq α) : Ptr := q.head?.map Prod.fst

/-- The links of the queue: each address with the one after it. -/
def follower : Tailq α → Nat → Option Ptr
  | [], _ => none
  | x :: q, a => if x.1 = a then some (first q) else follower q a

/-- `TAILQ_NEXT` -/
def next (q : Tailq α) : Ptr → Except Fault Ptr
  | none => .error .nullPointer
  | some a => (follower q a).elim (.error .danglingPointer) .ok

/-- Read an element through a pointer. -/
def read (q : Tailq α) : Ptr → Except Fault α
  | none => .error .nullPointer
  | some a => (q.lookup a).elim (.error .danglingPointer) .ok

/-- Update the element at an address in place. -/
def modify (q : Tailq α) (a : Nat) (f : α → α) : Tailq α :=
  q.map fun x => if x.1 = a then (x.1, f x.2) else x

/-- The addresses of the elements. -/
def addresses (q : Tailq α) : List Nat := q.map Prod.fst

theorem addresses_append (q q' : Tailq α) : addresses (q ++ q') = addresses q ++ addresses q' :=
  List.map_append

variable {pre post : Tailq α} {a : Nat} {x : α}

theorem notMem_of_nodup (hnodup : (addresses (pre ++ (a, x) :: post)).Nodup) :
    a ∉ addresses pre ∧ a ∉ addresses post := by
  rw [addresses_append] at hnodup
  obtain ⟨_, hpost, hdisj⟩ := List.nodup_append.mp hnodup
  refine ⟨fun hmem => hdisj a hmem a ?_ rfl, (List.nodup_cons.mp hpost).1⟩
  simp [addresses]

/-- Elements in front are passed over. -/
theorem next_append {q : Tailq α} (ha : a ∉ addresses pre) : next (pre ++ q) (some a) = next q (some a) := by
  have hfollower : follower (pre ++ q) a = follower q a := by
    induction pre with
    | nil => rfl
    | cons y pre ih =>
      have hne : y.1 ≠ a := by
        rintro rfl
        exact ha (by simp [addresses])
      rw [List.cons_append, follower, if_neg hne]
      exact ih fun hmem => ha (List.mem_cons_of_mem _ hmem)
  simp only [next, hfollower]

theorem read_append {q : Tailq α} (ha : a ∉ addresses pre) : read (pre ++ q) (some a) = read q (some a) := by
  have hlookup : (pre ++ q).lookup a = q.lookup a := by
    induction pre with
    | nil => rfl
    | cons y pre ih =>
      have hne : y.1 ≠ a := by
        rintro rfl
        exact ha (by simp [addresses])
      obtain ⟨b, y⟩ := y
      have hfalse : (a == b) = false := by simpa using Ne.symm hne
      rw [List.cons_append, List.lookup_cons, hfalse]
      exact ih fun hmem => ha (List.mem_cons_of_mem _ hmem)
  simp only [read, hlookup]

theorem modify_append (q q' : Tailq α) (f : α → α) : modify (q ++ q') a f = modify q a f ++ modify q' a f :=
  List.map_append

theorem next_split (hpre : a ∉ addresses pre) :
    next (pre ++ (a, x) :: post) (some a) = .ok (first post) := by
  rw [next_append hpre]
  simp only [next, follower, if_pos, Option.elim_some]

theorem read_split (hpre : a ∉ addresses pre) : read (pre ++ (a, x) :: post) (some a) = .ok x := by
  rw [read_append hpre]
  simp only [read, List.lookup_cons_self, Option.elim_some]

theorem modify_of_notMem {q : Tailq α} (f : α → α) (ha : a ∉ addresses q) : modify q a f = q := by
  unfold modify
  rw [List.map_congr_left (g := id), List.map_id]
  intro y hy
  have hne : y.1 ≠ a := by
    rintro rfl
    exact ha (List.mem_map_of_mem hy)
  simp [hne]

theorem modify_split (f : α → α) (hnodup : (addresses (pre ++ (a, x) :: post)).Nodup) :
    modify (pre ++ (a, x) :: post) a f = pre ++ (a, f x) :: post := by
  obtain ⟨hpre, hpost⟩ := notMem_of_nodup hnodup
  have hfirst := modify_of_notMem f hpre
  have hlast := modify_of_notMem f hpost
  rw [modify_append, hfirst]
  unfold modify at hlast ⊢
  rw [List.map_cons, hlast, if_pos rfl]

theorem addresses_modify (q : Tailq α) (f : α → α) : addresses (modify q a f) = addresses q := by
  unfold addresses modify
  rw [List.map_map]
  apply List.map_congr_left
  intro y _
  by_cases hy : y.1 = a <;> simp [hy]

theorem split_of_mem {q : Tailq α} (ha : a ∈ addresses q) : ∃ pre x post, q = pre ++ (a, x) :: post := by
  obtain ⟨⟨b, x⟩, hmem, rfl⟩ := List.mem_map.mp ha
  obtain ⟨pre, post, rfl⟩ := List.append_of_mem hmem
  exact ⟨pre, x, post, rfl⟩

/-! ## Where pointers lead -/

theorem first_mem {q : Tailq α} (hfirst : first q = some a) : a ∈ addresses q := by
  obtain ⟨x, hx, rfl⟩ := Option.map_eq_some_iff.mp hfirst
  exact List.mem_map_of_mem (List.mem_of_head? hx)

theorem next_mem {q : Tailq α} {p : Ptr} {b : Nat} (hnext : next q p = .ok (some b)) : b ∈ addresses q := by
  cases p with
  | none => cases hnext
  | some a =>
    induction q with
    | nil => cases hnext
    | cons y q ih =>
      by_cases hy : y.1 = a
      · rw [next, follower, if_pos hy, Option.elim_some] at hnext
        exact List.mem_cons_of_mem _ (first_mem (Except.ok.inj hnext))
      · rw [next, follower, if_neg hy] at hnext
        exact List.mem_cons_of_mem _ (ih hnext)

theorem read_mem {q : Tailq α} {p : Ptr} (hread : read q p = .ok x) : ∃ a, p = some a ∧ (a, x) ∈ q := by
  cases p with
  | none => cases hread
  | some a =>
    refine ⟨a, rfl, ?_⟩
    cases hlookup : q.lookup a with
    | none => simp [read, hlookup] at hread
    | some y =>
      rw [read, hlookup, Option.elim_some] at hread
      obtain rfl : y = x := Except.ok.inj hread
      obtain ⟨l₁, l₂, hsplit, _⟩ := List.lookup_eq_some_iff.mp hlookup
      rw [hsplit]
      exact List.mem_append_right _ List.mem_cons_self

end Tailq

end cmem
