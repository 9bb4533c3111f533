import CodeTools.HashMap.FailedInsert
import CodeTools.HashMap.Listing
import CodeTools.HashMap.Newest

/-!
# Walking and releasing a table

`hashmap_walk` and `hashmap_free` go through the buckets as they find them. Whether
they get to the end depends on what earlier calls did to the chains.
-/

namespace code_tools.hashmap

open cmem machine

variable {V : Type} {m m' : Hashmap V} {chains : Nat → List Nat}

/-! ## The code -/

/-- The inner loop of `hashmap_free`: `next` is read before the entry goes. -/
def free_chain : Nat → Hashmap V → Ptr → Except Fault (Hashmap V)
  | _, m, none => .ok m
  | 0, _, some _ => .error .outOfFuel
  | fuel + 1, m, some ht => do
    let e ← m.heap.deref (some ht)
    let heap ← m.heap.free (some ht)
    free_chain fuel { m with heap, freed := m.freed ++ e.value.toList } e.next

/-- The outer loop of `hashmap_free` over the bucket array. -/
def free_buckets (fuel : Nat) : Nat → List Ptr → Hashmap V → Except Fault (Hashmap V)
  | 0, _, m => .ok m
  | _ + 1, [], _ => .error .outOfBounds
  | i + 1, h :: hs, m => do
    let m ← free_chain fuel m h
    free_buckets fuel i hs m

/-- The array and the map itself go last; what is returned is the memory that is left. -/
def hashmap_free (fuel : Nat) (m : Hashmap V) : Except Fault (Hashmap V) := do
  let m ← free_buckets fuel m.size m.data m
  .ok { m with data := [] }

/-- The inner loop of `hashmap_walk`; `action` gets the address of each entry and
    leaves the map alone. -/
def walk_chain {σ : Type} (action : σ → Nat → σ) : Nat → Hashmap V → Ptr → σ → Except Fault σ
  | _, _, none, ptr => .ok ptr
  | 0, _, some _, _ => .error .outOfFuel
  | fuel + 1, m, some ht, ptr => do
    let ptr := action ptr ht
    let e ← m.heap.deref (some ht)
    walk_chain action fuel m e.next ptr

def walk_buckets {σ : Type} (action : σ → Nat → σ) (fuel : Nat) (m : Hashmap V) :
    Nat → List Ptr → σ → Except Fault σ
  | 0, _, ptr => .ok ptr
  | _ + 1, [], _ => .error .outOfBounds
  | i + 1, h :: hs, ptr => do
    let ptr ← walk_chain action fuel m h ptr
    walk_buckets action fuel m i hs ptr

def hashmap_walk {σ : Type} (action : σ → Nat → σ) (fuel : Nat) (m : Hashmap V) (ptr : σ) : Except Fault σ :=
  walk_buckets action fuel m m.size m.data ptr

/-! ## What a release gives back -/

/-- The values of the entries at the addresses, in this order. -/
def stored (heap : Heap (HashmapEntry V)) (as : List Nat) : List V :=
  as.flatMap fun a => (heap.view (·.value) a).join.toList

theorem stored_cons (heap : Heap (HashmapEntry V)) (a : Nat) (as : List Nat) :
    stored heap (a :: as) = (heap.view (·.value) a).join.toList ++ stored heap as := List.flatMap_cons

theorem stored_append (heap : Heap (HashmapEntry V)) (as bs : List Nat) :
    stored heap (as ++ bs) = stored heap as ++ stored heap bs := List.flatMap_append

theorem stored_perm (heap : Heap (HashmapEntry V)) {as bs : List Nat} (hperm : as.Perm bs) :
    (stored heap as).Perm (stored heap bs) := hperm.flatMap_right _

theorem stored_congr {heap heap' : Heap (HashmapEntry V)} {as : List Nat}
    (hsame : ∀ a ∈ as, heap'.view HashmapEntry.bare a = heap.view HashmapEntry.bare a) :
    stored heap' as = stored heap as := by
  unfold stored
  rw [List.flatMap_def, List.flatMap_def]
  refine congrArg List.flatten (List.map_congr_left fun a ha => ?_)
  rw [view_value_of_bare_eq (hsame a ha)]

/-- The entries at the addresses are gone, their values with them, and no other
    entry was touched. -/
structure Freed (m m' : Hashmap V) (as : List Nat) : Prop where
  freed : m'.freed = m.freed ++ stored m.heap as
  gone : ∀ a ∈ as, m'.heap.get? a = none
  kept : ∀ a, a ∉ as → m'.heap.get? a = m.heap.get? a

theorem Freed.refl (m : Hashmap V) : Freed m m [] := ⟨by simp [stored], nofun, fun _ _ => rfl⟩

theorem Freed.view_eq {as : List Nat} (h : Freed m m' as) {β : Type} (f : HashmapEntry V → β) {a : Nat}
    (ha : a ∉ as) : m'.heap.view f a = m.heap.view f a := by
  unfold Heap.view
  rw [h.kept a ha]

theorem Freed.trans {m₁ : Hashmap V} {as bs : List Nat} (h : Freed m m₁ as) (h' : Freed m₁ m' bs)
    (hdisjoint : ∀ b ∈ bs, b ∉ as) : Freed m m' (as ++ bs) := by
  refine ⟨?_, ?_, ?_⟩
  · rw [h'.freed, h.freed, List.append_assoc, stored_append,
      stored_congr fun b hb => h.view_eq HashmapEntry.bare (hdisjoint b hb)]
  · intro a ha
    by_cases hb : a ∈ bs
    · exact h'.gone a hb
    · rw [h'.kept a hb]
      exact h.gone a ((List.mem_append.mp ha).resolve_right hb)
  · intro a ha
    rw [List.mem_append, not_or] at ha
    rw [h'.kept a ha.2, h.kept a ha.1]

theorem freed_one {a : Nat} {e : HashmapEntry V} (hget : m.heap.get? a = some e) :
    Freed m { m with heap := m.heap.erase a, freed := m.freed ++ e.value.toList } [a] := by
  refine ⟨?_, ?_, ?_⟩
  · simp [stored, Heap.view, hget]
  · intro b hb
    obtain rfl := List.mem_singleton.mp hb
    exact Heap.get?_erase_self m.heap b
  · intro b hb
    exact Heap.get?_erase_of_ne m.heap fun heq => hb (List.mem_singleton.mpr heq)

/-- The inner loop frees a chain. -/
theorem free_chain_spec {as : List Nat} {p : Ptr} (hchain : Chain (m.heap.view (·.next)) as p) (hnodup : as.Nodup)
    {fuel : Nat} (hfuel : as.length ≤ fuel) : ∃ m', free_chain fuel m p = .ok m' ∧ Freed m m' as := by
  induction as generalizing m p fuel with
  | nil =>
    obtain rfl := hchain
    refine ⟨m, ?_, .refl m⟩
    cases fuel <;> rfl
  | cons a as ih =>
    obtain ⟨rfl, q, hq, htail⟩ := hchain
    obtain ⟨e, he, rfl⟩ := Heap.view_eq_some_iff.mp hq
    rw [List.length_cons] at hfuel
    obtain ⟨fuel, rfl⟩ := Nat.exists_eq_add_one_of_ne_zero (by omega : fuel ≠ 0)
    obtain ⟨hnot, hnodup⟩ := List.nodup_cons.mp hnodup
    have hone := freed_one he
    have hother : ∀ b ∈ as, b ∉ [a] := by
      rintro b hb hmem
      rw [List.mem_singleton.mp hmem] at hb
      exact hnot hb
    obtain ⟨m', hloop, hfreed⟩ := ih (htail.congr fun b hb => hone.view_eq (·.next) (hother b hb)) hnodup
      (by omega : as.length ≤ fuel)
    refine ⟨m', ?_, hone.trans hfreed hother⟩
    rw [free_chain, Heap.deref_some he, ok_bind, Heap.free_some he, ok_bind, hloop]

theorem free_buckets_spec {hs : List Ptr} {ass : List (List Nat)}
    (hchains : List.Forall₂ (Chain (m.heap.view (·.next))) ass hs) (hnodup : ass.flatten.Nodup) {fuel : Nat}
    (hfuel : ∀ as ∈ ass, as.length ≤ fuel) :
    ∃ m', free_buckets fuel hs.length hs m = .ok m' ∧ Freed m m' ass.flatten := by
  induction ass generalizing m hs with
  | nil =>
    cases hchains
    exact ⟨m, rfl, .refl m⟩
  | cons as ass ih =>
    obtain ⟨p, hs', hchain, hrest, rfl⟩ := List.forall₂_cons_left_iff.mp hchains
    rw [List.flatten_cons, List.nodup_append] at hnodup
    obtain ⟨hnodup₁, hnodup₂, hapart⟩ := hnodup
    have hother : ∀ b ∈ ass.flatten, b ∉ as := fun b hb ha => hapart b ha b hb rfl
    obtain ⟨m₁, hfirst, hfreed₁⟩ := free_chain_spec hchain hnodup₁ (hfuel as List.mem_cons_self)
    obtain ⟨m', hloop, hfreed⟩ := ih (Chain.congr_all hrest fun b hb => hfreed₁.view_eq (·.next) (hother b hb))
      hnodup₂ fun bs hbs => hfuel bs (List.mem_cons_of_mem as hbs)
    refine ⟨m', ?_, hfreed₁.trans hfreed hother⟩
    rw [List.length_cons, free_buckets, hfirst, ok_bind, hloop]

/-- Linked chains are released entry by entry in the order of the buckets. -/
theorem hashmap_free_spec (h : Linked m chains) :
    ∃ m', hashmap_free (chain_fuel m) m = .ok m' ∧ Freed m m' (visited m.size chains) := by
  obtain ⟨m', hloop, hfreed⟩ := free_buckets_spec (forall₂_chains h.length_data h.chain) h.nodup_visited
    h.separate.chain_fuel
  rw [h.length_data] at hloop
  refine ⟨{ m' with data := [] }, ?_, hfreed.freed, hfreed.gone, hfreed.kept⟩
  unfold hashmap_free
  rw [hloop, ok_bind]

/-! ## What a walk meets -/

theorem walk_chain_spec {σ : Type} (action : σ → Nat → σ) {as : List Nat} {p : Ptr}
    (hchain : Chain (m.heap.view (·.next)) as p) {fuel : Nat} (hfuel : as.length ≤ fuel) (ptr : σ) :
    walk_chain action fuel m p ptr = .ok (as.foldl action ptr) := by
  induction as generalizing p fuel ptr with
  | nil =>
    obtain rfl := hchain
    cases fuel <;> rfl
  | cons a as ih =>
    obtain ⟨rfl, q, hq, htail⟩ := hchain
    obtain ⟨e, he, rfl⟩ := Heap.view_eq_some_iff.mp hq
    rw [List.length_cons] at hfuel
    obtain ⟨fuel, rfl⟩ := Nat.exists_eq_add_one_of_ne_zero (by omega : fuel ≠ 0)
    rw [walk_chain, Heap.deref_some he, ok_bind, ih htail (by omega : as.length ≤ fuel), List.foldl_cons]

theorem walk_buckets_spec {σ : Type} (action : σ → Nat → σ) {hs : List Ptr} {ass : List (List Nat)}
    (hchains : List.Forall₂ (Chain (m.heap.view (·.next))) ass hs) {fuel : Nat}
    (hfuel : ∀ as ∈ ass, as.length ≤ fuel) (ptr : σ) :
    walk_buckets action fuel m hs.length hs ptr = .ok (ass.flatten.foldl action ptr) := by
  induction hchains generalizing ptr with
  | nil => rfl
  | @cons as p ass hs hchain _ ih =>
    rw [List.length_cons, walk_buckets, walk_chain_spec action hchain (hfuel as List.mem_cons_self), ok_bind,
      ih fun bs hbs => hfuel bs (List.mem_cons_of_mem as hbs), List.flatten_cons, List.foldl_append]

theorem hashmap_walk_spec {σ : Type} (action : σ → Nat → σ) (h : Linked m chains) (ptr : σ) :
    hashmap_walk action (chain_fuel m) m ptr = .ok ((visited m.size chains).foldl action ptr) := by
  have hloop := walk_buckets_spec action (forall₂_chains h.length_data h.chain) h.separate.chain_fuel ptr
  rwa [h.length_data] at hloop

/-! ## A release always ends

A damaged table may make it stop at an entry that is gone, but never run on. -/

/-- A chain is freed only if it starts at a live entry. -/
theorem free_chain_live {fuel : Nat} {p : Ptr} (hfree : free_chain fuel m p = .ok m') :
    Heap.Later m.heap m'.heap ∧ m'.heap.live ≤ m.heap.live ∧ ∀ a, p = some a → ∃ e, m.heap.get? a = some e := by
  induction fuel generalizing m p with
  | zero =>
    cases p with
    | none =>
      cases hfree
      exact ⟨.refl _, Nat.le_refl _, nofun⟩
    | some a => cases hfree
  | succ fuel ih =>
    cases p with
    | none =>
      cases hfree
      exact ⟨.refl _, Nat.le_refl _, nofun⟩
    | some a =>
      obtain ⟨e, hderef, hfree⟩ := bind_eq_ok_iff.mp hfree
      obtain ⟨b, hb, he⟩ := Heap.deref_eq_ok_iff.mp hderef
      obtain rfl := Option.some.inj hb
      rw [Heap.free_some he, ok_bind] at hfree
      obtain ⟨hlater, hle, _⟩ := ih hfree
      have hless := Heap.live_erase he
      refine ⟨(Heap.later_erase m.heap a).trans hlater, by dsimp only at hle; omega, ?_⟩
      rintro c ⟨⟩
      exact ⟨e, he⟩

/-- Each turn of the loop frees a live entry, so a chain that leads back into itself
    ends at an entry that is gone. -/
theorem free_chain_avoids {fuel : Nat} (hfuel : m.heap.live < fuel) (p : Ptr) :
    Avoids .outOfFuel (free_chain fuel m p) := by
  induction fuel generalizing m p with
  | zero => omega
  | succ fuel ih =>
    cases p with
    | none => exact avoids_ok _ _
    | some a =>
      apply (Heap.deref_avoids (by decide) (by decide) m.heap (some a)).bind
      intro e hderef
      obtain ⟨b, hb, he⟩ := Heap.deref_eq_ok_iff.mp hderef
      obtain rfl := Option.some.inj hb
      rw [Heap.free_some he, ok_bind]
      have hless := Heap.live_erase he
      exact ih (by dsimp only; omega) e.next

theorem free_buckets_avoids {fuel : Nat} (hfuel : m.heap.live < fuel) (i : Nat) (hs : List Ptr) :
    Avoids .outOfFuel (free_buckets fuel i hs m) := by
  induction i generalizing m hs with
  | zero => exact avoids_ok _ _
  | succ i ih =>
    cases hs with
    | nil => exact nofun
    | cons p hs =>
      apply (free_chain_avoids hfuel p).bind
      intro m₁ hfree
      obtain ⟨_, hle, _⟩ := free_chain_live hfree
      exact ih (by omega) hs

/-- Every bucket that is released was empty or headed a live entry. -/
theorem free_buckets_live {fuel size : Nat} {hs : List Ptr} (hfree : free_buckets fuel size hs m = .ok m')
    {i : Nat} (hi : i < size) {a : Nat} (ha : hs[i]? = some (some a)) (hold : a < m.heap.cells.length) :
    ∃ e, m.heap.get? a = some e := by
  induction size generalizing m hs i with
  | zero => omega
  | succ size ih =>
    cases hs with
    | nil => cases ha
    | cons p hs =>
      obtain ⟨m₁, hchain, hfree⟩ := bind_eq_ok_iff.mp hfree
      obtain ⟨hlater, _, hlive⟩ := free_chain_live hchain
      cases i with
      | zero => exact hlive a (Option.some.inj ha)
      | succ i =>
        obtain ⟨e, he⟩ := ih hfree (by omega) ha (Nat.lt_of_lt_of_le hold hlater.length)
        cases hget : m.heap.get? a with
        | some e => exact ⟨e, rfl⟩
        | none =>
          rw [hlater.dead a hold hget] at he
          cases he

theorem error_of_not_ok {α : Type} {x : Except Fault α} (hok : ∀ a, x ≠ .ok a) (hfuel : Avoids .outOfFuel x) :
    ∃ f, f ≠ .outOfFuel ∧ x = .error f := by
  cases x with
  | ok a => exact absurd rfl (hok a)
  | error f =>
    refine ⟨f, ?_, rfl⟩
    rintro rfl
    exact hfuel rfl

theorem hashmap_free_avoids {fuel : Nat} (hfuel : m.heap.live < fuel) : Avoids .outOfFuel (hashmap_free fuel m) :=
  (free_buckets_avoids hfuel m.size m.data).bind fun _ _ => avoids_ok _ _

/-- What calls can damage: a bucket heads an entry that is gone, or the array is lost. -/
inductive Damaged (m : Hashmap V) : Prop
  | dangling {key : List UInt8} {a : Nat} (h : Dangling m key a)
  | lost (hdata : m.data = []) (hsize : 0 < m.size) (hfull : m.size ≤ m.used)

/-- A damaged table is not released. -/
theorem Damaged.hashmap_free (h : Damaged m) :
    ∃ f, f ≠ .outOfFuel ∧ hashmap.hashmap_free (chain_fuel m) m = .error f := by
  cases h with
  | @dangling key a h =>
    refine error_of_not_ok ?_ (hashmap_free_avoids (Heap.live_lt_length h.old h.dead))
    intro m' hfree
    obtain ⟨m₁, hloop, _⟩ := bind_eq_ok_iff.mp hfree
    obtain ⟨e, he⟩ := free_buckets_live hloop (slot_lt h.size key) h.head h.old
    rw [h.dead] at he
    cases he
  | lost hdata hsize _ =>
    refine ⟨.outOfBounds, by decide, ?_⟩
    obtain ⟨n, hn⟩ := Nat.exists_eq_succ_of_ne_zero (Nat.pos_iff_ne_zero.mp hsize)
    unfold hashmap.hashmap_free
    rw [hn, hdata]
    rfl

/-! ## Accounts

Every value that an insert took is stored or was freed by a deletion. -/

/-- The value that a call hands to the map; an insert that fails takes none. -/
def taken : Attempt V → Outcome V → List V
  | .insert _ value _, .inserted true => value.toList
  | _, _ => []

/-- The values that the calls of a run handed to the map. -/
def handed_over (calls : List (Attempt V)) (outs : List (Outcome V)) : List V :=
  (List.zipWith taken calls outs).flatten

/-- The live entries are those of the chains, and what they store and what was freed
    is what was handed over. -/
structure Accounted (m : Hashmap V) (chains : Nat → List Nat) (values : List V) : Prop where
  sound : Sound m chains
  live : ∀ a e, m.heap.get? a = some e → a ∈ visited m.size chains
  values : (m.freed ++ stored m.heap (visited m.size chains)).Perm values

variable {values : List V}

/-- A growth that fails must not lose an array, and a deletion must not unlink an
    entry that is first in its bucket and stale. -/
def ReleaseSafe (m : Hashmap V) : Attempt V → Prop
  | .insert _ _ allocs => m.size ≤ m.used → m.size = 0 ∨ allocs.buckets = true
  | .delete key => DeleteSafe m key
  | .find _ => True

instance (m : Hashmap V) : ∀ call, Decidable (ReleaseSafe m call)
  | .insert _ _ allocs => inferInstanceAs (Decidable (m.size ≤ m.used → m.size = 0 ∨ allocs.buckets = true))
  | .delete key => inferInstanceAs (Decidable (DeleteSafe m key))
  | .find _ => .isTrue trivial

theorem accounted_of_create {size : Int} {alloc : Bool} (hcreate : hashmap_create V size alloc = some m) :
    Accounted m (fun _ => []) [] := by
  obtain ⟨_, _, _, hheap, hfreed, _⟩ := hashmap_create_spec hcreate
  have hnone : visited m.size (fun _ => []) = [] := by simp [visited]
  refine ⟨sound_of_create hcreate, ?_, ?_⟩
  · intro a e he
    rw [hheap] at he
    simp [Heap.empty, Heap.get?] at he
  · rw [hfreed, hnone]
    exact .refl _

/-- A table that only moved its entries accounts for the same values. -/
theorem Accounted.moved (h : Accounted m chains values) {chains' : Nat → List Nat} (hsound : Sound m' chains')
    (hfreed : m'.freed = m.freed) (hperm : (visited m'.size chains').Perm (visited m.size chains))
    (hbare : m'.heap.view HashmapEntry.bare = m.heap.view HashmapEntry.bare) : Accounted m' chains' values := by
  refine ⟨hsound, ?_, ?_⟩
  · intro a e he
    obtain ⟨e', he', _⟩ := entry_of_bare_eq (congrFun hbare.symm a) he
    exact hperm.mem_iff.mpr (h.live a e' he')
  · rw [hfreed, stored_congr fun a _ => congrFun hbare a]
    exact ((stored_perm m.heap hperm).append_left m.freed).trans h.values

/-- The new entry stores the value that was handed over. -/
theorem Accounted.inserted (h : Accounted m chains values) (hsize : 0 < m.size) {key : List UInt8} {value : Option V}
    (hsound : Sound m' (push chains (slot m.size key) m.heap.cells.length))
    (hinserted : Inserted m m' chains key value) :
    Accounted m' (push chains (slot m.size key) m.heap.cells.length) (values ++ value.toList) := by
  have hperm := visited_push chains m.heap.cells.length (slot_lt hsize key)
  have hold : ∀ b ∈ visited m.size chains, b ≠ m.heap.cells.length := by
    rintro b hb rfl
    obtain ⟨i, _, hi⟩ := mem_visited_iff.mp hb
    obtain ⟨e, he, _⟩ := h.sound.linked.placed i _ hi
    rw [Heap.get?_fresh] at he
    cases he
  have hvalue : m'.heap.view (·.value) m.heap.cells.length = some value := by
    obtain ⟨e, he, hbare⟩ := Heap.view_eq_some_iff.mp hinserted.entry
    rw [Heap.view, he, Option.map_some]
    exact congrArg (fun e : HashmapEntry V => some e.value) hbare
  refine ⟨hsound, ?_, ?_⟩
  · intro b e he
    rw [hinserted.size, hperm.mem_iff]
    by_cases hb : b = m.heap.cells.length
    · rw [hb]
      exact List.mem_cons_self
    · obtain ⟨e', he', _⟩ := entry_of_bare_eq (hinserted.bare b hb).symm he
      exact List.mem_cons_of_mem _ (h.live b e' he')
  · have hstored := stored_perm m'.heap hperm
    rw [stored_cons, hvalue, Option.join_some, stored_congr fun b hb => hinserted.bare b (hold b hb)] at hstored
    rw [hinserted.freed, hinserted.size]
    refine (hstored.append_left m.freed).trans ?_
    refine (List.perm_append_comm.append_left m.freed).trans ?_
    rw [← List.append_assoc]
    exact h.values.append_right value.toList

/-- Linked chains head live entries only. -/
theorem Linked.not_dangling (h : Linked m chains) {key : List UInt8} {a : Nat} : ¬Dangling m key a := by
  intro hdangling
  have hhead := h.head_eq (slot_lt hdangling.size key)
  rw [hdangling.head] at hhead
  obtain ⟨e, he, _⟩ := h.placed _ a (List.mem_of_mem_head? (Option.some.inj hhead).symm)
  rw [hdangling.dead] at he
  cases he

theorem Accounted.insert (h : Accounted m chains values) {key : List UInt8} {value : Option V} {allocs : Allocs}
    {ht : Ptr} (hsafe : ReleaseSafe m (.insert key value allocs))
    (hinsert : hashmap_insert (chain_fuel m) m key value allocs = .ok (m', ht)) :
    ∃ chains', Accounted m' chains' (values ++ taken (.insert key value allocs) (.inserted ht.isSome)) := by
  rcases hashmap_insert_cases hinsert with ⟨hfull, hbuckets, hidx, rfl, rfl⟩ | ⟨_, m₁, hprepared, hentry⟩
  · obtain hzero | hgot := hsafe hfull
    · refine ⟨chains, ?_⟩
      rw [show taken (.insert key value allocs) (.inserted (none : Ptr).isSome) = [] from rfl, List.append_nil]
      exact ⟨h.sound.forget hzero hidx, h.live, h.values⟩
    · rw [hbuckets] at hgot
      cases hgot
  · obtain ⟨chains₁, hsize, h₁⟩ : ∃ chains₁, 0 < m₁.size ∧ Accounted m₁ chains₁ values := by
      rcases hprepared with ⟨hroom, rfl⟩ | ⟨_, hgrow⟩
      · exact ⟨chains, by omega, h⟩
      · obtain ⟨prime, hprime, _⟩ := hashmap_grow_cases hgrow
        obtain ⟨m₂, chains₂, hgrow', hgrown⟩ := h.sound.grow hprime
        obtain ⟨rfl, _⟩ := ok_inj hgrow' hgrow
        exact ⟨chains₂, primes_pos hgrown.prime,
          h.moved hgrown.sound hgrown.freed hgrown.visited hgrown.bare⟩
    rcases h₁.sound.entry hsize hentry with ⟨_, rfl, rfl⟩ | ⟨halloc, hht, chains₂, hsound⟩
    · refine ⟨chains₁, ?_⟩
      rwa [show taken (.insert key value allocs) (.inserted (none : Ptr).isSome) = [] from rfl, List.append_nil]
    · obtain ⟨m₂, hlink, hinserted⟩ := insert_entry_spec h₁.sound.linked hsize key value
      unfold insert_entry at hentry
      rw [halloc, if_pos rfl, hlink, ok_bind] at hentry
      cases hentry
      rw [hsound.linked.unique hinserted.linked] at hsound
      exact ⟨_, h₁.inserted hsize hsound hinserted⟩

theorem Accounted.delete (h : Accounted m chains values) {key : List UInt8} {rc : Int} (hsafe : DeleteSafe m key)
    (hdelete : hashmap_delete (chain_fuel m) m key = .ok (m', rc)) : ∃ chains', Accounted m' chains' values := by
  have hsize := hashmap_delete_size_pos hdelete
  cases hfind : (chains (slot m.size key)).find? (m.heap.passes (matches_key key)) with
  | none =>
    rw [hashmap_delete_absent h.sound.linked hsize key (h.sound.linked.length_le _) hfind] at hdelete
    cases hdelete
    exact ⟨chains, h⟩
  | some a =>
    obtain ⟨m₁, hdelete', hdeleted⟩ :=
      hashmap_delete_found h.sound.linked hsize (h.sound.linked.length_le _) hfind hsafe
    obtain ⟨rfl, _⟩ := ok_inj hdelete' hdelete
    obtain ⟨chains', hsound⟩ | ⟨b, hdangling⟩ := h.sound.delete hdelete
    · rw [hsound.linked.unique hdeleted.linked] at hsound
      have hmem := List.mem_of_find?_eq_some hfind
      have hperm := visited_unlink (h.sound.linked.lt_size hmem) hmem
      have hnodup := hperm.nodup_iff.mp h.sound.linked.nodup_visited
      refine ⟨_, hsound, ?_, ?_⟩
      · intro b e he
        have hb : b ≠ a := by
          rintro rfl
          rw [hdeleted.gone] at he
          cases he
        obtain ⟨e', he', _⟩ := entry_of_bare_eq (hdeleted.bare b hb).symm he
        rw [hdeleted.size]
        exact List.mem_of_ne_of_mem hb (hperm.mem_iff.mp (h.live b e' he'))
      · have hkept : stored m₁.heap (visited m.size (unlink chains (slot m.size key) a)) =
            stored m.heap (visited m.size (unlink chains (slot m.size key) a)) := by
          refine stored_congr fun b hb => hdeleted.bare b ?_
          rintro rfl
          exact (List.nodup_cons.mp hnodup).1 hb
        have hstored := stored_perm m.heap hperm
        rw [stored_cons] at hstored
        rw [hdeleted.freed, hdeleted.size, hkept, List.append_assoc]
        exact (hstored.symm.append_left m.freed).trans h.values
    · exact absurd hdangling hdeleted.linked.not_dangling

/-- One call keeps the accounts. -/
theorem Accounted.attempt (h : Accounted m chains values) {call : Attempt V} {out : Outcome V}
    (hsafe : ReleaseSafe m call) (hattempt : hashmap.attempt m call = .ok (m', out)) :
    ∃ chains', Accounted m' chains' (values ++ taken call out) := by
  cases call with
  | insert key value allocs =>
    obtain ⟨⟨m₁, ht⟩, hinsert, hdone⟩ := bind_eq_ok_iff.mp hattempt
    cases hdone
    exact h.insert hsafe hinsert
  | delete key =>
    obtain ⟨⟨m₁, rc⟩, hdelete, hdone⟩ := bind_eq_ok_iff.mp hattempt
    cases hdone
    rw [show taken (.delete key) (.deleted rc) = ([] : List V) from rfl, List.append_nil]
    exact h.delete hsafe hdelete
  | find key =>
    obtain ⟨value, _, hdone⟩ := bind_eq_ok_iff.mp hattempt
    cases hdone
    rw [show taken (.find key) (.found value) = ([] : List V) from rfl, List.append_nil]
    exact ⟨chains, h⟩

theorem Accounted.run (h : Accounted m chains values) {calls : List (Attempt V)} {outs : List (Outcome V)}
    (hsafe : Guarded hashmap.attempt ReleaseSafe m calls)
    (hrun : machine.run hashmap.attempt m calls = .ok (m', outs)) :
    ∃ chains', Accounted m' chains' (values ++ handed_over calls outs) := by
  induction calls generalizing m chains values outs with
  | nil =>
    obtain ⟨rfl, rfl⟩ := by simpa using hrun
    exact ⟨chains, by simpa [handed_over] using h⟩
  | cons call calls ih =>
    obtain ⟨m₁, out, outs', hattempt, hrun', rfl⟩ := run_cons_eq_ok_iff.mp hrun
    obtain ⟨chains₁, h₁⟩ := h.attempt hsafe.1 hattempt
    obtain ⟨chains', h'⟩ := ih h₁ (hsafe.2 m₁ out hattempt) hrun'
    refine ⟨chains', ?_⟩
    rwa [List.append_assoc] at h'

/-! ## Damage -/

theorem deleteSafe_of_absent (h : Linked m chains) (hsize : 0 < m.size) {key : List UInt8}
    (hfind : (chains (slot m.size key)).find? (m.heap.passes (matches_key key)) = none) : DeleteSafe m key := by
  intro a ha hpass
  rw [h.head_eq (slot_lt hsize key)] at ha
  have hmem := List.mem_of_mem_head? (Option.some.inj ha)
  exact absurd hpass (List.find?_eq_none.mp hfind a hmem)

/-- An unsafe call that succeeds damages the table. -/
theorem Sound.damaged (h : Sound m chains) {call : Attempt V} {out : Outcome V} (hwrong : ¬ReleaseSafe m call)
    (hattempt : attempt m call = .ok (m', out)) : Damaged m' := by
  cases call with
  | insert key value allocs =>
    unfold ReleaseSafe at hwrong
    push Not at hwrong
    obtain ⟨hfull, hsize, hbuckets⟩ := hwrong
    obtain ⟨⟨m₁, ht⟩, hinsert, hdone⟩ := bind_eq_ok_iff.mp hattempt
    cases hdone
    rcases hashmap_insert_cases hinsert with ⟨_, _, _, rfl, _⟩ | ⟨hroom | hgot, _⟩
    · exact .lost rfl (Nat.pos_of_ne_zero hsize) hfull
    · omega
    · exact absurd hgot hbuckets
  | delete key =>
    obtain ⟨⟨m₁, rc⟩, hdelete, hdone⟩ := bind_eq_ok_iff.mp hattempt
    cases hdone
    cases hfind : (chains (slot m.size key)).find? (m.heap.passes (matches_key key)) with
    | none => exact absurd (deleteSafe_of_absent h.linked (hashmap_delete_size_pos hdelete) hfind) hwrong
    | some a => exact .dangling (hashmap_delete_stale h hfind hwrong hdelete)
  | find key => exact absurd trivial hwrong

/-- No call repairs a damaged table. -/
theorem Damaged.attempt (h : Damaged m) {call : Attempt V} {out : Outcome V}
    (hattempt : hashmap.attempt m call = .ok (m', out)) : Damaged m' := by
  cases call with
  | insert key value allocs =>
    obtain ⟨⟨m₁, ht⟩, hinsert, hdone⟩ := bind_eq_ok_iff.mp hattempt
    cases hdone
    cases h with
    | dangling h =>
      rcases h.insert hinsert with h' | ⟨hfull, _, _, rfl⟩
      · exact .dangling h'
      · exact .lost rfl h.size hfull
    | lost hdata hsize hfull =>
      rcases hashmap_insert_cases hinsert with ⟨_, _, _, rfl, _⟩ | ⟨_, m₂, ⟨hroom, rfl⟩ | ⟨_, hgrow⟩, _⟩
      · exact .lost rfl hsize hfull
      · omega
      · rw [grow_lost hdata hsize] at hgrow
        cases hgrow
  | delete key =>
    obtain ⟨⟨m₁, rc⟩, hdelete, hdone⟩ := bind_eq_ok_iff.mp hattempt
    cases hdone
    cases h with
    | dangling h => exact .dangling (h.delete hdelete)
    | lost hdata hsize _ =>
      unfold hashmap_delete at hdelete
      rw [hashcode_index_eq hsize, ok_bind, bucket_at_lost hdata] at hdelete
      cases hdelete
  | find key =>
    obtain ⟨value, _, hdone⟩ := bind_eq_ok_iff.mp hattempt
    cases hdone
    exact h

theorem Accounted.damaged {calls : List (Attempt V)} {outs : List (Outcome V)} (h : Accounted m chains values)
    (hwrong : ¬Guarded hashmap.attempt ReleaseSafe m calls)
    (hrun : machine.run hashmap.attempt m calls = .ok (m', outs)) :
    Damaged m' := by
  refine (run_splits (fun m => ∃ chains values, Accounted m chains values) Damaged ?_ ?_ ?_
    ⟨chains, values, h⟩ hrun).2 hwrong
  · rintro m call m' out ⟨chains, values, h⟩ hsafe hattempt
    obtain ⟨chains', h'⟩ := h.attempt hsafe hattempt
    exact ⟨chains', _, h'⟩
  · rintro m call m' out ⟨chains, values, h⟩ hwrong hattempt
    exact h.sound.damaged hwrong hattempt
  · intro m call m' out h hattempt
    exact h.attempt hattempt

/-! ## Runs -/

/-- After any run from a new map, whatever its allocations came to: if every call
    was safe, `hashmap_free` leaves no entry and frees each value as often as the run
    handed it over, neither more nor less. If one was not, it reads a pointer that it
    must not read. -/
theorem hashmap_free_accounts {size : Int} {alloc : Bool} {m₀ : Hashmap V}
    (hcreate : hashmap_create V size alloc = some m₀) {calls : List (Attempt V)} {outs : List (Outcome V)}
    (hrun : run attempt m₀ calls = .ok (m, outs)) :
    (Guarded attempt ReleaseSafe m₀ calls → ∃ m', hashmap_free (chain_fuel m) m = .ok m' ∧
      (∀ a, m'.heap.get? a = none) ∧ m'.freed.Perm (handed_over calls outs)) ∧
    (¬Guarded attempt ReleaseSafe m₀ calls → ∃ f, f ≠ .outOfFuel ∧ hashmap_free (chain_fuel m) m = .error f) := by
  have h₀ := accounted_of_create hcreate
  refine ⟨fun hsafe => ?_, fun hwrong => (h₀.damaged hwrong hrun).hashmap_free⟩
  obtain ⟨chains, h⟩ := h₀.run hsafe hrun
  obtain ⟨m', hfree, hfreed⟩ := hashmap_free_spec h.sound.linked
  refine ⟨m', hfree, fun a => ?_, ?_⟩
  · by_cases ha : a ∈ visited m.size chains
    · exact hfreed.gone a ha
    · rw [hfreed.kept a ha]
      cases hget : m.heap.get? a with
      | none => rfl
      | some e => exact absurd (h.live a e hget) ha
  · rw [hfreed.freed]
    exact h.values

/-- Two colliding keys, one of them inserted twice, an insert that gets no memory and
    a deletion; and the run whose last growth gets no array. -/
theorem hashmap_free_accounts_collision :
    ∃ m₀ : Hashmap Nat, hashmap_create Nat 0 true = some m₀ ∧
      (∃ m outs m', run attempt m₀ [.insert [1] (some 1) ⟨true, true⟩, .insert [78] (some 2) ⟨true, true⟩,
          .insert [5] (some 3) ⟨true, false⟩, .insert [1] (some 4) ⟨true, true⟩, .delete [78]] = .ok (m, outs) ∧
        hashmap_free (chain_fuel m) m = .ok m' ∧ (∀ a, m'.heap.get? a = none) ∧ m'.freed.Perm [1, 2, 4]) ∧
      ∃ m outs f, run attempt m₀ (filling_run ++ [.insert [8] (some 8) ⟨false, true⟩]) = .ok (m, outs) ∧
        f ≠ .outOfFuel ∧ hashmap_free (chain_fuel m) m = .error f := by
  have hcreate : hashmap_create Nat 0 true =
      some { size := 0, used := 0, idx := 0, data := [], heap := Heap.empty, freed := [] } := rfl
  refine ⟨_, hcreate, ?_, ?_⟩
  · obtain ⟨m, hrun⟩ := run_of_outputs
      (by decide +kernel : (run attempt { size := 0, used := 0, idx := 0, data := [], heap := Heap.empty, freed := [] }
        [.insert [1] (some 1) ⟨true, true⟩, .insert [78] (some 2) ⟨true, true⟩, .insert [5] (some 3) ⟨true, false⟩,
          .insert [1] (some 4) ⟨true, true⟩, .delete [78]]).toOption.map Prod.snd =
        some [Outcome.inserted (V := Nat) true, .inserted true, .inserted false, .inserted true, .deleted 0])
    obtain ⟨m', hfree, hgone, hfreed⟩ := (hashmap_free_accounts hcreate hrun).1 (by decide +kernel)
    exact ⟨m, _, m', hrun, hfree, hgone, hfreed⟩
  · obtain ⟨m, hrun⟩ := run_of_outputs
      (by decide +kernel : (run attempt { size := 0, used := 0, idx := 0, data := [], heap := Heap.empty, freed := [] }
        (filling_run ++ [.insert [8] (some 8) ⟨false, true⟩])).toOption.map Prod.snd =
        some (List.replicate 7 (Outcome.inserted (V := Nat) true) ++ [.inserted false]))
    obtain ⟨f, hf, hfree⟩ := (hashmap_free_accounts hcreate hrun).2 (by decide +kernel)
    exact ⟨m, _, f, hrun, hf, hfree⟩

/-- After a run of safe calls the action of `hashmap_walk` meets each live entry once.
    These are the entries that `hashmap_list` lists, in its order, as long as there
    are fewer than 65536 of them; from there on the list leaves its array. -/
theorem hashmap_walk_meets {size : Int} {alloc : Bool} {m₀ : Hashmap V}
    (hcreate : hashmap_create V size alloc = some m₀) {calls : List (Attempt V)} {outs : List (Outcome V)}
    (hsafe : Guarded attempt ReleaseSafe m₀ calls) (hrun : run attempt m₀ calls = .ok (m, outs)) :
    ∃ as : List Nat, as.Nodup ∧ (∀ a, a ∈ as ↔ ∃ e, m.heap.get? a = some e) ∧
      (∀ (σ : Type) (action : σ → Nat → σ) (ptr : σ),
        hashmap_walk action (chain_fuel m) m ptr = .ok (as.foldl action ptr)) ∧
      hashmap_list (chain_fuel m) m true =
        if as.length < 2 ^ 16 then .ok (some (as.map some ++ [none])) else .error .outOfBounds := by
  obtain ⟨chains, h⟩ := (accounted_of_create hcreate).run hsafe hrun
  have hlinked := h.sound.linked
  refine ⟨visited m.size chains, hlinked.nodup_visited, fun a => ⟨fun ha => ?_, fun ⟨e, he⟩ => h.live a e he⟩,
    fun σ action ptr => hashmap_walk_spec action hlinked ptr, ?_⟩
  · obtain ⟨i, _, hi⟩ := mem_visited_iff.mp ha
    obtain ⟨e, he, _⟩ := hlinked.placed i a hi
    exact ⟨e, he⟩
  · have hused := h.sound.used
    split
    · exact hashmap_list_eq hlinked.separate (by omega)
    · exact hashmap_list_overflow hlinked.separate (by omega)

/-- Seven entries in the first array, and the sum of their addresses. -/
theorem hashmap_walk_meets_seven :
    ∃ m₀ m outs, hashmap_create Nat 0 true = some m₀ ∧ run attempt m₀ filling_run = .ok (m, outs) ∧
      ∃ as : List Nat, as.Nodup ∧ (∀ a, a ∈ as ↔ ∃ e, m.heap.get? a = some e) ∧
        hashmap_walk (· + ·) (chain_fuel m) m 0 = .ok (as.foldl (· + ·) 0) := by
  have hcreate : hashmap_create Nat 0 true =
      some { size := 0, used := 0, idx := 0, data := [], heap := Heap.empty, freed := [] } := rfl
  obtain ⟨m, hrun⟩ := run_of_outputs
    (by decide +kernel : (run attempt { size := 0, used := 0, idx := 0, data := [], heap := Heap.empty, freed := [] }
      filling_run).toOption.map Prod.snd = some (List.replicate 7 (Outcome.inserted (V := Nat) true)))
  obtain ⟨as, hnodup, hlive, hwalk, _⟩ := hashmap_walk_meets hcreate (by decide +kernel) hrun
  exact ⟨_, m, _, hcreate, hrun, as, hnodup, hlive, hwalk Nat (· + ·) 0⟩

end code_tools.hashmap
