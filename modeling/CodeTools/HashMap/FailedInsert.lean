import CodeTools.HashMap.Representation

/-!
# Inserts that fail

Both allocations of an insert may fail. A growth that gets no array has already
forgotten the old one.
-/

namespace code_tools.hashmap

open cmem machine

variable {V : Type} {m m' : Hashmap V}

/-! ## Buckets that head a freed entry

The deletion of a stale head leaves one. No later call mends it. -/

/-- The bucket of the key heads an entry that was freed. -/
structure Dangling (m : Hashmap V) (key : List UInt8) (a : Nat) : Prop where
  size : 0 < m.size
  head : m.data[slot m.size key]? = some (some a)
  old : a < m.heap.cells.length
  dead : m.heap.get? a = none

theorem search_dead {heap : Heap (HashmapEntry V)} {a : Nat} (hdead : heap.get? a = none)
    (test : HashmapEntry V → Bool) (fuel : Nat) :
    ∃ f, heap.search (·.next) test fuel (some a) = .error f := by
  cases fuel with
  | zero => exact ⟨_, rfl⟩
  | succ fuel =>
    refine ⟨.danglingPointer, ?_⟩
    unfold Heap.search
    rw [Heap.deref, hdead]
    rfl

/-- An entry is linked only into a bucket that is empty or heads a live entry. -/
theorem hashmap_link_cases {b : Nat} (hlink : hashmap_link m b = .ok m') :
    Heap.Later m.heap m'.heap ∧ m'.size = m.size ∧ ∃ i etr, m.data[i]? = some etr ∧ m'.data = m.data.set i (some b) ∧
      ∀ a, etr = some a → a < m.heap.cells.length → ∃ e, m.heap.get? a = some e := by
  obtain ⟨e, _, hlink⟩ := bind_eq_ok_iff.mp hlink
  obtain ⟨i, _, hlink⟩ := bind_eq_ok_iff.mp hlink
  obtain ⟨etr, hbucket, hlink⟩ := bind_eq_ok_iff.mp hlink
  obtain ⟨heap₁, hnext, hlink⟩ := bind_eq_ok_iff.mp hlink
  obtain ⟨heap₂, hprev, hlink⟩ := bind_eq_ok_iff.mp hlink
  cases hlink
  have hlater := Heap.later_of_modify hnext
  refine ⟨hlater.trans (Heap.later_of_modifyNonNull hprev), rfl, i, etr, ?_, rfl, ?_⟩
  · unfold bucket_at at hbucket
    cases hget : m.data[i]? with
    | none =>
      rw [hget] at hbucket
      cases hbucket
    | some p =>
      rw [hget] at hbucket
      cases hbucket
      rfl
  · rintro a rfl hold
    cases hget : m.heap.get? a with
    | some e => exact ⟨e, rfl⟩
    | none =>
      have hdead := hlater.dead a hold hget
      simp [Heap.modifyNonNull, Heap.modify, hdead] at hprev

theorem Dangling.link {key : List UInt8} {a b : Nat} (h : Dangling m key a) (hlink : hashmap_link m b = .ok m') :
    Dangling m' key a := by
  obtain ⟨hlater, hsize, i, etr, hetr, hdata, hlive⟩ := hashmap_link_cases hlink
  have hi : i ≠ slot m.size key := by
    rintro rfl
    rw [h.head] at hetr
    obtain ⟨e, he⟩ := hlive a (Option.some.inj hetr).symm h.old
    rw [h.dead] at he
    cases he
  refine ⟨by rw [hsize]; exact h.size, ?_, Nat.lt_of_lt_of_le h.old hlater.length, hlater.dead a h.old h.dead⟩
  rw [hsize, hdata, List.getElem?_set_ne hi, h.head]

/-- Growth visits every bucket and so finds all of them live. -/
theorem relink_chain_live {fuel : Nat} {p : Ptr} (hrelink : relink_chain fuel m p = .ok m') :
    Heap.Later m.heap m'.heap ∧ ∀ a, p = some a → ∃ e, m.heap.get? a = some e := by
  induction fuel generalizing m p with
  | zero =>
    cases p with
    | none =>
      cases hrelink
      exact ⟨.refl _, nofun⟩
    | some a => cases hrelink
  | succ fuel ih =>
    cases p with
    | none =>
      cases hrelink
      exact ⟨.refl _, nofun⟩
    | some a =>
      obtain ⟨e, hderef, hrelink⟩ := bind_eq_ok_iff.mp hrelink
      obtain ⟨m₁, hlink, hrelink⟩ := bind_eq_ok_iff.mp hrelink
      refine ⟨(hashmap_link_cases hlink).1.trans (ih hrelink).1, ?_⟩
      rintro b hb
      obtain ⟨c, hc, hget⟩ := Heap.deref_eq_ok_iff.mp hderef
      obtain rfl : c = b := Option.some.inj (hc.symm.trans hb)
      exact ⟨e, hget⟩

theorem relink_buckets_live {fuel old_size : Nat} {hs : List Ptr}
    (hrelink : relink_buckets fuel old_size hs m = .ok m')
    {i : Nat} (hi : i < old_size) {a : Nat} (ha : hs[i]? = some (some a)) (hold : a < m.heap.cells.length) :
    ∃ e, m.heap.get? a = some e := by
  induction old_size generalizing m hs i with
  | zero => omega
  | succ old_size ih =>
    cases hs with
    | nil => cases ha
    | cons p hs =>
      obtain ⟨m₁, hchain, hrelink⟩ := bind_eq_ok_iff.mp hrelink
      obtain ⟨hlater, hlive⟩ := relink_chain_live hchain
      cases i with
      | zero => exact hlive a (Option.some.inj ha)
      | succ i =>
        obtain ⟨e, he⟩ := ih hrelink (by omega) ha (Nat.lt_of_lt_of_le hold hlater.length)
        cases hget : m.heap.get? a with
        | some e => exact ⟨e, rfl⟩
        | none =>
          rw [hlater.dead a hold hget] at he
          cases he

/-! ## What an insert can do -/

/-- What a growth that gets no array leaves. -/
def forget (m : Hashmap V) : Hashmap V := { m with data := [], idx := (m.idx + 1) % 2 ^ 8 }

theorem hashmap_grow_cases {fuel : Nat} {alloc : Bool} {rc : Int} (hgrow : hashmap_grow fuel m alloc = .ok (m', rc)) :
    ∃ prime, primes[(m.idx + 1) % 2 ^ 8]? = some prime ∧
      ((alloc = true ∧ rc = 0) ∨ (alloc = false ∧ rc = -1 ∧ m' = forget m)) := by
  cases hprime : primes[(m.idx + 1) % 2 ^ 8]? with
  | none =>
    rw [hashmap_grow_no_prime hprime] at hgrow
    cases hgrow
  | some prime =>
    refine ⟨prime, rfl, ?_⟩
    simp only [hashmap_grow, hprime, Option.elim_some, ok_bind, hashmap_size] at hgrow
    cases alloc with
    | false =>
      simp only [Bool.false_eq_true, if_false, if_true] at hgrow
      cases hgrow
      exact Or.inr ⟨rfl, rfl, rfl⟩
    | true =>
      simp only [if_true] at hgrow
      rw [if_neg (by decide)] at hgrow
      obtain ⟨_, _, hdone⟩ := bind_eq_ok_iff.mp hgrow
      cases hdone
      exact Or.inl ⟨rfl, rfl⟩

/-- An insert loses the array or comes to allocate its entry. -/
theorem hashmap_insert_cases {fuel : Nat} {key : List UInt8} {value : Option V} {allocs : Allocs} {ht : Ptr}
    (hinsert : hashmap_insert fuel m key value allocs = .ok (m', ht)) :
    (m.size ≤ m.used ∧ allocs.buckets = false ∧ (m.idx + 1) % 2 ^ 8 < primes.length ∧ m' = forget m ∧ ht = none) ∨
      (m.used < m.size ∨ allocs.buckets = true) ∧ ∃ m₁, Prepared fuel m m₁ ∧
        insert_entry m₁ key value allocs.entry = .ok (m', ht) := by
  rw [hashmap_insert_eq] at hinsert
  obtain ⟨⟨m₁, rc⟩, hroom, hinsert⟩ := bind_eq_ok_iff.mp hinsert
  unfold insert_room at hroom
  by_cases hfull : m.used ≥ m.size
  · rw [if_pos hfull] at hroom
    obtain ⟨prime, hprime, ⟨hbuckets, rfl⟩ | ⟨hbuckets, rfl, rfl⟩⟩ := hashmap_grow_cases hroom
    · rw [if_neg (show ¬(0 : Int) = -1 by decide)] at hinsert
      rw [hbuckets] at hroom
      exact Or.inr ⟨Or.inr hbuckets, m₁, Or.inr ⟨hfull, hroom⟩, hinsert⟩
    · rw [if_pos rfl] at hinsert
      cases hinsert
      exact Or.inl ⟨hfull, hbuckets, (List.getElem?_eq_some_iff.mp hprime).1, rfl, rfl⟩
  · rw [if_neg hfull] at hroom
    cases hroom
    rw [if_neg (show ¬(0 : Int) = -1 by decide)] at hinsert
    exact Or.inr ⟨Or.inl (by omega), m, Or.inl ⟨by omega, rfl⟩, hinsert⟩

theorem Dangling.grow {key : List UInt8} {a : Nat} (h : Dangling m key a) {fuel : Nat} :
    hashmap_grow fuel m true ≠ .ok (m', 0) := by
  intro hgrow
  obtain ⟨prime, hprime, _⟩ := hashmap_grow_cases hgrow
  simp only [hashmap_grow, hprime, Option.elim_some, ok_bind, hashmap_size, if_true] at hgrow
  rw [if_neg (by decide)] at hgrow
  obtain ⟨m₂, hrelink, _⟩ := bind_eq_ok_iff.mp hgrow
  obtain ⟨e, he⟩ := relink_buckets_live hrelink (slot_lt h.size key) h.head h.old
  change m.heap.get? a = some e at he
  rw [h.dead] at he
  cases he

theorem Dangling.insert {key : List UInt8} {a : Nat} (h : Dangling m key a) {fuel : Nat} {key' : List UInt8}
    {value : Option V} {allocs : Allocs} {ht : Ptr}
    (hinsert : hashmap_insert fuel m key' value allocs = .ok (m', ht)) :
    Dangling m' key a ∨ m.size ≤ m.used ∧ allocs.buckets = false ∧ (m.idx + 1) % 2 ^ 8 < primes.length ∧
      m' = forget m := by
  rcases hashmap_insert_cases hinsert with ⟨hfull, hbuckets, hidx, hforget, _⟩ |
    ⟨_, m₁, ⟨_, rfl⟩ | ⟨hfull, hgrow⟩, hentry⟩
  · exact Or.inr ⟨hfull, hbuckets, hidx, hforget⟩
  · left
    unfold insert_entry at hentry
    split at hentry
    · obtain ⟨m₂, hlink, hdone⟩ := bind_eq_ok_iff.mp hentry
      cases hdone
      have hlater := Heap.later_alloc m₁.heap (new_entry key' value)
      exact Dangling.link (m := { m₁ with heap := (m₁.heap.alloc (new_entry key' value)).1 })
        ⟨h.size, h.head, Nat.lt_of_lt_of_le h.old hlater.length, hlater.dead a h.old h.dead⟩ hlink
    · cases hentry
      exact h
  · exact absurd hgrow h.grow

theorem Dangling.delete {key : List UInt8} {a : Nat} (h : Dangling m key a) {fuel : Nat} {key' : List UInt8} {rc : Int}
    (hdelete : hashmap_delete fuel m key' = .ok (m', rc)) : Dangling m' key a := by
  obtain ⟨i, hi, hdelete⟩ := bind_eq_ok_iff.mp hdelete
  obtain ⟨p, hbucket, hdelete⟩ := bind_eq_ok_iff.mp hdelete
  obtain ⟨found, hsearch, hdelete⟩ := bind_eq_ok_iff.mp hdelete
  have hne : i ≠ slot m.size key := by
    rintro rfl
    unfold bucket_at at hbucket
    rw [h.head] at hbucket
    cases hbucket
    obtain ⟨f, hfault⟩ := search_dead h.dead (matches_key key') fuel
    rw [hfault] at hsearch
    cases hsearch
  cases found with
  | none =>
    cases hdelete
    exact h
  | some b =>
    obtain ⟨e, _, hdelete⟩ := bind_eq_ok_iff.mp hdelete
    obtain ⟨heap₁, hnext, hdelete⟩ := bind_eq_ok_iff.mp hdelete
    obtain ⟨e₁, _, hdelete⟩ := bind_eq_ok_iff.mp hdelete
    obtain ⟨heap₂, hprev, hdelete⟩ := bind_eq_ok_iff.mp hdelete
    obtain ⟨e₂, _, hdelete⟩ := bind_eq_ok_iff.mp hdelete
    obtain ⟨heap₃, hfree, hdelete⟩ := bind_eq_ok_iff.mp hdelete
    cases hdelete
    have hlater := ((Heap.later_of_modifyNonNull hnext).trans (Heap.later_of_modifyNonNull hprev)).trans
      (Heap.later_of_free hfree)
    refine ⟨h.size, ?_, Nat.lt_of_lt_of_le h.old hlater.length, hlater.dead a h.old h.dead⟩
    dsimp only
    split
    · exact h.head
    · rw [List.getElem?_set_ne hne, h.head]

/-! ## Tables in order -/

variable {chains : Nat → List Nat}

/-- A table with linked chains of the entries that the counter counts, in 16 bits,
    and of the size that its index says. -/
structure Sound (m : Hashmap V) (chains : Nat → List Nat) : Prop where
  linked : Linked m chains
  formed : AllFormed m.heap
  used : m.used = (visited m.size chains).length % 2 ^ 16
  prime : (m.size = 0 ∧ m.idx < primes.length) ∨ primes[m.idx]? = some m.size

theorem allFormed_of_bare {heap heap' : Heap (HashmapEntry V)} (hformed : AllFormed heap)
    (hbare : heap'.view HashmapEntry.bare = heap.view HashmapEntry.bare) : AllFormed heap' := by
  intro a e he
  obtain ⟨e', he', heq⟩ := entry_of_bare_eq (congrFun hbare.symm a) he
  exact (hformed a e' he').of_bare heq.symm

/-- What growth does to such a table. -/
structure Grown (m m' : Hashmap V) (chains chains' : Nat → List Nat) : Prop where
  sound : Sound m' chains'
  prime : primes[(m.idx + 1) % 2 ^ 8]? = some m'.size
  idx : m'.idx = (m.idx + 1) % 2 ^ 8
  used : m'.used = m.used
  freed : m'.freed = m.freed
  visited : (visited m'.size chains').Perm (visited m.size chains)
  bare : m'.heap.view HashmapEntry.bare = m.heap.view HashmapEntry.bare

theorem Sound.grow (h : Sound m chains) {prime : Nat} (hprime : primes[(m.idx + 1) % 2 ^ 8]? = some prime) :
    ∃ m' chains', hashmap_grow (chain_fuel m) m true = .ok (m', 0) ∧ Grown m m' chains chains' := by
  obtain ⟨m', hgrow, hlinked, hkept, hused, _⟩ := hashmap_grow_spec hprime h.linked.length_data
    h.linked.chain h.linked.nodup_visited fun i _ => h.linked.length_le i
  have hsize : m'.size = prime := hkept.size
  have hperm := visited_regrown (primes_pos hprime) m.heap (hashmap.visited m.size chains)
  have hsound : Sound m' (regrown m.heap prime (hashmap.visited m.size chains)) := by
    refine ⟨hlinked, allFormed_of_bare h.formed hkept.bare, ?_, Or.inr ?_⟩
    · rw [hused, hsize, hperm.length_eq]
    · rw [hkept.idx, hsize, hprime]
  refine ⟨m', _, hgrow, hsound, ?_, hkept.idx, ?_, hkept.freed, ?_, hkept.bare⟩
  · rw [hsize, hprime]
  · rw [hused, ← h.used]
  · rw [hsize]
    exact hperm

theorem Sound.entry (h : Sound m chains) (hsize : 0 < m.size) {key : List UInt8} {value : Option V} {alloc : Bool}
    {ht : Ptr} (hentry : insert_entry m key value alloc = .ok (m', ht)) :
    (alloc = false ∧ m' = m ∧ ht = none) ∨ (alloc = true ∧ ht ≠ none ∧ ∃ chains', Sound m' chains') := by
  cases alloc with
  | false =>
    cases hentry
    exact Or.inl ⟨rfl, rfl, rfl⟩
  | true =>
    obtain ⟨m₁, hlink, hinserted⟩ := insert_entry_spec h.linked hsize key value
    unfold insert_entry at hentry
    rw [if_pos rfl, hlink, ok_bind] at hentry
    cases hentry
    have hperm := visited_push chains m.heap.cells.length (slot_lt hsize key)
    refine Or.inr ⟨rfl, nofun, _, hinserted.linked, hinserted.allFormed h.formed, ?_, ?_⟩
    · rw [hinserted.used, hinserted.size, hperm.length_eq, List.length_cons, h.used]
      omega
    · rw [hinserted.size, hinserted.idx]
      exact h.prime

theorem Sound.sized (h : Sound m chains) (hnext : m.size = 0 → m.idx + 1 < primes.length) : Sized m := by
  refine ⟨?_, h.prime.imp (fun hnew => ⟨hnew.1, hnext hnew.1⟩) id⟩
  rw [h.used]
  exact Nat.mod_lt _ (by decide)

/-- Deleting a stale head frees it and leaves it in its bucket. -/
theorem hashmap_delete_stale (h : Sound m chains) {key : List UInt8} {a : Nat} {rc : Int}
    (hfind : (chains (slot m.size key)).find? (m.heap.passes (matches_key key)) = some a) (hstale : ¬DeleteSafe m key)
    (hdelete : hashmap_delete (chain_fuel m) m key = .ok (m', rc)) : Dangling m' key a := by
  have hsize := hashmap_delete_size_pos hdelete
  have hi := slot_lt hsize key
  have hhead := h.linked.head_eq hi
  -- the head has the key, so it is the entry found
  obtain ⟨hdata, e, he, hprev⟩ : m.data[slot m.size key]? = some (some a) ∧
      ∃ e, m.heap.get? a = some e ∧ e.prev ≠ none := by
    unfold DeleteSafe at hstale
    push Not at hstale
    obtain ⟨b, hb, hpass, hprev⟩ := hstale
    have hfirst : (chains (slot m.size key)).head? = some b := Option.some.inj (hhead.symm.trans hb)
    obtain ⟨as, has⟩ : ∃ as, chains (slot m.size key) = b :: as := by
      cases hchain : chains (slot m.size key) with
      | nil =>
        rw [hchain] at hfirst
        cases hfirst
      | cons c as =>
        rw [hchain] at hfirst
        exact ⟨as, by rw [Option.some.inj hfirst]⟩
    rw [has, List.find?_cons_of_pos hpass] at hfind
    obtain rfl : b = a := Option.some.inj hfind
    obtain ⟨e, he, _⟩ := h.linked.placed (slot m.size key) b (by rw [has]; exact List.mem_cons_self)
    refine ⟨hb, e, he, ?_⟩
    intro hnone
    rw [Heap.view, he, Option.map_some, hnone] at hprev
    exact hprev rfl
  unfold hashmap_delete at hdelete
  rw [hashcode_index_eq hsize, ok_bind, h.linked.bucket_at_eq hi, ok_bind,
    h.linked.search_eq hi (h.linked.length_le _),
    hfind, ok_bind] at hdelete
  dsimp only at hdelete
  rw [Heap.deref_some he, ok_bind] at hdelete
  obtain ⟨heap₁, hnext, hdelete⟩ := bind_eq_ok_iff.mp hdelete
  obtain ⟨e₁, hderef, hdelete⟩ := bind_eq_ok_iff.mp hdelete
  obtain ⟨heap₂, hback, hdelete⟩ := bind_eq_ok_iff.mp hdelete
  obtain ⟨e₂, _, hdelete⟩ := bind_eq_ok_iff.mp hdelete
  obtain ⟨heap₃, hfree, hdelete⟩ := bind_eq_ok_iff.mp hdelete
  cases hdelete
  have hlater := ((Heap.later_of_modifyNonNull hnext).trans (Heap.later_of_modifyNonNull hback)).trans
    (Heap.later_of_free hfree)
  -- the write through `next` cannot change the field, not even when it comes back
  have hprev₁ : e₁.prev = e.prev := by
    obtain ⟨b, hb, he₁⟩ := Heap.deref_eq_ok_iff.mp hderef
    obtain rfl : a = b := Option.some.inj hb
    rcases Heap.get?_of_modifyNonNull hnext he with hsame | hsame
    · rw [he₁] at hsame
      rw [Option.some.inj hsame]
    · rw [he₁] at hsame
      rw [Option.some.inj hsame]
  have hsome : e₁.prev.isSome = true := by
    rw [hprev₁, Option.isSome_iff_ne_none]
    exact hprev
  refine ⟨hsize, ?_, Nat.lt_of_lt_of_le (Heap.lt_length_of_get? he) hlater.length, ?_⟩
  · dsimp only
    rw [if_pos hsome]
    exact hdata
  · cases hget : heap₂.get? a with
    | none => simp [Heap.free, hget] at hfree
    | some x =>
      rw [Heap.free_some hget] at hfree
      cases hfree
      exact Heap.get?_erase_self heap₂ a

/-- A deletion leaves a table in order or a freed entry at the head of a bucket. -/
theorem Sound.delete (h : Sound m chains) {key : List UInt8} {rc : Int}
    (hdelete : hashmap_delete (chain_fuel m) m key = .ok (m', rc)) :
    (∃ chains', Sound m' chains') ∨ ∃ a, Dangling m' key a := by
  have hsize := hashmap_delete_size_pos hdelete
  cases hfind : (chains (slot m.size key)).find? (m.heap.passes (matches_key key)) with
  | none =>
    rw [hashmap_delete_absent h.linked hsize key (h.linked.length_le _) hfind] at hdelete
    cases hdelete
    exact Or.inl ⟨chains, h⟩
  | some a =>
    by_cases hsafe : DeleteSafe m key
    · obtain ⟨m₁, hdelete', hdeleted⟩ := hashmap_delete_found h.linked hsize (h.linked.length_le _) hfind hsafe
      obtain ⟨rfl, _⟩ := ok_inj hdelete' hdelete
      have hmem := List.mem_of_find?_eq_some hfind
      have hcount := (visited_unlink (h.linked.lt_size hmem) hmem).length_eq
      rw [List.length_cons] at hcount
      refine Or.inl ⟨_, hdeleted.linked, hdeleted.allFormed h.formed, ?_, ?_⟩
      · rw [hdeleted.used, hdeleted.size, h.used, hcount]
        omega
      · rw [hdeleted.size, hdeleted.idx]
        exact h.prime
    · exact Or.inr ⟨a, hashmap_delete_stale h hfind hsafe hdelete⟩

/-! ## Runs with failing allocations -/

inductive Attempt (V : Type) where
  | insert (key : List UInt8) (value : Option V) (allocs : Allocs)
  | delete (key : List UInt8)
  | find (key : List UInt8)
deriving DecidableEq, Repr

/-- One call whose allocations come out as given. -/
def attempt (m : Hashmap V) : Attempt V → Except Fault (Hashmap V × Outcome V)
  | .insert key value allocs => do
    let (m, ht) ← hashmap_insert (chain_fuel m) m key value allocs
    .ok (m, .inserted ht.isSome)
  | .delete key => do
    let (m, rc) ← hashmap_delete (chain_fuel m) m key
    .ok (m, .deleted rc)
  | .find key => do
    let value ← hashmap_find (chain_fuel m) m key
    .ok (m, .found value)

/-- What calls can lead to: a table in order, one with a freed entry at the head of
    a bucket, and one that has lost its array. -/
inductive Reached (m : Hashmap V) : Prop
  | sound {chains : Nat → List Nat} (h : Sound m chains)
  | dangling {key : List UInt8} {a : Nat} (h : Dangling m key a)
  | lost (hdata : m.data = []) (hsize : 0 < m.size) (hfull : m.size ≤ m.used) (hidx : m.idx < primes.length)

theorem sound_of_create {size : Int} {alloc : Bool} (hcreate : hashmap_create V size alloc = some m) :
    Sound m fun _ => [] := by
  obtain ⟨hsize, hused, _, hheap, _, _, hidx⟩ := hashmap_create_spec hcreate
  refine ⟨linked_of_create hcreate, ?_, ?_, Or.inl ⟨hsize, hidx⟩⟩
  · intro a e he
    rw [hheap] at he
    simp [Heap.empty, Heap.get?] at he
  · rw [hused, hsize]
    rfl

theorem Sound.idx_lt (h : Sound m chains) : m.idx < primes.length := by
  rcases h.prime with ⟨_, hidx⟩ | hprime
  · exact hidx
  · exact (List.getElem?_eq_some_iff.mp hprime).1

/-- A map that has no array yet loses nothing with it. -/
theorem Sound.forget (h : Sound m chains) (hsize : m.size = 0) (hidx : (m.idx + 1) % 2 ^ 8 < primes.length) :
    Sound (hashmap.forget m) chains := by
  refine ⟨⟨hsize.symm, ?_, h.linked.outside, h.linked.placed, h.linked.tails⟩, h.formed, h.used, Or.inl ⟨hsize, hidx⟩⟩
  intro i hi
  have hi : i < m.size := hi
  omega

theorem reached_forget (hfull : m.size ≤ m.used) (hidx : (m.idx + 1) % 2 ^ 8 < primes.length)
    (hnew : m.size = 0 → ∃ chains, Sound m chains) : Reached (forget m) := by
  by_cases hsize : m.size = 0
  · obtain ⟨chains, h⟩ := hnew hsize
    exact .sound (h.forget hsize hidx)
  · exact .lost rfl (Nat.pos_of_ne_zero hsize) hfull hidx

/-- A table without its array cannot grow. -/
theorem grow_lost {fuel : Nat} (hdata : m.data = []) (hsize : 0 < m.size) :
    hashmap_grow fuel m true = .error .outOfBounds := by
  cases hprime : primes[(m.idx + 1) % 2 ^ 8]? with
  | none => exact hashmap_grow_no_prime hprime fuel true
  | some prime =>
    simp only [hashmap_grow, hprime, Option.elim_some, ok_bind, hashmap_size, if_true]
    rw [if_neg (by decide), hdata]
    obtain ⟨n, hn⟩ := Nat.exists_eq_succ_of_ne_zero (Nat.pos_iff_ne_zero.mp hsize)
    rw [hn]
    rfl

theorem bucket_at_lost (hdata : m.data = []) (i : Nat) : bucket_at m i = .error .outOfBounds := by
  unfold bucket_at
  rw [hdata]
  rfl

theorem Reached.insert (h : Reached m) {key : List UInt8} {value : Option V} {allocs : Allocs} {ht : Ptr}
    (hinsert : hashmap_insert (chain_fuel m) m key value allocs = .ok (m', ht)) : Reached m' := by
  cases h with
  | @sound chains h =>
    rcases hashmap_insert_cases hinsert with ⟨hfull, _, hidx, rfl, _⟩ | ⟨_, m₁, ⟨hroom, rfl⟩ | ⟨_, hgrow⟩, hentry⟩
    · exact reached_forget hfull hidx fun _ => ⟨chains, h⟩
    · rcases h.entry (by omega) hentry with ⟨_, rfl, _⟩ | ⟨_, _, chains', h'⟩
      · exact .sound h
      · exact .sound h'
    · obtain ⟨prime, hprime, _⟩ := hashmap_grow_cases hgrow
      obtain ⟨m₂, chains₂, hgrow', hgrown⟩ := h.grow hprime
      obtain ⟨rfl, _⟩ := ok_inj hgrow' hgrow
      rcases hgrown.sound.entry (primes_pos hgrown.prime) hentry with ⟨_, rfl, _⟩ | ⟨_, _, chains', h'⟩
      · exact .sound hgrown.sound
      · exact .sound h'
  | dangling h =>
    rcases h.insert hinsert with h' | ⟨hfull, _, hidx, rfl⟩
    · exact .dangling h'
    · apply reached_forget hfull hidx
      intro hzero
      have hsize := h.size
      omega
  | lost hdata hsize hfull _ =>
    rcases hashmap_insert_cases hinsert with ⟨_, _, hidx, rfl, _⟩ | ⟨_, m₁, ⟨hroom, rfl⟩ | ⟨_, hgrow⟩, _⟩
    · apply reached_forget hfull hidx
      intro hzero
      omega
    · omega
    · rw [grow_lost hdata hsize] at hgrow
      cases hgrow

theorem Reached.attempt (h : Reached m) {call : Attempt V} {out : Outcome V}
    (hattempt : hashmap.attempt m call = .ok (m', out)) : Reached m' := by
  cases call with
  | insert key value allocs =>
    obtain ⟨⟨m₁, ht⟩, hinsert, hdone⟩ := bind_eq_ok_iff.mp hattempt
    cases hdone
    exact h.insert hinsert
  | delete key =>
    obtain ⟨⟨m₁, rc⟩, hdelete, hdone⟩ := bind_eq_ok_iff.mp hattempt
    cases hdone
    cases h with
    | sound h =>
      rcases h.delete hdelete with ⟨chains', h'⟩ | ⟨a, h'⟩
      · exact .sound h'
      · exact .dangling h'
    | dangling h => exact .dangling (h.delete hdelete)
    | lost hdata hsize _ _ =>
      unfold hashmap_delete at hdelete
      rw [hashcode_index_eq hsize, ok_bind, bucket_at_lost hdata] at hdelete
      cases hdelete
  | find key =>
    obtain ⟨value, _, hdone⟩ := bind_eq_ok_iff.mp hattempt
    cases hdone
    exact h

theorem reached_of_run {size : Int} {alloc : Bool} {m₀ : Hashmap V} (hcreate : hashmap_create V size alloc = some m₀)
    {calls : List (Attempt V)} {outs : List (Outcome V)} (hrun : run hashmap.attempt m₀ calls = .ok (m, outs)) :
    Reached m :=
  run_invariant Reached (fun _ _ _ _ h hattempt => h.attempt hattempt) (.sound (sound_of_create hcreate)) hrun

/-! ## What a failed insert leaves -/

/-- Both tables store the same entries with the same contents. -/
structure SameEntries (m m' : Hashmap V) : Prop where
  stored : (visit_order m').Perm (visit_order m)
  bare : ∀ a ∈ visit_order m, m'.heap.view HashmapEntry.bare a = m.heap.view HashmapEntry.bare a

/-- `m'` is `m`, or a table in order that stores the same entries in at least as many
    buckets and can grow when they are full. -/
def Enlarged (m m' : Hashmap V) : Prop :=
  m' = m ∨ (∃ chains, Sound m' chains) ∧ Sized m' ∧ SameEntries m m' ∧ m'.used = m.used ∧ m'.freed = m.freed ∧
    m.size ≤ m'.size

/-- No later calls return different things, whatever becomes of their allocations. -/
def Indistinguishable (m m' : Hashmap V) : Prop :=
  ∀ calls, (run attempt m calls).map Prod.snd = (run attempt m' calls).map Prod.snd

/-- The entries are those of `m`, and later calls behave as on `m` or on an enlarged
    `m`. -/
def Intact (m m' : Hashmap V) : Prop :=
  SameEntries m m' ∧ ∃ m₀, Enlarged m m₀ ∧ Indistinguishable m₀ m'

theorem SameEntries.refl (m : Hashmap V) : SameEntries m m := ⟨List.Perm.refl _, fun _ _ => rfl⟩

theorem intact_refl (m : Hashmap V) : Intact m m := ⟨.refl m, m, Or.inl rfl, fun _ => rfl⟩

/-- Calls that return and calls that fault can be told apart. -/
theorem not_indistinguishable {calls : List (Attempt V)} {s : Hashmap V} {outs : List (Outcome V)} {f : Fault}
    (hok : run attempt m calls = .ok (s, outs)) (hfault : run attempt m' calls = .error f) :
    ¬Indistinguishable m m' := by
  intro hsame
  have hcalls := hsame calls
  rw [hok, hfault] at hcalls
  cases hcalls

theorem run_one {call : Attempt V} {out : Outcome V} (hattempt : attempt m call = .ok (m', out)) :
    run attempt m [call] = .ok (m', [out]) := by
  simp [run, hattempt]

theorem run_one_error {call : Attempt V} {f : Fault} (hattempt : attempt m call = .error f)
    (calls : List (Attempt V)) :
    run attempt m (call :: calls) = .error f := by
  simp [run, hattempt]

theorem Sound.find (h : Sound m chains) (hsize : 0 < m.size) (key : List UInt8) :
    ∃ value, attempt m (.find key) = .ok (m, .found value) := by
  have hlocate := h.linked.locate_eq hsize key (h.linked.length_le _)
  cases hfound : (chains (slot m.size key)).find? (m.heap.passes (matches_key key)) with
  | none =>
    refine ⟨none, ?_⟩
    unfold hashmap.attempt hashmap_find
    dsimp only
    rw [hlocate, hfound]
    rfl
  | some a =>
    obtain ⟨e, he, _⟩ := h.linked.placed _ a (List.mem_of_find?_eq_some hfound)
    refine ⟨e.value, ?_⟩
    unfold hashmap.attempt hashmap_find
    dsimp only
    rw [hlocate, hfound]
    simp only [ok_bind, Heap.deref_some he]

/-- With both allocations an insert into a table that can grow succeeds. -/
theorem Sound.insert (h : Sound m chains) (hsized : Sized m) (key : List UInt8) (value : Option V) :
    ∃ m', attempt m (.insert key value ⟨true, true⟩) = .ok (m', .inserted true) := by
  obtain ⟨m₁, chains₁, hprepared, h₁, hsize⟩ : ∃ m₁ chains₁, Prepared (chain_fuel m) m m₁ ∧ Sound m₁ chains₁ ∧
      0 < m₁.size := by
    by_cases hroom : m.used < m.size
    · exact ⟨m, chains, Or.inl ⟨hroom, rfl⟩, h, by omega⟩
    · obtain ⟨_, prime, hprime⟩ := hsized.next_prime (by omega)
      obtain ⟨m₁, chains₁, hgrow, hgrown⟩ := h.grow hprime
      exact ⟨m₁, chains₁, Or.inr ⟨by omega, hgrow⟩, hgrown.sound, primes_pos hgrown.prime⟩
  obtain ⟨m', hinsert, _⟩ := hashmap_insert_spec hprepared h₁.linked hsize key value
  refine ⟨m', ?_⟩
  unfold hashmap.attempt
  dsimp only
  rw [hinsert]
  rfl

/-- A lookup in a table that has lost its array follows `NULL`. -/
theorem find_lost (hdata : m.data = []) (hsize : 0 < m.size) (key : List UInt8) :
    attempt m (.find key) = .error .outOfBounds := by
  unfold attempt hashmap_find hashmap_locate
  dsimp only
  rw [hashcode_index_eq hsize, ok_bind, bucket_at_lost hdata]
  rfl

theorem find_dangling {key : List UInt8} {a : Nat} (h : Dangling m key a) :
    attempt m (.find key) = .error .danglingPointer := by
  have hbucket : bucket_at m (slot m.size key) = .ok (some a) := by
    unfold bucket_at
    rw [h.head]
    rfl
  obtain ⟨n, hn⟩ : ∃ n, chain_fuel m = n + 1 := 
    Nat.exists_eq_add_one_of_ne_zero (Nat.ne_of_gt (Nat.zero_lt_of_lt h.old))
  unfold attempt hashmap_find hashmap_locate
  dsimp only
  rw [hashcode_index_eq h.size, ok_bind, hbucket, ok_bind, hn]
  simp only [Heap.search, Heap.deref, h.dead]
  rfl

/-- An insert that gets no array when it needs one. -/
theorem hashmap_insert_starved (hfull : m.size ≤ m.used) (hidx : (m.idx + 1) % 2 ^ 8 < primes.length) (fuel : Nat)
    (key : List UInt8) (value : Option V) (entry : Bool) :
    hashmap_insert fuel m key value ⟨false, entry⟩ = .ok (forget m, none) := by
  have hprime : primes[(m.idx + 1) % 2 ^ 8]? = some primes[(m.idx + 1) % 2 ^ 8] := List.getElem?_eq_getElem hidx
  rw [hashmap_insert_eq, insert_room, if_pos hfull]
  simp only [hashmap_grow, hprime, Option.elim_some, ok_bind, hashmap_size]
  rfl

def starved : Attempt V := .insert [] none ⟨false, false⟩

theorem attempt_starved (hfull : m.size ≤ m.used) :
    attempt m starved = if (m.idx + 1) % 2 ^ 8 < primes.length then .ok (forget m, .inserted false)
      else .error .outOfBounds := by
  unfold attempt starved
  dsimp only
  split
  · rename_i hidx
    rw [hashmap_insert_starved hfull hidx]
    rfl
  · rename_i hidx
    rw [hashmap_insert_no_prime hfull (List.getElem?_eq_none (by omega))]
    rfl

/-- Starved inserts return `NULL` until the primes run out. -/
theorem run_starved (hfull : m.size ≤ m.used) {n : Nat} (hidx : m.idx + n + 1 = primes.length) :
    (∃ s outs, run attempt m (List.replicate n starved) = .ok (s, outs)) ∧
      run attempt m (List.replicate (n + 1) starved) = .error .outOfBounds := by
  have hlen : primes.length = 72 := by decide
  induction n generalizing m with
  | zero =>
    refine ⟨⟨m, [], rfl⟩, run_one_error ?_ _⟩
    rw [attempt_starved hfull, if_neg (by omega)]
  | succ n ih =>
    have hmod : (m.idx + 1) % 2 ^ 8 = m.idx + 1 := Nat.mod_eq_of_lt (by omega)
    have hstep : attempt m starved = .ok (forget m, .inserted false) := by
      rw [attempt_starved hfull, if_pos (by omega)]
    have hidx' : (forget m).idx = m.idx + 1 := hmod
    obtain ⟨⟨s, outs, hrun⟩, hfault⟩ := ih (m := forget m) hfull (by omega)
    constructor
    · exact ⟨s, _, run_cons_eq_ok_iff.mpr ⟨_, _, outs, hstep, hrun, rfl⟩⟩
    · rw [List.replicate_succ]
      simp only [run, hstep, hfault]

theorem primes_le {i p q : Nat} (hp : primes[i]? = some p) (hq : primes[i + 1]? = some q) : p ≤ q := by
  have hsorted : ∀ i < primes.length - 1, primes.getD i 0 ≤ primes.getD (i + 1) 0 := by decide
  have hi := (List.getElem?_eq_some_iff.mp hq).1
  have hle := hsorted i (by omega)
  rwa [List.getD_eq_getElem?_getD, List.getD_eq_getElem?_getD, hp, hq] at hle

/-- Growth makes an enlarged table. -/
theorem Grown.intact {chains' : Nat → List Nat} (h : Sound m chains) (hgrown : Grown m m' chains chains') :
    Intact m m' := by
  have hlen : primes.length = 72 := by decide
  have hmod : (m.idx + 1) % 2 ^ 8 = m.idx + 1 := Nat.mod_eq_of_lt (by have hidx := h.idx_lt; omega)
  have hpos := primes_pos hgrown.prime
  have hsame : SameEntries m m' := by
    refine ⟨?_, fun a _ => congrFun hgrown.bare a⟩
    rw [hgrown.sound.linked.visit_order_eq, h.linked.visit_order_eq]
    exact hgrown.visited
  have hsize : m.size ≤ m'.size := by
    rcases h.prime with ⟨hzero, _⟩ | hprime
    · omega
    · exact primes_le hprime (hmod ▸ hgrown.prime)
  exact ⟨hsame, m', Or.inr ⟨⟨_, hgrown.sound⟩, hgrown.sound.sized (by omega), hsame, hgrown.used, hgrown.freed, hsize⟩,
    fun _ => rfl⟩

/-- A table that has lost its array is not like any that has not. -/
theorem forget_not_intact (h : Reached m) (hsize : 0 < m.size) (hfull : m.size ≤ m.used)
    (hnext : (m.idx + 1) % 2 ^ 8 < primes.length) : ¬Intact m (forget m) := by
  rintro ⟨_, m₀, hm₀, hsame⟩
  have hlost : ∀ key, run attempt (forget m) [.find key] = .error .outOfBounds := fun key =>
    run_one_error (find_lost (m := forget m) rfl hsize key) []
  rcases hm₀ with rfl | ⟨⟨chains, h₀⟩, _, _, _, _, hle⟩
  · cases h with
    | sound h =>
      obtain ⟨value, hfind⟩ := h.find hsize []
      exact not_indistinguishable (run_one hfind) (hlost []) hsame
    | @dangling key a h =>
      have hcalls := hsame [.find key]
      rw [hlost, run_one_error (find_dangling h)] at hcalls
      cases hcalls
    | lost hdata _ _ hidx =>
      -- the primes run out one starved insert earlier
      have hlen : primes.length = 72 := by decide
      have hmod : (forget m₀).idx = m₀.idx + 1 := Nat.mod_eq_of_lt (by omega)
      obtain ⟨n, hn⟩ : ∃ n, m₀.idx + (n + 1) + 1 = primes.length := ⟨primes.length - m₀.idx - 2, by
        have hnext' : m₀.idx + 1 < primes.length := by
          rw [← hmod]
          exact hnext
        omega⟩
      obtain ⟨⟨s, outs, hrun⟩, _⟩ := run_starved hfull hn
      obtain ⟨_, hfault⟩ := run_starved (m := forget m₀) (n := n) hfull (by rw [hmod]; omega)
      exact not_indistinguishable hrun hfault hsame
  · obtain ⟨value, hfind⟩ := h₀.find (by omega) []
    exact not_indistinguishable (run_one hfind) (hlost []) hsame

/-- Before there is an array, a failed growth skips a prime. -/
theorem forget_new_intact_iff (h : Sound m chains) (hsize : m.size = 0) (hnext : (m.idx + 1) % 2 ^ 8 < primes.length) :
    Intact m (forget m) ↔ m.idx + 2 < primes.length := by
  have hlen : primes.length = 72 := by decide
  have hidx := h.idx_lt
  have hmod : (forget m).idx = m.idx + 1 := Nat.mod_eq_of_lt (by omega)
  have hdata : m.data = [] := by
    rw [← List.length_eq_zero_iff, h.linked.length_data, hsize]
  have hlt : m.idx + 1 < primes.length := by
    rw [← hmod]
    exact hnext
  constructor
  · rintro ⟨_, m₀, hm₀, hsame⟩
    by_contra hlast
    obtain ⟨⟨chains₀, h₀⟩, hsized⟩ : (∃ chains₀, Sound m₀ chains₀) ∧ Sized m₀ := by
      rcases hm₀ with rfl | ⟨h₀, hsized, _⟩
      · exact ⟨⟨chains, h⟩, h.sized fun _ => hlt⟩
      · exact ⟨h₀, hsized⟩
    obtain ⟨s, hinsert⟩ := h₀.insert hsized [] none
    have hfault : attempt (forget m) (.insert [] none ⟨true, true⟩) = .error .outOfBounds := by
      unfold attempt
      dsimp only
      rw [hashmap_insert_no_prime (show (forget m).size ≤ (forget m).used from hsize ▸ Nat.zero_le _)]
      · rfl
      · rw [hmod]
        exact List.getElem?_eq_none (by omega)
    exact not_indistinguishable (run_one hinsert) (run_one_error hfault []) hsame
  · intro hmore
    have hforget := h.forget hsize hnext
    have hsame : SameEntries m (forget m) := by
      have hvisit : visit_order (forget m) = visit_order m := by
        unfold visit_order
        rw [hdata]
        rfl
      exact ⟨by rw [hvisit], fun _ _ => rfl⟩
    exact ⟨hsame, forget m, Or.inr ⟨⟨chains, hforget⟩, hforget.sized fun _ => by rw [hmod]; omega, hsame, rfl, rfl,
      Nat.le_refl _⟩, fun _ => rfl⟩

/-- Inserts of the keys 1 to 7, which fill the first array. -/
def filling_run : List (Attempt Nat) :=
  [1, 2, 3, 4, 5, 6, 7].map fun b => .insert [b] (some b.toNat) ⟨true, true⟩

end code_tools.hashmap
