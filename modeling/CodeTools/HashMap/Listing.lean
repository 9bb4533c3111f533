import CodeTools.HashMap.Representation

/-!
# Counting and listing the entries

`hashmap_list` makes room for as many entries as `used` says. The counter has 16
bits, and deletion lets it fall where a bucket keeps the entry.
-/

namespace code_tools.hashmap

open cmem machine

variable {V : Type} {m : Hashmap V} {chains : Nat → List Nat}

/-! ## The list -/

/-- The inner loop stores a chain that fits. -/
theorem list_chain_spec {as : List Nat} {p : Ptr} (hchain : Chain (m.heap.view (·.next)) as p) {fuel : Nat}
    (hfuel : as.length ≤ fuel) {list : List Ptr} {count : Nat} (hroom : count + as.length ≤ list.length) :
    ∃ list', list_chain fuel m p list count = .ok (list', count + as.length) ∧
      Stores list count (as.map some) list' := by
  induction as generalizing p fuel list count with
  | nil =>
    obtain rfl := hchain
    refine ⟨list, ?_, rfl, by simp⟩
    cases fuel <;> rfl
  | cons a as ih =>
    obtain ⟨rfl, q, hq, htail⟩ := hchain
    obtain ⟨e, he, rfl⟩ := Heap.view_eq_some_iff.mp hq
    rw [List.length_cons] at hfuel hroom
    obtain ⟨fuel, rfl⟩ := Nat.exists_eq_add_one_of_ne_zero (by omega : fuel ≠ 0)
    obtain ⟨list₁, hblit, hstores₁⟩ := blit_stores
      (by rw [List.length_singleton]; omega : count + [(some a : Ptr)].length ≤ list.length)
    obtain ⟨list', hloop, hstores⟩ := ih htail (by omega : as.length ≤ fuel)
      (by rw [hstores₁.length]; omega : count + 1 + as.length ≤ list₁.length)
    refine ⟨list', ?_, hstores₁.append hstores⟩
    rw [list_chain, hblit, ok_bind, Heap.deref_some he, ok_bind, hloop, List.length_cons, Nat.add_assoc,
      Nat.add_comm 1]

/-- It leaves the array on a chain that does not. -/
theorem list_chain_overflow {as : List Nat} {p : Ptr} (hchain : Chain (m.heap.view (·.next)) as p) {fuel : Nat}
    (hfuel : as.length ≤ fuel) {list : List Ptr} {count : Nat} (hcount : count ≤ list.length)
    (hfull : list.length < count + as.length) : list_chain fuel m p list count = .error .outOfBounds := by
  induction as generalizing p fuel list count with
  | nil =>
    rw [List.length_nil] at hfull
    omega
  | cons a as ih =>
    obtain ⟨rfl, q, hq, htail⟩ := hchain
    obtain ⟨e, he, rfl⟩ := Heap.view_eq_some_iff.mp hq
    rw [List.length_cons] at hfuel hfull
    obtain ⟨fuel, rfl⟩ := Nat.exists_eq_add_one_of_ne_zero (by omega : fuel ≠ 0)
    unfold list_chain
    by_cases hslot : count < list.length
    · obtain ⟨list₁, hblit, hstores⟩ := blit_stores
        (by rw [List.length_singleton]; omega : count + [(some a : Ptr)].length ≤ list.length)
      rw [hblit, ok_bind, Heap.deref_some he, ok_bind]
      exact ih htail (by omega) (by rw [hstores.length]; omega) (by rw [hstores.length]; omega)
    · unfold blit
      rw [if_neg (by rw [List.length_singleton]; omega)]
      rfl

/-- The outer loop stores one chain after the other. -/
theorem list_buckets_spec {hs : List Ptr} {ass : List (List Nat)}
    (hchains : List.Forall₂ (Chain (m.heap.view (·.next))) ass hs) {fuel : Nat}
    (hfuel : ∀ as ∈ ass, as.length ≤ fuel) {list : List Ptr} {count : Nat}
    (hroom : count + ass.flatten.length ≤ list.length) :
    ∃ list', list_buckets fuel m hs.length hs list count = .ok (list', count + ass.flatten.length) ∧
      Stores list count (ass.flatten.map some) list' := by
  induction hchains generalizing list count with
  | nil => exact ⟨list, rfl, rfl, by simp⟩
  | @cons as p ass hs hchain _ ih =>
    rw [List.flatten_cons, List.length_append] at hroom
    obtain ⟨list₁, hfirst, hstores₁⟩ := list_chain_spec hchain (hfuel as List.mem_cons_self)
      (by omega : count + as.length ≤ list.length)
    obtain ⟨list', hrest, hstores⟩ := ih (fun bs hbs => hfuel bs (List.mem_cons_of_mem as hbs))
      (by rw [hstores₁.length]; omega : count + as.length + ass.flatten.length ≤ list₁.length)
    refine ⟨list', ?_, ?_⟩
    · rw [List.length_cons, list_buckets, hfirst, ok_bind]
      dsimp only
      rw [hrest, List.flatten_cons, List.length_append, Nat.add_assoc]
    · rw [List.flatten_cons, List.map_append]
      apply hstores₁.append
      rwa [List.length_map]

theorem list_buckets_overflow {hs : List Ptr} {ass : List (List Nat)}
    (hchains : List.Forall₂ (Chain (m.heap.view (·.next))) ass hs) {fuel : Nat}
    (hfuel : ∀ as ∈ ass, as.length ≤ fuel) {list : List Ptr} {count : Nat} (hcount : count ≤ list.length)
    (hfull : list.length < count + ass.flatten.length) :
    list_buckets fuel m hs.length hs list count = .error .outOfBounds := by
  induction hchains generalizing list count with
  | nil =>
    rw [List.flatten_nil, List.length_nil] at hfull
    omega
  | @cons as p ass hs hchain _ ih =>
    rw [List.flatten_cons, List.length_append] at hfull
    have hfuel₁ := hfuel as List.mem_cons_self
    rw [List.length_cons, list_buckets]
    by_cases hfits : count + as.length ≤ list.length
    · obtain ⟨list₁, hfirst, hstores⟩ := list_chain_spec hchain hfuel₁ hfits
      rw [hfirst, ok_bind]
      exact ih (fun bs hbs => hfuel bs (List.mem_cons_of_mem as hbs)) (by rw [hstores.length]; omega)
        (by rw [hstores.length]; omega)
    · rw [list_chain_overflow hchain hfuel₁ hcount (by omega)]
      rfl

theorem Separate.chain_fuel (h : Separate m chains) :
    ∀ as ∈ (List.range m.size).map chains, as.length ≤ chain_fuel m := by
  intro as has
  obtain ⟨i, hi, rfl⟩ := List.mem_map.mp has
  exact h.length_le (List.mem_range.mp hi)

/-- With an exact counter the list holds every entry and the closing `NULL`. -/
theorem hashmap_list_eq (h : Separate m chains) (hused : m.used = (visited m.size chains).length) :
    hashmap_list (chain_fuel m) m true = .ok (some ((visited m.size chains).map some ++ [none])) := by
  have hempty : (List.replicate (m.used + 1) (none : Ptr)).length = m.used + 1 := List.length_replicate
  obtain ⟨list, hloop, hstores⟩ := list_buckets_spec (forall₂_chains h.length_data h.chain) h.chain_fuel
    (by rw [hempty, hused]; unfold visited; omega :
      0 + ((List.range m.size).map chains).flatten.length ≤ (List.replicate (m.used + 1) (none : Ptr)).length)
  obtain ⟨list', hblit, hstores'⟩ := blit_stores (by rw [hstores.length, hempty, hused]; unfold visited; simp :
    0 + ((List.range m.size).map chains).flatten.length + [(none : Ptr)].length ≤ list.length)
  have hboth : Stores (List.replicate (m.used + 1) none) 0 ((visited m.size chains).map some ++ [none]) list' := by
    refine Stores.append hstores ?_
    rwa [List.length_map]
  have hlist : list' = (visited m.size chains).map some ++ [none] := by
    have htake := hboth.take
    rw [List.take_zero, List.nil_append, List.take_of_length_le] at htake
    · exact htake
    · rw [hboth.length, hempty, List.length_append, List.length_map, hused, List.length_singleton]
      omega
  rw [h.length_data] at hloop
  unfold hashmap_list
  rw [if_pos rfl, hloop, ok_bind]
  dsimp only
  rw [hblit, ok_bind, hlist]

/-- With a counter that is too low the list leaves its array. -/
theorem hashmap_list_overflow (h : Separate m chains) (hused : m.used < (visited m.size chains).length) :
    hashmap_list (chain_fuel m) m true = .error .outOfBounds := by
  have hempty : (List.replicate (m.used + 1) (none : Ptr)).length = m.used + 1 := List.length_replicate
  have hcount : ((List.range m.size).map chains).flatten.length = (visited m.size chains).length := rfl
  have hall := forall₂_chains h.length_data h.chain
  unfold hashmap_list
  rw [if_pos rfl]
  by_cases hfits : ((List.range m.size).map chains).flatten.length ≤ m.used + 1
  · obtain ⟨list, hloop, hstores⟩ := list_buckets_spec hall h.chain_fuel
      (by rw [hempty, Nat.zero_add]; exact hfits :
        0 + ((List.range m.size).map chains).flatten.length ≤ (List.replicate (m.used + 1) (none : Ptr)).length)
    rw [h.length_data] at hloop
    rw [hloop, ok_bind]
    dsimp only
    unfold blit
    rw [if_neg (by rw [hstores.length, hempty, List.length_singleton]; omega)]
    rfl
  · have hloop := list_buckets_overflow hall h.chain_fuel (Nat.zero_le _) (by rw [hempty]; omega :
      (List.replicate (m.used + 1) (none : Ptr)).length < 0 + ((List.range m.size).map chains).flatten.length)
    rw [h.length_data] at hloop
    rw [hloop]
    rfl

/-! ## The counter -/

/-- The counter counts the linked entries, and every live entry is linked. -/
structure Tallied (m : Hashmap V) (chains : Nat → List Nat) : Prop where
  linked : Linked m chains
  used_lt : m.used < 2 ^ 16
  used : m.used = (visited m.size chains).length
  live : ∀ a e, m.heap.get? a = some e → a ∈ visited m.size chains

/-- An address is live if it is so for the data of the entries. -/
theorem exists_of_bare {heap heap' : Heap (HashmapEntry V)} {a : Nat} {e : HashmapEntry V}
    (hbare : heap'.view HashmapEntry.bare a = heap.view HashmapEntry.bare a) (hget : heap'.get? a = some e) :
    ∃ e', heap.get? a = some e' := by
  obtain ⟨e', he', _⟩ := entry_of_bare_eq hbare.symm hget
  exact ⟨e', he'⟩

theorem Tallied.grow (h : Tallied m chains) {prime : Nat} (hprime : primes[(m.idx + 1) % 2 ^ 8]? = some prime) :
    ∃ m' chains', hashmap_grow (chain_fuel m) m true = .ok (m', 0) ∧ 0 < m'.size ∧ m'.used = m.used ∧
      Tallied m' chains' := by
  obtain ⟨m', hgrow, hlinked, hkept, hused, _⟩ := hashmap_grow_spec hprime h.linked.length_data
    h.linked.chain h.linked.nodup_visited fun i _ => h.linked.length_le i
  have hsize : m'.size = prime := hkept.size
  have hpos := primes_pos hprime
  have hperm := visited_regrown hpos m.heap (visited m.size chains)
  have hsame : m'.used = m.used := by
    rw [hused, ← h.used, Nat.mod_eq_of_lt h.used_lt]
  refine ⟨m', _, hgrow, by omega, hsame, hlinked, ?_, ?_, ?_⟩
  · rw [hsame]
    exact h.used_lt
  · rw [hsame, h.used, hsize, hperm.length_eq]
  · intro a e he
    obtain ⟨e', he'⟩ := exists_of_bare (congrFun hkept.bare a) he
    rw [hsize]
    exact hperm.mem_iff.mpr (h.live a e' he')

/-- What an insert that succeeds does to the counter and to the entries. -/
theorem Tallied.insert {m' : Hashmap V} (h : Tallied m chains) {key : List UInt8} {value : Option V} {ht : Ptr}
    (hinsert : hashmap_insert (chain_fuel m) m key value ⟨true, true⟩ = .ok (m', ht)) :
    ∃ chains', Linked m' chains' ∧ m'.used = (m.used + 1) % 2 ^ 16 ∧
      (visited m'.size chains').length = m.used + 1 ∧
      ∀ b e, m'.heap.get? b = some e → b ∈ visited m'.size chains' := by
  have hprepare : ∃ m₁ chains₁, Prepared (chain_fuel m) m m₁ ∧ 0 < m₁.size ∧ m₁.used = m.used ∧
      Tallied m₁ chains₁ := by
    by_cases hroom : m.used < m.size
    · exact ⟨m, chains, Or.inl ⟨hroom, rfl⟩, by omega, rfl, h⟩
    · cases hprime : primes[(m.idx + 1) % 2 ^ 8]? with
      | none =>
        rw [hashmap_insert_no_prime (by omega) hprime] at hinsert
        cases hinsert
      | some prime =>
        obtain ⟨m₁, chains₁, hgrow, hpos, hsame, h₁⟩ := h.grow hprime
        exact ⟨m₁, chains₁, Or.inr ⟨by omega, hgrow⟩, hpos, hsame, h₁⟩
  obtain ⟨m₁, chains₁, hprepared, hpos, hsame, h₁⟩ := hprepare
  obtain ⟨m₂, hinsert', hinserted⟩ := hashmap_insert_spec hprepared h₁.linked hpos key value
  obtain ⟨rfl, _⟩ := ok_inj hinsert' hinsert
  have hperm := visited_push chains₁ m₁.heap.cells.length (slot_lt hpos key)
  refine ⟨_, hinserted.linked, ?_, ?_, ?_⟩
  · rw [hinserted.used, hsame]
  · rw [hinserted.size, hperm.length_eq, List.length_cons, ← h₁.used, hsame]
  · intro b e he
    rw [hinserted.size, hperm.mem_iff]
    by_cases hb : b = m₁.heap.cells.length
    · rw [hb]
      exact List.mem_cons_self
    · obtain ⟨e', he'⟩ := exists_of_bare (hinserted.bare b hb) he
      exact List.mem_cons_of_mem _ (h₁.live b e' he')

theorem Tallied.deleted {m' : Hashmap V} (h : Tallied m chains) {i a : Nat} (ha : a ∈ chains i)
    (hdeleted : Deleted m m' chains i a) : Tallied m' (unlink chains i a) := by
  have hperm := visited_unlink (h.linked.lt_size ha) ha
  have hcount := hperm.length_eq
  rw [List.length_cons, ← h.used] at hcount
  have hlt := h.used_lt
  refine ⟨hdeleted.linked, ?_, ?_, ?_⟩
  · rw [hdeleted.used]
    exact Nat.mod_lt _ (by decide)
  · rw [hdeleted.used, hdeleted.size]
    omega
  · intro b e he
    have hb : b ≠ a := by
      rintro rfl
      rw [hdeleted.gone] at he
      cases he
    obtain ⟨e', he'⟩ := exists_of_bare (hdeleted.bare b hb) he
    have hmem := hperm.mem_iff.mp (h.live b e' he')
    rw [hdeleted.size]
    exact List.mem_of_ne_of_mem hb hmem

/-! ## Runs -/

/-- An insert must not find the counter at its largest value, and a deletion must
    not unlink an entry that is first in its bucket and stale. -/
def CountSafe (m : Hashmap V) : Op V → Prop
  | .insert _ _ => m.used ≠ 65535
  | .delete key => DeleteSafe m key
  | .find _ => True

instance (m : Hashmap V) : ∀ op, Decidable (CountSafe m op)
  | .insert _ _ => inferInstanceAs (Decidable (m.used ≠ 65535))
  | .delete key => inferInstanceAs (Decidable (DeleteSafe m key))
  | .find _ => .isTrue trivial

theorem Tallied.exec {m' : Hashmap V} (h : Tallied m chains) {op : Op V} (hsafe : CountSafe m op)
    {out : Outcome V} (hexec : hashmap.exec m op = .ok (m', out)) : ∃ chains', Tallied m' chains' := by
  cases op with
  | insert key value =>
    obtain ⟨⟨m₁, ht⟩, hinsert, hdone⟩ := bind_eq_ok_iff.mp hexec
    cases hdone
    obtain ⟨chains', hlinked, hused, hcount, hlive⟩ := h.insert hinsert
    have hlt := h.used_lt
    have hsafe : m.used ≠ 65535 := hsafe
    exact ⟨chains', hlinked, by omega, by omega, hlive⟩
  | delete key =>
    obtain ⟨⟨m₁, rc⟩, hdelete, hdone⟩ := bind_eq_ok_iff.mp hexec
    cases hdone
    have hsize := hashmap_delete_size_pos hdelete
    cases hfind : (chains (slot m.size key)).find? (m.heap.passes (matches_key key)) with
    | none =>
      rw [hashmap_delete_absent h.linked hsize key (h.linked.length_le _) hfind] at hdelete
      cases hdelete
      exact ⟨chains, h⟩
    | some a =>
      obtain ⟨m₂, hdelete', hdeleted⟩ := hashmap_delete_found h.linked hsize (h.linked.length_le _) hfind hsafe
      obtain ⟨rfl, _⟩ := ok_inj hdelete' hdelete
      exact ⟨_, h.deleted (List.mem_of_find?_eq_some hfind) hdeleted⟩
  | find key =>
    obtain ⟨value, _, hdone⟩ := bind_eq_ok_iff.mp hexec
    cases hdone
    exact ⟨chains, h⟩

theorem tallied_of_create {size : Int} {alloc : Bool} (hcreate : hashmap_create V size alloc = some m) :
    Tallied m fun _ => [] := by
  obtain ⟨_, hused, _, hheap, _⟩ := hashmap_create_spec hcreate
  have hnone : visited m.size (fun _ => []) = [] := by simp [visited]
  refine ⟨linked_of_create hcreate, by omega, ?_, ?_⟩
  · rw [hnone, hused]
    rfl
  · intro a e he
    rw [hheap] at he
    simp [Heap.empty, Heap.get?] at he

/-- The counter counts the entries linked in the buckets, these are the live ones,
    and `hashmap_list` returns each of them once before the closing `NULL`. -/
def Listed (m : Hashmap V) : Prop :=
  ∃ chains, Linked m chains ∧ m.used = (visited m.size chains).length ∧ (visited m.size chains).Nodup ∧
    (∀ a, a ∈ visited m.size chains ↔ ∃ e, m.heap.get? a = some e) ∧
    hashmap_list (chain_fuel m) m true = .ok (some ((visited m.size chains).map some ++ [none]))

theorem Tallied.listed (h : Tallied m chains) : Listed m := by
  refine ⟨chains, h.linked, h.used, h.linked.nodup_visited, fun a => ⟨fun ha => ?_, fun ⟨e, he⟩ => h.live a e he⟩,
    hashmap_list_eq h.linked.separate h.used⟩
  obtain ⟨i, _, hi⟩ := mem_visited_iff.mp ha
  obtain ⟨e, he, _⟩ := h.linked.placed i a hi
  exact ⟨e, he⟩

/-- In every state that a run from a new map leads to, the counter is exact and
    the list complete, if no insert of the run finds the counter at its largest
    value and no deletion finds a stale entry at the head of its bucket. -/
theorem listed_along_run {size : Int} (hcreate : hashmap_create V size true = some m) {ops : List (Op V)}
    (hsafe : Guarded exec CountSafe m ops) {m' : Hashmap V} {os : List (Outcome V)}
    (hrun : run exec m ops = .ok (m', os)) : Listed m' := by
  obtain ⟨chains, h⟩ := run_keeps (fun m => ∃ chains, Tallied m chains) (by
    rintro m op m' out ⟨chains, h⟩ hsafe hexec
    exact h.exec hsafe hexec) ⟨_, tallied_of_create hcreate⟩ hsafe hrun
  exact h.listed

/-- Two colliding keys, one of them inserted twice, and a deletion. -/
theorem listed_along_run_collision :
    ∃ m m' os, hashmap_create Nat 0 true = some m ∧
      run exec m [.insert [1] (some 1), .insert [78] (some 2), .insert [1] none, .delete [78]] = .ok (m', os) ∧
      Listed m' := by
  have hcreate : hashmap_create Nat 0 true =
      some { size := 0, used := 0, idx := 0, data := [], heap := Heap.empty, freed := [] } := rfl
  obtain ⟨m', hrun⟩ := run_of_outputs
    (by decide : (run exec { size := 0, used := 0, idx := 0, data := [], heap := Heap.empty, freed := [] }
      [Op.insert [1] (some 1), .insert [78] (some 2), .insert [1] none, .delete [78]]).toOption.map Prod.snd =
        some [Outcome.inserted (V := Nat) true, .inserted true, .inserted true, .deleted 0])
  exact ⟨_, m', _, hcreate, hrun, listed_along_run hcreate (by decide) hrun⟩

/-- The deletion of a stale head leaves its freed entry in the bucket, and listing
    the map reads it. -/
theorem stale_run_not_listed :
    ∃ m m' os, hashmap_create Nat 0 true = some m ∧ run exec m (stale_run ++ [.delete [1]]) = .ok (m', os) ∧
      hashmap_list (chain_fuel m') m' true = .error .danglingPointer ∧ ¬Listed m' := by
  have hlist : ∃ m' os, run exec
      { size := 0, used := 0, idx := 0, data := [], heap := Heap.empty, freed := [] } (stale_run ++ [.delete [1]]) =
        .ok (m', os) ∧ hashmap_list (chain_fuel m') m' true = .error .danglingPointer := by
    refine ⟨_, _, rfl, ?_⟩
    rfl
  obtain ⟨m', os, hrun, hfault⟩ := hlist
  refine ⟨_, m', os, rfl, hrun, hfault, ?_⟩
  rintro ⟨chains, _, _, _, _, hlisted⟩
  rw [hfault] at hlisted
  cases hlisted

/-- An insert that finds the counter at its largest value sets it to 0. Every entry
    is still linked, and listing them leaves the array of one slot. -/
theorem Tallied.wraps {m' : Hashmap V} (h : Tallied m chains) (hlast : m.used = 65535) {key : List UInt8}
    {value : Option V} {ht : Ptr}
    (hinsert : hashmap_insert (chain_fuel m) m key value ⟨true, true⟩ = .ok (m', ht)) :
    m'.used = 0 ∧ hashmap_list (chain_fuel m') m' true = .error .outOfBounds := by
  obtain ⟨chains', hlinked, hused, hcount, _⟩ := h.insert hinsert
  have hzero : m'.used = 0 := by omega
  exact ⟨hzero, hashmap_list_overflow hlinked.separate (by omega)⟩

end code_tools.hashmap
