import Mathlib.Data.Finmap
import CodeTools.Lib.Machine
import CodeTools.HashMap.Insert
import CodeTools.HashMap.Delete

/-!
# The table as a finite map

While live keys are unique, the table represents the finite map of its
bindings. Deletion keeps it so as long as the entry that it unlinks does not
carry a stale `prev` at the head of its bucket.
-/

namespace code_tools.hashmap

open cmem machine

variable {V : Type}

/-! ## The finite map -/

/-- The bindings that are in the map, and whether any was ever made: before the
    first insert there is no bucket array to look into. -/
structure Bindings (V : Type) where
  map : Finmap fun _ : List UInt8 => V
  started : Bool

def Bindings.empty : Bindings V := { map := ∅, started := false }

/-- What each call should do and return. -/
def Bindings.step (s : Bindings V) : Op V → Bindings V × Outcome V
  | .insert key value =>
    ({ map := value.elim s.map fun v => s.map.insert key v, started := true }, .inserted true)
  | .delete key => ({ s with map := s.map.erase key }, .deleted (if key ∈ s.map then 0 else 1))
  | .find key => (s, .found (s.map.lookup key))

/-- The calls that a caller may make: a key is inserted only while it is absent
    and with a value, and the count of entries stays within 16 bits. -/
def Bindings.Allowed (s : Bindings V) : Op V → Prop
  | .insert key value => key ∉ s.map ∧ value ≠ none ∧ s.map.keys.card + 1 < 2 ^ 16
  | .delete _ => s.started = true
  | .find _ => s.started = true

/-! ## What a table represents -/

/-- The binding that an entry holds. -/
def HashmapEntry.binding (e : HashmapEntry V) : List UInt8 × Option V := (e.key, e.value)

theorem view_binding_of_bare_eq {heap heap' : Heap (HashmapEntry V)} {a : Nat}
    (hbare : heap'.view HashmapEntry.bare a = heap.view HashmapEntry.bare a) :
    heap'.view HashmapEntry.binding a = heap.view HashmapEntry.binding a := by
  have hview : ∀ h : Heap (HashmapEntry V),
      h.view HashmapEntry.binding a = (h.view HashmapEntry.bare a).map HashmapEntry.binding := by
    intro h
    unfold Heap.view
    rw [Option.map_map]
    rfl
  rw [hview, hview, hbare]

/-- A binding of the finite map as an entry holds it. -/
def held (b : Sigma fun _ : List UInt8 => V) : Option (List UInt8 × Option V) := some (b.1, some b.2)

/-- The table's chains hold each binding of the map in one entry and no other
    entry, and the counter counts them. -/
structure Represents (m : Hashmap V) (chains : Nat → List Nat) (s : Bindings V) : Prop where
  linked : Linked m chains
  formed : AllFormed m.heap
  sized : Sized m
  used : m.used = (visited m.size chains).length
  started : s.started = true → 0 < m.size
  entries : (((visited m.size chains).map (m.heap.view HashmapEntry.binding) : List _) : Multiset _) =
    s.map.entries.map held

variable {m : Hashmap V} {chains : Nat → List Nat} {s : Bindings V}

theorem Represents.card_eq (h : Represents m chains s) : s.map.keys.card = m.used := by
  have hcard := congrArg Multiset.card h.entries
  rw [Multiset.coe_card, List.length_map, Multiset.card_map] at hcard
  have hkeys : s.map.keys.card = Multiset.card s.map.entries := Multiset.card_map _ _
  rw [hkeys, ← hcard, h.used]

theorem Represents.mem_entries_iff (h : Represents m chains s) {key : List UInt8} {v : V} :
    s.map.lookup key = some v ↔
      ∃ a ∈ visited m.size chains, m.heap.view HashmapEntry.binding a = some (key, some v) := by
  rw [Finmap.lookup_eq_some_iff]
  have hheld : ⟨key, v⟩ ∈ s.map.entries ↔ held ⟨key, v⟩ ∈ s.map.entries.map held := by
    constructor
    · exact Multiset.mem_map_of_mem held
    · intro hmem
      obtain ⟨⟨key', v'⟩, hb, heq⟩ := Multiset.mem_map.mp hmem
      simp only [held, Option.some.injEq, Prod.mk.injEq] at heq
      obtain ⟨rfl, rfl⟩ := heq
      exact hb
  rw [hheld, ← h.entries, Multiset.mem_coe, List.mem_map]
  rfl

/-- A lookup in the bucket of a key finds the entry of the key's binding, or
    nothing where the map has none. -/
theorem Represents.find?_cases (h : Represents m chains s) (key : List UInt8) :
    (∃ a v, (chains (slot m.size key)).find? (m.heap.passes (matches_key key)) = some a ∧
      m.heap.view HashmapEntry.binding a = some (key, some v) ∧ s.map.lookup key = some v) ∨
    ((chains (slot m.size key)).find? (m.heap.passes (matches_key key)) = none ∧ key ∉ s.map) := by
  cases hfind : (chains (slot m.size key)).find? (m.heap.passes (matches_key key)) with
  | some a =>
    left
    have hmem := List.mem_of_find?_eq_some hfind
    have hpass := List.find?_some hfind
    obtain ⟨e, he, _⟩ := h.linked.placed _ a hmem
    have hkey : e.key = key := by
      rw [Heap.passes, he, Option.any_some] at hpass
      exact ((h.formed a e he).matches_key_iff key).mp hpass
    have hview : m.heap.view HashmapEntry.binding a = some (key, e.value) := by
      rw [Heap.view, he, Option.map_some, HashmapEntry.binding, hkey]
    have hentry : m.heap.view HashmapEntry.binding a ∈ s.map.entries.map held := by
      rw [← h.entries, Multiset.mem_coe]
      exact List.mem_map_of_mem (h.linked.mem_visited hmem)
    obtain ⟨⟨key', v⟩, _, hheld⟩ := Multiset.mem_map.mp hentry
    rw [hview] at hheld
    simp only [held, Option.some.injEq, Prod.mk.injEq] at hheld
    rw [← hheld.2] at hview
    exact ⟨a, v, rfl, hview, h.mem_entries_iff.mpr ⟨a, h.linked.mem_visited hmem, hview⟩⟩
  | none =>
    right
    refine ⟨rfl, fun hkey => ?_⟩
    obtain ⟨v, hv⟩ := Finmap.mem_iff.mp hkey
    obtain ⟨a, ha, hview⟩ := h.mem_entries_iff.mp hv
    obtain ⟨i, _, hi⟩ := mem_visited_iff.mp ha
    obtain ⟨e, he, rfl⟩ := h.linked.placed i a hi
    rw [Heap.view, he, Option.map_some, Option.some.injEq] at hview
    have hek : e.key = key := congrArg Prod.fst hview
    rw [hek] at hi
    have hfalse := List.find?_eq_none.mp hfind a hi
    rw [Heap.passes, he, Option.any_some, (h.formed a e he).matches_key_iff key] at hfalse
    exact hfalse hek

/-- A find on a table with a bucket array returns what the map binds. -/
theorem Represents.find_eq (h : Represents m chains s) (hsize : 0 < m.size) (key : List UInt8) :
    hashmap_find (chain_fuel m) m key = .ok (s.map.lookup key) := by
  unfold hashmap_find
  rw [h.linked.locate_eq hsize key (h.linked.length_le _), ok_bind]
  rcases h.find?_cases key with ⟨a, v, hfind, hview, hlookup⟩ | ⟨hfind, hkey⟩
  · obtain ⟨e, he, hbinding⟩ := Heap.view_eq_some_iff.mp hview
    rw [hfind, hlookup]
    dsimp only
    rw [Heap.deref_some he, ok_bind]
    exact congrArg Except.ok (congrArg Prod.snd hbinding)
  · rw [hfind, Finmap.lookup_eq_none.mpr hkey]

/-! ## Growth and insertion -/

/-- Growth keeps what the table represents. -/
theorem Represents.grow (h : Represents m chains s) (hfull : m.size ≤ m.used) :
    ∃ m' chains', hashmap_grow (chain_fuel m) m true = .ok (m', 0) ∧ 0 < m'.size ∧
      Represents m' chains' s := by
  obtain ⟨hidx, prime, hprime⟩ := h.sized.next_prime hfull
  obtain ⟨m', hgrow, hlinked, hkept, hused, _⟩ := hashmap_grow_spec hprime h.linked.length_data
    h.linked.chain h.linked.nodup_visited fun i _ => h.linked.length_le i
  have hsize : m'.size = prime := hkept.size
  have hpos := primes_pos hprime
  have hperm := visited_regrown hpos m.heap (visited m.size chains)
  refine ⟨m', _, hgrow, by omega, hlinked, ?_, ⟨?_, Or.inr ?_⟩, ?_, fun _ => by omega, ?_⟩
  · exact h.formed.of_bare_eq hkept.bare
  · rw [hused]
    exact Nat.mod_lt _ (by decide)
  · rw [hkept.idx, hsize]
    exact hprime
  · have hlt := h.sized.used_lt
    have hold := h.used
    rw [hused, hsize, hperm.length_eq]
    omega
  · rw [← h.entries, hsize]
    have hviews : m'.heap.view HashmapEntry.binding = m.heap.view HashmapEntry.binding := by
      funext a
      exact view_binding_of_bare_eq (congrFun hkept.bare a)
    rw [hviews]
    exact Multiset.coe_eq_coe.mpr (hperm.map _)

/-- An insert with room adds the binding. -/
theorem Represents.inserted {m' : Hashmap V} (h : Represents m chains s) (hsize : 0 < m.size)
    {key : List UInt8} {v : V} (hkey : key ∉ s.map) (hcount : m.used + 1 < 2 ^ 16)
    (hinserted : Inserted m m' chains key (some v)) :
    Represents m' (push chains (slot m.size key) m.heap.cells.length)
      { map := s.map.insert key v, started := true } := by
  have hperm := visited_push chains m.heap.cells.length (slot_lt hsize key)
  have hidx : primes[m.idx]? = some m.size := by
    rcases h.sized.prime with ⟨hzero, _⟩ | hprime
    · omega
    · exact hprime
  refine ⟨hinserted.linked, hinserted.allFormed h.formed, ⟨?_, Or.inr ?_⟩, ?_, fun _ => ?_, ?_⟩
  · rw [hinserted.used]
    exact Nat.mod_lt _ (by decide)
  · rw [hinserted.idx, hinserted.size, hidx]
  · rw [hinserted.used, hinserted.size, hperm.length_eq, List.length_cons, ← h.used]
    omega
  · rw [hinserted.size]
    exact hsize
  · rw [hinserted.size, Finmap.entries_insert_of_notMem hkey, Multiset.map_cons, ← h.entries,
      Multiset.cons_coe, Multiset.coe_eq_coe]
    refine (hperm.map _).trans ?_
    have hnew : m'.heap.view HashmapEntry.binding m.heap.cells.length = held ⟨key, v⟩ := by
      obtain ⟨e, he, hbare⟩ := Heap.view_eq_some_iff.mp hinserted.entry
      have hbinding : e.binding = (new_entry key (some v)).binding := by
        have hbind := congrArg HashmapEntry.binding hbare
        exact hbind
      rw [Heap.view, he, Option.map_some, hbinding]
      rfl
    have hold : (visited m.size chains).map (m'.heap.view HashmapEntry.binding) =
        (visited m.size chains).map (m.heap.view HashmapEntry.binding) := by
      apply List.map_congr_left
      intro a ha
      obtain ⟨i, _, hi⟩ := mem_visited_iff.mp ha
      obtain ⟨e, he, _⟩ := h.linked.placed i a hi
      have hlt := Heap.lt_length_of_get? he
      exact view_binding_of_bare_eq (hinserted.bare a (by omega))
    rw [List.map_cons, hnew, hold]

theorem Represents.insert (h : Represents m chains s) {key : List UInt8} {v : V}
    (hkey : key ∉ s.map) (hcount : s.map.keys.card + 1 < 2 ^ 16) :
    ∃ m' chains' a, hashmap_insert (chain_fuel m) m key (some v) ⟨true, true⟩ = .ok (m', some a) ∧
      Represents m' chains' { map := s.map.insert key v, started := true } := by
  have hprepare : ∃ m₁ chains₁, Prepared (chain_fuel m) m m₁ ∧ 0 < m₁.size ∧
      Represents m₁ chains₁ s := by
    by_cases hroom : m.used < m.size
    · exact ⟨m, chains, Or.inl ⟨hroom, rfl⟩, by omega, h⟩
    · obtain ⟨m₁, chains₁, hgrow, hpos, h₁⟩ := h.grow (by omega)
      exact ⟨m₁, chains₁, Or.inr ⟨by omega, hgrow⟩, hpos, h₁⟩
  obtain ⟨m₁, chains₁, hprepared, hpos, h₁⟩ := hprepare
  obtain ⟨m', hinsert, hinserted⟩ := hashmap_insert_spec hprepared h₁.linked hpos key (some v)
  rw [h₁.card_eq] at hcount
  exact ⟨m', _, _, hinsert, h₁.inserted hpos hkey hcount hinserted⟩

/-! ## Deletion -/

theorem erase_of_notMem {map : Finmap fun _ : List UInt8 => V} {key : List UInt8} (hkey : key ∉ map) :
    map.erase key = map := by
  apply Finmap.ext_lookup
  intro other
  by_cases heq : other = key
  · rw [heq, Finmap.lookup_erase, Finmap.lookup_eq_none.mpr hkey]
  · exact Finmap.lookup_erase_ne heq

/-- The bindings of a map, one of them set apart. -/
theorem entries_of_lookup {map : Finmap fun _ : List UInt8 => V} {key : List UInt8} {v : V}
    (hlookup : map.lookup key = some v) : map.entries = ⟨key, v⟩ ::ₘ (map.erase key).entries := by
  have hback : map = (map.erase key).insert key v := by
    apply Finmap.ext_lookup
    intro other
    by_cases heq : other = key
    · rw [heq, Finmap.lookup_insert, hlookup]
    · rw [Finmap.lookup_insert_of_ne _ heq, Finmap.lookup_erase_ne heq]
  conv_lhs => rw [hback]
  exact Finmap.entries_insert_of_notMem Finmap.notMem_erase_self

/-- A safe deletion of a bound key removes its binding and no other. -/
theorem Represents.deleted {m' : Hashmap V} (h : Represents m chains s) {key : List UInt8} {v : V}
    {a : Nat} (ha : a ∈ chains (slot m.size key)) (hlookup : s.map.lookup key = some v)
    (hview : m.heap.view HashmapEntry.binding a = some (key, some v))
    (hdeleted : Deleted m m' chains (slot m.size key) a) :
    Represents m' (unlink chains (slot m.size key) a) { s with map := s.map.erase key } := by
  have hperm := visited_unlink (h.linked.lt_size ha) ha
  have hcount := hperm.length_eq
  rw [List.length_cons, ← h.used] at hcount
  have hlt := h.sized.used_lt
  refine ⟨hdeleted.linked, hdeleted.allFormed h.formed, ⟨?_, ?_⟩, ?_, fun hstarted => ?_, ?_⟩
  · rw [hdeleted.used]
    exact Nat.mod_lt _ (by decide)
  · rw [hdeleted.size, hdeleted.idx]
    exact h.sized.prime
  · rw [hdeleted.used, hdeleted.size]
    omega
  · rw [hdeleted.size]
    exact h.started hstarted
  · have hnodup := h.linked.nodup_visited
    rw [hperm.nodup_iff] at hnodup
    have hkeep : (visited m.size (unlink chains (slot m.size key) a)).map
          (m'.heap.view HashmapEntry.binding) =
        (visited m.size (unlink chains (slot m.size key) a)).map
          (m.heap.view HashmapEntry.binding) := by
      apply List.map_congr_left
      intro b hb
      apply view_binding_of_bare_eq (hdeleted.bare b _)
      rintro rfl
      exact (List.nodup_cons.mp hnodup).1 hb
    have hold := h.entries
    rw [entries_of_lookup hlookup, Multiset.map_cons,
      Multiset.coe_eq_coe.mpr (hperm.map (m.heap.view HashmapEntry.binding)), List.map_cons,
      ← Multiset.cons_coe, hview] at hold
    rw [hdeleted.size, hkeep]
    exact (Multiset.cons_inj_right _).mp hold

/-! ## Runs -/

/-- A deletion must not unlink an entry that is first in its bucket and stale. -/
def DeletesSafely (m : Hashmap V) : Op V → Prop
  | .insert _ _ => True
  | .delete key => DeleteSafe m key
  | .find _ => True

/-- One allowed and safe call does and returns what the finite map says. -/
theorem exec_refines (h : Represents m chains s) {op : Op V} (hsafe : DeletesSafely m op)
    (hallowed : s.Allowed op) :
    ∃ m', exec m op = .ok (m', (s.step op).2) ∧ ∃ chains', Represents m' chains' (s.step op).1 := by
  cases op with
  | insert key value =>
    obtain ⟨hkey, hvalue, hcount⟩ := hallowed
    cases value with
    | none => exact absurd rfl hvalue
    | some v =>
      obtain ⟨m', chains', a, hinsert, h'⟩ := h.insert hkey hcount
      refine ⟨m', ?_, chains', h'⟩
      simp only [exec, hinsert, ok_bind]
      rfl
  | delete key =>
    have hsize := h.started hallowed
    rcases h.find?_cases key with ⟨a, v, hfind, hview, hlookup⟩ | ⟨hfind, hkey⟩
    · obtain ⟨m', hdelete, hdeleted⟩ :=
        hashmap_delete_found h.linked hsize (h.linked.length_le _) hfind hsafe
      refine ⟨m', ?_, _, h.deleted (List.mem_of_find?_eq_some hfind) hlookup hview hdeleted⟩
      have hmem := Finmap.mem_of_lookup_eq_some hlookup
      simp only [exec, hdelete, ok_bind, Bindings.step, hmem, if_true]
    · refine ⟨m, ?_, chains, ?_⟩
      · have hdelete := hashmap_delete_absent h.linked hsize key (h.linked.length_le _) hfind
        simp only [exec, hdelete, ok_bind, Bindings.step, hkey, if_false]
      · have hsame : (s.step (.delete key)).1 = s := by
          simp only [Bindings.step, erase_of_notMem hkey]
        rw [hsame]
        exact h
  | find key =>
    refine ⟨m, ?_, chains, h⟩
    simp only [exec, h.find_eq (h.started hallowed) key, ok_bind, Bindings.step]

theorem represents_of_create {size : Int} (hint : -2 ^ 31 ≤ size) (hsize : size < 5999471)
    (hcreate : hashmap_create V size true = some m) : Represents m (fun _ => []) Bindings.empty := by
  obtain ⟨hzero, hused, _, hheap, _⟩ := hashmap_create_spec hcreate
  have hnone : visited m.size (fun _ => []) = [] := by simp [visited]
  refine ⟨linked_of_create hcreate, ?_, ⟨by omega, Or.inl ⟨hzero, ?_⟩⟩, ?_, ?_, ?_⟩
  · intro a e he
    rw [hheap] at he
    simp [Heap.empty, Heap.get?] at he
  · exact (next_prime_of_create_iff ⟨hint, by omega⟩ hcreate).mpr hsize
  · rw [hnone, hused]
    rfl
  · simp [Bindings.empty]
  · rw [hnone]
    rfl

/-- From a new map of a size with a prime to spare, every run of allowed calls
    whose deletions are safe succeeds, so no pointer to a freed entry is ever
    followed, and returns what the finite map returns; after it every key looks
    up its binding. Keys may collide in any way and the table may grow any
    number of times. -/
theorem hashmap_refines_map {size : Int} (hint : -2 ^ 31 ≤ size) (hsize : size < 5999471)
    (hcreate : hashmap_create V size true = some m) {ops : List (Op V)}
    (hallowed : Legal Bindings.step Bindings.Allowed Bindings.empty ops)
    (hsafe : Guarded exec DeletesSafely m ops) :
    ∃ m', run exec m ops = .ok (m', (runTotal Bindings.step Bindings.empty ops).2) ∧
      ((runTotal Bindings.step Bindings.empty ops).1.started = true → ∀ key,
        hashmap_find (chain_fuel m') m' key =
          .ok ((runTotal Bindings.step Bindings.empty ops).1.map.lookup key)) := by
  have hstep : ∀ (m : Hashmap V) (s : Bindings V) (op : Op V), (∃ chains, Represents m chains s) →
      DeletesSafely m op → s.Allowed op →
        ∃ m', exec m op = .ok (m', (s.step op).2) ∧ ∃ chains', Represents m' chains' (s.step op).1 := by
    rintro m s op ⟨chains, h⟩ hsafe hallowed
    exact exec_refines h hsafe hallowed
  obtain ⟨m', hrun, chains', h'⟩ := run_refines (fun m s => ∃ chains, Represents m chains s) hstep
    ⟨_, represents_of_create hint hsize hcreate⟩ hsafe hallowed
  exact ⟨m', hrun, fun hstarted key => h'.find_eq (h'.started hstarted) key⟩

instance [DecidableEq V] (s : Bindings V) : ∀ op, Decidable (s.Allowed op)
  | .insert key value =>
    inferInstanceAs (Decidable (key ∉ s.map ∧ value ≠ none ∧ s.map.keys.card + 1 < 2 ^ 16))
  | .delete _ => inferInstanceAs (Decidable (s.started = true))
  | .find _ => inferInstanceAs (Decidable (s.started = true))

instance (m : Hashmap V) : ∀ op, Decidable (DeletesSafely m op)
  | .insert _ _ => .isTrue trivial
  | .delete key => inferInstanceAs (Decidable (DeleteSafe m key))
  | .find _ => .isTrue trivial

/-- Two colliding keys, one of them deleted. -/
theorem hashmap_refines_map_collision :
    ∃ m m', hashmap_create Nat 0 true = some m ∧
      run exec m [.insert [1] (some 10), .insert [78] (some 20), .delete [1], .find [78]] =
        .ok (m', [.inserted true, .inserted true, .deleted 0, .found (some 20)]) := by
  have hcreate : hashmap_create Nat 0 true =
      some { size := 0, used := 0, idx := 0, data := [], heap := Heap.empty, freed := [] } := rfl
  obtain ⟨m', hrun, _⟩ := hashmap_refines_map (by decide) (by decide) hcreate
    (by decide : Legal Bindings.step Bindings.Allowed Bindings.empty
      [.insert [1] (some 10), .insert [78] (some 20), .delete [1], .find [78]]) (by decide)
  exact ⟨_, m', hcreate, hrun⟩

/-- Keys `[1]` and `[78]` share a bucket of 7, which is where `[1]` gets its
    `prev`. The last insert grows the table to 11, where `[1]` is alone. -/
def separated_run : List (Op Nat) :=
  [.insert [1] (some 1), .insert [78] (some 78), .insert [2] (some 2), .insert [3] (some 3),
    .insert [4] (some 4), .insert [5] (some 5), .insert [6] (some 6), .insert [7] (some 7),
    .delete [1], .find [1]]

/-- An allowed run: the deletion of `[1]` leaves its freed entry at the head of
    the bucket, and the lookup after it reads that entry. -/
theorem separated_run_dangles :
    ∃ m, hashmap_create Nat 0 true = some m ∧
      Legal Bindings.step Bindings.Allowed Bindings.empty separated_run ∧
      run exec m separated_run = .error .danglingPointer := by
  exact ⟨_, rfl, by decide, by rfl⟩

end code_tools.hashmap
