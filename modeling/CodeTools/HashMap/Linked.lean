import CodeTools.HashMap.Model

/-!
# What the chains of a table look like

`Linked` ties the pointers of a map to the abstract chains, one list of entry
addresses a bucket. It says nothing about the `prev` of a chain's first entry.
-/

namespace code_tools.hashmap

open cmem

variable {V : Type}

/-! ## Placement of keys -/

/-- The bucket of a key in a table of the given size. -/
def slot (size : Nat) (key : List UInt8) : Nat :=
  (hashcode_index_loop (hashed_bytes key) 0 63689 &&& 0x7FFFFFFF).toNat % size

theorem hashcode_index_eq {size : Nat} (hsize : 0 < size) (key : List UInt8) :
    hashcode_index key size = .ok (slot size key) := by
  unfold hashcode_index slot
  rw [if_neg (by omega)]

theorem slot_lt {size : Nat} (hsize : 0 < size) (key : List UInt8) : slot size key < size :=
  Nat.mod_lt _ hsize

/-- What an entry holds apart from its links. -/
def HashmapEntry.bare (e : HashmapEntry V) : HashmapEntry V := { e with next := none, prev := none }

/-- An entry as `hashmap_insert` fills it in. -/
def HashmapEntry.Formed (e : HashmapEntry V) : Prop :=
  e.key_len = e.key.length ∧ e.hash_code = hashcode_create e.key

/-- Every live entry is one that `hashmap_insert` filled in. -/
def AllFormed (heap : Heap (HashmapEntry V)) : Prop := ∀ a e, heap.get? a = some e → e.Formed

theorem HashmapEntry.Formed.matches_key_iff {e : HashmapEntry V} (hformed : e.Formed)
    (key : List UInt8) : matches_key key e = true ↔ e.key = key := by
  obtain ⟨hlen, hhash⟩ := hformed
  unfold matches_key
  rw [hlen, hhash]
  constructor
  · intro h
    simp only [Bool.and_eq_true, beq_iff_eq] at h
    exact h.2.symm
  · rintro rfl
    simp

/-! ## The invariant on links -/

/-- Every bucket heads a finite chain of live entries that hash to it, and every
    entry but the first of its chain points back to the entry before it. -/
structure Linked (m : Hashmap V) (chains : Nat → List Nat) : Prop where
  length_data : m.data.length = m.size
  chain : ∀ i, i < m.size → ∃ p, m.data[i]? = some p ∧ Chain (m.heap.view (·.next)) (chains i) p
  outside : ∀ i, m.size ≤ i → chains i = []
  placed : ∀ i, ∀ a ∈ chains i, ∃ e, m.heap.get? a = some e ∧ slot m.size e.key = i
  tails : ∀ i, TailLinked (m.heap.view (·.prev)) (chains i)

/-- The first entry of every chain has no predecessor. -/
def HeadsClear (m : Hashmap V) (chains : Nat → List Nat) : Prop :=
  ∀ i a, (chains i).head? = some a → m.heap.view (·.prev) a = some none

variable {m : Hashmap V} {chains : Nat → List Nat}

theorem Linked.lt_size (h : Linked m chains) {i a : Nat} (ha : a ∈ chains i) : i < m.size := by
  by_contra hnot
  rw [h.outside i (Nat.le_of_not_lt hnot)] at ha
  simp at ha

theorem Linked.nodup (h : Linked m chains) (i : Nat) : (chains i).Nodup := by
  by_cases hi : i < m.size
  · obtain ⟨p, _, hchain⟩ := h.chain i hi
    exact hchain.nodup
  · simp [h.outside i (Nat.le_of_not_lt hi)]

/-- No entry is in two chains: its key decides the bucket. -/
theorem Linked.disjoint (h : Linked m chains) {i j a : Nat} (hi : a ∈ chains i)
    (hj : a ∈ chains j) : i = j := by
  obtain ⟨e, he, rfl⟩ := h.placed i a hi
  obtain ⟨e', he', rfl⟩ := h.placed j a hj
  have heq : e = e' := Option.some.inj (he.symm.trans he')
  rw [heq]

/-- The chains are determined by the pointers. -/
theorem Linked.unique {chains' : Nat → List Nat} (h : Linked m chains) (h' : Linked m chains') :
    chains = chains' := by
  funext i
  by_cases hi : i < m.size
  · obtain ⟨p, hp, hchain⟩ := h.chain i hi
    obtain ⟨p', hp', hchain'⟩ := h'.chain i hi
    have heq : p = p' := Option.some.inj (hp.symm.trans hp')
    subst heq
    exact hchain.unique hchain'
  · rw [h.outside i (Nat.le_of_not_lt hi), h'.outside i (Nat.le_of_not_lt hi)]

/-- The head of a bucket is the first address of its chain. -/
theorem Linked.head_eq (h : Linked m chains) {i : Nat} (hi : i < m.size) :
    m.data[i]? = some (chains i).head? := by
  obtain ⟨p, hp, hchain⟩ := h.chain i hi
  rw [hp, hchain.head_eq]

theorem Linked.chain_head (h : Linked m chains) {i : Nat} (hi : i < m.size) :
    Chain (m.heap.view (·.next)) (chains i) (chains i).head? := by
  obtain ⟨p, hp, hchain⟩ := h.chain i hi
  rw [h.head_eq hi] at hp
  rwa [Option.some.inj hp]

/-- A walk along a bucket finds its first entry with the key. -/
theorem Linked.search_eq (h : Linked m chains) {i fuel : Nat} (hi : i < m.size)
    (hfuel : (chains i).length ≤ fuel) (key : List UInt8) :
    m.heap.search (·.next) (matches_key key) fuel (chains i).head? =
      .ok ((chains i).find? (m.heap.passes (matches_key key))) :=
  (h.chain_head hi).search hfuel

/-- The first entry of a chain comes after no other entry. -/
theorem Linked.notMem_tail (h : Linked m chains) {i a : Nat} (ha : (chains i).head? = some a) (j : Nat) :
    a ∉ (chains j).tail := by
  intro hmem
  have hji := h.disjoint (List.mem_of_mem_tail hmem) (List.mem_of_mem_head? ha)
  have hnodup := h.nodup i
  rw [hji] at hmem
  cases hc : chains i with
  | nil => simp [hc] at ha
  | cons c cs =>
    rw [hc] at hmem hnodup ha
    obtain rfl : c = a := by simpa using ha
    exact (List.nodup_cons.mp hnodup).1 hmem

theorem Linked.bucket_at_eq (h : Linked m chains) {i : Nat} (hi : i < m.size) :
    bucket_at m i = .ok (chains i).head? := by
  unfold bucket_at
  rw [h.head_eq hi]
  rfl

theorem Linked.locate_eq (h : Linked m chains) (hsize : 0 < m.size) {fuel : Nat} (key : List UInt8)
    (hfuel : (chains (slot m.size key)).length ≤ fuel) :
    hashmap_locate fuel m key =
      .ok ((chains (slot m.size key)).find? (m.heap.passes (matches_key key))) := by
  have hi := slot_lt hsize key
  unfold hashmap_locate
  rw [hashcode_index_eq hsize, ok_bind, h.bucket_at_eq hi, ok_bind]
  exact h.search_eq hi hfuel key

end code_tools.hashmap
