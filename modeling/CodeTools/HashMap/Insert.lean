import CodeTools.HashMap.Grow

/-!
# Inserting an entry
-/

namespace code_tools.hashmap

open cmem

variable {V : Type}

/-! ## Table sizes -/

/-- The counter fits its 16 bits and the table is either still unallocated or as
    large as its prime. -/
structure Sized (m : Hashmap V) : Prop where
  used_lt : m.used < 2 ^ 16
  prime : (m.size = 0 ∧ m.idx + 1 < primes.length) ∨ primes[m.idx]? = some m.size

/-- A table that the 16-bit counter can fill has a larger prime to grow to. -/
theorem Sized.next_prime {m : Hashmap V} (h : Sized m) (hfull : m.size ≤ m.used) :
    m.idx + 1 < primes.length ∧ ∃ prime, primes[(m.idx + 1) % 2 ^ 8]? = some prime := by
  have hlen : primes.length = 72 := by decide
  have hlt : m.idx + 1 < primes.length := by
    rcases h.prime with ⟨_, hidx⟩ | hprime
    · exact hidx
    · have hsmall : ∀ i, i < primes.length → 71 ≤ i → 2 ^ 16 ≤ primes.getD i 0 := by decide
      obtain ⟨hi, _⟩ := List.getElem?_eq_some_iff.mp hprime
      by_contra hnot
      have hbig := hsmall m.idx hi (by omega)
      rw [List.getD_eq_getElem?_getD, hprime, Option.getD_some] at hbig
      have hused := h.used_lt
      omega
  have hmod : (m.idx + 1) % 2 ^ 8 = m.idx + 1 := Nat.mod_eq_of_lt (by omega)
  exact ⟨hlt, _, by rw [hmod]; exact List.getElem?_eq_getElem hlt⟩

/-- No chain is longer than the heap. -/
theorem Linked.length_le {m : Hashmap V} {chains : Nat → List Nat} (h : Linked m chains) (i : Nat) :
    (chains i).length ≤ chain_fuel m := by
  by_cases hi : i < m.size
  · exact h.separate.length_le hi
  · rw [h.outside i (Nat.le_of_not_lt hi)]
    exact Nat.zero_le _

/-! ## The entry that an insert adds -/

/-- The entry that `hashmap_insert` fills in before it links it. -/
def new_entry (key : List UInt8) (value : Option V) : HashmapEntry V :=
  { key := key, key_len := key.length, hash_code := hashcode_create key, value := value,
    next := none, prev := none }

theorem new_entry_formed (key : List UInt8) (value : Option V) : (new_entry key value).Formed :=
  ⟨rfl, rfl⟩

/-- Allocating an object leaves every chain as it is. -/
theorem Linked.alloc {m : Hashmap V} {chains : Nat → List Nat} (h : Linked m chains)
    (e : HashmapEntry V) : Linked { m with heap := (m.heap.alloc e).1 } chains := by
  have hget : ∀ i, ∀ a ∈ chains i, (m.heap.alloc e).1.get? a = m.heap.get? a := by
    intro i a ha
    obtain ⟨x, hx, _⟩ := h.placed i a ha
    rw [Heap.get?_alloc_of_live e hx, hx]
  have hview : ∀ {β : Type} (f : HashmapEntry V → β) (i : Nat), ∀ a ∈ chains i,
      (m.heap.alloc e).1.view f a = m.heap.view f a := by
    intro β f i a ha
    simp only [Heap.view, hget i a ha]
  refine ⟨h.length_data, ?_, h.outside, ?_, ?_⟩
  · intro i hi
    obtain ⟨p, hp, hchain⟩ := h.chain i hi
    exact ⟨p, hp, hchain.congr fun a ha => hview _ i a ha⟩
  · intro i a ha
    obtain ⟨x, hx, hslot⟩ := h.placed i a ha
    exact ⟨x, (hget i a ha).trans hx, hslot⟩
  · intro i
    exact (h.tails i).congr fun a ha => hview _ i a (List.mem_of_mem_tail ha)

/-- What an insert that needs no growth does to the table. -/
structure Inserted (m m' : Hashmap V) (chains : Nat → List Nat) (key : List UInt8)
    (value : Option V) : Prop where
  linked : Linked m' (push chains (slot m.size key) m.heap.cells.length)
  size : m'.size = m.size
  idx : m'.idx = m.idx
  freed : m'.freed = m.freed
  used : m'.used = (m.used + 1) % 2 ^ 16
  length : m'.heap.cells.length = m.heap.cells.length + 1
  entry : m'.heap.view HashmapEntry.bare m.heap.cells.length = some (new_entry key value)
  bare : ∀ b, b ≠ m.heap.cells.length →
    m'.heap.view HashmapEntry.bare b = m.heap.view HashmapEntry.bare b
  prev_new : m'.heap.view (·.prev) m.heap.cells.length = some none
  prev : ∀ b, b ≠ m.heap.cells.length →
    (∀ i, b ∉ (push chains (slot m.size key) m.heap.cells.length i).tail) →
    m'.heap.view (·.prev) b = m.heap.view (·.prev) b

theorem Inserted.allFormed {m m' : Hashmap V} {chains : Nat → List Nat} {key : List UInt8}
    {value : Option V} (h : Inserted m m' chains key value) (hformed : AllFormed m.heap) :
    AllFormed m'.heap := by
  intro a e he
  have hview : m'.heap.view HashmapEntry.bare a = some e.bare := by
    rw [Heap.view, he, Option.map_some]
  by_cases ha : a = m.heap.cells.length
  · rw [ha, h.entry] at hview
    exact (new_entry_formed key value).of_bare (Option.some.inj hview).symm
  · rw [h.bare a ha] at hview
    obtain ⟨x, hx, heq⟩ := Heap.view_eq_some_iff.mp hview
    exact (hformed a x hx).of_bare heq.symm

/-- The part of `hashmap_insert` after the table has room. -/
theorem insert_entry_spec {m : Hashmap V} {chains : Nat → List Nat} (h : Linked m chains)
    (hsize : 0 < m.size) (key : List UInt8) (value : Option V) :
    ∃ m', hashmap_link { m with heap := (m.heap.alloc (new_entry key value)).1 }
        m.heap.cells.length = .ok m' ∧ Inserted m m' chains key value := by
  have hnew : ∀ i, m.heap.cells.length ∉ chains i := by
    intro i hmem
    obtain ⟨x, hx, _⟩ := h.placed i _ hmem
    rw [Heap.get?_fresh] at hx
    cases hx
  have hself : (m.heap.alloc (new_entry key value)).1.get? m.heap.cells.length =
      some (new_entry key value) := Heap.get?_alloc_self m.heap _
  have hother : ∀ {β : Type} (f : HashmapEntry V → β) (b : Nat), b ≠ m.heap.cells.length →
      (m.heap.alloc (new_entry key value)).1.view f b = m.heap.view f b := by
    intro β f b hb
    simp only [Heap.view, Heap.get?_alloc_of_ne m.heap _ hb]
  obtain ⟨m', hlink, hlinked, hkept, hused, hnext, hprev⟩ :=
    hashmap_link_spec (h.alloc (new_entry key value)) hsize hself hnew
  refine ⟨m', hlink, hlinked, hkept.size, hkept.idx, hkept.freed, hused, ?_, ?_, ?_, ?_, ?_⟩
  · rw [hkept.length]
    simp [Heap.alloc]
  · rw [hkept.bare, Heap.view, hself]
    rfl
  · intro b hb
    rw [hkept.bare, hother _ b hb]
  · rw [hprev, Heap.view, hself]
    · rfl
    · intro i hmem
      by_cases hi : i = slot m.size key
      · rw [hi] at hmem
        change _ ∈ (push chains (slot m.size key) _ _).tail at hmem
        rw [push_self] at hmem
        exact hnew _ hmem
      · change _ ∈ (push chains (slot m.size key) _ i).tail at hmem
        rw [push_of_ne chains _ hi] at hmem
        exact hnew i (List.mem_of_mem_tail hmem)
  · intro b hb htail
    rw [hprev b htail, hother _ b hb]

/-- The first half of `hashmap_insert`, which makes room in the table. -/
def insert_room (fuel : Nat) (m : Hashmap V) (alloc : Bool) : Except Fault (Hashmap V × Int) :=
  if m.used ≥ m.size then hashmap_grow fuel m alloc else .ok (m, 0)

/-- Its second half, which allocates the entry and links it. -/
def insert_entry (m : Hashmap V) (key : List UInt8) (value : Option V) (alloc : Bool) :
    Except Fault (Hashmap V × Ptr) :=
  if alloc then do
    let linked ← hashmap_link { m with heap := (m.heap.alloc (new_entry key value)).1 } m.heap.cells.length
    .ok (linked, some m.heap.cells.length)
  else .ok (m, none)

theorem hashmap_insert_eq (fuel : Nat) (m : Hashmap V) (key : List UInt8) (value : Option V) (allocs : Allocs) :
    hashmap_insert fuel m key value allocs = insert_room fuel m allocs.buckets >>= fun r =>
      if r.2 = -1 then .ok (r.1, none) else insert_entry r.1 key value allocs.entry := by
  unfold hashmap_insert insert_room
  by_cases hfull : m.used ≥ m.size
  · rw [if_pos hfull, if_pos hfull]
    rfl
  · rw [if_neg hfull, if_neg hfull]
    rfl

/-- The table that `hashmap_insert` links its entry into: the one it was given,
    or that table grown. -/
def Prepared (fuel : Nat) (m m₁ : Hashmap V) : Prop :=
  (m.used < m.size ∧ m₁ = m) ∨ (m.size ≤ m.used ∧ hashmap_grow fuel m true = .ok (m₁, 0))

theorem hashmap_insert_spec {fuel : Nat} {m m₁ : Hashmap V} {chains : Nat → List Nat}
    (hprepared : Prepared fuel m m₁) (h : Linked m₁ chains) (hsize : 0 < m₁.size)
    (key : List UInt8) (value : Option V) :
    ∃ m', hashmap_insert fuel m key value ⟨true, true⟩ = .ok (m', some m₁.heap.cells.length) ∧
      Inserted m₁ m' chains key value := by
  obtain ⟨m', hlink, hinserted⟩ := insert_entry_spec h hsize key value
  refine ⟨m', ?_, hinserted⟩
  have htail : (hashmap_link { m₁ with heap := (m₁.heap.alloc (new_entry key value)).1 }
      m₁.heap.cells.length >>= fun m => .ok (m, some m₁.heap.cells.length)) =
      (.ok (m', some m₁.heap.cells.length) : Except Fault (Hashmap V × Ptr)) := by
    rw [hlink, ok_bind]
  unfold hashmap_insert
  rcases hprepared with ⟨hlt, rfl⟩ | ⟨hfull, hgrow⟩
  · rw [if_neg (by omega : ¬m₁.used ≥ m₁.size), ok_bind]
    exact htail
  · rw [if_pos hfull, hgrow, ok_bind]
    exact htail

theorem hashmap_insert_no_prime {m : Hashmap V} (hfull : m.size ≤ m.used)
    (hnone : primes[(m.idx + 1) % 2 ^ 8]? = none) (fuel : Nat) (key : List UInt8) (value : Option V)
    (allocs : Allocs) : hashmap_insert fuel m key value allocs = .error .outOfBounds := by
  unfold hashmap_insert
  rw [if_pos hfull, hashmap_grow_no_prime hnone]
  rfl

/-- With enough fuel an insert into linked chains fails only for want of a prime. -/
theorem hashmap_insert_fault {m : Hashmap V} {chains : Nat → List Nat} (h : Linked m chains)
    {key : List UInt8} {value : Option V} {err : Fault}
    (hfault : hashmap_insert (chain_fuel m) m key value ⟨true, true⟩ = .error err) :
    m.size ≤ m.used ∧ primes[(m.idx + 1) % 2 ^ 8]? = none := by
  by_cases hroom : m.used < m.size
  · have hprepared : Prepared (chain_fuel m) m m := Or.inl ⟨hroom, rfl⟩
    obtain ⟨m', hinsert, _⟩ :=
      hashmap_insert_spec hprepared h (by omega) key value
    rw [hinsert] at hfault
    cases hfault
  · refine ⟨by omega, ?_⟩
    cases hprime : primes[(m.idx + 1) % 2 ^ 8]? with
    | none => rfl
    | some prime =>
      obtain ⟨m₁, hgrow, hlinked, hkept, _⟩ := hashmap_grow_spec hprime h.length_data h.chain
        h.nodup_visited fun i _ => h.length_le i
      have hsize : m₁.size = prime := hkept.size
      obtain ⟨m', hinsert, _⟩ := hashmap_insert_spec (Or.inr ⟨by omega, hgrow⟩) hlinked
        (by rw [hsize]; exact primes_pos hprime) key value
      rw [hinsert] at hfault
      cases hfault

/-- A new map is empty and has a prime to start from. -/
theorem hashmap_create_spec {size : Int} {alloc : Bool} {m : Hashmap V}
    (hcreate : hashmap_create V size alloc = some m) :
    m.size = 0 ∧ m.used = 0 ∧ m.data = [] ∧ m.heap = Heap.empty ∧ m.freed = [] ∧
      m.idx = primes.findIdx (fun prime => decide ((size % 2 ^ 32).toNat < prime)) ∧
      m.idx < primes.length := by
  unfold hashmap_create at hcreate
  split at hcreate
  · dsimp only at hcreate
    split at hcreate
    · cases hcreate
    · rename_i hidx
      cases hcreate
      exact ⟨rfl, rfl, rfl, rfl, rfl, rfl, Nat.lt_of_not_le hidx⟩
  · cases hcreate

/-- The first insert finds a larger prime unless the size asked for is already
    past the last but one. -/
theorem next_prime_of_create_iff {size : Int} {alloc : Bool} {m : Hashmap V}
    (hint : -2 ^ 31 ≤ size ∧ size < 2 ^ 31) (hcreate : hashmap_create V size alloc = some m) :
    m.idx + 1 < primes.length ↔ size < 5999471 := by
  obtain ⟨_, _, _, _, _, hidx, hlt⟩ := hashmap_create_spec hcreate
  have hlen : primes.length = 72 := by decide
  obtain ⟨p, hp, hfound⟩ : ∃ p, primes[m.idx]? = some p ∧ (size % 2 ^ 32).toNat < p := by
    rw [hidx] at hlt ⊢
    exact ⟨_, List.getElem?_eq_getElem hlt, by simpa using List.findIdx_getElem (w := hlt)⟩
  have hnonneg : 0 ≤ size := by
    by_contra hneg
    have hbound : ∀ q ∈ primes, q < 2 ^ 31 := by decide
    have hsmall := hbound p (List.mem_of_getElem? hp)
    omega
  constructor
  · intro hnext
    have hbound : ∀ q ∈ primes.dropLast, q ≤ 5999471 := by decide
    have hsmall := hbound p (List.mem_iff_getElem?.mpr
      ⟨m.idx, by rw [List.getElem?_dropLast, if_pos (by omega), hp]⟩)
    omega
  · intro hsize
    by_contra hnot
    have hlarge : 70 < primes.findIdx fun prime => decide ((size % 2 ^ 32).toNat < prime) := by omega
    have hfalse := List.not_of_lt_findIdx hlarge
    have hprime : primes[70] = 5999471 := rfl
    rw [hprime] at hfalse
    simp only [decide_eq_false_iff_not] at hfalse
    omega

theorem linked_of_create {size : Int} {alloc : Bool} {m : Hashmap V}
    (hcreate : hashmap_create V size alloc = some m) : Linked m fun _ => [] := by
  obtain ⟨hsize, _, hdata, _⟩ := hashmap_create_spec hcreate
  exact linked_empty (by rw [hdata, hsize, List.replicate_zero])

end code_tools.hashmap
