import CodeTools.Lib.Machine
import CodeTools.HashMap.Insert

/-!
# Table sizes and the index of the prime

A table that was grown once keeps a size that is not 0 and an index with a larger
prime behind it for as long as the counter can fill the table, whatever becomes
of its chains.
-/

namespace code_tools.hashmap

open cmem machine

variable {V : Type} {m m' : Hashmap V}

/-! ## What calls make of the size -/

theorem hashmap_link_keeps {a : Nat} (hlink : hashmap_link m a = .ok m') :
    m'.size = m.size ∧ m'.idx = m.idx ∧ m'.used < 2 ^ 16 := by
  obtain ⟨e, _, hlink⟩ := bind_eq_ok_iff.mp hlink
  obtain ⟨i, _, hlink⟩ := bind_eq_ok_iff.mp hlink
  obtain ⟨etr, _, hlink⟩ := bind_eq_ok_iff.mp hlink
  obtain ⟨heap₁, _, hlink⟩ := bind_eq_ok_iff.mp hlink
  obtain ⟨heap₂, _, hlink⟩ := bind_eq_ok_iff.mp hlink
  cases hlink
  exact ⟨rfl, rfl, Nat.mod_lt _ (by decide)⟩

theorem relink_chain_keeps {fuel : Nat} {p : Ptr} (hused : m.used < 2 ^ 16)
    (hrelink : relink_chain fuel m p = .ok m') : m'.size = m.size ∧ m'.idx = m.idx ∧ m'.used < 2 ^ 16 := by
  induction fuel generalizing m p with
  | zero =>
    cases p with
    | none =>
      cases hrelink
      exact ⟨rfl, rfl, hused⟩
    | some a => cases hrelink
  | succ fuel ih =>
    cases p with
    | none =>
      cases hrelink
      exact ⟨rfl, rfl, hused⟩
    | some a =>
      obtain ⟨e, _, hrelink⟩ := bind_eq_ok_iff.mp hrelink
      obtain ⟨m₁, hlink, hrelink⟩ := bind_eq_ok_iff.mp hrelink
      obtain ⟨hsize, hidx, hused₁⟩ := hashmap_link_keeps hlink
      obtain ⟨hsize', hidx', hused'⟩ := ih hused₁ hrelink
      exact ⟨hsize'.trans hsize, hidx'.trans hidx, hused'⟩

theorem relink_buckets_keeps {fuel old_size : Nat} {hs : List Ptr} (hused : m.used < 2 ^ 16)
    (hrelink : relink_buckets fuel old_size hs m = .ok m') :
    m'.size = m.size ∧ m'.idx = m.idx ∧ m'.used < 2 ^ 16 := by
  induction old_size generalizing m hs with
  | zero =>
    cases hrelink
    exact ⟨rfl, rfl, hused⟩
  | succ old_size ih =>
    cases hs with
    | nil => cases hrelink
    | cons p hs =>
      obtain ⟨m₁, hchain, hrelink⟩ := bind_eq_ok_iff.mp hrelink
      obtain ⟨hsize, hidx, hused₁⟩ := relink_chain_keeps hused hchain
      obtain ⟨hsize', hidx', hused'⟩ := ih hused₁ hrelink
      exact ⟨hsize'.trans hsize, hidx'.trans hidx, hused'⟩

/-- Growth takes the next prime. -/
theorem hashmap_grow_keeps {fuel : Nat} (hgrow : hashmap_grow fuel m true = .ok (m', 0)) :
    primes[(m.idx + 1) % 2 ^ 8]? = some m'.size ∧ m'.idx = (m.idx + 1) % 2 ^ 8 ∧ m'.used < 2 ^ 16 := by
  cases hprime : primes[(m.idx + 1) % 2 ^ 8]? with
  | none =>
    rw [hashmap_grow_no_prime hprime] at hgrow
    cases hgrow
  | some prime =>
    simp only [hashmap_grow, hprime, Option.elim_some, ok_bind, hashmap_size, if_true] at hgrow
    rw [if_neg (by decide)] at hgrow
    obtain ⟨m₁, hrelink, hgrow⟩ := bind_eq_ok_iff.mp hgrow
    cases hgrow
    obtain ⟨hsize, hidx, hused⟩ := relink_buckets_keeps (by dsimp only; omega) hrelink
    exact ⟨congrArg some hsize.symm, hidx, hused⟩

/-- There is room in a table of the size of its prime. -/
theorem Sized.room (hsized : Sized m) {fuel : Nat} {rc : Int} (hroom : insert_room fuel m true = .ok (m', rc)) :
    rc = 0 ∧ primes[m'.idx]? = some m'.size := by
  unfold insert_room at hroom
  split at hroom
  · cases hprime : primes[(m.idx + 1) % 2 ^ 8]? with
    | none =>
      rw [hashmap_grow_no_prime hprime] at hroom
      cases hroom
    | some prime =>
      have hrc : rc = 0 := by
        simp only [hashmap_grow, hprime, Option.elim_some, ok_bind, hashmap_size, if_true] at hroom
        rw [if_neg (by decide)] at hroom
        obtain ⟨_, _, hdone⟩ := bind_eq_ok_iff.mp hroom
        cases hdone
        rfl
      rw [hrc] at hroom
      obtain ⟨hsize, hidx, _⟩ := hashmap_grow_keeps hroom
      exact ⟨hrc, by rw [hidx, hsize]⟩
  · rename_i hfree
    cases hroom
    rcases hsized.prime with ⟨hzero, _⟩ | hprime
    · omega
    · exact ⟨rfl, hprime⟩

/-- An insert that succeeds leaves a table with a prime for its size. -/
theorem Sized.insert (hsized : Sized m) {fuel : Nat} {key : List UInt8} {value : Option V} {ht : Ptr}
    (hinsert : hashmap_insert fuel m key value ⟨true, true⟩ = .ok (m', ht)) : Sized m' ∧ 0 < m'.size := by
  rw [hashmap_insert_eq] at hinsert
  obtain ⟨⟨m₁, rc⟩, hroom, hinsert⟩ := bind_eq_ok_iff.mp hinsert
  obtain ⟨hrc, hprime⟩ := hsized.room hroom
  rw [if_neg (by dsimp only; omega), insert_entry, if_pos rfl] at hinsert
  obtain ⟨m₂, hlink, hdone⟩ := bind_eq_ok_iff.mp hinsert
  cases hdone
  obtain ⟨hsize, hidx, hused⟩ := hashmap_link_keeps hlink
  have hsize : m'.size = m₁.size := hsize
  have hidx : m'.idx = m₁.idx := hidx
  rw [← hsize, ← hidx] at hprime
  exact ⟨⟨hused, Or.inr hprime⟩, primes_pos hprime⟩

theorem Sized.delete (hsized : Sized m) {fuel : Nat} {key : List UInt8} {rc : Int}
    (hdelete : hashmap_delete fuel m key = .ok (m', rc)) : Sized m' ∧ m'.size = m.size := by
  obtain ⟨i, _, hdelete⟩ := bind_eq_ok_iff.mp hdelete
  obtain ⟨h, _, hdelete⟩ := bind_eq_ok_iff.mp hdelete
  obtain ⟨found, _, hdelete⟩ := bind_eq_ok_iff.mp hdelete
  cases found with
  | none =>
    cases hdelete
    exact ⟨hsized, rfl⟩
  | some ht =>
    obtain ⟨e, _, hdelete⟩ := bind_eq_ok_iff.mp hdelete
    obtain ⟨heap₁, _, hdelete⟩ := bind_eq_ok_iff.mp hdelete
    obtain ⟨e₁, _, hdelete⟩ := bind_eq_ok_iff.mp hdelete
    obtain ⟨heap₂, _, hdelete⟩ := bind_eq_ok_iff.mp hdelete
    obtain ⟨e₂, _, hdelete⟩ := bind_eq_ok_iff.mp hdelete
    obtain ⟨heap₃, _, hdelete⟩ := bind_eq_ok_iff.mp hdelete
    cases hdelete
    exact ⟨⟨Nat.mod_lt _ (by decide), hsized.prime⟩, rfl⟩

/-! ## Calls that do not divide by zero -/

theorem hashcode_index_avoids (hsize : 0 < m.size) (key : List UInt8) :
    Avoids .divideByZero (hashcode_index key m.size) := by
  rw [hashcode_index_eq hsize]
  exact avoids_ok _ _

theorem bucket_at_avoids (m : Hashmap V) (i : Nat) : Avoids .divideByZero (bucket_at m i) := by
  unfold bucket_at
  cases m.data[i]? with
  | none => exact nofun
  | some p => exact avoids_ok _ _

theorem search_avoids (heap : Heap (HashmapEntry V)) (test : HashmapEntry V → Bool) (fuel : Nat) (p : Ptr) :
    Avoids .divideByZero (heap.search (·.next) test fuel p) := by
  induction fuel generalizing p with
  | zero =>
    cases p with
    | none => exact avoids_ok _ _
    | some a => exact nofun
  | succ fuel ih =>
    cases p with
    | none => exact avoids_ok _ _
    | some a =>
      have hderef := Heap.deref_avoids (f := .divideByZero) (by decide) (by decide) heap (some a)
      unfold Heap.search
      cases hget : heap.deref (some a) with
      | error e =>
        rw [hget] at hderef
        exact fun heq => hderef (congrArg Except.error (Except.error.inj heq))
      | ok e =>
        dsimp only
        split
        · exact avoids_ok _ _
        · exact ih e.next

theorem hashmap_link_avoids (hsize : 0 < m.size) (a : Nat) : Avoids .divideByZero (hashmap_link m a) := by
  apply (Heap.deref_avoids (by decide) (by decide) m.heap (some a)).bind
  intro e _
  apply (hashcode_index_avoids hsize e.key).bind
  intro i _
  apply (bucket_at_avoids m i).bind
  intro etr _
  apply (Heap.modify_avoids (by decide) (by decide) m.heap _ _).bind
  intro heap _
  apply (Heap.modifyNonNull_avoids (by decide) (by decide) heap _ _).bind
  intro heap _
  exact avoids_ok _ _

theorem relink_chain_avoids (hsize : 0 < m.size) (fuel : Nat) (p : Ptr) :
    Avoids .divideByZero (relink_chain fuel m p) := by
  induction fuel generalizing m p with
  | zero =>
    cases p with
    | none => exact avoids_ok _ _
    | some a => exact nofun
  | succ fuel ih =>
    cases p with
    | none => exact avoids_ok _ _
    | some a =>
      apply (Heap.deref_avoids (by decide) (by decide) m.heap (some a)).bind
      intro e _
      apply (hashmap_link_avoids hsize a).bind
      intro m₁ hlink
      apply ih
      rw [(hashmap_link_keeps hlink).1]
      exact hsize

theorem relink_buckets_avoids (hsize : 0 < m.size) (hused : m.used < 2 ^ 16) (fuel old_size : Nat) (hs : List Ptr) :
    Avoids .divideByZero (relink_buckets fuel old_size hs m) := by
  induction old_size generalizing m hs with
  | zero => exact avoids_ok _ _
  | succ old_size ih =>
    cases hs with
    | nil => exact nofun
    | cons p hs =>
      apply (relink_chain_avoids hsize fuel p).bind
      intro m₁ hchain
      obtain ⟨hsize₁, _, hused₁⟩ := relink_chain_keeps hused hchain
      apply ih _ hused₁
      rw [hsize₁]
      exact hsize

theorem hashmap_grow_avoids (fuel : Nat) (m : Hashmap V) : Avoids .divideByZero (hashmap_grow fuel m true) := by
  cases hprime : primes[(m.idx + 1) % 2 ^ 8]? with
  | none =>
    rw [hashmap_grow_no_prime hprime]
    exact nofun
  | some prime =>
    simp only [hashmap_grow, hprime, Option.elim_some, ok_bind, hashmap_size, if_true]
    rw [if_neg (by decide)]
    apply (relink_buckets_avoids (primes_pos hprime) (by dsimp only; omega) fuel m.size m.data).bind
    intro m₁ _
    exact avoids_ok _ _

/-- An insert divides only by primes. -/
theorem hashmap_insert_avoids (hsized : Sized m) (fuel : Nat) (key : List UInt8) (value : Option V) :
    Avoids .divideByZero (hashmap_insert fuel m key value ⟨true, true⟩) := by
  have havoids : Avoids .divideByZero (insert_room fuel m true) := by
    unfold insert_room
    split
    · exact hashmap_grow_avoids fuel m
    · exact avoids_ok _ _
  rw [hashmap_insert_eq]
  apply havoids.bind
  intro r hroom
  obtain ⟨hrc, hprime⟩ := hsized.room hroom
  rw [if_neg (by omega), insert_entry, if_pos rfl]
  apply Avoids.bind
  · apply hashmap_link_avoids
    exact primes_pos hprime
  · intro linked _
    exact avoids_ok _ _

theorem hashmap_locate_avoids (hsize : 0 < m.size) (fuel : Nat) (key : List UInt8) :
    Avoids .divideByZero (hashmap_locate fuel m key) := by
  apply (hashcode_index_avoids hsize key).bind
  intro i _
  apply (bucket_at_avoids m i).bind
  intro h _
  exact search_avoids m.heap (matches_key key) fuel h

theorem hashmap_find_avoids (hsize : 0 < m.size) (fuel : Nat) (key : List UInt8) :
    Avoids .divideByZero (hashmap_find fuel m key) := by
  apply (hashmap_locate_avoids hsize fuel key).bind
  intro p _
  cases p with
  | none => exact avoids_ok _ _
  | some a =>
    apply (Heap.deref_avoids (by decide) (by decide) m.heap (some a)).bind
    intro e _
    exact avoids_ok _ _

theorem hashmap_delete_avoids (hsize : 0 < m.size) (fuel : Nat) (key : List UInt8) :
    Avoids .divideByZero (hashmap_delete fuel m key) := by
  apply (hashcode_index_avoids hsize key).bind
  intro i _
  apply (bucket_at_avoids m i).bind
  intro h _
  apply (search_avoids m.heap (matches_key key) fuel h).bind
  intro p _
  cases p with
  | none => exact avoids_ok _ _
  | some a =>
    apply (Heap.deref_avoids (by decide) (by decide) m.heap (some a)).bind
    intro e _
    apply (Heap.modifyNonNull_avoids (by decide) (by decide) m.heap _ _).bind
    intro heap₁ _
    apply (Heap.deref_avoids (by decide) (by decide) heap₁ (some a)).bind
    intro e₁ _
    apply (Heap.modifyNonNull_avoids (by decide) (by decide) heap₁ _ _).bind
    intro heap₂ _
    apply (Heap.deref_avoids (by decide) (by decide) heap₂ (some a)).bind
    intro e₂ _
    apply (Heap.free_avoids (by decide) heap₂ (some a)).bind
    intro heap₃ _
    exact avoids_ok _ _

/-! ## Runs -/

inductive Request (V : Type) where
  | insert (key : List UInt8) (value : Option V)
  | find (key : List UInt8)
  | locate (key : List UInt8)
  | delete (key : List UInt8)
deriving DecidableEq, Repr

inductive Reply (V : Type) where
  | inserted (ht : Ptr)
  | found (value : Option V)
  | located (ht : Ptr)
  | deleted (rc : Int)
deriving DecidableEq, Repr

/-- One call with every allocation succeeding and `fuel` for its loops. -/
def serve (fuel : Nat) (m : Hashmap V) : Request V → Except Fault (Hashmap V × Reply V)
  | .insert key value => do
    let (m, ht) ← hashmap_insert fuel m key value ⟨true, true⟩
    .ok (m, .inserted ht)
  | .find key => do
    let value ← hashmap_find fuel m key
    .ok (m, .found value)
  | .locate key => do
    let ht ← hashmap_locate fuel m key
    .ok (m, .located ht)
  | .delete key => do
    let (m, rc) ← hashmap_delete fuel m key
    .ok (m, .deleted rc)

/-- The call computes no remainder by 0, and if it grows the table, the index that
    it reads from `primes` is inside it. -/
def AccessSafe (fuel : Nat) (m : Hashmap V) (request : Request V) : Prop :=
  Avoids .divideByZero (serve fuel m request) ∧
    ∀ key value, request = .insert key value → m.used ≥ m.size → (m.idx + 1) % 2 ^ 8 < primes.length

/-- A call on a table that is not empty needs nothing else. -/
theorem Sized.accessSafe (hsized : Sized m) (fuel : Nat) (request : Request V)
    (hready : 0 < m.size ∨ ∃ key value, request = .insert key value) : AccessSafe fuel m request := by
  constructor
  · cases request with
    | insert key value =>
      apply (hashmap_insert_avoids hsized fuel key value).bind
      intro r _
      exact avoids_ok _ _
    | find key =>
      obtain hsize : 0 < m.size := by simpa using hready
      apply (hashmap_find_avoids hsize fuel key).bind
      intro value _
      exact avoids_ok _ _
    | locate key =>
      obtain hsize : 0 < m.size := by simpa using hready
      apply (hashmap_locate_avoids hsize fuel key).bind
      intro ht _
      exact avoids_ok _ _
    | delete key =>
      obtain hsize : 0 < m.size := by simpa using hready
      apply (hashmap_delete_avoids hsize fuel key).bind
      intro r _
      exact avoids_ok _ _
  · intro _ _ _ hfull
    obtain ⟨_, prime, hprime⟩ := hsized.next_prime hfull
    exact (List.getElem?_eq_some_iff.mp hprime).1

/-- After an insert the table is never empty again. -/
theorem Sized.serve (hsized : Sized m) {fuel : Nat} {request : Request V} {reply : Reply V}
    (hready : 0 < m.size ∨ ∃ key value, request = .insert key value)
    (hserve : hashmap.serve fuel m request = .ok (m', reply)) : Sized m' ∧ 0 < m'.size := by
  cases request with
  | insert key value =>
    obtain ⟨⟨m₁, ht⟩, hinsert, hdone⟩ := bind_eq_ok_iff.mp hserve
    cases hdone
    exact hsized.insert hinsert
  | find key =>
    obtain ⟨value, _, hdone⟩ := bind_eq_ok_iff.mp hserve
    cases hdone
    exact ⟨hsized, by simpa using hready⟩
  | locate key =>
    obtain ⟨ht, _, hdone⟩ := bind_eq_ok_iff.mp hserve
    cases hdone
    exact ⟨hsized, by simpa using hready⟩
  | delete key =>
    obtain ⟨⟨m₁, rc⟩, hdelete, hdone⟩ := bind_eq_ok_iff.mp hserve
    cases hdone
    obtain ⟨hsized', hsize⟩ := hsized.delete hdelete
    exact ⟨hsized', by simpa [hsize] using hready⟩

/-- The lookups compute a remainder before they look at the table. -/
theorem serve_find_new (hzero : m.size = 0) (fuel : Nat) (key : List UInt8) :
    serve fuel m (.find key) = .error .divideByZero := by
  simp only [serve, hashmap_find, hashmap_locate, hashcode_index, if_pos hzero]
  rfl

theorem serve_locate_new (hzero : m.size = 0) (fuel : Nat) (key : List UInt8) :
    serve fuel m (.locate key) = .error .divideByZero := by
  simp only [serve, hashmap_locate, hashcode_index, if_pos hzero]
  rfl

theorem serve_delete_new (hzero : m.size = 0) (fuel : Nat) (key : List UInt8) :
    serve fuel m (.delete key) = .error .divideByZero := by
  simp only [serve, hashmap_delete, hashcode_index, if_pos hzero]
  rfl

theorem Sized.guarded (hsized : Sized m) (hsize : 0 < m.size) (fuel : Nat) (requests : List (Request V)) :
    Guarded (hashmap.serve fuel) (AccessSafe fuel) m requests := by
  induction requests generalizing m with
  | nil => trivial
  | cons request requests ih =>
    refine ⟨hsized.accessSafe fuel request (Or.inl hsize), ?_⟩
    intro m' reply hserve
    obtain ⟨hsized', hsize'⟩ := hsized.serve (Or.inl hsize) hserve
    exact ih hsized' hsize'

/-- The first call decides: it must be an insert, which allocates the table, and
    the size asked for must leave a prime to grow to. -/
theorem accessSafe_iff {size : Int} (hint : -2 ^ 31 ≤ size ∧ size < 2 ^ 31)
    (hcreate : hashmap_create V size true = some m)
    (fuel : Nat) (requests : List (Request V)) :
    Guarded (serve fuel) (AccessSafe fuel) m requests ↔
      requests = [] ∨ size < 5999471 ∧ ∃ key value, requests.head? = some (.insert key value) := by
  obtain ⟨hzero, hused, _⟩ := hashmap_create_spec hcreate
  have hlen : primes.length = 72 := by decide
  cases requests with
  | nil => exact ⟨fun _ => Or.inl rfl, fun _ => trivial⟩
  | cons request requests =>
    rw [← next_prime_of_create_iff hint hcreate]
    constructor
    · rintro ⟨⟨havoids, hindex⟩, _⟩
      cases request with
      | insert key value =>
        have hidx := hindex key value rfl (by omega)
        have hlt := (hashmap_create_spec hcreate).2.2.2.2.2.2
        exact Or.inr ⟨by omega, key, value, rfl⟩
      | find key =>
        exact absurd (serve_find_new hzero fuel key) havoids
      | locate key =>
        exact absurd (serve_locate_new hzero fuel key) havoids
      | delete key =>
        exact absurd (serve_delete_new hzero fuel key) havoids
    · rintro (hnil | ⟨hidx, key, value, hhead⟩)
      · cases hnil
      · obtain rfl : request = .insert key value := Option.some.inj hhead
        have hsized : Sized m := ⟨by omega, Or.inl ⟨hzero, hidx⟩⟩
        refine ⟨hsized.accessSafe fuel _ (Or.inr ⟨key, value, rfl⟩), ?_⟩
        intro m' reply hserve
        obtain ⟨hsized', hsize'⟩ := hsized.serve (Or.inr ⟨key, value, rfl⟩) hserve
        exact hsized'.guarded hsize' fuel requests

/-- The first insert allocates the table that the calls after it divide by. -/
theorem accessSafe_iff_insert_first :
    ∃ m, hashmap_create Nat 0 true = some m ∧
      Guarded (serve 4) (AccessSafe 4) m [.insert [1] (some 1), .locate [78], .delete [1], .find [1]] := by
  refine ⟨_, rfl, ?_⟩
  exact (accessSafe_iff (by decide) (rfl : hashmap_create Nat 0 true = some _) 4 _).mpr
    (Or.inr ⟨by decide, [1], some 1, rfl⟩)

/-- A lookup in a new map divides by zero, and the first insert of the largest
    sizes that `hashmap_create` accepts reads behind the primes. -/
theorem new_map_not_accessSafe :
    (∃ m, hashmap_create Nat 0 true = some m ∧ serve 0 m (.find [1]) = .error .divideByZero ∧
      ¬Guarded (serve 0) (AccessSafe 0) m [.find [1]]) ∧
    ∃ m, hashmap_create Nat 5999471 true = some m ∧ serve 0 m (.insert [1] none) = .error .outOfBounds ∧
      ¬Guarded (serve 0) (AccessSafe 0) m [.insert [1] none] := by
  constructor
  · refine ⟨_, rfl, rfl, ?_⟩
    rintro ⟨⟨havoids, _⟩, _⟩
    exact havoids rfl
  · refine ⟨_, rfl, rfl, ?_⟩
    rintro ⟨⟨_, hindex⟩, _⟩
    exact absurd (hindex [1] none rfl (by decide)) (by decide)

end code_tools.hashmap
