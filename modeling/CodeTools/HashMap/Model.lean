import CodeTools.Lib.Buffer
import CodeTools.Lib.Chain

/-!
# The hash map of `hashmap.c`

Entries live in a heap of their own and refer to each other by `next` and
`prev`; the bucket array is a list of heads and is empty where the source has
`NULL`. Loops over a chain take fuel, one unit an entry.
-/

namespace code_tools.hashmap

open cmem

def primes : List Nat :=
  [3, 7, 11, 17, 23, 29, 37, 47, 59, 71, 89,
   107, 131, 163, 197, 239, 293, 353, 431, 521, 631, 761, 919,
   1103, 1327, 1597, 1931, 2333, 2801, 3371, 4049, 4861, 5839, 7013, 8419,
   10103, 12143, 14591, 17519, 21023, 25229, 30293, 36353, 43627, 52361, 62851, 75431, 90523,
   108631, 130363, 156437, 187751, 225307, 270371, 324449, 389357, 467237, 560689, 672827, 807403, 968897,
   1162687, 1395263, 1674319, 2009191, 2411033, 2893249, 3471899, 4166287, 4999559, 5999471, 7199369]

structure HashmapEntry (V : Type) where
  key : List UInt8
  key_len : Nat
  hash_code : UInt32
  value : Option V
  next : Ptr
  prev : Ptr
deriving DecidableEq, Repr

/-- The map together with the memory its entries live in. `freed` collects the
    values that were handed to `free`, oldest first. -/
structure Hashmap (V : Type) where
  size : Nat
  used : Nat
  idx : Nat
  data : List Ptr
  heap : Heap (HashmapEntry V)
  freed : List V
deriving DecidableEq, Repr

/-! ## Hash functions -/

/-- A `char` promoted to `unsigned int`; plain `char` is signed here. -/
def promote (c : UInt8) : UInt32 := c.toInt8.toInt32.toUInt32

/-- The bytes that `while (len-- > 0)` reads. The hash functions take `len` as
    an `int`, so a length from 2^31 on arrives negative and reads nothing. -/
def hashed_bytes (key : List UInt8) : List UInt8 :=
  if key.length < 2 ^ 31 then key else []

def hashcode_index_loop : List UInt8 → UInt32 → UInt32 → UInt32
  | [], hash, _ => hash
  | c :: str, hash, a => hashcode_index_loop str (hash * a + promote c) (a * 378551)

def hashcode_index (key : List UInt8) (size : Nat) : Except Fault Nat :=
  if size = 0 then .error .divideByZero
  else .ok ((hashcode_index_loop (hashed_bytes key) 0 63689 &&& 0x7FFFFFFF).toNat % size)

def hashcode_create (key : List UInt8) : UInt32 :=
  (hashed_bytes key).foldl (fun hash c => hash * 131 + promote c) 0 &&& 0x7FFFFFFF

/-! ## Operations -/

variable {V : Type}

/-- Read a slot of the bucket array. -/
def bucket_at (m : Hashmap V) (i : Nat) : Except Fault Ptr :=
  (m.data[i]?).elim (.error .outOfBounds) .ok

def hashmap_link (m : Hashmap V) (elm : Nat) : Except Fault (Hashmap V) := do
  let e ← m.heap.deref (some elm)
  let i ← hashcode_index e.key m.size
  let etr ← bucket_at m i
  let heap ← m.heap.modify (some elm) fun e => { e with next := etr }
  let heap ← heap.modifyNonNull etr fun e => { e with prev := some elm }
  .ok { m with heap, data := m.data.set i (some elm), used := (m.used + 1) % 2 ^ 16 }

/-- `alloc` tells whether `calloc` succeeds; the data pointer is overwritten
    either way. -/
def hashmap_size (m : Hashmap V) (size : Nat) (alloc : Bool) : Hashmap V × Int :=
  if alloc then ({ m with data := List.replicate size none, size := size, used := 0 }, 0)
  else ({ m with data := [] }, -1)

/-- The `int` argument is compared with the primes as an unsigned number. -/
def hashmap_create (V : Type) (size : Int) (alloc : Bool) : Option (Hashmap V) :=
  if alloc then
    let idx := primes.findIdx fun prime => decide ((size % 2 ^ 32).toNat < prime)
    if idx ≥ primes.length then none
    else some { size := 0, used := 0, idx := idx, data := [], heap := Heap.empty, freed := [] }
  else none

/-- The inner loop of `hashmap_grow`: `next` is read before the entry is linked
    into the new array. -/
def relink_chain : Nat → Hashmap V → Ptr → Except Fault (Hashmap V)
  | _, m, none => .ok m
  | 0, _, some _ => .error .outOfFuel
  | fuel + 1, m, some ht => do
    let e ← m.heap.deref (some ht)
    let m ← hashmap_link m ht
    relink_chain fuel m e.next

/-- The outer loop of `hashmap_grow` over the old bucket array. -/
def relink_buckets (fuel : Nat) : Nat → List Ptr → Hashmap V → Except Fault (Hashmap V)
  | 0, _, m => .ok m
  | _ + 1, [], _ => .error .outOfBounds
  | old_size + 1, h :: hs, m => do
    let m ← relink_chain fuel m h
    relink_buckets fuel old_size hs m

def hashmap_grow (fuel : Nat) (m : Hashmap V) (alloc : Bool) : Except Fault (Hashmap V × Int) := do
  let idx := (m.idx + 1) % 2 ^ 8
  let prime ← (primes[idx]?).elim (.error .outOfBounds) .ok
  let (grown, rc) := hashmap_size { m with idx } prime alloc
  if rc = -1 then .ok (grown, -1)
  else do
    let grown ← relink_buckets fuel m.size m.data grown
    .ok (grown, 0)

/-- The outcomes of the two allocations of an insert: the grown bucket array
    and the entry. -/
structure Allocs where
  buckets : Bool
  entry : Bool
deriving DecidableEq, Repr

/-- Returns the new entry, or `NULL` when an allocation failed. -/
def hashmap_insert (fuel : Nat) (m : Hashmap V) (key : List UInt8) (value : Option V)
    (allocs : Allocs) : Except Fault (Hashmap V × Ptr) := do
  let (m, rc) ← if m.used ≥ m.size then hashmap_grow fuel m allocs.buckets else .ok (m, 0)
  if rc = -1 then .ok (m, none)
  else if allocs.entry then do
    let (heap, ht) := m.heap.alloc
      { key := key, key_len := key.length, hash_code := hashcode_create key, value := value,
        next := none, prev := none }
    let m ← hashmap_link { m with heap } ht
    .ok (m, some ht)
  else .ok (m, none)

/-- The test that the three lookups make on each entry of a chain. -/
def matches_key (key : List UInt8) (ht : HashmapEntry V) : Bool :=
  key.length == ht.key_len && hashcode_create key == ht.hash_code && key == ht.key

def hashmap_locate (fuel : Nat) (m : Hashmap V) (key : List UInt8) : Except Fault Ptr := do
  let idx ← hashcode_index key m.size
  let h ← bucket_at m idx
  m.heap.search HashmapEntry.next (matches_key key) fuel h

def hashmap_find (fuel : Nat) (m : Hashmap V) (key : List UInt8) : Except Fault (Option V) := do
  match ← hashmap_locate fuel m key with
  | none => .ok none
  | some ht => do
    let e ← m.heap.deref (some ht)
    .ok e.value

def hashmap_delete (fuel : Nat) (m : Hashmap V) (key : List UInt8) :
    Except Fault (Hashmap V × Int) := do
  let i ← hashcode_index key m.size
  let h ← bucket_at m i
  match ← m.heap.search HashmapEntry.next (matches_key key) fuel h with
  | none => .ok (m, 1)
  | some ht => do
    let e ← m.heap.deref (some ht)
    let heap ← m.heap.modifyNonNull e.next fun n => { n with prev := e.prev }
    -- `ht` is read again: the write above reaches it when it links to itself
    let e ← heap.deref (some ht)
    let heap ← heap.modifyNonNull e.prev fun p => { p with next := e.next }
    let data := if e.prev.isSome then m.data else m.data.set i e.next
    let e ← heap.deref (some ht)
    let heap ← heap.free (some ht)
    let freed := m.freed ++ e.value.toList
    .ok ({ m with heap, data, freed, used := (m.used + 2 ^ 16 - 1) % 2 ^ 16 }, 0)

/-- The inner loop of `hashmap_list`; `count` is the next slot. -/
def list_chain : Nat → Hashmap V → Ptr → List Ptr → Nat → Except Fault (List Ptr × Nat)
  | _, _, none, list, count => .ok (list, count)
  | 0, _, some _, _, _ => .error .outOfFuel
  | fuel + 1, m, some member, list, count => do
    let list ← blit list count [some member]
    let e ← m.heap.deref (some member)
    list_chain fuel m e.next list (count + 1)

/-- The outer loop of `hashmap_list` over the bucket array. -/
def list_buckets (fuel : Nat) (m : Hashmap V) : Nat → List Ptr → List Ptr → Nat → Except Fault (List Ptr × Nat)
  | 0, _, list, count => .ok (list, count)
  | _ + 1, [], _, _ => .error .outOfBounds
  | size + 1, h :: hs, list, count => do
    let (list, count) ← list_chain fuel m h list count
    list_buckets fuel m size hs list count

/-- The array that `calloc` clears, filled; `none` when there is no array. -/
def hashmap_list (fuel : Nat) (m : Hashmap V) (alloc : Bool) : Except Fault (Option (List Ptr)) :=
  if alloc then do
    let (list, count) ← list_buckets fuel m m.size m.data (List.replicate (m.used + 1) none) 0
    let list ← blit list count [none]
    .ok (some list)
  else .ok none

/-! ## Runs -/

inductive Op (V : Type) where
  | insert (key : List UInt8) (value : Option V)
  | delete (key : List UInt8)
  | find (key : List UInt8)
deriving DecidableEq, Repr

inductive Outcome (V : Type) where
  | inserted (success : Bool)
  | deleted (rc : Int)
  | found (value : Option V)
deriving DecidableEq, Repr

/-- The fuel of a call. A chain meets no entry twice, so it is no longer than
    the number of entries ever allocated. -/
def chain_fuel (m : Hashmap V) : Nat := m.heap.cells.length

/-- One call with every allocation succeeding. -/
def exec (m : Hashmap V) : Op V → Except Fault (Hashmap V × Outcome V)
  | .insert key value => do
    let (m, ht) ← hashmap_insert (chain_fuel m) m key value ⟨true, true⟩
    .ok (m, .inserted ht.isSome)
  | .delete key => do
    let (m, rc) ← hashmap_delete (chain_fuel m) m key
    .ok (m, .deleted rc)
  | .find key => do
    let value ← hashmap_find (chain_fuel m) m key
    .ok (m, .found value)

end code_tools.hashmap
