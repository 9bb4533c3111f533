import Mathlib.Algebra.Group.Even
import Mathlib.Algebra.Group.Nat.Even
import Mathlib.Data.List.Induction
import CodeTools.Lib.Machine
import CodeTools.HashMap.Insert

/-!
# Repeated keys

An insert shadows the older entries of its key by standing before them in their
chain. Growth rebuilds every chain back to front, so it brings the oldest entry
of a key forward; the next growth undoes this.
-/

namespace code_tools.hashmap

open cmem machine

variable {V : Type}

/-! ## The order of the entries of one key -/

/-- Whether insert number `n`, counted from zero, grows a table that was created
    with prime index `idx`. The counter of entries wraps at 16 bits. -/
def grows (idx n : Nat) : Bool :=
  n = 0 || (decide (n < 2 ^ 16) && (primes.drop (idx + 1)).contains n)

/-- How many of `count` inserts grow the table, the first being number `n`. -/
def growths (idx n count : Nat) : Nat := (List.range' n count).countP (grows idx)

/-- What insert number `n`, of the key `k`, makes of the entries of `key`. -/
def order_step (idx : Nat) (key : List UInt8) (n : Nat) (order : List Nat) (k : List UInt8) : List Nat :=
  let order := if grows idx n then order.reverse else order
  if k = key then n :: order else order

/-- The entries of `key`, first in their chain first, after inserts of the given
    keys. An entry is named by the number of its insert. -/
def key_order (idx : Nat) (key : List UInt8) : Nat → List Nat → List (List UInt8) → List Nat
  | _, order, [] => order
  | n, order, k :: ks => key_order idx key (n + 1) (order_step idx key n order k) ks

theorem key_order_append (idx : Nat) (key : List UInt8) (n : Nat) (order : List Nat)
    (ks ks' : List (List UInt8)) :
    key_order idx key n order (ks ++ ks') =
      key_order idx key (n + ks.length) (key_order idx key n order ks) ks' := by
  induction ks generalizing n order with
  | nil => rfl
  | cons k ks ih =>
    rw [List.cons_append, key_order, ih, key_order, List.length_cons]
    congr 1
    omega

theorem growths_succ (idx n count : Nat) :
    growths idx n (count + 1) = growths idx (n + 1) count + if grows idx n then 1 else 0 := by
  unfold growths
  rw [List.range'_succ, List.countP_cons]

/-- Inserts of other keys reverse the entries of a key once for each growth. -/
theorem key_order_of_notMem {idx : Nat} {key : List UInt8} {ks : List (List UInt8)} (hkey : key ∉ ks)
    (n : Nat) (order : List Nat) :
    key_order idx key n order ks =
      if Even (growths idx n ks.length) then order else order.reverse := by
  induction ks generalizing n order with
  | nil => simp [key_order, growths]
  | cons k ks ih =>
    rw [List.mem_cons, not_or] at hkey
    rw [key_order, ih hkey.2, List.length_cons, growths_succ]
    unfold order_step
    rw [if_neg (Ne.symm hkey.1)]
    cases hgrows : grows idx n with
    | false => simp
    | true =>
      simp only [if_true, Nat.even_add_one]
      by_cases heven : Even (growths idx (n + 1) ks.length) <;> simp [heven]

theorem key_order_eq_nil_iff {idx : Nat} {key : List UInt8} {ks : List (List UInt8)} (n : Nat)
    (order : List Nat) : key_order idx key n order ks = [] ↔ order = [] ∧ key ∉ ks := by
  induction ks generalizing n order with
  | nil => simp [key_order]
  | cons k ks ih =>
    have hstep : order_step idx key n order k = [] ↔ order = [] ∧ k ≠ key := by
      unfold order_step
      by_cases hk : k = key
      · simp [hk]
      · cases grows idx n <;> simp [hk]
    rw [key_order, ih, hstep, List.mem_cons, not_or]
    constructor
    · rintro ⟨⟨horder, hk⟩, hks⟩
      exact ⟨horder, Ne.symm hk, hks⟩
    · rintro ⟨horder, hk, hks⟩
      exact ⟨⟨horder, Ne.symm hk⟩, hks⟩

theorem lt_of_mem_key_order {idx : Nat} {key : List UInt8} {ks : List (List UInt8)} {n a : Nat}
    {order : List Nat} (horder : ∀ b ∈ order, b < n) (ha : a ∈ key_order idx key n order ks) :
    a < n + ks.length := by
  induction ks generalizing n order with
  | nil => exact horder a ha
  | cons k ks ih =>
    have hstep : ∀ b ∈ order_step idx key n order k, b < n + 1 := by
      intro b hb
      have hb' : b = n ∨ b ∈ order := by
        unfold order_step at hb
        by_cases hk : k = key <;> cases hgrows : grows idx n <;> simp [hk, hgrows] at hb <;> tauto
      rcases hb' with rfl | hmem
      · omega
      · have hlt := horder b hmem
        omega
    have hlt := ih hstep ha
    rw [List.length_cons]
    omega

/-! ## What a run of inserts leaves in the table -/

/-- After the given inserts every entry ever made is in the table at the address
    of its number, and the entries of a key stand in the given order. -/
structure Traced (m : Hashmap V) (chains : Nat → List Nat) (ops : List (List UInt8 × Option V))
    (order : List UInt8 → List Nat) : Prop where
  linked : Linked m chains
  formed : AllFormed m.heap
  length : m.heap.cells.length = ops.length
  used : m.used = ops.length % 2 ^ 16
  all : (visited m.size chains).length = ops.length
  order : ∀ key, (chains (slot m.size key)).filter (m.heap.passes (matches_key key)) = order key
  value : ∀ a b, ops[a]? = some b → m.heap.view (·.value) a = some b.2

theorem view_value_of_bare_eq {heap heap' : Heap (HashmapEntry V)} {a : Nat}
    (hbare : heap'.view HashmapEntry.bare a = heap.view HashmapEntry.bare a) :
    heap'.view (·.value) a = heap.view (·.value) a := by
  have hview : ∀ h : Heap (HashmapEntry V),
      h.view (·.value) a = (h.view HashmapEntry.bare a).map (·.value) := by
    intro h
    unfold Heap.view
    rw [Option.map_map]
    rfl
  rw [hview, hview, hbare]

/-- The entries of a key are all in the key's bucket. -/
theorem Linked.slot_of_passes {m : Hashmap V} {chains : Nat → List Nat} (h : Linked m chains)
    (hformed : AllFormed m.heap) {i a : Nat} {key : List UInt8} (ha : a ∈ chains i)
    (hpass : m.heap.passes (matches_key key) a = true) : ∃ e, m.heap.get? a = some e ∧ e.key = key ∧
      slot m.size key = i := by
  obtain ⟨e, he, hslot⟩ := h.placed i a ha
  rw [Heap.passes, he, Option.any_some, (hformed a e he).matches_key_iff] at hpass
  exact ⟨e, he, hpass, by rw [← hpass, hslot]⟩

theorem visited_filter {size j : Nat} {chains : Nat → List Nat} {test : Nat → Bool}
    (hother : ∀ i, i ≠ j → (chains i).filter test = []) (houtside : size ≤ j → chains j = []) :
    (visited size chains).filter test = (chains j).filter test := by
  have hall : ∀ n, (visited n chains).filter test = if j < n then (chains j).filter test else [] := by
    intro n
    induction n with
    | zero => simp [visited]
    | succ n ih =>
      rw [visited_succ, List.filter_append, ih]
      by_cases hj : n = j
      · simp [hj]
      · rw [hother n hj, List.append_nil]
        by_cases hlt : j < n
        · rw [if_pos hlt, if_pos (by omega)]
        · rw [if_neg hlt, if_neg (by omega)]
  rw [hall]
  by_cases hj : j < size
  · rw [if_pos hj]
  · rw [if_neg hj, houtside (by omega), List.filter_nil]

theorem Traced.grow {m : Hashmap V} {chains : Nat → List Nat} {ops : List (List UInt8 × Option V)}
    {order : List UInt8 → List Nat} (h : Traced m chains ops order) {prime : Nat}
    (hprime : primes[(m.idx + 1) % 2 ^ 8]? = some prime) :
    ∃ m' chains', hashmap_grow (chain_fuel m) m true = .ok (m', 0) ∧ m'.size = prime ∧
      m'.idx = (m.idx + 1) % 2 ^ 8 ∧ Traced m' chains' ops fun key => (order key).reverse := by
  obtain ⟨m', hgrow, hlinked, hkept, hused, _⟩ := hashmap_grow_spec hprime h.linked.length_data
    h.linked.chain h.linked.nodup_visited fun i _ => h.linked.length_le i
  have hsize : m'.size = prime := hkept.size
  have hperm := visited_regrown (primes_pos hprime) m.heap (visited m.size chains)
  refine ⟨m', _, hgrow, hsize, hkept.idx, hlinked, h.formed.of_bare_eq hkept.bare, ?_, ?_, ?_, ?_, ?_⟩
  · rw [hkept.length]
    exact h.length
  · rw [hused, h.all]
  · rw [hsize, hperm.length_eq, h.all]
  · intro key
    have htest : m'.heap.passes (matches_key key) = m.heap.passes (matches_key key) := by
      funext a
      exact passes_of_bare_eq key (congrFun hkept.bare a)
    have hstay : ∀ a ∈ visited m.size chains, m.heap.passes (matches_key key) a = true →
        place m.heap prime a = slot prime key := by
      intro a ha hpass
      obtain ⟨i, _, hi⟩ := mem_visited_iff.mp ha
      obtain ⟨e, he, hkey, _⟩ := h.linked.slot_of_passes h.formed hi hpass
      rw [place_eq he, hkey]
    have hbucket : (visited m.size chains).filter (m.heap.passes (matches_key key)) =
        (chains (slot m.size key)).filter (m.heap.passes (matches_key key)) := by
      apply visited_filter
      · intro i hi
        rw [List.filter_eq_nil_iff]
        intro a ha hpass
        obtain ⟨_, _, _, hslot⟩ := h.linked.slot_of_passes h.formed ha hpass
        exact hi hslot.symm
      · exact h.linked.outside _
    rw [hsize, htest, regrown_eq, List.filter_reverse, List.filter_filter, ← h.order, ← hbucket]
    congr 1
    apply List.filter_congr
    intro a ha
    cases hpass : m.heap.passes (matches_key key) a with
    | false => simp
    | true => simp [hstay a ha hpass]
  · intro a b hb
    rw [view_value_of_bare_eq (congrFun hkept.bare a)]
    exact h.value a b hb

theorem Traced.inserted {m m' : Hashmap V} {chains : Nat → List Nat}
    {ops : List (List UInt8 × Option V)} {order : List UInt8 → List Nat} (h : Traced m chains ops order)
    (hsize : 0 < m.size) {key : List UInt8} {value : Option V}
    (hinserted : Inserted m m' chains key value) :
    Traced m' (push chains (slot m.size key) ops.length) (ops ++ [(key, value)])
      fun k => if key = k then ops.length :: order k else order k := by
  have hperm := visited_push chains ops.length (slot_lt hsize key)
  have hlinked := hinserted.linked
  have hformed := hinserted.allFormed h.formed
  obtain ⟨e, he, hbare⟩ := Heap.view_eq_some_iff.mp hinserted.entry
  rw [h.length] at hlinked he
  have hsame : e.bare = (new_entry key value).bare := hbare
  have hlive : ∀ i, ∀ a ∈ chains i, a ≠ m.heap.cells.length := by
    intro i a ha
    obtain ⟨x, hx, _⟩ := h.linked.placed i a ha
    have hlt := Heap.lt_length_of_get? hx
    omega
  refine ⟨hlinked, hformed, ?_, ?_, ?_, ?_, ?_⟩
  · rw [hinserted.length, h.length, List.length_append, List.length_singleton]
  · rw [hinserted.used, h.used, List.length_append, List.length_singleton]
    omega
  · rw [hinserted.size, hperm.length_eq, List.length_cons, h.all, List.length_append,
      List.length_singleton]
  · intro k
    have hold : (chains (slot m.size k)).filter (m'.heap.passes (matches_key k)) = order k := by
      rw [← h.order]
      apply List.filter_congr
      intro a ha
      exact passes_of_bare_eq k (hinserted.bare a (hlive _ a ha))
    have hnew : m'.heap.passes (matches_key k) ops.length = true ↔ key = k := by
      rw [Heap.passes, he, Option.any_some, (hformed _ e he).matches_key_iff]
      rw [(bare_eq_iff.mp hsame).1]
      rfl
    rw [hinserted.size]
    by_cases hk : key = k
    · rw [hk, push_self, List.filter_cons, if_pos (hnew.mpr hk), if_pos rfl, hold]
    · have hfalse : ¬m'.heap.passes (matches_key k) ops.length = true := fun hpass => hk (hnew.mp hpass)
      rw [if_neg hk, ← hold]
      by_cases hslot : slot m.size k = slot m.size key
      · rw [hslot, push_self, List.filter_cons, if_neg hfalse]
      · rw [push_of_ne chains _ hslot]
  · intro a b hb
    by_cases ha : a = ops.length
    · rw [ha, List.getElem?_append_right (by omega)] at hb
      have hb' : (key, value) = b := by simpa using hb
      rw [ha, Heap.view, he, Option.map_some, ← hb']
      exact congrArg some (bare_eq_iff.mp hsame).2.2.2
    · have hlt : a < ops.length := by
        obtain ⟨hlt, _⟩ := List.getElem?_eq_some_iff.mp hb
        rw [List.length_append, List.length_singleton] at hlt
        omega
      rw [List.getElem?_append_left hlt] at hb
      rw [view_value_of_bare_eq (hinserted.bare a (by rw [h.length]; exact ha))]
      exact h.value a b hb

/-! ## When the table grows -/

/-- Where a table created with prime index `idx` stands after `n` inserts: it
    has passed exactly the primes below `n`. -/
structure Counted (idx n : Nat) (m : Hashmap V) : Prop where
  used : m.used = n % 2 ^ 16
  start : n = 0 → m.size = 0 ∧ m.idx = idx
  later : 0 < n → idx < m.idx ∧ primes[m.idx]? = some m.size ∧
    (∀ i p, idx < i → i < m.idx → primes[i]? = some p → p < n) ∧ (n ≤ m.size ∨ 2 ^ 16 ≤ m.size)

theorem primes_lt {i j p q : Nat} (hij : i < j) (hp : primes[i]? = some p) (hq : primes[j]? = some q) :
    p < q := by
  have hsorted : primes.Pairwise (· < ·) := by decide
  obtain ⟨hi, rfl⟩ := List.getElem?_eq_some_iff.mp hp
  obtain ⟨hj, rfl⟩ := List.getElem?_eq_some_iff.mp hq
  exact List.pairwise_iff_getElem.mp hsorted i j hi hj hij

theorem grows_iff {idx n : Nat} :
    grows idx n = true ↔ n = 0 ∨ (n < 2 ^ 16 ∧ ∃ i, idx < i ∧ primes[i]? = some n) := by
  have hmem : n ∈ primes.drop (idx + 1) ↔ ∃ i, idx < i ∧ primes[i]? = some n := by
    rw [List.mem_iff_getElem?]
    constructor
    · rintro ⟨i, hi⟩
      rw [List.getElem?_drop] at hi
      exact ⟨idx + 1 + i, by omega, hi⟩
    · rintro ⟨i, hlt, hi⟩
      refine ⟨i - (idx + 1), ?_⟩
      rw [List.getElem?_drop, show idx + 1 + (i - (idx + 1)) = i by omega, hi]
  unfold grows
  simp [hmem]

theorem Counted.full_iff {idx n : Nat} {m : Hashmap V} (h : Counted idx n m) :
    m.size ≤ m.used ↔ grows idx n = true := by
  rw [grows_iff, h.used]
  by_cases hn : n = 0
  · simp [hn, (h.start hn).1]
  · obtain ⟨hidx, hsize, hpassed, hbound⟩ := h.later (by omega)
    constructor
    · intro hfull
      have heq : n = m.size := by omega
      exact Or.inr ⟨by omega, m.idx, hidx, by rw [heq]; exact hsize⟩
    · rintro (hzero | ⟨hlt, i, hi, hprime⟩)
      · exact absurd hzero hn
      · rcases Nat.lt_trichotomy i m.idx with hbefore | hsame | hafter
        · exact absurd (hpassed i n hi hbefore hprime) (Nat.lt_irrefl n)
        · rw [hsame, hsize, Option.some.injEq] at hprime
          omega
        · have hlarger := primes_lt hafter hsize hprime
          omega

theorem Counted.sized {idx n : Nat} {m : Hashmap V} (h : Counted idx n m) (hidx : idx + 1 < primes.length) :
    Sized m := by
  refine ⟨?_, ?_⟩
  · rw [h.used]
    exact Nat.mod_lt _ (by decide)
  · by_cases hn : n = 0
    · obtain ⟨hsize, hstart⟩ := h.start hn
      exact Or.inl ⟨hsize, by omega⟩
    · exact Or.inr (h.later (by omega)).2.1

/-- One insert more. The table it links into has grown if it was full. -/
theorem Counted.succ {idx n : Nat} {m m₁ m' : Hashmap V} (h : Counted idx n m)
    (hsame : m.used < m.size → m₁ = m)
    (hgrown : m.size ≤ m.used → m₁.idx = m.idx + 1 ∧ primes[m.idx + 1]? = some m₁.size)
    (hused : m'.used = (n + 1) % 2 ^ 16) (hidx : m'.idx = m₁.idx) (hsize : m'.size = m₁.size) :
    Counted idx (n + 1) m' := by
  refine ⟨hused, by omega, fun _ => ?_⟩
  rw [hidx, hsize]
  have hcount := h.used
  by_cases hroom : m.used < m.size
  · rw [hsame hroom]
    have hn : 0 < n := by
      by_contra hzero
      have hempty := (h.start (by omega)).1
      omega
    obtain ⟨hlt, hprime, hpassed, hbound⟩ := h.later hn
    refine ⟨hlt, hprime, fun i p hi hip hp => ?_, by omega⟩
    have hless := hpassed i p hi hip hp
    omega
  · obtain ⟨hnext, hprime⟩ := hgrown (by omega)
    rw [hnext]
    by_cases hn : n = 0
    · obtain ⟨_, hstart⟩ := h.start hn
      refine ⟨by omega, hprime, fun i p hi hip => by omega, Or.inl ?_⟩
      have hpos := primes_pos hprime
      omega
    · obtain ⟨hlt, hold, hpassed, hbound⟩ := h.later (by omega)
      have hlarger := primes_lt (Nat.lt_succ_self m.idx) hold hprime
      refine ⟨by omega, hprime, fun i p hi hip hp => ?_, by omega⟩
      by_cases hlast : i = m.idx
      · rw [hlast, hold, Option.some.injEq] at hp
        omega
      · have hless := hpassed i p hi (by omega) hp
        omega

/-! ## Runs of inserts -/

/-- One insert with every allocation succeeding; it returns the new entry. -/
def insert_step (m : Hashmap V) (b : List UInt8 × Option V) : Except Fault (Hashmap V × Ptr) :=
  hashmap_insert (chain_fuel m) m b.1 b.2 ⟨true, true⟩

/-- The order of the entries of a key after inserts into a new table. -/
def traced_order (idx : Nat) (ops : List (List UInt8 × Option V)) (key : List UInt8) : List Nat :=
  key_order idx key 0 [] (ops.map Prod.fst)

theorem traced_order_concat (idx : Nat) (ops : List (List UInt8 × Option V))
    (b : List UInt8 × Option V) (key : List UInt8) :
    traced_order idx (ops ++ [b]) key = order_step idx key ops.length (traced_order idx ops key) b.1 := by
  unfold traced_order
  rw [List.map_append, key_order_append, List.length_map, Nat.zero_add]
  rfl

theorem insert_step_traced {idx : Nat} (hidx : idx + 1 < primes.length) {m : Hashmap V}
    {chains : Nat → List Nat} {ops : List (List UInt8 × Option V)}
    (h : Traced m chains ops (traced_order idx ops)) (hcounted : Counted idx ops.length m)
    (b : List UInt8 × Option V) :
    ∃ m' chains', insert_step m b = .ok (m', some ops.length) ∧
      Traced m' chains' (ops ++ [b]) (traced_order idx (ops ++ [b])) ∧
      Counted idx (ops.length + 1) m' := by
  obtain ⟨key, value⟩ := b
  have hprepare : ∃ m₁ chains₁, Prepared (chain_fuel m) m m₁ ∧ 0 < m₁.size ∧
      (m.used < m.size → m₁ = m) ∧
      (m.size ≤ m.used → m₁.idx = m.idx + 1 ∧ primes[m.idx + 1]? = some m₁.size) ∧
      Traced m₁ chains₁ ops fun key =>
        if grows idx ops.length then (traced_order idx ops key).reverse else traced_order idx ops key := by
    by_cases hroom : m.used < m.size
    · have hstill : ¬grows idx ops.length = true := by
        rw [← hcounted.full_iff]
        omega
      refine ⟨m, chains, Or.inl ⟨hroom, rfl⟩, by omega, fun _ => rfl, by omega, ?_⟩
      simpa only [if_neg hstill] using h
    · have hfull : m.size ≤ m.used := by omega
      obtain ⟨hlt, prime, hprime⟩ := (hcounted.sized hidx).next_prime hfull
      obtain ⟨m₁, chains₁, hgrow, hsize₁, hidx₁, h₁⟩ := h.grow hprime
      have hlen : primes.length = 72 := by decide
      rw [Nat.mod_eq_of_lt (by omega)] at hprime hidx₁
      refine ⟨m₁, chains₁, Or.inr ⟨hfull, hgrow⟩, ?_, by omega, fun _ => ⟨hidx₁, ?_⟩, ?_⟩
      · rw [hsize₁]
        exact primes_pos hprime
      · rw [hsize₁]
        exact hprime
      · simpa only [if_pos (hcounted.full_iff.mp hfull)] using h₁
  obtain ⟨m₁, chains₁, hprepared, hpos, hsame, hgrown, h₁⟩ := hprepare
  obtain ⟨m', hinsert, hinserted⟩ := hashmap_insert_spec hprepared h₁.linked hpos key value
  have h' := h₁.inserted hpos hinserted
  refine ⟨m', push chains₁ (slot m₁.size key) ops.length, ?_, ?_, ?_⟩
  · rw [← h₁.length]
    exact hinsert
  · have horder : traced_order idx (ops ++ [(key, value)]) = fun k =>
        if key = k then ops.length ::
          (if grows idx ops.length then (traced_order idx ops k).reverse else traced_order idx ops k)
        else (if grows idx ops.length then (traced_order idx ops k).reverse else traced_order idx ops k) := by
      funext k
      rw [traced_order_concat]
      rfl
    rw [horder]
    exact h'
  · refine hcounted.succ hsame hgrown ?_ hinserted.idx hinserted.size
    rw [hinserted.used, h₁.used]
    omega

/-- Every run of inserts from a table with a prime to spare succeeds and returns
    the entries in the order of their numbers. -/
theorem insert_run_traced {size : Int} {m : Hashmap V} (hcreate : hashmap_create V size true = some m)
    (hidx : m.idx + 1 < primes.length) (ops : List (List UInt8 × Option V)) :
    ∃ m' chains, run insert_step m ops = .ok (m', (List.range ops.length).map some) ∧
      Traced m' chains ops (traced_order m.idx ops) ∧ Counted m.idx ops.length m' := by
  induction ops using List.reverseRecOn with
  | nil =>
    obtain ⟨hsize, hused, _, hheap, _⟩ := hashmap_create_spec hcreate
    refine ⟨m, fun _ => [], rfl, ⟨linked_of_create hcreate, ?_, ?_, ?_, ?_, ?_, ?_⟩, ?_⟩
    · intro a e he
      rw [hheap] at he
      simp [Heap.empty, Heap.get?] at he
    · rw [hheap]
      rfl
    · rw [hused]
      rfl
    · simp [visited]
    · intro key
      rfl
    · simp
    · exact ⟨hused, fun _ => ⟨hsize, rfl⟩, fun hpos => absurd hpos (Nat.lt_irrefl 0)⟩
  | append_singleton ops b ih =>
    obtain ⟨m₁, chains₁, hrun, h₁, hcounted₁⟩ := ih
    obtain ⟨m', chains', hstep, h', hcounted'⟩ := insert_step_traced hidx h₁ hcounted₁ b
    refine ⟨m', chains', ?_, h', ?_⟩
    · refine run_append_eq_ok_iff.mpr ⟨m₁, _, [some ops.length], hrun, ?_, ?_⟩
      · exact run_cons_eq_ok_iff.mpr ⟨m', _, [], hstep, rfl, rfl⟩
      · simp [List.range_succ]
    · rw [List.length_append, List.length_singleton]
      exact hcounted'

/-- The entry that a lookup of a key meets first. -/
theorem Traced.locate_eq {m : Hashmap V} {chains : Nat → List Nat}
    {ops : List (List UInt8 × Option V)} {order : List UInt8 → List Nat} (h : Traced m chains ops order)
    (hsize : 0 < m.size) (key : List UInt8) :
    hashmap_locate (chain_fuel m) m key = .ok (order key).head? := by
  rw [h.linked.locate_eq hsize key (h.linked.length_le _), ← h.order, List.head?_filter]

theorem Traced.find_eq {m : Hashmap V} {chains : Nat → List Nat} {ops : List (List UInt8 × Option V)}
    {order : List UInt8 → List Nat} (h : Traced m chains ops order) (hsize : 0 < m.size)
    {key : List UInt8} {a : Nat} {b : List UInt8 × Option V} (hhead : (order key).head? = some a)
    (hb : ops[a]? = some b) : hashmap_find (chain_fuel m) m key = .ok b.2 := by
  obtain ⟨e, he, hvalue⟩ := Heap.view_eq_some_iff.mp (h.value a b hb)
  unfold hashmap_find
  rw [h.locate_eq hsize, hhead, ok_bind]
  dsimp only
  rw [Heap.deref_some he, ok_bind, hvalue]

/-- Where the newest entry of a key stands among the key's entries: in front,
    unless there are older ones and growth reversed them an odd number of times. -/
theorem head_traced_order_iff (idx : Nat) (before after : List (List UInt8 × Option V))
    {key : List UInt8} (value : Option V) (hlast : key ∉ after.map Prod.fst) :
    (traced_order idx (before ++ (key, value) :: after) key).head? = some before.length ↔
      key ∉ before.map Prod.fst ∨ Even (growths idx (before.length + 1) after.length) := by
  obtain ⟨older, holder⟩ : ∃ older, older = if grows idx before.length then
      (traced_order idx before key).reverse else traced_order idx before key := ⟨_, rfl⟩
  have hnil : older = [] ↔ key ∉ before.map Prod.fst := by
    have hempty : key_order idx key 0 [] (before.map Prod.fst) = [] ↔
        ([] : List Nat) = [] ∧ key ∉ before.map Prod.fst := key_order_eq_nil_iff 0 []
    rw [holder]
    unfold traced_order
    cases grows idx before.length <;> simpa using hempty
  have hlt : ∀ a ∈ older, a < before.length := by
    intro a ha
    have hmem : a ∈ key_order idx key 0 [] (before.map Prod.fst) := by
      rw [holder] at ha
      unfold traced_order at ha
      cases hgrows : grows idx before.length <;> simpa [hgrows] using ha
    have hbound := lt_of_mem_key_order (by simp) hmem
    rw [List.length_map] at hbound
    omega
  have horder : traced_order idx (before ++ (key, value) :: after) key =
      if Even (growths idx (before.length + 1) after.length) then before.length :: older
      else (before.length :: older).reverse := by
    unfold traced_order
    rw [List.map_append, key_order_append, List.map_cons, key_order, key_order_of_notMem hlast,
      List.length_map, List.length_map, Nat.zero_add]
    unfold order_step
    rw [if_pos rfl, holder]
    rfl
  rw [horder, ← hnil]
  by_cases heven : Even (growths idx (before.length + 1) after.length)
  · rw [if_pos heven]
    exact iff_of_true rfl (Or.inr heven)
  · rw [if_neg heven, List.head?_reverse]
    cases older with
    | nil => exact iff_of_true rfl (Or.inl rfl)
    | cons a older =>
      refine iff_of_false (fun heq => ?_) (by simp [heven])
      rw [List.getLast?_cons_cons] at heq
      have hless := hlt _ (List.mem_of_getLast? heq)
      exact Nat.lt_irrefl _ hless

/-- After any run of inserts into a new table, with repeated keys, collisions
    and growths as they come, the key's last insert is the one that is located
    and found if and only if the table could be allocated at all and the key was
    inserted once or an even number of growths followed its last insert. -/
theorem newest_found_iff {size : Int} {m : Hashmap V} (hint : -2 ^ 31 ≤ size ∧ size < 2 ^ 31)
    (hcreate : hashmap_create V size true = some m) (before after : List (List UInt8 × Option V))
    {key : List UInt8} (value : Option V) (hlast : key ∉ after.map Prod.fst) :
    (∃ m' entries newest, run insert_step m (before ++ (key, value) :: after) = .ok (m', entries) ∧
        entries[before.length]? = some (some newest) ∧
        hashmap_locate (chain_fuel m') m' key = .ok (some newest) ∧
        hashmap_find (chain_fuel m') m' key = .ok value) ↔
      size < 5999471 ∧
        (key ∉ before.map Prod.fst ∨ Even (growths m.idx (before.length + 1) after.length)) := by
  rw [← next_prime_of_create_iff hint hcreate]
  by_cases hidx : m.idx + 1 < primes.length
  · obtain ⟨m', chains, hrun, h, hcounted⟩ :=
      insert_run_traced hcreate hidx (before ++ (key, value) :: after)
    have hlen : before.length < (before ++ (key, value) :: after).length := by simp
    have hsize : 0 < m'.size := primes_pos (hcounted.later (by omega)).2.1
    have hentry : ((List.range (before ++ (key, value) :: after).length).map some)[before.length]? =
        some (some before.length) := by
      rw [List.getElem?_map, List.getElem?_range hlen, Option.map_some]
    rw [← head_traced_order_iff m.idx before after value hlast]
    constructor
    · rintro ⟨m'', entries, newest, hrun', hnewest, hlocate, _⟩
      rw [hrun] at hrun'
      obtain ⟨rfl, rfl⟩ := Prod.mk.inj (Except.ok.inj hrun')
      rw [hentry] at hnewest
      obtain rfl : before.length = newest := Option.some.inj (Option.some.inj hnewest)
      rw [h.locate_eq hsize] at hlocate
      exact ⟨hidx, Except.ok.inj hlocate⟩
    · rintro ⟨_, hhead⟩
      refine ⟨m', _, before.length, hrun, hentry, ?_, ?_⟩
      · rw [h.locate_eq hsize, hhead]
      · have hnewest : (before ++ (key, value) :: after)[before.length]? = some (key, value) := by simp
        exact h.find_eq hsize hhead hnewest
  · refine iff_of_false ?_ fun hboth => hidx hboth.1
    rintro ⟨m', entries, newest, hrun, _⟩
    obtain ⟨hzero, _⟩ := hashmap_create_spec hcreate
    have hlt := (hashmap_create_spec hcreate).2.2.2.2.2.2
    have hlen : primes.length = 72 := by decide
    have hnone : primes[(m.idx + 1) % 2 ^ 8]? = none := by
      rw [Nat.mod_eq_of_lt (by omega)]
      exact List.getElem?_eq_none (by omega)
    have hfault : ∀ b, insert_step m b = .error .outOfBounds := fun b =>
      hashmap_insert_no_prime (by omega) hnone _ _ _ _
    obtain ⟨b, rest, hops⟩ : ∃ b rest, before ++ (key, value) :: after = b :: rest := by
      cases before <;> simp
    rw [hops] at hrun
    obtain ⟨_, _, _, hstep, _⟩ := run_cons_eq_ok_iff.mp hrun
    rw [hfault] at hstep
    cases hstep

/-- Key `[1]` inserted twice with no growth in between or after. -/
theorem newest_found_iff_twice :
    (∃ m' entries newest, run insert_step
          { size := 0, used := 0, idx := 0, data := [], heap := Heap.empty, freed := [] }
          ([([1], some 10)] ++ ([1], some 20) :: []) = .ok (m', entries) ∧
        entries[1]? = some (some newest) ∧
        hashmap_locate (chain_fuel m') m' [1] = .ok (some newest) ∧
        hashmap_find (chain_fuel m') m' [1] = .ok (some 20)) ↔
      (0 : Int) < 5999471 ∧ ([1] ∉ [([1] : List UInt8)] ∨ Even (growths 0 2 0)) := by
  have hcreate : hashmap_create Nat 0 true =
      some { size := 0, used := 0, idx := 0, data := [], heap := Heap.empty, freed := [] } := rfl
  exact newest_found_iff (by decide) hcreate [([1], some 10)] [] (some 20) (by decide)

/-- Key `[1]` twice, then six other keys. The table grows to 7 before the first
    insert and to 11 before the last. -/
def shadowed_run : List (List UInt8 × Option Nat) :=
  [([1], some 10), ([1], some 20), ([2], some 2), ([3], some 3), ([4], some 4), ([5], some 5),
    ([6], some 6), ([7], some 7)]

/-- The growth brings the old entry of `[1]` back in front of the new one. -/
theorem shadowed_run_finds_old :
    ∃ m m' entries, hashmap_create Nat 0 true = some m ∧
      run insert_step m shadowed_run = .ok (m', entries) ∧ entries[1]? = some (some 1) ∧
      hashmap_locate (chain_fuel m') m' [1] = .ok (some 0) ∧
      hashmap_find (chain_fuel m') m' [1] = .ok (some 10) := by
  refine ⟨_, _, _, rfl, rfl, ?_, ?_, ?_⟩ <;> decide

end code_tools.hashmap
