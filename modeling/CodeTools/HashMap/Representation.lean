import CodeTools.Lib.Machine
import CodeTools.HashMap.Insert
import CodeTools.HashMap.Delete

/-!
# The representation of a table along a run

Growth never writes the `prev` of the entry that it links last into a bucket.
The chains therefore stay well formed exactly as long as every such entry was
first in its chain before, or the new entry is linked on top of it.
-/

namespace code_tools.hashmap

open cmem machine

variable {V : Type}

/-- Every bucket heads a finite acyclic chain of entries that hash to it, no
    entry is in two chains, first entries have no predecessor, and any other
    entry's predecessor is in its chain and links to it. -/
def ChainsWellFormed (m : Hashmap V) : Prop :=
  m.data.length = m.size ∧ ∃ chains : Nat → List Nat,
    (∀ i, i < m.size → ∃ p, m.data[i]? = some p ∧ Chain (m.heap.view (·.next)) (chains i) p) ∧
    (∀ i, i < m.size → (chains i).Nodup) ∧
    (∀ i, i < m.size → ∀ a ∈ chains i,
      ∃ e, m.heap.get? a = some e ∧ hashcode_index e.key m.size = .ok i) ∧
    (∀ i j, i < m.size → j < m.size → ∀ a, a ∈ chains i → a ∈ chains j → i = j) ∧
    (∀ i, i < m.size → ∀ a, (chains i).head? = some a → m.heap.view (·.prev) a = some none) ∧
    (∀ i, i < m.size → ∀ a ∈ (chains i).tail, ∃ b ∈ chains i,
      m.heap.view (·.prev) a = some (some b) ∧ m.heap.view (·.next) b = some (some a))

/-- Inside a chain the entry before `a` links to `a`. -/
private theorem next_of_chain {link : Nat → Option Ptr} {pre post : List Nat} {b a : Nat} {p : Ptr}
    (h : Chain link (pre ++ b :: a :: post) p) : link b = some (some a) := by
  obtain ⟨_, q, hq, htail⟩ := h.drop
  rw [hq, htail.1]

/-- Only the entry before `a` links to `a`. -/
private theorem eq_of_next {link : Nat → Option Ptr} {pre post : List Nat} {b b' a : Nat} {p : Ptr}
    (h : Chain link (pre ++ b :: a :: post) p) (hmem : b' ∈ pre ++ b :: a :: post)
    (hnext : link b' = some (some a)) : b' = b := by
  obtain ⟨pre', rest, hsplit⟩ := List.append_of_mem hmem
  have hnodup := h.nodup
  have h' := h
  rw [hsplit] at h'
  obtain ⟨_, q, hq, hrest⟩ := h'.drop
  obtain rfl : q = some a := Option.some.inj (hq.symm.trans hnext)
  cases rest with
  | nil => cases hrest
  | cons c rest =>
    obtain rfl : c = a := (Option.some.inj hrest.1).symm
    -- `a` occurs once, so both splittings put it at the same place
    have heq : (pre ++ [b]) ++ c :: post = (pre' ++ [b']) ++ c :: rest := by simpa using hsplit
    have hleft : c ∉ pre ++ [b] := fun hc =>
      (List.nodup_append.mp (by simpa using hnodup : ((pre ++ [b]) ++ c :: post).Nodup)).2.2 c hc c
        (by simp) rfl
    have hright : c ∉ pre' ++ [b'] := fun hc =>
      (List.nodup_append.mp (by rw [hsplit] at hnodup; simpa using hnodup :
        ((pre' ++ [b']) ++ c :: rest).Nodup)).2.2 c hc c (by simp) rfl
    have hlen := congrArg (List.idxOf c) heq
    rw [List.idxOf_append_of_notMem hleft, List.idxOf_append_of_notMem hright] at hlen
    have hinj := (List.append_inj heq (by simpa using hlen)).1
    have hlast := congrArg List.getLast? hinj
    simpa using hlast.symm

private theorem tailLinked_of_tail {link : Nat → Option Ptr} {as : List Nat}
    (h : ∀ pre b a post, as = pre ++ b :: a :: post → link a = some (some b)) : TailLinked link as := by
  cases as with
  | nil => trivial
  | cons c cs =>
    show BackLinked link (some c) cs
    induction cs generalizing c with
    | nil => trivial
    | cons d ds ih =>
      refine ⟨h [] c d ds rfl, ih d fun pre b a post heq => ?_⟩
      exact h (c :: pre) b a post (by rw [heq]; rfl)

theorem chainsWellFormed_iff {m : Hashmap V} :
    ChainsWellFormed m ↔ ∃ chains, Linked m chains ∧ HeadsClear m chains := by
  constructor
  · rintro ⟨hdata, chains, hchain, _, hplaced, hdisj, hheads, hinner⟩
    refine ⟨fun i => if i < m.size then chains i else [], ⟨hdata, ?_, ?_, ?_, ?_⟩, ?_⟩
    · intro i hi
      simp only [hi, if_true]
      exact hchain i hi
    · intro i hi
      rw [if_neg (by omega)]
    · intro i a ha
      by_cases hi : i < m.size
      · simp only [hi, if_true] at ha
        obtain ⟨e, he, hindex⟩ := hplaced i hi a ha
        rw [hashcode_index_eq (by omega)] at hindex
        exact ⟨e, he, by simpa using hindex⟩
      · simp [hi] at ha
    · intro i
      by_cases hi : i < m.size
      · simp only [hi, if_true]
        obtain ⟨p, hp, hc⟩ := hchain i hi
        refine tailLinked_of_tail fun pre b a post heq => ?_
        rw [heq] at hc
        obtain ⟨b', hb', hprev, hnext⟩ := hinner i hi a (by
          rw [heq]
          cases pre <;> simp)
        rw [heq] at hb'
        rw [hprev, eq_of_next hc hb' hnext]
      · simp [hi, TailLinked]
    · intro i a ha
      by_cases hi : i < m.size
      · simp only [hi, if_true] at ha
        exact hheads i hi a ha
      · simp [hi] at ha
  · rintro ⟨chains, h, hheads⟩
    refine ⟨h.length_data, chains, h.chain, fun i _ => h.nodup i, ?_, fun i j _ _ a => h.disjoint,
      fun i _ => hheads i, ?_⟩
    · intro i hi a ha
      obtain ⟨e, he, hslot⟩ := h.placed i a ha
      exact ⟨e, he, by rw [hashcode_index_eq (by omega), hslot]⟩
    · intro i hi a ha
      obtain ⟨c, cs, hc⟩ : ∃ c cs, chains i = c :: cs := by
        cases hc : chains i with
        | nil => simp [hc] at ha
        | cons c cs => exact ⟨c, cs, rfl⟩
      rw [hc, List.tail_cons] at ha
      obtain ⟨pre, post, rfl⟩ := List.append_of_mem ha
      obtain ⟨pre', b, heq⟩ : ∃ pre' b, c :: pre = pre' ++ [b] :=
        ⟨_, _, (List.dropLast_append_getLast (List.cons_ne_nil c pre)).symm⟩
      have hsplit : chains i = pre' ++ b :: a :: post := by
        rw [hc, ← List.cons_append, heq, List.append_assoc, List.singleton_append]
      refine ⟨b, by simp [hsplit], ?_, ?_⟩
      · have htails := h.tails i
        rw [hsplit] at htails
        exact htails.inner
      · have hchain := h.chain_head hi
        rw [hsplit] at hchain
        exact next_of_chain hchain

/-! ## When an insert keeps the chains well formed -/

/-- The entries of the table in the order in which growth visits them. -/
def visit_order (m : Hashmap V) : List Nat :=
  (m.data.map (m.heap.follow (·.next) (chain_fuel m))).flatten

theorem Linked.visit_order_eq {m : Hashmap V} {chains : Nat → List Nat} (h : Linked m chains) :
    visit_order m = visited m.size chains := by
  have hdata : m.data = (List.range m.size).map fun i => (chains i).head? := by
    apply List.ext_getElem?
    intro i
    by_cases hi : i < m.size
    · simp [h.head_eq hi, hi]
    · rw [List.getElem?_eq_none (by rw [h.length_data]; omega), List.getElem?_eq_none (by simp; omega)]
  unfold visit_order visited
  rw [hdata, List.map_map]
  congr 1
  apply List.map_congr_left
  intro i hi
  exact (h.chain_head (List.mem_range.mp hi)).follow (h.length_le i)

/-- When the insert has to grow the table: in every bucket of the new table but
    the one of the new key, the entry that growth visits last was the first of
    its old chain, so that its `prev` is already `NULL`. -/
def InsertSafe (m : Hashmap V) (key : List UInt8) : Prop :=
  m.size ≤ m.used → ∀ prime, primes[(m.idx + 1) % 2 ^ 8]? = some prime →
    ∀ i, i ≠ slot prime key → ∀ a,
      ((visit_order m).filter (place m.heap prime · = i)).getLast? = some a →
        m.heap.view (·.prev) a = some none

/-- Only inserts can break the chains. -/
def StepSafe (m : Hashmap V) : Op V → Prop
  | .insert key _ => InsertSafe m key
  | .delete _ => True
  | .find _ => True

theorem Linked.chainsWellFormed_iff {m : Hashmap V} {chains : Nat → List Nat} (h : Linked m chains) :
    ChainsWellFormed m ↔ HeadsClear m chains := by
  rw [hashmap.chainsWellFormed_iff]
  constructor
  · rintro ⟨chains', h', hheads⟩
    rw [h.unique h']
    exact hheads
  · intro hheads
    exact ⟨chains, h, hheads⟩

/-- The heads after an insert: the new entry is clear, and any other head is
    clear if it was so before. -/
theorem Inserted.headsClear_iff {m m' : Hashmap V} {chains : Nat → List Nat} {key : List UInt8}
    {value : Option V} (h : Linked m chains) (hinserted : Inserted m m' chains key value) :
    HeadsClear m' (push chains (slot m.size key) m.heap.cells.length) ↔
      ∀ i, i ≠ slot m.size key → ∀ a, (chains i).head? = some a →
        m.heap.view (·.prev) a = some none := by
  have hkeep : ∀ i, i ≠ slot m.size key → ∀ a, (chains i).head? = some a →
      m'.heap.view (·.prev) a = m.heap.view (·.prev) a := by
    intro i hi a ha
    have hmem := List.mem_of_mem_head? ha
    apply hinserted.prev
    · rintro rfl
      obtain ⟨e, he, _⟩ := h.placed i _ hmem
      rw [Heap.get?_fresh] at he
      cases he
    · apply hinserted.linked.notMem_tail (i := i)
      rwa [push_of_ne chains _ hi]
  constructor
  · intro hheads i hi a ha
    rw [← hkeep i hi a ha]
    apply hheads i
    rwa [push_of_ne chains _ hi]
  · intro hall i a ha
    by_cases hi : i = slot m.size key
    · rw [hi, push_self] at ha
      obtain rfl : m.heap.cells.length = a := by simpa using ha
      exact hinserted.prev_new
    · rw [push_of_ne chains _ hi] at ha
      rw [hkeep i hi a ha]
      exact hall i hi a ha

/-- After growth the first entry of a new chain is the last one visited, and it
    still has its old `prev`. -/
theorem regrown_head? (heap : Heap (HashmapEntry V)) (size : Nat) (order : List Nat) (i : Nat) :
    (regrown heap size order i).head? = (order.filter (place heap size · = i)).getLast? := by
  rw [regrown_eq, List.head?_reverse]

theorem hashmap_insert_wellFormed_iff {m m' : Hashmap V} {key : List UInt8} {value : Option V}
    {ht : Ptr} (hwell : ChainsWellFormed m)
    (hinsert : hashmap_insert (chain_fuel m) m key value ⟨true, true⟩ = .ok (m', ht)) :
    ChainsWellFormed m' ↔ InsertSafe m key := by
  obtain ⟨chains, h, hheads⟩ := chainsWellFormed_iff.mp hwell
  by_cases hroom : m.used < m.size
  · have hprepared : Prepared (chain_fuel m) m m := Or.inl ⟨hroom, rfl⟩
    obtain ⟨m'', hinsert', hinserted⟩ :=
      hashmap_insert_spec hprepared h (by omega) key value
    rw [hinsert] at hinsert'
    obtain ⟨rfl, _⟩ := by simpa using hinsert'
    rw [hinserted.linked.chainsWellFormed_iff, hinserted.headsClear_iff h]
    constructor
    · intro _ hfull
      omega
    · intro _ i _ a ha
      exact hheads i a ha
  · cases hprime : primes[(m.idx + 1) % 2 ^ 8]? with
    | none =>
      exfalso
      rw [hashmap_insert_no_prime (by omega) hprime] at hinsert
      cases hinsert
    | some prime =>
      obtain ⟨m₁, hgrow, hlinked, hkept, _, hprev⟩ := hashmap_grow_spec hprime h.length_data h.chain
        h.nodup_visited fun i _ => h.length_le i
      have hsize : m₁.size = prime := hkept.size
      obtain ⟨m'', hinsert', hinserted⟩ := hashmap_insert_spec (Or.inr ⟨by omega, hgrow⟩) hlinked
        (by rw [hsize]; exact primes_pos hprime) key value
      rw [hinsert] at hinsert'
      obtain ⟨rfl, _⟩ := by simpa using hinsert'
      rw [hinserted.linked.chainsWellFormed_iff, hinserted.headsClear_iff hlinked, hsize]
      have hheld : ∀ i a, (regrown m.heap prime (visited m.size chains) i).head? = some a →
          m₁.heap.view (·.prev) a = m.heap.view (·.prev) a := by
        intro i a ha
        exact hprev a (hlinked.notMem_tail ha)
      unfold InsertSafe
      rw [h.visit_order_eq]
      constructor
      · intro hall _ prime' hprime' i hi a ha
        obtain rfl : prime = prime' := Option.some.inj (hprime.symm.trans hprime')
        rw [← regrown_head?] at ha
        rw [← hheld i a ha]
        exact hall i hi a ha
      · intro hsafe i hi a ha
        rw [hheld i a ha]
        exact hsafe (by omega) prime hprime i hi a (by rw [← regrown_head?, ha])

/-! ## Runs -/

/-- A step from well formed chains that does not fault keeps them well formed
    exactly when it is safe. -/
theorem exec_wellFormed_iff {m m' : Hashmap V} {op : Op V} {out : Outcome V}
    (hwell : ChainsWellFormed m) (hexec : exec m op = .ok (m', out)) :
    ChainsWellFormed m' ↔ StepSafe m op := by
  cases op with
  | insert key value =>
    unfold exec at hexec
    obtain ⟨⟨m₁, ht⟩, hinsert, hret⟩ := bind_eq_ok_iff.mp hexec
    obtain ⟨rfl, _⟩ := by simpa using hret
    exact hashmap_insert_wellFormed_iff hwell hinsert
  | delete key =>
    unfold exec at hexec
    obtain ⟨⟨m₁, rc⟩, hdelete, hret⟩ := bind_eq_ok_iff.mp hexec
    obtain ⟨rfl, _⟩ := by simpa using hret
    obtain ⟨chains, h, hheads⟩ := chainsWellFormed_iff.mp hwell
    refine iff_of_true ?_ trivial
    have hsize : 0 < m.size := by
      by_contra hzero
      unfold hashmap_delete hashcode_index at hdelete
      rw [if_pos (by omega)] at hdelete
      cases hdelete
    cases hfind : (chains (slot m.size key)).find? (m.heap.passes (matches_key key)) with
    | none =>
      rw [hashmap_delete_absent h hsize key (h.length_le _) hfind] at hdelete
      obtain ⟨rfl, _⟩ := by simpa using hdelete
      exact hwell
    | some a =>
      have hsafe : DeleteSafe m key := by
        intro b hb _
        apply hheads (slot m.size key)
        rw [h.head_eq (slot_lt hsize key)] at hb
        exact Option.some.inj hb
      obtain ⟨m₂, hdelete', hdeleted⟩ := hashmap_delete_found h hsize (h.length_le _) hfind hsafe
      rw [hdelete] at hdelete'
      obtain ⟨rfl, _⟩ := by simpa using hdelete'
      exact hdeleted.linked.chainsWellFormed_iff.mpr (hdeleted.heads hheads)
  | find key =>
    unfold exec at hexec
    obtain ⟨value, _, hret⟩ := bind_eq_ok_iff.mp hexec
    obtain ⟨rfl, _⟩ := by simpa using hret
    exact iff_of_true hwell trivial

/-- Only an insert that lacks a prime faults in a way that is unsafe, and such
    an insert is safe for lack of a table to break. -/
theorem stepSafe_of_fault {m : Hashmap V} {op : Op V} {err : Fault} (hwell : ChainsWellFormed m)
    (hexec : exec m op = .error err) : StepSafe m op := by
  cases op with
  | insert key value =>
    obtain ⟨chains, h, _⟩ := chainsWellFormed_iff.mp hwell
    intro _ prime hprime
    cases hinsert : hashmap_insert (chain_fuel m) m key value ⟨true, true⟩ with
    | error err' =>
      rw [(hashmap_insert_fault h hinsert).2] at hprime
      cases hprime
    | ok r =>
      simp only [exec, hinsert, ok_bind] at hexec
      cases hexec
  | delete key => trivial
  | find key => trivial

/-- Along every run from a new map with all allocations succeeding, the chains
    are well formed in every state reached if and only if every insert of the
    run is safe in the state it is made in. Nothing is assumed about keys, about
    the number of entries or about the table growing; a run that faults stops
    there. -/
theorem chains_wellFormed_iff_steps_safe {size : Int} {m : Hashmap V}
    (hcreate : hashmap_create V size true = some m) (ops : List (Op V)) :
    (∀ js, js <+: ops → ∀ m' os, run exec m js = .ok (m', os) → ChainsWellFormed m') ↔
      Guarded exec StepSafe m ops := by
  have hstart : ChainsWellFormed m := by
    refine chainsWellFormed_iff.mpr ⟨_, linked_of_create hcreate, ?_⟩
    intro i a ha
    simp at ha
  exact (guarded_iff_preserved ChainsWellFormed
    (fun s i e hwell hexec => stepSafe_of_fault hwell hexec)
    (fun s i s' o hwell hexec => exec_wellFormed_iff hwell hexec) hstart ops).symm

/-- Two inserts into a new map. -/
theorem chains_wellFormed_iff_steps_safe_two :
    (∀ js, js <+: [Op.insert [1] (some 10), Op.insert [2] (some 20)] → ∀ m' os,
      run exec { size := 0, used := 0, idx := 0, data := [], heap := Heap.empty, freed := [] } js =
        .ok (m', os) → ChainsWellFormed (V := Nat) m') ↔
    Guarded exec StepSafe { size := 0, used := 0, idx := 0, data := [], heap := Heap.empty, freed := [] }
      [Op.insert [1] (some 10), Op.insert [2] (some 20)] :=
  chains_wellFormed_iff_steps_safe (by decide : hashmap_create Nat 0 true = some _) _

/-- Eight inserts that grow the table twice. Keys `[1]` and `[78]` share a bucket
    of 7 and are separated by the growth to 11. -/
def stale_run : List (Op Nat) :=
  [.insert [1] (some 1), .insert [78] (some 78), .insert [2] (some 2), .insert [3] (some 3),
    .insert [4] (some 4), .insert [5] (some 5), .insert [6] (some 6), .insert [7] (some 7)]

/-- After the second growth the entry of `[1]` heads its bucket and still names
    the entry of `[78]` as the one before it. -/
theorem stale_run_heads_unclear :
    ∃ m₀ m os, hashmap_create Nat 0 true = some m₀ ∧ run exec m₀ stale_run = .ok (m, os) ∧
      ¬ChainsWellFormed m := by
  have hend : ∃ m os, run exec
      { size := 0, used := 0, idx := 0, data := [], heap := Heap.empty, freed := [] } stale_run =
        .ok (m, os) ∧ m.size = 11 ∧ m.data[1]? = some (some 0) ∧
        m.heap.view (·.prev) 0 = some (some 1) := by
    refine ⟨_, _, rfl, ?_, ?_, ?_⟩ <;> decide
  obtain ⟨m, os, hrun, hsize, hdata, hprev⟩ := hend
  refine ⟨_, m, os, rfl, hrun, fun hwell => ?_⟩
  obtain ⟨chains, h, hheads⟩ := chainsWellFormed_iff.mp hwell
  rw [h.head_eq (by omega)] at hdata
  have hclear := hheads 1 0 (Option.some.inj hdata)
  rw [hprev] at hclear
  cases hclear

end code_tools.hashmap
