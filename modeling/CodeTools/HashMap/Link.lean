import CodeTools.HashMap.Linked

/-!
# Linking one entry into the table
-/

namespace code_tools.hashmap

open cmem

variable {V : Type}

/-- What relinking entries leaves alone: the table's size and index, and all of
    every entry but its two links. -/
structure Kept (m m' : Hashmap V) : Prop where
  size : m'.size = m.size
  idx : m'.idx = m.idx
  freed : m'.freed = m.freed
  bare : m'.heap.view HashmapEntry.bare = m.heap.view HashmapEntry.bare
  length : m'.heap.cells.length = m.heap.cells.length

theorem Kept.refl (m : Hashmap V) : Kept m m := ⟨rfl, rfl, rfl, rfl, rfl⟩

theorem Kept.trans {m₁ m₂ m₃ : Hashmap V} (h : Kept m₁ m₂) (h' : Kept m₂ m₃) : Kept m₁ m₃ :=
  ⟨h'.size.trans h.size, h'.idx.trans h.idx, h'.freed.trans h.freed, h'.bare.trans h.bare,
    h'.length.trans h.length⟩

theorem bare_eq_iff {e e' : HashmapEntry V} :
    e.bare = e'.bare ↔
      e.key = e'.key ∧ e.key_len = e'.key_len ∧ e.hash_code = e'.hash_code ∧ e.value = e'.value := by
  simp [HashmapEntry.bare]

theorem HashmapEntry.Formed.of_bare {e e' : HashmapEntry V} (h : e.Formed) (heq : e'.bare = e.bare) :
    e'.Formed := by
  obtain ⟨hkey, hlen, hhash, _⟩ := bare_eq_iff.mp heq
  unfold HashmapEntry.Formed
  rw [hkey, hlen, hhash]
  exact h

theorem AllFormed.of_bare_eq {heap heap' : Heap (HashmapEntry V)} (h : AllFormed heap)
    (hbare : heap'.view HashmapEntry.bare = heap.view HashmapEntry.bare) : AllFormed heap' := by
  intro a e' he'
  have hview : heap.view HashmapEntry.bare a = some e'.bare := by
    rw [← hbare, Heap.view, he', Option.map_some]
  obtain ⟨e, he, heq⟩ := Heap.view_eq_some_iff.mp hview
  exact (h a e he).of_bare heq.symm

/-- An entry that was live before is live after, with the same contents. -/
theorem entry_of_bare_eq {heap heap' : Heap (HashmapEntry V)} {a : Nat} {e : HashmapEntry V}
    (hbare : heap'.view HashmapEntry.bare a = heap.view HashmapEntry.bare a)
    (hget : heap.get? a = some e) :
    ∃ e', heap'.get? a = some e' ∧ e'.bare = e.bare := by
  have hview : heap'.view HashmapEntry.bare a = some e.bare := by
    rw [hbare, Heap.view, hget, Option.map_some]
  exact Heap.view_eq_some_iff.mp hview

/-- Lookups test only what relinking keeps. -/
theorem passes_of_bare_eq {heap heap' : Heap (HashmapEntry V)} {a : Nat} (key : List UInt8)
    (hbare : heap'.view HashmapEntry.bare a = heap.view HashmapEntry.bare a) :
    heap'.passes (matches_key key) a = heap.passes (matches_key key) a := by
  have htest : ∀ h : Heap (HashmapEntry V),
      h.passes (matches_key key) a = (h.view HashmapEntry.bare a).any (matches_key key) := by
    intro h
    unfold Heap.passes Heap.view
    cases h.get? a <;> rfl
  rw [htest, htest, hbare]

/-- Push an address on one chain. -/
def push (chains : Nat → List Nat) (i a : Nat) : Nat → List Nat :=
  Function.update chains i (a :: chains i)

theorem push_self (chains : Nat → List Nat) (i a : Nat) : push chains i a i = a :: chains i := by
  simp [push]

theorem push_of_ne (chains : Nat → List Nat) {i j : Nat} (a : Nat) (hne : j ≠ i) :
    push chains i a j = chains j := by
  simp [push, hne]

theorem mem_push_iff {chains : Nat → List Nat} {i j a b : Nat} :
    b ∈ push chains i a j ↔ (j = i ∧ b = a) ∨ b ∈ chains j := by
  by_cases hj : j = i
  · subst j
    simp [push_self]
  · simp [push_of_ne chains a hj, hj]

/-- Pushing only lengthens the tails. -/
theorem mem_tail_push {chains : Nat → List Nat} {i j a b : Nat} (hb : b ∈ (chains j).tail) :
    b ∈ (push chains i a j).tail := by
  by_cases hj : j = i
  · subst j
    rw [push_self]
    exact List.mem_of_mem_tail hb
  · rwa [push_of_ne chains a hj]

/-- The two pointer writes of `hashmap_link`: the entry's `next` and the `prev`
    of the entry that was first. The entry's own `prev` is not among them. -/
private theorem link_writes {heap : Heap (HashmapEntry V)} {a : Nat} {e : HashmapEntry V}
    {as : List Nat} (hget : heap.get? a = some e) (hlive : ∀ b ∈ as, ∃ x, heap.get? b = some x)
    (hne : a ∉ as) :
    ∃ heap' : Heap (HashmapEntry V),
      (do
        let heap ← heap.modify (some a) fun e => { e with next := as.head? }
        heap.modifyNonNull as.head? fun e => { e with prev := some a }) = .ok heap' ∧
      heap'.view HashmapEntry.bare = heap.view HashmapEntry.bare ∧
      heap'.cells.length = heap.cells.length ∧
      heap'.view (·.next) a = some as.head? ∧
      (∀ b, b ≠ a → heap'.view (·.next) b = heap.view (·.next) b) ∧
      (∀ b, as.head? = some b → heap'.view (·.prev) b = some (some a)) ∧
      (∀ b, as.head? ≠ some b → heap'.view (·.prev) b = heap.view (·.prev) b) := by
  rw [Heap.modify_some _ hget, ok_bind]
  cases as with
  | nil =>
    refine ⟨_, rfl, Heap.view_put_of_eq hget rfl, by simp, Heap.view_put_self hget, ?_, by simp, ?_⟩
    · intro b hb
      exact Heap.view_put_of_ne heap _ hb
    · intro b _
      rw [Heap.view_put_of_eq hget]
      rfl
  | cons b as =>
    obtain ⟨x, hx⟩ := hlive b (by simp)
    have hba : b ≠ a := by
      rintro rfl
      exact hne (by simp)
    have hx' : (heap.put a { e with next := (b :: as).head? }).get? b = some x := by
      rw [Heap.get?_put_of_ne heap _ hba, hx]
    refine ⟨_, Heap.modifyNonNull_some _ hx', ?_, by simp, ?_, ?_, ?_, ?_⟩
    · rw [Heap.view_put_of_eq hx', Heap.view_put_of_eq hget] <;> rfl
    · rw [Heap.view_put_of_eq hx', Heap.view_put_self hget]
      rfl
    · intro c hc
      rw [Heap.view_put_of_eq hx', Heap.view_put_of_ne heap _ hc]
      rfl
    · intro c hc
      obtain rfl : b = c := by simpa using hc
      exact Heap.view_put_self hx'
    · intro c hc
      have hcb : c ≠ b := by
        rintro rfl
        exact hc rfl
      rw [Heap.view_put_of_ne _ _ hcb, Heap.view_put_of_eq hget]
      rfl

/-- `hashmap_link` pushes a live entry on the chain of its bucket. Every entry
    that ends up first in its chain, the new one included, keeps the `prev` it
    had. -/
theorem hashmap_link_spec {m : Hashmap V} {chains : Nat → List Nat} (h : Linked m chains)
    (hsize : 0 < m.size) {a : Nat} {e : HashmapEntry V} (hget : m.heap.get? a = some e)
    (hnew : ∀ i, a ∉ chains i) :
    ∃ m', hashmap_link m a = .ok m' ∧ Linked m' (push chains (slot m.size e.key) a) ∧ Kept m m' ∧
      m'.used = (m.used + 1) % 2 ^ 16 ∧
      (∀ b, b ≠ a → m'.heap.view (·.next) b = m.heap.view (·.next) b) ∧
      (∀ b, (∀ i, b ∉ (push chains (slot m.size e.key) a i).tail) →
        m'.heap.view (·.prev) b = m.heap.view (·.prev) b) := by
  have hi := slot_lt hsize e.key
  generalize hslot : slot m.size e.key = i at hi ⊢
  have hlive : ∀ b ∈ chains i, ∃ x, m.heap.get? b = some x := by
    intro b hb
    obtain ⟨x, hx, _⟩ := h.placed i b hb
    exact ⟨x, hx⟩
  obtain ⟨heap', hwrites, hbare, hlen, hnext, hnexts, hprev, hprevs⟩ :=
    link_writes hget hlive (hnew i)
  refine ⟨{ m with heap := heap', data := m.data.set i (some a), used := (m.used + 1) % 2 ^ 16 },
    ?_, ?_, ⟨rfl, rfl, rfl, hbare, hlen⟩, rfl, hnexts, ?_⟩
  · unfold hashmap_link
    rw [Heap.deref_some hget, ok_bind, hashcode_index_eq hsize, hslot, ok_bind, h.bucket_at_eq hi, ok_bind]
    rw [bind_eq_ok_iff] at hwrites
    obtain ⟨heap₁, hfirst, hsecond⟩ := hwrites
    rw [hfirst, ok_bind, hsecond]
    rfl
  · refine ⟨by simpa using h.length_data, ?_, ?_, ?_, ?_⟩
    · intro j hj
      by_cases hji : j = i
      · subst j
        refine ⟨some a, by simp [h.length_data, hi], ?_⟩
        rw [push_self]
        exact (h.chain_head hi).push (fun b hb => hnexts b fun heq => hnew i (heq ▸ hb)) hnext
      · obtain ⟨p, hp, hchain⟩ := h.chain j hj
        refine ⟨p, by simpa [Ne.symm hji] using hp, ?_⟩
        rw [push_of_ne chains a hji]
        exact hchain.congr fun b hb => hnexts b fun heq => hnew j (heq ▸ hb)
    · intro j hj
      have hji : j ≠ i := by
        rintro rfl
        exact absurd hi (Nat.not_lt.mpr hj)
      rw [push_of_ne chains a hji]
      exact h.outside j hj
    · intro j b hb
      have hkeep : ∀ x, m.heap.get? b = some x → slot m.size x.key = j →
          ∃ e', heap'.get? b = some e' ∧ slot m.size e'.key = j := by
        intro x hx hxslot
        obtain ⟨e', he', heq⟩ := entry_of_bare_eq (congrFun hbare b) hx
        refine ⟨e', he', ?_⟩
        rw [(bare_eq_iff.mp heq).1]
        exact hxslot
      rcases mem_push_iff.mp hb with ⟨rfl, rfl⟩ | hmem
      · exact hkeep e hget hslot
      · obtain ⟨x, hx, hxslot⟩ := h.placed j b hmem
        exact hkeep x hx hxslot
    · intro j
      by_cases hji : j = i
      · rw [hji, push_self]
        refine backLinked_iff.mpr ⟨hprev, (h.tails i).congr fun b hb => hprevs b fun hhead => ?_⟩
        cases hc : chains i with
        | nil => simp [hc] at hb
        | cons c cs =>
          have hnodup := h.nodup i
          rw [hc] at hnodup hb hhead
          obtain rfl : c = b := by simpa using hhead
          exact (List.nodup_cons.mp hnodup).1 hb
      · rw [push_of_ne chains a hji]
        refine (h.tails j).congr fun b hb => hprevs b fun hhead => hji ?_
        exact h.disjoint (List.mem_of_mem_tail hb) (List.mem_of_mem_head? hhead)
  · intro b hb
    apply hprevs b
    intro hhead
    apply hb i
    rw [push_self]
    exact List.mem_of_mem_head? hhead

end code_tools.hashmap
