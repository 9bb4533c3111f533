import Mathlib.Data.List.Nodup
import CodeTools.HashMap.Grow

/-!
# Deleting an entry

`hashmap_delete` trusts `prev` to tell whether the entry heads its bucket. The
results below need that only of an entry that does head its bucket: inside a
chain `Linked` already fixes `prev`.
-/

namespace code_tools.hashmap

open cmem

variable {V : Type}

/-- If the entry that a deletion of the key unlinks is the first of its chain,
    it has no predecessor. -/
def DeleteSafe (m : Hashmap V) (key : List UInt8) : Prop :=
  ∀ a, m.data[slot m.size key]? = some (some a) → m.heap.passes (matches_key key) a = true →
    m.heap.view (·.prev) a = some none

instance (m : Hashmap V) (key : List UInt8) : Decidable (DeleteSafe m key) :=
  match hdata : m.data[slot m.size key]? with
  | none => isTrue fun a ha => by rw [hdata] at ha; cases ha
  | some none => isTrue fun a ha => by rw [hdata] at ha; cases ha
  | some (some b) =>
    decidable_of_iff
      (m.heap.passes (matches_key key) b = true → m.heap.view (·.prev) b = some none) (by
        constructor
        · intro h a ha
          rw [hdata] at ha
          cases ha
          exact h
        · intro h
          exact h b hdata)

/-- The four accesses of `hashmap_delete` to the entry and its neighbours: the
    next entry takes over its `prev` and the previous one its `next`. -/
private theorem unlink_writes {heap : Heap (HashmapEntry V)} {a : Nat} {e : HashmapEntry V}
    (hget : heap.get? a = some e) (hnext : ∀ c, e.next = some c → c ≠ a ∧ ∃ x, heap.get? c = some x)
    (hprev : ∀ b, e.prev = some b → b ≠ a ∧ ∃ x, heap.get? b = some x) :
    ∃ heap₁ heap₂ : Heap (HashmapEntry V),
      heap.modifyNonNull e.next (fun n => { n with prev := e.prev }) = .ok heap₁ ∧
      heap₁.get? a = some e ∧
      heap₁.modifyNonNull e.prev (fun p => { p with next := e.next }) = .ok heap₂ ∧
      heap₂.get? a = some e ∧
      heap₂.view HashmapEntry.bare = heap.view HashmapEntry.bare ∧
      heap₂.cells.length = heap.cells.length ∧
      (∀ b, e.prev = some b → heap₂.view (·.next) b = some e.next) ∧
      (∀ x, e.prev ≠ some x → heap₂.view (·.next) x = heap.view (·.next) x) ∧
      (∀ c, e.next = some c → heap₂.view (·.prev) c = some e.prev) ∧
      (∀ x, e.next ≠ some x → heap₂.view (·.prev) x = heap.view (·.prev) x) := by
  obtain ⟨heap₁, hwrite₁, hlen₁, hsame₁, hother₁⟩ :=
    Heap.modifyNonNull_spec (fun n => { n with prev := e.prev }) fun c hc => (hnext c hc).2
  have hget₁ : heap₁.get? a = some e := by
    rw [hother₁ a fun heq => (hnext a heq).1 rfl, hget]
  have hlive₁ : ∀ b, e.prev = some b → ∃ x, heap₁.get? b = some x := by
    intro b hb
    obtain ⟨x, hx⟩ := (hprev b hb).2
    by_cases hn : e.next = some b
    · exact ⟨_, (hsame₁ b hn).trans (by rw [hx, Option.map_some])⟩
    · exact ⟨x, (hother₁ b hn).trans hx⟩
  obtain ⟨heap₂, hwrite₂, hlen₂, hsame₂, hother₂⟩ :=
    Heap.modifyNonNull_spec (fun p => { p with next := e.next }) hlive₁
  have hget₂ : heap₂.get? a = some e := by
    rw [hother₂ a fun heq => (hprev a heq).1 rfl, hget₁]
  -- each write is seen by one field only
  have hview₁ : ∀ {β : Type} (f : HashmapEntry V → β),
      (∀ n : HashmapEntry V, f { n with prev := e.prev } = f n) → heap₁.view f = heap.view f := by
    intro β f hf
    funext x
    unfold Heap.view
    by_cases hx : e.next = some x
    · rw [hsame₁ x hx, Option.map_map]
      exact congrFun (congrArg Option.map (funext hf)) _
    · rw [hother₁ x hx]
  have hview₂ : ∀ {β : Type} (f : HashmapEntry V → β),
      (∀ n : HashmapEntry V, f { n with next := e.next } = f n) → heap₂.view f = heap₁.view f := by
    intro β f hf
    funext x
    unfold Heap.view
    by_cases hx : e.prev = some x
    · rw [hsame₂ x hx, Option.map_map]
      exact congrFun (congrArg Option.map (funext hf)) _
    · rw [hother₂ x hx]
  refine ⟨heap₁, heap₂, hwrite₁, hget₁, hwrite₂, hget₂, ?_, hlen₂.trans hlen₁, ?_, ?_, ?_, ?_⟩
  · exact (hview₂ _ fun _ => rfl).trans (hview₁ _ fun _ => rfl)
  · intro b hb
    obtain ⟨x, hx⟩ := hlive₁ b hb
    simp [Heap.view, hsame₂ b hb, hx]
  · intro x hx
    have hkeep := congrFun (hview₁ (·.next) fun _ => rfl) x
    rw [← hkeep]
    unfold Heap.view
    rw [hother₂ x hx]
  · intro c hc
    obtain ⟨x, hx⟩ := (hnext c hc).2
    rw [congrFun (hview₂ (·.prev) fun _ => rfl) c]
    simp [Heap.view, hsame₁ c hc, hx]
  · intro x hx
    rw [congrFun (hview₂ (·.prev) fun _ => rfl) x]
    unfold Heap.view
    rw [hother₁ x hx]

/-- Remove an address from one chain. -/
def unlink (chains : Nat → List Nat) (i a : Nat) : Nat → List Nat :=
  Function.update chains i ((chains i).erase a)

theorem unlink_self (chains : Nat → List Nat) (i a : Nat) :
    unlink chains i a i = (chains i).erase a := by
  simp [unlink]

theorem unlink_of_ne (chains : Nat → List Nat) {i j : Nat} (a : Nat) (hne : j ≠ i) :
    unlink chains i a j = chains j := by
  simp [unlink, hne]

/-- Shortening one chain by an entry takes that entry out of the table. -/
theorem visited_unlink {size i a : Nat} {chains : Nat → List Nat} (hi : i < size) (ha : a ∈ chains i) :
    (visited size chains).Perm (a :: visited size (unlink chains i a)) := by
  have hback : chains = Function.update (unlink chains i a) i (chains i) := by
    simp [unlink]
  conv_lhs => rw [hback]
  apply visited_update hi
  rw [unlink_self]
  exact List.perm_cons_erase ha

/-- What a successful deletion of the entry at `a` does to the table. -/
structure Deleted (m m' : Hashmap V) (chains : Nat → List Nat) (i a : Nat) : Prop where
  linked : Linked m' (unlink chains i a)
  size : m'.size = m.size
  idx : m'.idx = m.idx
  used : m'.used = (m.used + 2 ^ 16 - 1) % 2 ^ 16
  length : m'.heap.cells.length = m.heap.cells.length
  freed : m'.freed = m.freed ++ ((m.heap.view (·.value) a).join).toList
  gone : m'.heap.get? a = none
  bare : ∀ b, b ≠ a → m'.heap.view HashmapEntry.bare b = m.heap.view HashmapEntry.bare b
  heads : HeadsClear m chains → HeadsClear m' (unlink chains i a)

theorem Deleted.allFormed {m m' : Hashmap V} {chains : Nat → List Nat} {i a : Nat}
    (h : Deleted m m' chains i a) (hformed : AllFormed m.heap) : AllFormed m'.heap := by
  intro b e he
  have hb : b ≠ a := by
    rintro rfl
    rw [h.gone] at he
    cases he
  have hview : m.heap.view HashmapEntry.bare b = some e.bare := by
    rw [← h.bare b hb, Heap.view, he, Option.map_some]
  obtain ⟨x, hx, heq⟩ := Heap.view_eq_some_iff.mp hview
  exact (hformed b x hx).of_bare heq.symm

/-- The entry at `a` lies between `pre` and `post` in its chain, and its pointers
    name its neighbours. -/
private structure Between (m : Hashmap V) (chains : Nat → List Nat) (i a : Nat) (e : HashmapEntry V)
    (pre post : List Nat) : Prop where
  linked : Linked m chains
  split : chains i = pre ++ a :: post
  live : m.heap.get? a = some e
  prev : e.prev = pre.getLast?
  next : e.next = post.head?

/-- The neighbours of the entry at `a` are linked to each other, and nothing else
    has changed in any other entry. -/
private structure Joined (old new : Heap (HashmapEntry V)) (a : Nat) (e : HashmapEntry V) : Prop where
  bare : ∀ x, x ≠ a → new.view HashmapEntry.bare x = old.view HashmapEntry.bare x
  nexts : ∀ b, e.prev = some b → new.view (·.next) b = some e.next
  next_other : ∀ x, x ≠ a → e.prev ≠ some x → new.view (·.next) x = old.view (·.next) x
  prevs : ∀ c, e.next = some c → new.view (·.prev) c = some e.prev
  prev_other : ∀ x, x ≠ a → e.next ≠ some x → new.view (·.prev) x = old.view (·.prev) x

/-- The entries of a chain are between the others, the first only when it has no
    predecessor. -/
private theorem between_of_split {m : Hashmap V} {chains : Nat → List Nat} (h : Linked m chains)
    {i a : Nat} {e : HashmapEntry V} {pre post : List Nat} (hsplit : chains i = pre ++ a :: post)
    (hget : m.heap.get? a = some e) (hsafe : pre = [] → e.prev = none) :
    Between m chains i a e pre post := by
  have hi : i < m.size := h.lt_size (a := a) (by simp [hsplit])
  refine ⟨h, hsplit, hget, ?_, ?_⟩
  · obtain rfl | ⟨pre', b, rfl⟩ := List.eq_nil_or_concat pre
    · simpa using hsafe rfl
    · have htails := h.tails i
      rw [hsplit, List.concat_eq_append, List.append_assoc, List.singleton_append] at htails
      have hprev := htails.inner
      simp only [Heap.view, hget, Option.map_some, Option.some.injEq] at hprev
      simp [hprev]
  · have hchain := h.chain_head hi
    rw [hsplit] at hchain
    obtain ⟨_, q, hq, htail⟩ := hchain.drop
    simp only [Heap.view, hget, Option.map_some, Option.some.injEq] at hq
    rw [hq]
    exact htail.head_eq

section Unlink

variable {m : Hashmap V} {chains : Nat → List Nat} {i a : Nat} {e : HashmapEntry V} {pre post : List Nat}

private theorem Between.mem (h : Between m chains i a e pre post) : a ∈ chains i := by
  rw [h.split]
  exact List.mem_append_right pre List.mem_cons_self

private theorem Between.nodup (h : Between m chains i a e pre post) : (a :: (pre ++ post)).Nodup := by
  have hnodup := h.linked.nodup i
  rw [h.split] at hnodup
  exact List.nodup_middle.mp hnodup

private theorem Between.ne (h : Between m chains i a e pre post) {x : Nat} (hx : x ∈ pre ++ post) :
    x ≠ a := by
  rintro rfl
  exact (List.nodup_cons.mp h.nodup).1 hx

private theorem Between.unlink_eq (h : Between m chains i a e pre post) :
    unlink chains i a i = pre ++ post := by
  have hnot : a ∉ pre := fun hmem => h.ne (List.mem_append_left post hmem) rfl
  rw [unlink_self, h.split, List.erase_append_right _ hnot, List.erase_cons_head]

private theorem Between.mem_of_prev (h : Between m chains i a e pre post) {b : Nat}
    (hb : e.prev = some b) : b ∈ pre ++ post := by
  rw [h.prev] at hb
  exact List.mem_append_left post (List.mem_of_getLast? hb)

private theorem Between.mem_of_next (h : Between m chains i a e pre post) {c : Nat}
    (hc : e.next = some c) : c ∈ pre ++ post := by
  rw [h.next] at hc
  exact List.mem_append_right pre (List.mem_of_mem_head? hc)

private theorem Between.mem_chain (h : Between m chains i a e pre post) {x : Nat} (hx : x ∈ pre ++ post) :
    x ∈ chains i := by
  rw [h.split]
  obtain hmem | hmem := List.mem_append.mp hx
  · exact List.mem_append_left _ hmem
  · exact List.mem_append_right _ (List.mem_cons_of_mem a hmem)

/-- The entries of the other chains are neither the entry nor its neighbours. -/
private theorem Between.elsewhere (h : Between m chains i a e pre post) {j : Nat} (hj : j ≠ i) {x : Nat}
    (hx : x ∈ chains j) : x ≠ a ∧ e.prev ≠ some x ∧ e.next ≠ some x := by
  have hnot : x ∉ chains i := fun hmem => hj (h.linked.disjoint hx hmem)
  refine ⟨?_, fun hb => ?_, fun hc => ?_⟩
  · rintro rfl
    exact hnot h.mem
  · exact hnot (h.mem_chain (h.mem_of_prev hb))
  · exact hnot (h.mem_chain (h.mem_of_next hc))

/-- What a chain of the shortened table meets is still there with its key. -/
private theorem Between.mem_of_unlink (h : Between m chains i a e pre post) {j x : Nat}
    (hx : x ∈ unlink chains i a j) : x ∈ chains j ∧ x ≠ a := by
  by_cases hji : j = i
  · rw [hji, h.unlink_eq] at hx
    rw [hji]
    exact ⟨h.mem_chain hx, h.ne hx⟩
  · rw [unlink_of_ne chains a hji] at hx
    exact ⟨hx, (h.elsewhere hji hx).1⟩

variable {heap : Heap (HashmapEntry V)}

private theorem Between.chain (h : Between m chains i a e pre post) (hjoin : Joined m.heap heap a e) :
    Chain (heap.view (·.next)) (pre ++ post) (if pre = [] then e.next else (chains i).head?) := by
  have hold := h.linked.chain_head (h.linked.lt_size h.mem)
  have hlink : m.heap.view (·.next) a = some e.next := by rw [Heap.view, h.live, Option.map_some]
  rw [h.split] at hold ⊢
  refine hold.unlink hlink (fun b hb => hjoin.nexts b (h.prev.trans hb)) fun x hx hne => ?_
  exact hjoin.next_other x (h.ne hx) (by rwa [h.prev])

private theorem Between.tails (h : Between m chains i a e pre post) (hjoin : Joined m.heap heap a e) :
    TailLinked (heap.view (·.prev)) (pre ++ post) := by
  have hold := h.linked.tails i
  rw [h.split] at hold
  refine hold.unlink (List.nodup_cons.mp h.nodup).2 (fun b c hb hc => ?_) fun x hx hne => ?_
  · rw [hjoin.prevs c (h.next.trans hc), h.prev, hb]
  · exact hjoin.prev_other x (h.ne hx) (by rwa [h.next])

/-- The bucket is written only when the entry was first. -/
private theorem Between.bucket (h : Between m chains i a e pre post) :
    (if e.prev.isSome then m.data else m.data.set i e.next)[i]? =
      some (if pre = [] then e.next else (chains i).head?) := by
  have hi := h.linked.lt_size h.mem
  rw [h.prev]
  obtain rfl | ⟨pre', b, rfl⟩ := List.eq_nil_or_concat pre
  · simp [h.linked.length_data, hi]
  · rw [if_pos (by simp), if_neg (by simp)]
    exact h.linked.head_eq hi

/-- Unlinking an entry takes it out of its chain. -/
private theorem Between.unlinked (h : Between m chains i a e pre post) (hjoin : Joined m.heap heap a e)
    (used : Nat) (freed : List V) :
    Linked { m with
      heap, data := if e.prev.isSome then m.data else m.data.set i e.next, used, freed }
        (unlink chains i a) := by
  have hi := h.linked.lt_size h.mem
  refine ⟨?_, fun j hj => ?_, fun j hj => ?_, fun j x hx => ?_, fun j => ?_⟩
  · dsimp only
    split <;> simp [h.linked.length_data]
  · by_cases hji : j = i
    · rw [hji, h.unlink_eq]
      exact ⟨_, h.bucket, h.chain hjoin⟩
    · obtain ⟨p, hp, hchain⟩ := h.linked.chain j hj
      rw [unlink_of_ne chains a hji]
      refine ⟨p, ?_, hchain.congr fun x hx => ?_⟩
      · dsimp only
        split
        · exact hp
        · rw [List.getElem?_set_ne (Ne.symm hji), hp]
      · obtain ⟨hxa, hxprev, _⟩ := h.elsewhere hji hx
        exact hjoin.next_other x hxa hxprev
  · have hji : j ≠ i := by
      rintro rfl
      exact absurd hi (Nat.not_lt.mpr hj)
    rw [unlink_of_ne chains a hji]
    exact h.linked.outside j hj
  · obtain ⟨hold, hxa⟩ := h.mem_of_unlink hx
    obtain ⟨y, hy, hslot⟩ := h.linked.placed j x hold
    obtain ⟨y', hy', heq⟩ := entry_of_bare_eq (hjoin.bare x hxa) hy
    refine ⟨y', hy', ?_⟩
    rw [(bare_eq_iff.mp heq).1]
    exact hslot
  · by_cases hji : j = i
    · rw [hji, h.unlink_eq]
      exact h.tails hjoin
    · rw [unlink_of_ne chains a hji]
      refine (h.linked.tails j).congr fun x hx => ?_
      obtain ⟨hxa, _, hxnext⟩ := h.elsewhere hji (List.mem_of_mem_tail hx)
      exact hjoin.prev_other x hxa hxnext

/-- The entry that heads the chain afterwards has no predecessor: it was the first
    before, or it took over the `prev` of the first. -/
private theorem Between.headsClear (h : Between m chains i a e pre post)
    (hjoin : Joined m.heap heap a e) (hheads : HeadsClear m chains) :
    ∀ j x, (unlink chains i a j).head? = some x → heap.view (·.prev) x = some none := by
  intro j x hx
  by_cases hji : j = i
  · rw [hji, h.unlink_eq] at hx
    cases hp : pre with
    | nil =>
      rw [hp, List.nil_append] at hx
      rw [hjoin.prevs x (h.next.trans hx), h.prev, hp]
      rfl
    | cons b bs =>
      have hmem : x ∈ pre ++ post := List.mem_of_mem_head? hx
      have hnodup := (List.nodup_cons.mp h.nodup).2
      rw [hp, List.cons_append, List.head?_cons] at hx
      obtain rfl := Option.some.inj hx
      rw [← hheads i b (by rw [h.split, hp]; rfl)]
      refine hjoin.prev_other b (h.ne hmem) fun hnext => ?_
      rw [h.next] at hnext
      refine (List.nodup_append.mp hnodup).2.2 b ?_ b (List.mem_of_mem_head? hnext) rfl
      rw [hp]
      exact List.mem_cons_self
  · rw [unlink_of_ne chains a hji] at hx
    obtain ⟨hxa, _, hxnext⟩ := h.elsewhere hji (List.mem_of_mem_head? hx)
    rw [← hheads j x hx]
    exact hjoin.prev_other x hxa hxnext

end Unlink

/-- A new map, which has no buckets, is not searched. -/
theorem hashmap_delete_size_pos {m m' : Hashmap V} {fuel : Nat} {key : List UInt8} {rc : Int}
    (hdelete : hashmap_delete fuel m key = .ok (m', rc)) : 0 < m.size := by
  by_contra hzero
  unfold hashmap_delete hashcode_index at hdelete
  rw [if_pos (by omega)] at hdelete
  cases hdelete

/-- A key without an entry is reported and nothing changes. -/
theorem hashmap_delete_absent {m : Hashmap V} {chains : Nat → List Nat} (h : Linked m chains)
    (hsize : 0 < m.size) {fuel : Nat} (key : List UInt8)
    (hfuel : (chains (slot m.size key)).length ≤ fuel)
    (hfind : (chains (slot m.size key)).find? (m.heap.passes (matches_key key)) = none) :
    hashmap_delete fuel m key = .ok (m, 1) := by
  have hi := slot_lt hsize key
  unfold hashmap_delete
  rw [hashcode_index_eq hsize, ok_bind, h.bucket_at_eq hi, ok_bind, h.search_eq hi hfuel, hfind, ok_bind]

/-- Deleting a safe entry unlinks the first entry with the key and frees it. -/
theorem hashmap_delete_found {m : Hashmap V} {chains : Nat → List Nat} (h : Linked m chains)
    (hsize : 0 < m.size) {fuel a : Nat} {key : List UInt8}
    (hfuel : (chains (slot m.size key)).length ≤ fuel)
    (hfind : (chains (slot m.size key)).find? (m.heap.passes (matches_key key)) = some a)
    (hsafe : DeleteSafe m key) :
    ∃ m', hashmap_delete fuel m key = .ok (m', 0) ∧ Deleted m m' chains (slot m.size key) a := by
  have hi := slot_lt hsize key
  generalize hslot : slot m.size key = i at hi hfuel hfind ⊢
  obtain ⟨hpass, pre, post, hsplit, _⟩ := List.find?_eq_some_iff_append.mp hfind
  obtain ⟨e, he, _⟩ := h.placed i a (by simp [hsplit])
  have hhead : pre = [] → e.prev = none := by
    rintro rfl
    have hdata : m.data[slot m.size key]? = some (some a) := by
      rw [hslot, h.head_eq hi, hsplit]
      rfl
    have hclear := hsafe a hdata hpass
    simpa [Heap.view, he] using hclear
  have hbetween := between_of_split h hsplit he hhead
  have hlive : ∀ x ∈ pre ++ post, x ≠ a ∧ ∃ y, m.heap.get? x = some y := by
    intro x hx
    obtain ⟨y, hy, _⟩ := h.placed i x (hbetween.mem_chain hx)
    exact ⟨hbetween.ne hx, y, hy⟩
  have hnextOk := fun c hc => hlive c (hbetween.mem_of_next hc)
  have hprevOk := fun b hb => hlive b (hbetween.mem_of_prev hb)
  obtain ⟨heap₁, heap₂, hwrite₁, hget₁, hwrite₂, hget₂, hbare, hlen, hnexts, hnexto, hprevs, hprevo⟩ :=
    unlink_writes he hnextOk hprevOk
  have hview : ∀ {β : Type} (f : HashmapEntry V → β) (x : Nat), x ≠ a →
      (heap₂.erase a).view f x = heap₂.view f x := fun f x hx => Heap.view_erase_of_ne heap₂ hx
  have hjoin : Joined m.heap (heap₂.erase a) a e := {
    bare := fun x hx => by rw [hview _ x hx, hbare]
    nexts := fun b hb => by rw [hview _ b (hprevOk b hb).1, hnexts b hb]
    next_other := fun x hx hb => by rw [hview _ x hx, hnexto x hb]
    prevs := fun c hc => by rw [hview _ c (hnextOk c hc).1, hprevs c hc]
    prev_other := fun x hx hc => by rw [hview _ x hx, hprevo x hc] }
  have hunlinked := hbetween.unlinked hjoin ((m.used + 2 ^ 16 - 1) % 2 ^ 16) (m.freed ++ e.value.toList)
  refine ⟨_, ?_, hunlinked, rfl, rfl, rfl, ?_, ?_, Heap.get?_erase_self heap₂ a, hjoin.bare,
    hbetween.headsClear hjoin⟩
  · unfold hashmap_delete
    rw [hashcode_index_eq hsize, ok_bind, hslot, h.bucket_at_eq hi, ok_bind, h.search_eq hi hfuel, hfind,
      ok_bind]
    simp only [Heap.deref_some he, hwrite₁, Heap.deref_some hget₁, hwrite₂, Heap.deref_some hget₂,
      Heap.free_some hget₂, ok_bind]
  · simpa using hlen
  · simp [Heap.view, he]

end code_tools.hashmap
