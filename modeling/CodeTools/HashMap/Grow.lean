import Mathlib.Data.List.Nodup
import Mathlib.Data.List.Forall2
import Mathlib.Data.List.Perm.Subperm
import CodeTools.HashMap.Link

/-!
# Growing the table

Growth visits the old buckets in order and each chain from its first entry on,
and pushes what it visits on the new chains. A new chain is therefore the
visiting order, restricted to its bucket and reversed.
-/

namespace code_tools.hashmap

open cmem

variable {V : Type}

/-- The bucket of the entry at an address in a table of the given size. -/
def place (heap : Heap (HashmapEntry V)) (size a : Nat) : Nat :=
  ((heap.view HashmapEntry.bare a).map fun e => slot size e.key).getD 0

theorem place_eq {heap : Heap (HashmapEntry V)} {a : Nat} {e : HashmapEntry V}
    (hget : heap.get? a = some e) (size : Nat) : place heap size a = slot size e.key := by
  simp [place, Heap.view, hget, HashmapEntry.bare]

theorem place_of_bare_eq {heap heap' : Heap (HashmapEntry V)}
    (hbare : heap'.view HashmapEntry.bare = heap.view HashmapEntry.bare) (size : Nat) :
    place heap' size = place heap size := by
  funext a
  simp [place, hbare]

/-- Push the addresses of a list, in order, on the chains they belong to. -/
def pushAll (f : Nat → Nat) (chains : Nat → List Nat) (as : List Nat) : Nat → List Nat :=
  as.foldl (fun cs a => push cs (f a) a) chains

theorem pushAll_cons (f : Nat → Nat) (chains : Nat → List Nat) (a : Nat) (as : List Nat) :
    pushAll f chains (a :: as) = pushAll f (push chains (f a) a) as := rfl

theorem pushAll_append (f : Nat → Nat) (chains : Nat → List Nat) (as bs : List Nat) :
    pushAll f chains (as ++ bs) = pushAll f (pushAll f chains as) bs := by
  simp [pushAll, List.foldl_append]

theorem pushAll_eq (f : Nat → Nat) (chains : Nat → List Nat) (as : List Nat) (i : Nat) :
    pushAll f chains as i = (as.filter (f · = i)).reverse ++ chains i := by
  induction as generalizing chains with
  | nil => rfl
  | cons a as ih =>
    rw [pushAll_cons, ih]
    by_cases hi : f a = i
    · subst hi
      simp [push_self]
    · rw [push_of_ne chains a (Ne.symm hi)]
      simp [hi]

theorem mem_pushAll_iff {f : Nat → Nat} {chains : Nat → List Nat} {as : List Nat} {i b : Nat} :
    b ∈ pushAll f chains as i ↔ (b ∈ as ∧ f b = i) ∨ b ∈ chains i := by
  rw [pushAll_eq]
  simp

theorem mem_tail_pushAll {f : Nat → Nat} {chains : Nat → List Nat} (as : List Nat) {i b : Nat}
    (hb : b ∈ (chains i).tail) : b ∈ (pushAll f chains as i).tail := by
  induction as generalizing chains with
  | nil => exact hb
  | cons a as ih => exact ih (mem_tail_push hb)

/-- What relinking a list of entries achieves: they are pushed on the new
    chains, nothing else of theirs changes, and an entry that ends up first in
    its chain still has the `prev` it had before. -/
structure Relinked (m m' : Hashmap V) (chains : Nat → List Nat) (as : List Nat) : Prop where
  linked : Linked m' (pushAll (place m.heap m.size) chains as)
  kept : Kept m m'
  used : m'.used = (m.used + as.length) % 2 ^ 16
  next : ∀ b, b ∉ as → m'.heap.view (·.next) b = m.heap.view (·.next) b
  prev : ∀ b, (∀ i, b ∉ (pushAll (place m.heap m.size) chains as i).tail) →
    m'.heap.view (·.prev) b = m.heap.view (·.prev) b

theorem Relinked.nil {m : Hashmap V} {chains : Nat → List Nat} (h : Linked m chains)
    (hused : m.used < 2 ^ 16) : Relinked m m chains [] :=
  ⟨h, Kept.refl m, (Nat.mod_eq_of_lt hused).symm, fun _ _ => rfl, fun _ _ => rfl⟩

theorem Relinked.trans {m₁ m₂ m₃ : Hashmap V} {chains : Nat → List Nat} {as bs : List Nat}
    (h : Relinked m₁ m₂ chains as)
    (h' : Relinked m₂ m₃ (pushAll (place m₁.heap m₁.size) chains as) bs) :
    Relinked m₁ m₃ chains (as ++ bs) := by
  obtain ⟨hlinked, hkept, hused, hnext, hprev⟩ := h
  obtain ⟨hlinked', hkept', hused', hnext', hprev'⟩ := h'
  rw [hkept.size, place_of_bare_eq hkept.bare, ← pushAll_append] at hlinked' hprev'
  refine ⟨hlinked', hkept.trans hkept', ?_, ?_, ?_⟩
  · rw [hused', hused, List.length_append]
    omega
  · intro b hb
    rw [List.mem_append, not_or] at hb
    exact (hnext' b hb.2).trans (hnext b hb.1)
  · intro b hb
    refine (hprev' b hb).trans (hprev b fun i hmem => hb i ?_)
    rw [pushAll_append]
    exact mem_tail_pushAll bs hmem

/-- Addresses that are not yet in the table stay so while others are pushed. -/
theorem notMem_pushAll {f : Nat → Nat} {chains : Nat → List Nat} {as bs : List Nat}
    (hnew : ∀ b ∈ bs, ∀ i, b ∉ chains i) (hdisj : as.Disjoint bs) :
    ∀ b ∈ bs, ∀ i, b ∉ pushAll f chains as i := by
  intro b hb i hmem
  rcases mem_pushAll_iff.mp hmem with ⟨ha, _⟩ | hold
  · exact hdisj ha hb
  · exact hnew b hb i hold

/-- The inner loop relinks the whole old chain: the links it still has to follow
    belong to entries it has not touched. -/
theorem relink_chain_spec {m : Hashmap V} {chains : Nat → List Nat} {as : List Nat} {p : Ptr}
    {fuel : Nat} (h : Linked m chains) (hsize : 0 < m.size) (hused : m.used < 2 ^ 16)
    (hchain : Chain (m.heap.view (·.next)) as p) (hnew : ∀ a ∈ as, ∀ i, a ∉ chains i)
    (hfuel : as.length ≤ fuel) :
    ∃ m', relink_chain fuel m p = .ok m' ∧ Relinked m m' chains as := by
  induction as generalizing m chains p fuel with
  | nil =>
    obtain rfl := hchain
    refine ⟨m, ?_, Relinked.nil h hused⟩
    cases fuel <;> rfl
  | cons a as ih =>
    have hnodup := hchain.nodup
    obtain ⟨rfl, q, hq, htail⟩ := hchain
    obtain ⟨e, he, rfl⟩ := Heap.view_eq_some_iff.mp hq
    cases fuel with
    | zero => simp at hfuel
    | succ fuel =>
      obtain ⟨m₁, hlink, hlinked, hkept, hused₁, hnext, hprev⟩ :=
        hashmap_link_spec h hsize he (hnew a (by simp))
      have hplace := place_eq he m.size
      rw [← hplace] at hlinked hprev
      have hfirst : Relinked m m₁ chains [a] :=
        ⟨hlinked, hkept, hused₁, fun b hb => hnext b (by simpa using hb), hprev⟩
      have hne : ∀ b ∈ as, b ≠ a := by
        rintro b hb rfl
        exact (List.nodup_cons.mp hnodup).1 hb
      have hnew₁ : ∀ b ∈ as, ∀ i, b ∉ pushAll (place m.heap m.size) chains [a] i := by
        apply notMem_pushAll fun b hb => hnew b (by simp [hb])
        exact List.singleton_disjoint.mpr (List.nodup_cons.mp hnodup).1
      obtain ⟨m', hrest, hrelinked⟩ := ih hlinked (by rw [hkept.size]; exact hsize)
        (by rw [hused₁]; omega) (htail.congr fun b hb => hnext b (hne b hb)) hnew₁
        (by simpa using hfuel)
      refine ⟨m', ?_, hfirst.trans hrelinked⟩
      rw [relink_chain, Heap.deref_some he, ok_bind, hlink, ok_bind]
      exact hrest

/-- The outer loop relinks one old chain after the other. -/
theorem relink_buckets_spec {m : Hashmap V} {chains : Nat → List Nat} {hs : List Ptr}
    {old : List (List Nat)} {fuel : Nat} (h : Linked m chains) (hsize : 0 < m.size)
    (hused : m.used < 2 ^ 16) (hchains : List.Forall₂ (Chain (m.heap.view (·.next))) old hs)
    (hnodup : old.flatten.Nodup) (hnew : ∀ a ∈ old.flatten, ∀ i, a ∉ chains i)
    (hfuel : ∀ as ∈ old, as.length ≤ fuel) :
    ∃ m', relink_buckets fuel hs.length hs m = .ok m' ∧ Relinked m m' chains old.flatten := by
  induction hs generalizing m chains old with
  | nil =>
    cases hchains
    exact ⟨m, rfl, Relinked.nil h hused⟩
  | cons p hs ih =>
    obtain _ | ⟨hchain, hrest⟩ := hchains
    rename_i as old
    rw [List.flatten_cons] at hnodup hnew
    obtain ⟨_, hnodup', hdisj⟩ := List.nodup_append'.mp hnodup
    obtain ⟨m₁, hfirst, hrelinked⟩ := relink_chain_spec h hsize hused hchain
      (fun a ha => hnew a (by simp [ha])) (hfuel as (by simp))
    have hagree : List.Forall₂ (Chain (m₁.heap.view (·.next))) old hs :=
      Chain.congr_all hrest fun b hb => hrelinked.next b fun hba => hdisj hba hb
    obtain ⟨m', hloop, hrelinked'⟩ := ih hrelinked.linked
      (by rw [hrelinked.kept.size]; exact hsize) (by rw [hrelinked.used]; omega) hagree hnodup'
      (notMem_pushAll (fun b hb => hnew b (by simp [hb])) hdisj)
      (fun bs hbs => hfuel bs (by simp [hbs]))
    refine ⟨m', ?_, hrelinked.trans hrelinked'⟩
    rw [List.length_cons, relink_buckets, hfirst, ok_bind]
    exact hloop

/-- The order in which growth visits the entries of a table. -/
def visited (size : Nat) (chains : Nat → List Nat) : List Nat :=
  ((List.range size).map chains).flatten

theorem mem_visited_iff {size : Nat} {chains : Nat → List Nat} {a : Nat} :
    a ∈ visited size chains ↔ ∃ i, i < size ∧ a ∈ chains i := by
  simp [visited]

theorem Linked.mem_visited {m : Hashmap V} {chains : Nat → List Nat} (h : Linked m chains)
    {i a : Nat} (ha : a ∈ chains i) : a ∈ visited m.size chains :=
  mem_visited_iff.mpr ⟨i, h.lt_size ha, ha⟩

theorem Linked.nodup_visited {m : Hashmap V} {chains : Nat → List Nat} (h : Linked m chains) :
    (visited m.size chains).Nodup := by
  unfold visited
  refine List.nodup_flatten.mpr ⟨?_, ?_⟩
  · intro as has
    obtain ⟨i, _, rfl⟩ := List.mem_map.mp has
    exact h.nodup i
  · refine List.Pairwise.map _ ?_ (List.nodup_range)
    intro i j hij a hi hj
    exact hij (h.disjoint hi hj)

theorem visited_succ (size : Nat) (chains : Nat → List Nat) :
    visited (size + 1) chains = visited size chains ++ chains size := by
  simp [visited, List.range_succ]

/-- Lengthening one chain by an entry adds that entry to the table. -/
theorem visited_update {size i a : Nat} {chains : Nat → List Nat} {as : List Nat} (hi : i < size)
    (has : as.Perm (a :: chains i)) :
    (visited size (Function.update chains i as)).Perm (a :: visited size chains) := by
  induction size with
  | zero => omega
  | succ n ih =>
    rw [visited_succ, visited_succ]
    by_cases hin : i = n
    · have hrest : visited n (Function.update chains i as) = visited n chains := by
        unfold visited
        congr 1
        apply List.map_congr_left
        intro j hj
        have hji : j ≠ i := by
          have hlt := List.mem_range.mp hj
          omega
        rw [Function.update_of_ne hji]
      rw [hrest, ← hin, Function.update_self]
      exact (has.append_left _).trans List.perm_middle
    · rw [Function.update_of_ne (Ne.symm hin)]
      exact (ih (by omega)).append_right _

theorem visited_push {size i : Nat} (chains : Nat → List Nat) (a : Nat) (hi : i < size) :
    (visited size (push chains i a)).Perm (a :: visited size chains) :=
  visited_update hi (.refl _)

/-- The chains after growth to a table of the given size. -/
def regrown (heap : Heap (HashmapEntry V)) (size : Nat) (order : List Nat) : Nat → List Nat :=
  pushAll (place heap size) (fun _ => []) order

theorem regrown_eq (heap : Heap (HashmapEntry V)) (size : Nat) (order : List Nat) (i : Nat) :
    regrown heap size order i = (order.filter (place heap size · = i)).reverse := by
  simp [regrown, pushAll_eq]

/-- Growth loses no entry and duplicates none. -/
theorem visited_pushAll {f : Nat → Nat} {size : Nat} (chains : Nat → List Nat) {as : List Nat}
    (hplaced : ∀ a ∈ as, f a < size) :
    (visited size (pushAll f chains as)).Perm (as ++ visited size chains) := by
  induction as generalizing chains with
  | nil => exact .refl _
  | cons a as ih =>
    have hrest := ih (push chains (f a) a) fun b hb => hplaced b (by simp [hb])
    have hfirst := visited_push chains a (hplaced a (by simp))
    exact hrest.trans ((hfirst.append_left as).trans List.perm_middle)

theorem place_lt {size : Nat} (hsize : 0 < size) (heap : Heap (HashmapEntry V)) (a : Nat) :
    place heap size a < size := by
  unfold place
  cases heap.view HashmapEntry.bare a with
  | none => exact hsize
  | some e => exact slot_lt hsize e.key

theorem visited_regrown {size : Nat} (hsize : 0 < size) (heap : Heap (HashmapEntry V))
    (order : List Nat) : (visited size (regrown heap size order)).Perm order := by
  have hperm : (visited size (regrown heap size order)).Perm (order ++ visited size fun _ => []) :=
    visited_pushAll _ fun a _ => place_lt hsize heap a
  have hnone : visited size (fun _ => []) = [] := by simp [visited]
  rwa [hnone, List.append_nil] at hperm

theorem primes_pos {i prime : Nat} (hprime : primes[i]? = some prime) : 0 < prime := by
  have hall : ∀ p ∈ primes, 0 < p := by decide
  exact hall prime (List.mem_of_getElem? hprime)

/-- A fresh bucket array has only empty chains. -/
theorem linked_empty {m : Hashmap V} (hdata : m.data = List.replicate m.size none) :
    Linked m fun _ => [] := by
  refine ⟨by simp [hdata], ?_, fun _ _ => rfl, by simp, fun _ => trivial⟩
  intro i hi
  exact ⟨none, by simp [hdata, hi], rfl⟩

/-- Without a next prime growth reads past the table of primes. -/
theorem hashmap_grow_no_prime {m : Hashmap V} (hnone : primes[(m.idx + 1) % 2 ^ 8]? = none) (fuel : Nat)
    (alloc : Bool) : hashmap_grow fuel m alloc = .error .outOfBounds := by
  simp only [hashmap_grow, hnone, Option.elim_none]
  rfl

/-- The chains in the order of the buckets that head them. -/
theorem forall₂_chains {m : Hashmap V} {chains : Nat → List Nat} (hdata : m.data.length = m.size)
    (hchain : ∀ i, i < m.size → ∃ p, m.data[i]? = some p ∧ Chain (m.heap.view (·.next)) (chains i) p) :
    List.Forall₂ (Chain (m.heap.view (·.next))) ((List.range m.size).map chains) m.data := by
  refine List.forall₂_iff_get.mpr ⟨by simp [hdata], ?_⟩
  intro i hi hi'
  obtain ⟨p, hp, hc⟩ := hchain i (by simpa using hi)
  have heq : m.data.get ⟨i, hi'⟩ = p := by
    rw [List.getElem?_eq_getElem hi'] at hp
    exact Option.some.inj hp
  rw [heq]
  simpa using hc

/-- Growth with enough fuel succeeds whenever the next prime exists and the old
    chains are finite and disjoint; nothing is asked of the old `prev` fields,
    and the entries that end up first keep theirs. -/
theorem hashmap_grow_spec {m : Hashmap V} {chains : Nat → List Nat} {prime fuel : Nat}
    (hprime : primes[(m.idx + 1) % 2 ^ 8]? = some prime) (hdata : m.data.length = m.size)
    (hchain : ∀ i, i < m.size →
      ∃ p, m.data[i]? = some p ∧ Chain (m.heap.view (·.next)) (chains i) p)
    (hnodup : (visited m.size chains).Nodup) (hfuel : ∀ i, i < m.size → (chains i).length ≤ fuel) :
    ∃ m', hashmap_grow fuel m true = .ok (m', 0) ∧
      Linked m' (regrown m.heap prime (visited m.size chains)) ∧
      Kept { m with size := prime, idx := (m.idx + 1) % 2 ^ 8 } m' ∧
      m'.used = (visited m.size chains).length % 2 ^ 16 ∧
      (∀ b, (∀ i, b ∉ (regrown m.heap prime (visited m.size chains) i).tail) →
        m'.heap.view (·.prev) b = m.heap.view (·.prev) b) := by
  have hfresh := linked_empty (m := { m with
    size := prime, used := 0, idx := (m.idx + 1) % 2 ^ 8, data := List.replicate prime none }) rfl
  have hforall := forall₂_chains hdata hchain
  obtain ⟨m', hloop, hrelinked⟩ := relink_buckets_spec hfresh (primes_pos hprime) (by simp)
    hforall hnodup (by simp) (by
      intro as has
      obtain ⟨i, hi, rfl⟩ := List.mem_map.mp has
      exact hfuel i (by simpa using hi))
  refine ⟨m', ?_, hrelinked.linked, ?_, ?_, hrelinked.prev⟩
  · unfold hashmap_grow
    simp only [hprime, Option.elim_some, ok_bind, hashmap_size, if_true]
    rw [if_neg (by decide), ← hdata, hloop, ok_bind]
  · exact ⟨hrelinked.kept.size, hrelinked.kept.idx, hrelinked.kept.freed, hrelinked.kept.bare,
      hrelinked.kept.length⟩
  · have hused := hrelinked.used
    simpa [visited] using hused

/-! ## Any table with separate chains -/

/-- The buckets head finite and acyclic chains, and no entry is in two of them.
    Nothing is said about the `prev` fields or about where keys belong. -/
structure Separate (m : Hashmap V) (chains : Nat → List Nat) : Prop where
  length_data : m.data.length = m.size
  chain : ∀ i, i < m.size → ∃ p, m.data[i]? = some p ∧ Chain (m.heap.view (·.next)) (chains i) p
  nodup : ∀ i, i < m.size → (chains i).Nodup
  disjoint : ∀ i, i < m.size → ∀ j, j < m.size → ∀ a ∈ chains i, a ∈ chains j → i = j

theorem Linked.separate {m : Hashmap V} {chains : Nat → List Nat} (h : Linked m chains) : Separate m chains :=
  ⟨h.length_data, h.chain, fun i _ => h.nodup i, fun _ _ _ _ _ hi hj => h.disjoint hi hj⟩

theorem Separate.nodup_visited {m : Hashmap V} {chains : Nat → List Nat} (h : Separate m chains) :
    (visited m.size chains).Nodup := by
  unfold visited
  refine List.nodup_flatten.mpr ⟨?_, ?_⟩
  · intro as has
    obtain ⟨i, hi, rfl⟩ := List.mem_map.mp has
    exact h.nodup i (List.mem_range.mp hi)
  · refine List.pairwise_map.mpr (List.nodup_range.imp_of_mem ?_)
    intro i j hi hj hij a hai haj
    exact hij (h.disjoint i (List.mem_range.mp hi) j (List.mem_range.mp hj) a hai haj)

/-- An address in a chain is live. -/
theorem Separate.live {m : Hashmap V} {chains : Nat → List Nat} (h : Separate m chains) {i a : Nat}
    (hi : i < m.size) (ha : a ∈ chains i) : ∃ e, m.heap.get? a = some e := by
  obtain ⟨p, _, hchain⟩ := h.chain i hi
  obtain ⟨pre, post, hsplit⟩ := List.append_of_mem ha
  rw [hsplit] at hchain
  obtain ⟨_, q, hq, _⟩ := hchain.drop
  obtain ⟨e, he, _⟩ := Heap.view_eq_some_iff.mp hq
  exact ⟨e, he⟩

theorem Separate.length_le {m : Hashmap V} {chains : Nat → List Nat} (h : Separate m chains) {i : Nat}
    (hi : i < m.size) : (chains i).length ≤ chain_fuel m := by
  have hsub : chains i ⊆ List.range m.heap.cells.length := by
    intro a ha
    obtain ⟨e, he⟩ := h.live hi ha
    exact List.mem_range.mpr (Heap.lt_length_of_get? he)
  have hle := ((h.nodup i hi).subperm hsub).length_le
  rwa [List.length_range] at hle

/-- A growth that gets its array terminates, whatever the `prev` fields were. The
    new chains are separate and hold the same entries, unchanged but for their
    links, each in the bucket that its key has in the new table. -/
theorem hashmap_grow_lossless {m : Hashmap V} {chains : Nat → List Nat} (hseparate : Separate m chains)
    (hidx : m.idx + 1 < primes.length) {fuel : Nat} (hfuel : chain_fuel m ≤ fuel) :
    ∃ m' chains', hashmap_grow fuel m true = .ok (m', 0) ∧ Separate m' chains' ∧
      primes[m.idx + 1]? = some m'.size ∧ m'.idx = m.idx + 1 ∧
      (visited m'.size chains').Perm (visited m.size chains) ∧
      m'.heap.view HashmapEntry.bare = m.heap.view HashmapEntry.bare ∧
      (∀ i, i < m'.size → ∀ a ∈ chains' i,
        ∃ e, m'.heap.get? a = some e ∧ hashcode_index e.key m'.size = .ok i) ∧
      m'.used = (visited m.size chains).length % 2 ^ 16 := by
  have hlength : primes.length = 72 := by decide
  have hmod : (m.idx + 1) % 2 ^ 8 = m.idx + 1 := Nat.mod_eq_of_lt (by omega)
  have hprime : primes[(m.idx + 1) % 2 ^ 8]? = some primes[m.idx + 1] := by
    rw [hmod]
    exact List.getElem?_eq_getElem hidx
  obtain ⟨m', hgrow, hlinked, hkept, hused, _⟩ := hashmap_grow_spec hprime hseparate.length_data hseparate.chain
    hseparate.nodup_visited fun i hi => Nat.le_trans (hseparate.length_le hi) hfuel
  have hsize : m'.size = primes[m.idx + 1] := hkept.size
  have hpos : 0 < m'.size := by
    rw [hsize]
    exact primes_pos hprime
  refine ⟨m', _, hgrow, hlinked.separate, ?_, hkept.idx.trans hmod, ?_, hkept.bare, ?_, hused⟩
  · rw [hsize]
    exact List.getElem?_eq_getElem hidx
  · rw [hsize]
    rw [hsize] at hpos
    exact visited_regrown hpos m.heap (visited m.size chains)
  · intro i _ a ha
    obtain ⟨e, he, hslot⟩ := hlinked.placed i a ha
    exact ⟨e, he, by rw [hashcode_index_eq hpos, hslot]⟩

/-- Three entries in two chains of a table of three buckets; two of the `prev`
    fields point to nothing that is in the table. -/
theorem hashmap_grow_lossless_stale :
    ∃ m' : Hashmap Nat, ∃ chains', hashmap_grow 3
        { size := 3, used := 3, idx := 0, data := [none, some 0, some 2], freed := []
          heap := ⟨[some ⟨[1], 1, 1, some 5, some 1, some 9⟩, some ⟨[4], 1, 4, some 6, none, some 0⟩,
            some ⟨[2], 1, 2, none, none, some 7⟩]⟩ } true = .ok (m', 0) ∧
      Separate m' chains' ∧ (visited m'.size chains').Perm [0, 1, 2] ∧ m'.used = 3 := by
  obtain ⟨m, hm⟩ : ∃ m : Hashmap Nat, m =
      { size := 3, used := 3, idx := 0, data := [none, some 0, some 2], freed := []
        heap := ⟨[some ⟨[1], 1, 1, some 5, some 1, some 9⟩, some ⟨[4], 1, 4, some 6, none, some 0⟩,
            some ⟨[2], 1, 2, none, none, some 7⟩]⟩ } := ⟨_, rfl⟩
  obtain ⟨chains, hchains⟩ : ∃ chains : Nat → List Nat, chains = fun i => [[], [0, 1], [2]].getD i [] := ⟨_, rfl⟩
  have hseparate : Separate m chains := by
    rw [hm, hchains]
    refine ⟨rfl, fun i hi => ?_, ?_, by decide⟩
    · match i with
      | 0 => exact ⟨none, rfl, rfl⟩
      | 1 => exact ⟨some 0, rfl, rfl, some 1, rfl, rfl, none, rfl, rfl⟩
      | 2 => exact ⟨some 2, rfl, rfl, none, rfl, rfl⟩
      | i + 3 => exact absurd hi (by simp)
    · decide
  obtain ⟨m', chains', hgrow, hseparate', _, _, hperm, _, _, hused⟩ :=
    hashmap_grow_lossless hseparate (by rw [hm]; decide) (by rw [hm]; decide : chain_fuel m ≤ 3)
  have hvisited : visited m.size chains = [0, 1, 2] := by
    rw [hm, hchains]
    decide
  rw [hvisited] at hperm hused
  rw [hm] at hgrow
  exact ⟨m', chains', hgrow, hseparate', hperm, hused⟩

end code_tools.hashmap
