import CodeTools.Lib.Heap

/-!
# Chains of linked objects

A link map sends the address of a live object to the pointer it stores. The
predicates below describe the singly and the doubly linked lists that such maps
form; they never mention a particular kind of object.
-/

namespace cmem

/-- Following the links from `p` meets exactly the addresses `as`, in order,
    and ends at `NULL`. -/
def Chain (link : Nat → Option Ptr) : List Nat → Ptr → Prop
  | [], p => p = none
  | a :: as, p => p = some a ∧ ∃ q, link a = some q ∧ Chain link as q

/-- Each address links back to the one before it, the first to `p`. -/
def BackLinked (link : Nat → Option Ptr) : Ptr → List Nat → Prop
  | _, [] => True
  | p, a :: as => link a = some p ∧ BackLinked link (some a) as

/-- Each address but the first links back to the one before it. -/
def TailLinked (link : Nat → Option Ptr) : List Nat → Prop
  | [] => True
  | a :: as => BackLinked link (some a) as

variable {link link' : Nat → Option Ptr}

@[simp] theorem chain_nil (p : Ptr) : Chain link [] p ↔ p = none := Iff.rfl

theorem Chain.unique {as bs : List Nat} {p : Ptr} (h₁ : Chain link as p) (h₂ : Chain link bs p) :
    as = bs := by
  induction as generalizing bs p with
  | nil =>
    cases bs with
    | nil => rfl
    | cons b bs => simp [Chain] at h₁ h₂; simp [h₁] at h₂
  | cons a as ih =>
    obtain ⟨rfl, q, hq, htail⟩ := h₁
    cases bs with
    | nil => simp at h₂
    | cons b bs =>
      obtain ⟨hb, q', hq', htail'⟩ := h₂
      cases hb
      have heq : q' = q := Option.some.inj (hq'.symm.trans hq)
      subst heq
      rw [ih htail htail']

theorem Chain.head_eq {as : List Nat} {p : Ptr} (h : Chain link as p) : p = as.head? := by
  cases as with
  | nil => exact h
  | cons a as => exact h.1

/-- A chain depends only on the links of the addresses it meets. -/
theorem Chain.congr {as : List Nat} {p : Ptr} (h : Chain link as p)
    (hagree : ∀ a ∈ as, link' a = link a) : Chain link' as p := by
  induction as generalizing p with
  | nil => exact h
  | cons a as ih =>
    obtain ⟨hp, q, hq, htail⟩ := h
    exact ⟨hp, q, by rw [hagree a (by simp), hq], ih htail fun b hb => hagree b (by simp [hb])⟩

/-- Several chains at once depend only on the links of what they meet. -/
theorem Chain.congr_all {ass : List (List Nat)} {ps : List Ptr}
    (h : List.Forall₂ (Chain link) ass ps) (hagree : ∀ a ∈ ass.flatten, link' a = link a) :
    List.Forall₂ (Chain link') ass ps := by
  induction h with
  | nil => exact .nil
  | cons hchain _ ih =>
    refine .cons (hchain.congr fun a ha => hagree a (by simp [ha])) (ih fun a ha => hagree a ?_)
    rw [List.flatten_cons]
    exact List.mem_append_right _ ha

/-- A chain through `a` continues with the chain that starts at `a`. -/
theorem Chain.drop {pre post : List Nat} {a : Nat} {p : Ptr} (h : Chain link (pre ++ a :: post) p) :
    Chain link (a :: post) (some a) := by
  induction pre generalizing p with
  | nil => exact ⟨rfl, h.2⟩
  | cons b pre ih =>
    obtain ⟨_, q, _, htail⟩ := h
    exact ih htail

/-- A chain that ends at `NULL` has no cycle. -/
theorem Chain.nodup {as : List Nat} {p : Ptr} (h : Chain link as p) : as.Nodup := by
  induction as generalizing p with
  | nil => simp
  | cons a as ih =>
    obtain ⟨rfl, q, hq, htail⟩ := h
    refine List.nodup_cons.mpr ⟨fun hmem => ?_, ih htail⟩
    obtain ⟨pre, post, rfl⟩ := List.append_of_mem hmem
    have hself : Chain link (a :: (pre ++ a :: post)) (some a) := ⟨rfl, q, hq, htail⟩
    have hloop := hself.unique htail.drop
    have hlen := congrArg List.length hloop
    simp at hlen
    omega

/-- Pushing an address whose link is the old head extends the chain. -/
theorem Chain.push {as : List Nat} {p : Ptr} {a : Nat} (h : Chain link as p)
    (hagree : ∀ b ∈ as, link' b = link b) (ha : link' a = some p) :
    Chain link' (a :: as) (some a) :=
  ⟨rfl, p, ha, h.congr hagree⟩

/-- Unlinking the first address: the chain starts at what it linked to. -/
theorem Chain.unlink_head {as : List Nat} {p q : Ptr} {a : Nat} (h : Chain link (a :: as) p)
    (hq : link a = some q) (hagree : ∀ b ∈ as, link' b = link b) : Chain link' as q := by
  obtain ⟨_, q', hq', htail⟩ := h
  have heq : q' = q := Option.some.inj (hq'.symm.trans hq)
  subst heq
  exact htail.congr hagree

/-- Unlinking an inner address: its predecessor takes over its link. -/
theorem Chain.unlink_inner {pre post : List Nat} {b a : Nat} {p q : Ptr}
    (h : Chain link (pre ++ b :: a :: post) p) (hq : link a = some q) (hb : link' b = some q)
    (hagree : ∀ c, c ∈ pre ∨ c ∈ post → link' c = link c) :
    Chain link' (pre ++ b :: post) p := by
  induction pre generalizing p with
  | nil =>
    obtain ⟨hp, r, _, htail⟩ := h
    exact ⟨hp, q, hb, htail.unlink_head hq fun c hc => hagree c (Or.inr hc)⟩
  | cons c pre ih =>
    obtain ⟨hp, r, hr, htail⟩ := h
    refine ⟨hp, r, by rw [hagree c (by simp), hr], ih htail ?_⟩
    rintro d (hd | hd)
    · exact hagree d (Or.inl (by simp [hd]))
    · exact hagree d (Or.inr hd)

/-- Unlinking any address: what linked to it takes over its link. -/
theorem Chain.unlink {pre post : List Nat} {a : Nat} {p q : Ptr} (h : Chain link (pre ++ a :: post) p)
    (hq : link a = some q) (hlast : ∀ b, pre.getLast? = some b → link' b = some q)
    (hagree : ∀ c ∈ pre ++ post, pre.getLast? ≠ some c → link' c = link c) :
    Chain link' (pre ++ post) (if pre = [] then q else p) := by
  obtain rfl | ⟨pre', b, rfl⟩ := List.eq_nil_or_concat pre
  · exact h.unlink_head hq fun c hc => hagree c hc (by simp)
  · have hnodup := h.nodup
    rw [List.concat_eq_append, List.append_assoc, List.singleton_append] at h hnodup ⊢
    rw [if_neg (by simp)]
    refine h.unlink_inner hq (hlast b (by simp)) fun c hc => hagree c ?_ ?_
    · obtain hc | hc := hc
      · simp [hc]
      · simp [hc]
    · have hpre := (List.nodup_append.mp hnodup).2.2
      have hpost := (List.nodup_cons.mp (List.nodup_append.mp hnodup).2.1).1
      rw [List.concat_eq_append, List.getLast?_concat]
      rintro heq
      obtain rfl := Option.some.inj heq
      obtain hc | hc := hc
      · exact hpre b hc b (by simp) rfl
      · exact hpost (by simp [hc])

/-! ## Back links -/

theorem BackLinked.congr {as : List Nat} {p : Ptr} (h : BackLinked link p as)
    (hagree : ∀ a ∈ as, link' a = link a) : BackLinked link' p as := by
  induction as generalizing p with
  | nil => trivial
  | cons a as ih =>
    exact ⟨by rw [hagree a (by simp), h.1], ih h.2 fun b hb => hagree b (by simp [hb])⟩

theorem BackLinked.tailLinked {as : List Nat} {p : Ptr} (h : BackLinked link p as) :
    TailLinked link as := by
  cases as with
  | nil => trivial
  | cons a as => exact h.2

theorem TailLinked.congr {as : List Nat} (h : TailLinked link as)
    (hagree : ∀ a ∈ as.tail, link' a = link a) : TailLinked link' as := by
  cases as with
  | nil => trivial
  | cons a as => exact BackLinked.congr h hagree

theorem backLinked_iff {as : List Nat} {p : Ptr} :
    BackLinked link p as ↔ (∀ a, as.head? = some a → link a = some p) ∧ TailLinked link as := by
  cases as with
  | nil => simp [BackLinked, TailLinked]
  | cons a as => simp [BackLinked, TailLinked]

/-- The back link of an inner address is the address before it. -/
theorem BackLinked.inner {pre post : List Nat} {b a : Nat} {p : Ptr}
    (h : BackLinked link p (pre ++ b :: a :: post)) : link a = some (some b) := by
  induction pre generalizing p with
  | nil => exact h.2.1
  | cons c pre ih => exact ih h.2

theorem TailLinked.inner {pre post : List Nat} {b a : Nat}
    (h : TailLinked link (pre ++ b :: a :: post)) : link a = some (some b) := by
  cases pre with
  | nil => exact h.1
  | cons c pre =>
    have hback : BackLinked link (some c) (pre ++ b :: a :: post) := h
    exact hback.inner

/-- Unlinking the first address hands its back link to the next one. -/
theorem BackLinked.unlink_head {as : List Nat} {p p' : Ptr} {a : Nat}
    (h : BackLinked link p (a :: as)) (hhead : ∀ b, as.head? = some b → link' b = some p')
    (hagree : ∀ b ∈ as.tail, link' b = link b) : BackLinked link' p' as := by
  cases as with
  | nil => trivial
  | cons b as => exact ⟨hhead b rfl, BackLinked.congr h.2.2 hagree⟩

/-- Unlinking an inner address hands its back link to the next one. -/
theorem BackLinked.unlink_inner {pre post : List Nat} {b a : Nat} {p : Ptr}
    (h : BackLinked link p (pre ++ b :: a :: post))
    (hnext : ∀ c, post.head? = some c → link' c = some (some b))
    (hagree : ∀ c, c ∈ pre ∨ c = b ∨ c ∈ post.tail → link' c = link c) :
    BackLinked link' p (pre ++ b :: post) := by
  induction pre generalizing p with
  | nil =>
    refine ⟨by rw [hagree b (by simp), h.1], ?_⟩
    exact BackLinked.unlink_head h.2 hnext fun c hc => hagree c (by simp [hc])
  | cons c pre ih =>
    refine ⟨by rw [hagree c (by simp), h.1], ih h.2 ?_⟩
    rintro d (hd | hd | hd)
    · exact hagree d (by simp [hd])
    · exact hagree d (by simp [hd])
    · exact hagree d (by simp [hd])

theorem TailLinked.unlink_inner {pre post : List Nat} {b a : Nat}
    (h : TailLinked link (pre ++ b :: a :: post))
    (hnext : ∀ c, post.head? = some c → link' c = some (some b))
    (hagree : ∀ c, c ∈ (pre ++ [b]).tail ∨ c ∈ post.tail → link' c = link c) :
    TailLinked link' (pre ++ b :: post) := by
  cases pre with
  | nil => exact BackLinked.unlink_head h hnext fun c hc => hagree c (Or.inr hc)
  | cons c pre =>
    have hback : BackLinked link (some c) (pre ++ b :: a :: post) := h
    refine hback.unlink_inner hnext ?_
    rintro d (hd | hd | hd)
    · exact hagree d (by simp [hd])
    · exact hagree d (by simp [hd])
    · exact hagree d (by simp [hd])

/-- Unlinking any address hands its back link to the next one. -/
theorem TailLinked.unlink {pre post : List Nat} {a : Nat} (h : TailLinked link (pre ++ a :: post))
    (hnodup : (pre ++ post).Nodup)
    (hnext : ∀ b c, pre.getLast? = some b → post.head? = some c → link' c = some (some b))
    (hagree : ∀ c ∈ pre ++ post, post.head? ≠ some c → link' c = link c) :
    TailLinked link' (pre ++ post) := by
  have hpost : ∀ c ∈ post.tail, c ∈ pre ++ post ∧ post.head? ≠ some c := by
    intro c hc
    refine ⟨List.mem_append_right pre (List.mem_of_mem_tail hc), fun hhead => ?_⟩
    cases post with
    | nil => cases hc
    | cons d post =>
      obtain rfl : d = c := Option.some.inj hhead
      exact (List.nodup_cons.mp (List.nodup_append.mp hnodup).2.1).1 hc
  obtain rfl | ⟨pre', b, rfl⟩ := List.eq_nil_or_concat pre
  · have hback : BackLinked link (some a) post := h
    exact hback.tailLinked.congr fun c hc => hagree c (hpost c hc).1 (hpost c hc).2
  · rw [List.concat_eq_append, List.append_assoc, List.singleton_append] at h ⊢
    refine h.unlink_inner (fun c hc => hnext b c (by simp) hc) ?_
    rintro c (hc | hc)
    · have hmem : c ∈ pre'.concat b := by simpa using List.mem_of_mem_tail hc
      refine hagree c (List.mem_append_left post hmem) fun hhead => ?_
      exact (List.nodup_append.mp hnodup).2.2 c hmem c (List.mem_of_mem_head? hhead) rfl
    · exact hagree c (hpost c hc).1 (hpost c hc).2

/-! ## Searching a chain -/

section Search

variable {α : Type*} (next : α → Ptr) (test : α → Bool)

/-- Walk from a pointer to the first object that passes the test. -/
def Heap.search (h : Heap α) : Nat → Ptr → Except Fault (Option Nat)
  | _, none => .ok none
  | 0, some _ => .error .outOfFuel
  | fuel + 1, some a =>
    match h.deref (some a) with
    | .error e => .error e
    | .ok x => if test x then .ok (some a) else h.search fuel (next x)

/-- The addresses that a walk from a pointer meets. -/
def Heap.follow (h : Heap α) : Nat → Ptr → List Nat
  | _, none => []
  | 0, some _ => []
  | fuel + 1, some a =>
    match h.get? a with
    | none => [a]
    | some x => a :: h.follow fuel (next x)

/-- The object at an address passes the test. -/
def Heap.passes (h : Heap α) (a : Nat) : Bool := (h.get? a).any test

variable {next test}

/-- Along a chain the walk needs one unit of fuel an object and finds the first
    one that passes. -/
theorem Chain.search {h : Heap α} {as : List Nat} {p : Ptr} {fuel : Nat}
    (hchain : Chain (h.view next) as p) (hfuel : as.length ≤ fuel) :
    h.search next test fuel p = .ok (as.find? (h.passes test)) := by
  induction as generalizing p fuel with
  | nil =>
    obtain rfl := hchain
    cases fuel <;> rfl
  | cons a as ih =>
    obtain ⟨rfl, q, hq, htail⟩ := hchain
    obtain ⟨x, hx, rfl⟩ := Heap.view_eq_some_iff.mp hq
    cases fuel with
    | zero => simp at hfuel
    | succ fuel =>
      have hderef := Heap.deref_some hx
      have hpass : h.passes test a = test x := by simp [Heap.passes, hx]
      cases htest : test x with
      | true => simp [Heap.search, hderef, htest, hpass]
      | false =>
        simp only [Heap.search, hderef, htest, Bool.false_eq_true, if_false, List.find?, hpass]
        exact ih htail (by simpa using hfuel)

theorem Chain.follow {h : Heap α} {as : List Nat} {p : Ptr} {fuel : Nat}
    (hchain : Chain (h.view next) as p) (hfuel : as.length ≤ fuel) : h.follow next fuel p = as := by
  induction as generalizing p fuel with
  | nil =>
    obtain rfl := hchain
    cases fuel <;> rfl
  | cons a as ih =>
    obtain ⟨rfl, q, hq, htail⟩ := hchain
    obtain ⟨x, hx, rfl⟩ := Heap.view_eq_some_iff.mp hq
    cases fuel with
    | zero => simp at hfuel
    | succ fuel =>
      simp only [Heap.follow, hx]
      rw [ih htail (by simpa using hfuel)]

end Search

end cmem
