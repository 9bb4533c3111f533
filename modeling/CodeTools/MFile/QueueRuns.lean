import CodeTools.Lib.Machine
import CodeTools.MFile.Queue

/-!
# Runs of the tail queue macros

Whatever is inserted, removed and put together, the links are those of lists.
-/

namespace code_tools.queue

open cmem machine

variable {m m' : Cells} {h a b : Nat} {l r : List Nat}

/-! ## Queues as lists -/

/-- The queues by the number of their head, the elements in none of them, and all
    that were ever made. -/
structure Lists where
  queues : Nat → List Nat
  loose : List Nat
  made : List Nat

namespace Lists

def empty : Lists := { queues := fun _ => [], loose := [], made := [] }

/-- Change one queue by putting a loose element in. -/
def insert (s : Lists) (h : Nat) (as : List Nat) (a : Nat) : Lists :=
  { s with queues := Function.update s.queues h as, loose := s.loose.filter (· ≠ a) }

/-- The elements before the first `b`. -/
def upTo (as : List Nat) (b : Nat) : List Nat := as.takeWhile (· ≠ b)

/-- The elements after it. -/
def beyond (as : List Nat) (b : Nat) : List Nat := (as.dropWhile (· ≠ b)).tail

theorem upTo_append (hb : b ∉ l) : upTo (l ++ b :: r) b = l := by
  have hall : ∀ c ∈ l, decide (c ≠ b) = true := fun c hc => by
    rw [decide_eq_true_eq]
    rintro rfl
    exact hb hc
  rw [upTo, List.takeWhile_append_of_pos hall, List.takeWhile_cons_of_neg (by simp), List.append_nil]

theorem beyond_append (hb : b ∉ l) : beyond (l ++ b :: r) b = r := by
  have hall : ∀ c ∈ l, decide (c ≠ b) = true := fun c hc => by
    rw [decide_eq_true_eq]
    rintro rfl
    exact hb hc
  rw [beyond, List.dropWhile_append_of_pos hall, List.dropWhile_cons_of_neg (by simp), List.tail_cons]

end Lists

inductive Op where
  | create (a : Nat)
  | init (h : Nat)
  | insert_head (h a : Nat)
  | insert_tail (h a : Nat)
  | insert_after (h b a : Nat)
  /-- `h` is the queue that `b` is in; the macro is not told. -/
  | insert_before (h b a : Nat)
  | remove (h a : Nat)
  | concat (h₁ h₂ : Nat)
  | first (h : Nat)
  | last (h : Nat)
  | next (h a : Nat)
  | prev (h a : Nat)
  | foreach (fuel h : Nat)
  | foreach_reverse (fuel h : Nat)
deriving DecidableEq, Repr

inductive Outcome where
  | done
  | found (p : Ptr)
  | met (as : List Nat)
deriving DecidableEq, Repr

/-- What each macro is to do to the lists, and what it is to return. -/
def Lists.step (s : Lists) : Op → Lists × Outcome
  | .create a => ({ s with loose := a :: s.loose, made := a :: s.made }, .done)
  | .init h => ({ s with queues := Function.update s.queues h [], loose := s.queues h ++ s.loose }, .done)
  | .insert_head h a => (s.insert h (a :: s.queues h) a, .done)
  | .insert_tail h a => (s.insert h (s.queues h ++ [a]) a, .done)
  | .insert_after h b a =>
    (s.insert h (Lists.upTo (s.queues h) b ++ b :: a :: Lists.beyond (s.queues h) b) a, .done)
  | .insert_before h b a =>
    (s.insert h (Lists.upTo (s.queues h) b ++ a :: b :: Lists.beyond (s.queues h) b) a, .done)
  | .remove h a =>
    ({ s with queues := Function.update s.queues h ((s.queues h).erase a), loose := a :: s.loose }, .done)
  | .concat h₁ h₂ =>
    ({ s with queues := Function.update (Function.update s.queues h₁ (s.queues h₁ ++ s.queues h₂)) h₂ [] }, .done)
  | .first h => (s, .found (s.queues h).head?)
  | .last h => (s, .found (s.queues h).getLast?)
  | .next h a => (s, .found (Lists.beyond (s.queues h) a).head?)
  | .prev h a => (s, .found (Lists.upTo (s.queues h) a).getLast?)
  | .foreach _ h => (s, .met (s.queues h))
  | .foreach_reverse _ h => (s, .met (s.queues h).reverse)

/-- What the caller of a macro has to see to. -/
def Lists.Allowed (s : Lists) : Op → Prop
  | .create a => a ∉ s.made
  | .init _ => True
  | .insert_head _ a => a ∈ s.loose
  | .insert_tail _ a => a ∈ s.loose
  | .insert_after h b a => b ∈ s.queues h ∧ a ∈ s.loose
  | .insert_before h b a => b ∈ s.queues h ∧ a ∈ s.loose
  | .remove h a => a ∈ s.queues h
  | .concat h₁ h₂ => h₁ ≠ h₂
  | .first _ => True
  | .last _ => True
  | .next h a => a ∈ s.queues h
  | .prev h a => a ∈ s.queues h
  | .foreach fuel h => (s.queues h).length ≤ fuel
  | .foreach_reverse fuel h => (s.queues h).length ≤ fuel

instance (s : Lists) : ∀ op, Decidable (s.Allowed op)
  | .create a => inferInstanceAs (Decidable (a ∉ s.made))
  | .init _ => .isTrue trivial
  | .insert_head _ a => inferInstanceAs (Decidable (a ∈ s.loose))
  | .insert_tail _ a => inferInstanceAs (Decidable (a ∈ s.loose))
  | .insert_after h b a => inferInstanceAs (Decidable (b ∈ s.queues h ∧ a ∈ s.loose))
  | .insert_before h b a => inferInstanceAs (Decidable (b ∈ s.queues h ∧ a ∈ s.loose))
  | .remove h a => inferInstanceAs (Decidable (a ∈ s.queues h))
  | .concat h₁ h₂ => inferInstanceAs (Decidable (h₁ ≠ h₂))
  | .first _ => .isTrue trivial
  | .last _ => .isTrue trivial
  | .next h a => inferInstanceAs (Decidable (a ∈ s.queues h))
  | .prev h a => inferInstanceAs (Decidable (a ∈ s.queues h))
  | .foreach fuel h => inferInstanceAs (Decidable ((s.queues h).length ≤ fuel))
  | .foreach_reverse fuel h => inferInstanceAs (Decidable ((s.queues h).length ≤ fuel))

/-- The macros; a new element has its links cleared. -/
def exec (m : Cells) : Op → Except Fault (Cells × Outcome)
  | .create a => .ok (m.put (.entry a) { next := none, prev := none }, .done)
  | .init h => do
    let m ← TAILQ_INIT m h
    .ok (m, .done)
  | .insert_head h a => do
    let m ← TAILQ_INSERT_HEAD m h a
    .ok (m, .done)
  | .insert_tail h a => do
    let m ← TAILQ_INSERT_TAIL m h a
    .ok (m, .done)
  | .insert_after h b a => do
    let m ← TAILQ_INSERT_AFTER m h b a
    .ok (m, .done)
  | .insert_before _ b a => do
    let m ← TAILQ_INSERT_BEFORE m b a
    .ok (m, .done)
  | .remove h a => do
    let m ← TAILQ_REMOVE m h a
    .ok (m, .done)
  | .concat h₁ h₂ => do
    let m ← TAILQ_CONCAT m h₁ h₂
    .ok (m, .done)
  | .first h => do
    let p ← TAILQ_FIRST m h
    .ok (m, .found p)
  | .last h => do
    let p ← TAILQ_LAST m h
    .ok (m, .found p)
  | .next _ a => do
    let p ← TAILQ_NEXT m a
    .ok (m, .found p)
  | .prev _ a => do
    let p ← TAILQ_PREV m a
    .ok (m, .found p)
  | .foreach fuel h => do
    let as ← TAILQ_FOREACH m fuel h
    .ok (m, .met as)
  | .foreach_reverse fuel h => do
    let as ← TAILQ_FOREACH_REVERSE m fuel h
    .ok (m, .met as)

/-! ## Every macro keeps the rings -/

/-- The links form one ring for each list, and no element is in two. -/
structure Represents (m : Cells) (s : Lists) : Prop where
  ring : ∀ h, Ring m h (s.queues h)
  nodup : ∀ h, (s.queues h).Nodup
  apart : ∀ h h' a, a ∈ s.queues h → a ∈ s.queues h' → h = h'
  loose : ∀ a ∈ s.loose, (m (.entry a)).isSome ∧ ∀ h, a ∉ s.queues h
  made : ∀ a, a ∈ s.loose ∨ (∃ h, a ∈ s.queues h) → a ∈ s.made

variable {s : Lists}

/-- A cell of another queue is neither a neighbour nor the element. -/
theorem Represents.elsewhere (hrep : Represents m s) {h h' : Nat} (hne : h' ≠ h) {c : Cell}
    (hc : Queued h' (s.queues h') c) (hq : s.queues h = l ++ r) : c ≠ before h l ∧ c ≠ after h r := by
  have hnot : ∀ b, b ∈ l ++ r → c ≠ .entry b := by
    rintro b hb rfl
    rcases hc with hc | ⟨d, hd, hc⟩
    · cases hc
    · cases hc
      exact hne (hrep.apart h' h b hd (by rw [hq]; exact hb))
  have hhead : c ≠ .head h := by
    rintro rfl
    rcases hc with hc | ⟨d, hd, hc⟩
    · cases hc
      exact hne rfl
    · cases hc
  constructor
  · rintro rfl
    cases hlast : l.getLast? with
    | none => exact hhead (by rw [before, hlast]; rfl)
    | some b => exact hnot b (List.mem_append_left _ (List.mem_of_getLast? hlast)) (by rw [before, hlast]; rfl)
  · rintro rfl
    cases r with
    | nil => exact hhead rfl
    | cons b r => exact hnot b (by simp) rfl

theorem Represents.insert (hrep : Represents m s) (hq : s.queues h = l ++ r) (ha : a ∈ s.loose)
    (hinserts : Inserts m m' (before h l) (after h r) a) (hsame : SameCells m m') :
    Represents m' (s.insert h (l ++ a :: r) a) := by
  obtain ⟨_, hnot⟩ := hrep.loose a ha
  have hring := hrep.ring h
  have hnodup := hrep.nodup h
  have hnew := hnot h
  rw [hq] at hring hnodup hnew
  have hqueue : (s.insert h (l ++ a :: r) a).queues h = l ++ a :: r := Function.update_self ..
  have hother : ∀ h', h' ≠ h → (s.insert h (l ++ a :: r) a).queues h' = s.queues h' :=
    fun h' hne => Function.update_of_ne hne ..
  have hmem : ∀ {h' b}, b ∈ (s.insert h (l ++ a :: r) a).queues h' → (h' = h ∧ b = a) ∨ b ∈ s.queues h' := by
    intro h' b hb
    by_cases hne : h' = h
    · subst h'
      rw [hqueue] at hb
      rw [hq]
      simp only [List.mem_append, List.mem_cons] at hb ⊢
      tauto
    · rw [hother h' hne] at hb
      exact Or.inr hb
  refine ⟨?_, ?_, ?_, ?_, ?_⟩
  · intro h'
    by_cases hne : h' = h
    · subst h'
      rw [hqueue]
      exact hinserts.ring hring hnodup hnew
    · rw [hother h' hne]
      have hloose : ∀ c, Queued h' (s.queues h') c → c ≠ .entry a := by
        rintro c (rfl | ⟨b, hb, rfl⟩)
        · nofun
        · rintro ⟨⟩
          exact hnot h' hb
      refine (hrep.ring h').congr ?_ ?_
      · intro c hc
        rw [hinserts.next, Function.update_of_ne (hrep.elsewhere hne hc hq).1, Function.update_of_ne (hloose c hc)]
      · intro c hc
        rw [hinserts.prev, Function.update_of_ne (hrep.elsewhere hne hc hq).2, Function.update_of_ne (hloose c hc)]
  · intro h'
    by_cases hne : h' = h
    · subst h'
      rw [hqueue]
      exact List.nodup_middle.mpr (List.nodup_cons.mpr ⟨hnew, hnodup⟩)
    · rw [hother h' hne]
      exact hrep.nodup h'
  · intro h₁ h₂ b hb₁ hb₂
    rcases hmem hb₁ with ⟨rfl, rfl⟩ | hold₁
    · rcases hmem hb₂ with ⟨rfl, _⟩ | hold₂
      · rfl
      · exact absurd hold₂ (hnot h₂)
    · rcases hmem hb₂ with ⟨rfl, rfl⟩ | hold₂
      · exact absurd hold₁ (hnot h₁)
      · exact hrep.apart h₁ h₂ b hold₁ hold₂
  · intro b hb
    obtain ⟨hb, hba⟩ := List.mem_filter.mp hb
    obtain ⟨hlive, hold⟩ := hrep.loose b hb
    refine ⟨by rw [hsame]; exact hlive, fun h' hmem' => ?_⟩
    rcases hmem hmem' with ⟨_, rfl⟩ | hmem'
    · simp at hba
    · exact hold h' hmem'
  · rintro b (hb | ⟨h', hb⟩)
    · exact hrep.made b (Or.inl (List.mem_of_mem_filter hb))
    · rcases hmem hb with ⟨_, rfl⟩ | hold
      · exact hrep.made b (Or.inl ha)
      · exact hrep.made b (Or.inr ⟨h', hold⟩)

/-- A queue that only loses elements. -/
theorem Represents.shrink (hrep : Represents m s) {as gone : List Nat} (hsub : ∀ b ∈ as, b ∈ s.queues h)
    (hnodup : as.Nodup) (hring : Ring m' h as) (hothers : ∀ h', h' ≠ h → Ring m' h' (s.queues h'))
    (hsame : SameCells m m') (hgone : ∀ b ∈ gone, b ∈ s.queues h ∧ b ∉ as) :
    Represents m' { s with queues := Function.update s.queues h as, loose := gone ++ s.loose } := by
  have hqueue : Function.update s.queues h as h = as := Function.update_self ..
  have hother : ∀ h', h' ≠ h → Function.update s.queues h as h' = s.queues h' :=
    fun h' hne => Function.update_of_ne hne ..
  have hmem : ∀ {h' b}, b ∈ Function.update s.queues h as h' → b ∈ s.queues h' := by
    intro h' b hb
    by_cases hne : h' = h
    · subst h'
      rw [hqueue] at hb
      exact hsub b hb
    · rwa [hother h' hne] at hb
  refine ⟨?_, ?_, ?_, ?_, ?_⟩
  · intro h'
    by_cases hne : h' = h
    · subst h'
      dsimp only
      rwa [hqueue]
    · dsimp only
      rw [hother h' hne]
      exact hothers h' hne
  · intro h'
    by_cases hne : h' = h
    · subst h'
      dsimp only
      rwa [hqueue]
    · dsimp only
      rw [hother h' hne]
      exact hrep.nodup h'
  · intro h₁ h₂ b hb₁ hb₂
    exact hrep.apart h₁ h₂ b (hmem hb₁) (hmem hb₂)
  · intro b hb
    rcases List.mem_append.mp hb with hb | hb
    · obtain ⟨hold, hnot⟩ := hgone b hb
      refine ⟨by rw [hsame]; exact ring_live (hrep.ring h) hold, fun h' hmem' => ?_⟩
      obtain rfl := hrep.apart h' h b (hmem hmem') hold
      dsimp only at hmem'
      rw [hqueue] at hmem'
      exact hnot hmem'
    · obtain ⟨hlive, hold⟩ := hrep.loose b hb
      exact ⟨by rw [hsame]; exact hlive, fun h' hmem' => hold h' (hmem hmem')⟩
  · rintro b (hb | ⟨h', hb⟩)
    · rcases List.mem_append.mp hb with hb | hb
      · exact hrep.made b (Or.inr ⟨h, (hgone b hb).1⟩)
      · exact hrep.made b (Or.inl hb)
    · exact hrep.made b (Or.inr ⟨h', hmem hb⟩)

theorem Represents.remove (hrep : Represents m s) (hq : s.queues h = l ++ a :: r)
    (hremoves : Removes m m' (before h l) (after h r)) (hsame : SameCells m m') :
    Represents m' { s with queues := Function.update s.queues h (l ++ r), loose := [a] ++ s.loose } := by
  have hring := hrep.ring h
  have hnodup := hrep.nodup h
  rw [hq] at hring hnodup
  obtain ⟨hnew, hnodup⟩ := List.nodup_cons.mp (List.nodup_middle.mp hnodup)
  refine hrep.shrink ?_ hnodup (hremoves.ring hring hnodup) ?_ hsame ?_
  · intro b hb
    rw [hq]
    simp only [List.mem_append, List.mem_cons] at hb ⊢
    tauto
  · intro h' hne
    -- the place between `a` and the rest, and the one before `a`
    have hbefore : ∀ c, Queued h' (s.queues h') c → c ≠ before h l :=
      fun c hc => (hrep.elsewhere hne hc hq).1
    have hafter : ∀ c, Queued h' (s.queues h') c → c ≠ after h r :=
      fun c hc => (hrep.elsewhere hne hc (l := l ++ [a]) (by rw [hq]; simp)).2
    refine (hrep.ring h').congr ?_ ?_
    · intro c hc
      rw [hremoves.next, Function.update_of_ne (hbefore c hc)]
    · intro c hc
      rw [hremoves.prev, Function.update_of_ne (hafter c hc)]
  · intro b hb
    obtain rfl := List.mem_singleton.mp hb
    exact ⟨by rw [hq]; simp, hnew⟩

theorem Represents.head_live (hrep : Represents m s) (h : Nat) : (m (.head h)).isSome :=
  Cells.live_of_next (place_fields (l := []) (hrep.ring h)).1

theorem Represents.init (hrep : Represents m s) (h : Nat) : ∃ m', TAILQ_INIT m h = .ok m' ∧
    Represents m' { s with queues := Function.update s.queues h [], loose := s.queues h ++ s.loose } := by
  obtain ⟨m', hinit, hnext, hprev, hsame⟩ := init_spec (hrep.head_live h)
  refine ⟨m', hinit, hrep.shrink nofun List.nodup_nil ?_ ?_ hsame fun b hb => ⟨hb, List.not_mem_nil⟩⟩
  · refine ⟨?_, ?_, trivial⟩
    · rw [hnext, Function.update_self]
      rfl
    · rw [hprev, Function.update_self]
  · intro h' hne
    have hother : ∀ c, Queued h' (s.queues h') c → c ≠ .head h :=
      fun c hc => (hrep.elsewhere hne hc (l := []) (r := s.queues h) rfl).1
    refine (hrep.ring h').congr ?_ ?_
    · intro c hc
      rw [hnext, Function.update_of_ne (hother c hc)]
    · intro c hc
      rw [hprev, Function.update_of_ne (hother c hc)]

theorem Represents.create (hrep : Represents m s) (ha : a ∉ s.made) :
    Represents (m.put (.entry a) { next := none, prev := none })
      { s with loose := a :: s.loose, made := a :: s.made } := by
  have hnew : ∀ h, a ∉ s.queues h := fun h hmem => ha (hrep.made a (Or.inr ⟨h, hmem⟩))
  have hother : ∀ {h c}, Queued h (s.queues h) c → c ≠ .entry a := by
    rintro h c (rfl | ⟨b, hb, rfl⟩)
    · nofun
    · rintro ⟨⟩
      exact hnew h hb
  refine ⟨fun h => ?_, hrep.nodup, hrep.apart, ?_, ?_⟩
  · refine (hrep.ring h).congr ?_ ?_
    · intro c hc
      rw [Cells.nextOf_put, Function.update_of_ne (hother hc)]
    · intro c hc
      rw [Cells.prevOf_put, Function.update_of_ne (hother hc)]
  · intro b hb
    rcases List.mem_cons.mp hb with rfl | hb
    · exact ⟨by rw [Cells.put, Function.update_self, Option.isSome_some], hnew⟩
    · obtain ⟨hlive, hold⟩ := hrep.loose b hb
      have hba : Cell.entry b ≠ .entry a := by
        intro heq
        rw [Cell.entry.inj heq] at hb
        exact ha (hrep.made a (Or.inl hb))
      exact ⟨by rw [Cells.put, Function.update_of_ne hba]; exact hlive, hold⟩
  · rintro b (hb | ⟨h, hb⟩)
    · rcases List.mem_cons.mp hb with rfl | hb
      · exact List.mem_cons_self
      · exact List.mem_cons_of_mem a (hrep.made b (Or.inl hb))
    · exact List.mem_cons_of_mem a (hrep.made b (Or.inr ⟨h, hb⟩))

theorem Represents.concat_ring (hrep : Represents m s) {h₁ h₂ : Nat} (hne : h₁ ≠ h₂) (hq₁ : s.queues h₁ = l)
    (hq₂ : s.queues h₂ = a :: r)
    (hnext : m'.nextOf =
      Function.update (Function.update m.nextOf (before h₁ l) (some (some a))) (.head h₂) (some none))
    (hprev : m'.prevOf =
      Function.update (Function.update (Function.update m.prevOf (.entry a) (some (some (before h₁ l))))
        (.head h₁) (some (some (before h₂ (a :: r))))) (.head h₂) (some (some (.head h₂)))) :
    Ring m' h₁ (l ++ a :: r) ∧ Ring m' h₂ [] := by
  have hring₁ := hrep.ring h₁
  have hring₂ := hrep.ring h₂
  have hnodup₁ := hrep.nodup h₁
  have hnodup₂ := hrep.nodup h₂
  have hapart : ∀ b ∈ l, b ∉ a :: r := by
    intro b hb hb'
    rw [← hq₁] at hb
    rw [← hq₂] at hb'
    exact hne (hrep.apart h₁ h₂ b hb hb')
  rw [hq₁] at hring₁ hnodup₁
  rw [hq₂] at hring₂ hnodup₂
  have hheads : Cell.head h₁ ≠ .head h₂ := fun heq => hne (Cell.head.inj heq)
  have hkinds : ∀ b h, Cell.entry b ≠ .head h := nofun
  obtain ⟨hleft, _, hend⟩ := (ring_append (h := h₁) (l := l) (r := [])).mp (by rwa [List.append_nil])
  obtain ⟨_, _, hright⟩ := (ring_append (l := [])).mp hring₂
  have hbefore : before h₁ l ≠ .head h₂ := by
    unfold before
    cases l.getLast? with
    | none => exact hheads
    | some b => nofun
  have hcell : ∀ c, Queued h₁ (l ++ []) c → c ≠ .head h₂ ∧ c ≠ .entry a := by
    rintro c (rfl | ⟨b, hb, rfl⟩)
    · exact ⟨hheads, nofun⟩
    · refine ⟨nofun, ?_⟩
      intro heq
      rw [List.append_nil, Cell.entry.inj heq] at hb
      exact hapart a hb List.mem_cons_self
  have hleft' : Joined m' (.head h₁ :: l.map .entry) :=
    (joined_halves (r := []) (by rwa [List.append_nil]) hleft hend
      (fun c hc hother => by rw [hnext, Function.update_of_ne (hcell c hc).1, Function.update_of_ne hother])
      (fun c hc hother => by
        have hother : c ≠ .head h₁ := hother
        rw [hprev, Function.update_of_ne (hcell c hc).1, Function.update_of_ne hother,
          Function.update_of_ne (hcell c hc).2])).1
  have hright' : Joined m' ((a :: r).map .entry ++ [.head h₁]) := by
    refine joined_rehead nofun hright ?_ ?_ ?_
    · intro b hb
      have hb' : Cell.entry b ≠ before h₁ l := fun heq => hapart b (mem_of_before heq.symm) hb
      rw [hnext, Function.update_of_ne (hkinds b h₂), Function.update_of_ne hb']
    · intro b hb
      have hba : Cell.entry b ≠ .entry a := by
        intro heq
        rw [Cell.entry.inj heq] at hb
        exact (List.nodup_cons.mp hnodup₂).1 hb
      rw [hprev, Function.update_of_ne (hkinds b h₂), Function.update_of_ne (hkinds b h₁), Function.update_of_ne hba]
    · rw [hprev, Function.update_of_ne hheads, Function.update_self]
  refine ⟨ring_append.mpr ⟨hleft', ⟨?_, ?_⟩, hright'⟩, ?_, ?_, trivial⟩
  · rw [hnext, Function.update_of_ne hbefore, Function.update_self]
    rfl
  · show m'.prevOf (.entry a) = _
    rw [hprev, Function.update_of_ne (hkinds a h₂), Function.update_of_ne (hkinds a h₁), Function.update_self]
  · rw [hnext, Function.update_self]
    rfl
  · rw [hprev, Function.update_self]

theorem Represents.concat (hrep : Represents m s) {h₁ h₂ : Nat} (hne : h₁ ≠ h₂) :
    ∃ m', TAILQ_CONCAT m h₁ h₂ = .ok m' ∧ Represents m' { s with
      queues := Function.update (Function.update s.queues h₁ (s.queues h₁ ++ s.queues h₂)) h₂ [] } := by
  cases hq₂ : s.queues h₂ with
  | nil =>
    have hring₂ := hrep.ring h₂
    rw [hq₂] at hring₂
    refine ⟨m, ?_, ?_⟩
    · rw [TAILQ_CONCAT, first_eq hring₂]
      rfl
    · have hsame : Function.update (Function.update s.queues h₁ (s.queues h₁ ++ [])) h₂ [] = s.queues := by
        rw [List.append_nil, Function.update_eq_self, ← hq₂, Function.update_eq_self]
      rwa [hsame]
  | cons a r =>
    have hring₂ := hrep.ring h₂
    rw [hq₂] at hring₂
    obtain ⟨m', hconcat, hsame, hnext, hprev⟩ := concat_spec (hrep.ring h₁) hring₂
    obtain ⟨hring₁', hring₂'⟩ := hrep.concat_ring hne rfl hq₂ hnext hprev
    obtain ⟨queues, hqueues⟩ : ∃ queues, queues =
        Function.update (Function.update s.queues h₁ (s.queues h₁ ++ a :: r)) h₂ [] := ⟨_, rfl⟩
    have hfirst : queues h₁ = s.queues h₁ ++ a :: r := by
      rw [hqueues, Function.update_of_ne hne, Function.update_self]
    have hsecond : queues h₂ = [] := by rw [hqueues, Function.update_self]
    have hother : ∀ h, h ≠ h₁ → h ≠ h₂ → queues h = s.queues h := fun h hh₁ hh₂ => by
      rw [hqueues, Function.update_of_ne hh₂, Function.update_of_ne hh₁]
    -- an element is where it was, or has come over from the second queue
    have hmem : ∀ {h b}, b ∈ queues h → (h ≠ h₂ ∧ b ∈ s.queues h) ∨ (h = h₁ ∧ b ∈ s.queues h₂) := by
      intro h b hb
      by_cases hh₁ : h = h₁
      · subst h
        rw [hfirst, ← hq₂] at hb
        rcases List.mem_append.mp hb with hb | hb
        · exact Or.inl ⟨hne, hb⟩
        · exact Or.inr ⟨rfl, hb⟩
      · by_cases hh₂ : h = h₂
        · rw [hh₂, hsecond] at hb
          cases hb
        · rw [hother h hh₁ hh₂] at hb
          exact Or.inl ⟨hh₂, hb⟩
    refine ⟨m', hconcat, ?_⟩
    rw [← hqueues]
    refine ⟨fun h => ?_, fun h => ?_, ?_, ?_, ?_⟩
    · dsimp only
      by_cases hh₁ : h = h₁
      · rw [hh₁, hfirst]
        exact hring₁'
      · by_cases hh₂ : h = h₂
        · rw [hh₂, hsecond]
          exact hring₂'
        · rw [hother h hh₁ hh₂]
          have hcell₁ : ∀ c, Queued h (s.queues h) c → c ≠ before h₁ (s.queues h₁) ∧ c ≠ .head h₁ := fun c hc =>
            hrep.elsewhere hh₁ hc (l := s.queues h₁) (r := []) (List.append_nil _).symm
          have hcell₂ : ∀ c, Queued h (s.queues h) c → c ≠ .head h₂ ∧ c ≠ .entry a := fun c hc =>
            hrep.elsewhere hh₂ hc (l := []) (r := a :: r) hq₂
          refine (hrep.ring h).congr ?_ ?_
          · intro c hc
            rw [hnext, Function.update_of_ne (hcell₂ c hc).1, Function.update_of_ne (hcell₁ c hc).1]
          · intro c hc
            rw [hprev, Function.update_of_ne (hcell₂ c hc).1, Function.update_of_ne (hcell₁ c hc).2,
              Function.update_of_ne (hcell₂ c hc).2]
    · dsimp only
      by_cases hh₁ : h = h₁
      · rw [hh₁, hfirst, ← hq₂]
        exact List.nodup_append.mpr ⟨hrep.nodup h₁, hrep.nodup h₂, fun b hb c hc heq =>
          hne (hrep.apart h₁ h₂ b hb (heq ▸ hc))⟩
      · by_cases hh₂ : h = h₂
        · rw [hh₂, hsecond]
          exact List.nodup_nil
        · rw [hother h hh₁ hh₂]
          exact hrep.nodup h
    · intro h h' b hb hb'
      rcases hmem hb with ⟨hh₂, hold⟩ | ⟨rfl, hold⟩
      · rcases hmem hb' with ⟨_, hold'⟩ | ⟨_, hold'⟩
        · exact hrep.apart h h' b hold hold'
        · exact absurd (hrep.apart h h₂ b hold hold') hh₂
      · rcases hmem hb' with ⟨hh₂, hold'⟩ | ⟨rfl, _⟩
        · exact absurd (hrep.apart h' h₂ b hold' hold) hh₂
        · rfl
    · intro b hb
      obtain ⟨hlive, hnot⟩ := hrep.loose b hb
      refine ⟨by rw [hsame]; exact hlive, fun h hmem' => ?_⟩
      rcases hmem hmem' with ⟨_, hold⟩ | ⟨_, hold⟩
      · exact hnot h hold
      · exact hnot h₂ hold
    · rintro b (hb | ⟨h, hb⟩)
      · exact hrep.made b (Or.inl hb)
      · rcases hmem hb with ⟨_, hold⟩ | ⟨_, hold⟩
        · exact hrep.made b (Or.inr ⟨h, hold⟩)
        · exact hrep.made b (Or.inr ⟨h₂, hold⟩)

/-! ## Runs -/

/-- The place of an element in its queue. -/
theorem Represents.split (hrep : Represents m s) (hb : b ∈ s.queues h) :
    ∃ l r, s.queues h = l ++ b :: r ∧ b ∉ l ∧ b ∉ l ++ r ∧
      Lists.upTo (s.queues h) b = l ∧ Lists.beyond (s.queues h) b = r := by
  obtain ⟨l, r, hq⟩ := List.append_of_mem hb
  have hnodup := hrep.nodup h
  rw [hq] at hnodup
  have hnot := (List.nodup_cons.mp (List.nodup_middle.mp hnodup)).1
  have hl : b ∉ l := fun hmem => hnot (List.mem_append_left r hmem)
  exact ⟨l, r, hq, hl, hnot, by rw [hq, Lists.upTo_append hl], by rw [hq, Lists.beyond_append hl]⟩

/-- An allowed call does to the lists, and returns, what it is to. -/
theorem exec_refines (hrep : Represents m s) {op : Op} (hallowed : s.Allowed op) :
    ∃ m', exec m op = .ok (m', (s.step op).2) ∧ Represents m' (s.step op).1 := by
  cases op with
  | create a => exact ⟨_, rfl, hrep.create hallowed⟩
  | init h =>
    obtain ⟨m', hinit, hrep'⟩ := hrep.init h
    exact ⟨m', by rw [exec, hinit]; rfl, hrep'⟩
  | insert_head h a =>
    obtain ⟨hlive, hnot⟩ := hrep.loose a hallowed
    obtain ⟨m', hinsert, hinserts, hsame⟩ := insert_head_spec (hrep.ring h) hlive (hnot h)
    exact ⟨m', by rw [exec, hinsert]; rfl, hrep.insert (l := []) rfl hallowed hinserts hsame⟩
  | insert_tail h a =>
    obtain ⟨hlive, _⟩ := hrep.loose a hallowed
    obtain ⟨m', hinsert, hinserts, hsame⟩ := insert_tail_spec (hrep.ring h) hlive
    exact ⟨m', by rw [exec, hinsert]; rfl,
      hrep.insert (r := []) (List.append_nil _).symm hallowed hinserts hsame⟩
  | insert_after h b a =>
    obtain ⟨hb, ha⟩ := hallowed
    obtain ⟨l, r, hq, _, _, hupTo, hbeyond⟩ := hrep.split hb
    obtain ⟨hlive, hnot⟩ := hrep.loose a ha
    have hring := hrep.ring h
    have hnew := hnot h
    rw [hq] at hring hnew
    obtain ⟨m', hinsert, hinserts, hsame⟩ := insert_after_spec hring hlive hnew
    have hlast : before h (l ++ [b]) = .entry b := by simp [before]
    rw [← hlast] at hinserts
    have hrep' := hrep.insert (by rw [hq]; simp) ha hinserts hsame
    refine ⟨m', by rw [exec, hinsert]; rfl, ?_⟩
    rw [List.append_assoc] at hrep'
    simp only [Lists.step, hupTo, hbeyond]
    exact hrep'
  | insert_before h b a =>
    obtain ⟨hb, ha⟩ := hallowed
    obtain ⟨l, r, hq, _, _, hupTo, hbeyond⟩ := hrep.split hb
    obtain ⟨hlive, hnot⟩ := hrep.loose a ha
    have hring := hrep.ring h
    have hnew := hnot h
    rw [hq] at hring hnew
    obtain ⟨m', hinsert, hinserts, hsame⟩ := insert_before_spec hring hlive hnew
    refine ⟨m', by rw [exec, hinsert]; rfl, ?_⟩
    simp only [Lists.step, hupTo, hbeyond]
    exact hrep.insert hq ha hinserts hsame
  | remove h a =>
    obtain ⟨l, r, hq, hl, hnot, _, _⟩ := hrep.split hallowed
    have hring := hrep.ring h
    rw [hq] at hring
    obtain ⟨m', hremove, hremoves, hsame⟩ := remove_spec hring hnot
    refine ⟨m', by rw [exec, hremove]; rfl, ?_⟩
    have herase : (s.queues h).erase a = l ++ r := by
      rw [hq, List.erase_append_right _ hl, List.erase_cons_head]
    simp only [Lists.step, herase]
    exact hrep.remove hq hremoves hsame
  | concat h₁ h₂ =>
    obtain ⟨m', hconcat, hrep'⟩ := hrep.concat hallowed
    exact ⟨m', by rw [exec, hconcat]; rfl, hrep'⟩
  | first h => exact ⟨m, by rw [exec, first_eq (hrep.ring h)]; rfl, hrep⟩
  | last h => exact ⟨m, by rw [exec, last_eq (hrep.ring h)]; rfl, hrep⟩
  | next h a =>
    obtain ⟨l, r, hq, _, _, _, hbeyond⟩ := hrep.split hallowed
    have hring := hrep.ring h
    rw [hq] at hring
    refine ⟨m, ?_, hrep⟩
    rw [exec, next_eq hring, Lists.step, hbeyond]
    rfl
  | prev h a =>
    obtain ⟨l, r, hq, _, _, hupTo, _⟩ := hrep.split hallowed
    have hring := hrep.ring h
    rw [hq] at hring
    refine ⟨m, ?_, hrep⟩
    rw [exec, prev_eq hring, Lists.step, hupTo]
    rfl
  | foreach fuel h => exact ⟨m, by rw [exec, foreach_eq (hrep.ring h) hallowed]; rfl, hrep⟩
  | foreach_reverse fuel h => exact ⟨m, by rw [exec, foreach_reverse_eq (hrep.ring h) hallowed]; rfl, hrep⟩

/-- All heads initialised and no element made. -/
def ready : Cells
  | .head h => some { next := none, prev := some (.head h) }
  | .entry _ => none

theorem represents_ready : Represents ready Lists.empty :=
  ⟨fun _ => ⟨rfl, rfl, trivial⟩, fun _ => List.nodup_nil, nofun, nofun, nofun⟩

/-- Every run of the macros on any number of queues, each used as it has to be, ends
    well, returns what it would on lists, and leaves the links of these lists. -/
theorem macros_refine_lists {ops : List Op} (hlegal : Legal Lists.step Lists.Allowed Lists.empty ops) :
    ∃ m, run exec ready ops = .ok (m, (runTotal Lists.step Lists.empty ops).2) ∧
      ∀ fuel h, ((runTotal Lists.step Lists.empty ops).1.queues h).length ≤ fuel →
        TAILQ_FOREACH m fuel h = .ok ((runTotal Lists.step Lists.empty ops).1.queues h) ∧
          TAILQ_FOREACH_REVERSE m fuel h = .ok ((runTotal Lists.step Lists.empty ops).1.queues h).reverse := by
  have hstep : ∀ m s op, Represents m s → True → Lists.Allowed s op →
      ∃ m', exec m op = .ok (m', (Lists.step s op).2) ∧ Represents m' (Lists.step s op).1 :=
    fun m s op hrep _ hallowed => exec_refines hrep hallowed
  obtain ⟨m, hrun, hrep⟩ := run_refines Represents hstep represents_ready
    (guarded_of_forall (G := fun _ _ => True) fun _ _ => trivial) hlegal
  exact ⟨m, hrun, fun fuel h hfuel => ⟨foreach_eq (hrep.ring h) hfuel, foreach_reverse_eq (hrep.ring h) hfuel⟩⟩

/-- Two queues of two and one, put together, and the first element taken out. -/
theorem macros_refine_lists_two :
    ∃ m, run exec ready [.create 5, .create 6, .create 7, .insert_tail 0 5, .insert_head 0 6, .insert_head 1 7,
        .concat 0 1, .prev 0 7, .last 0, .remove 0 6, .foreach_reverse 3 0] =
      .ok (m, [.done, .done, .done, .done, .done, .done, .done, .found (some 5), .found (some 7), .done,
        .met [7, 5]]) := by
  have hlegal : Legal Lists.step Lists.Allowed Lists.empty [.create 5, .create 6, .create 7, .insert_tail 0 5,
      .insert_head 0 6, .insert_head 1 7, .concat 0 1, .prev 0 7, .last 0, .remove 0 6, .foreach_reverse 3 0] := by
    decide
  obtain ⟨m, hrun, _⟩ := macros_refine_lists hlegal
  exact ⟨m, hrun⟩

end code_tools.queue
