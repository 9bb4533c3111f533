import Mathlib.Tactic.Common

/-!
# Machines that run commands one after another

A machine is a step function that may fault. The rules below carry facts about
one step to facts about a whole run of any length.
-/

namespace machine

variable {σ τ ι ο ω ε : Type*}

/-- Feed the commands to the step function in order and collect the outputs.
    The first fault ends the run. -/
def run (step : σ → ι → Except ε (σ × ο)) : σ → List ι → Except ε (σ × List ο)
  | s, [] => .ok (s, [])
  | s, i :: is =>
    match step s i with
    | .error e => .error e
    | .ok (s', o) =>
      match run step s' is with
      | .error e => .error e
      | .ok (s'', os) => .ok (s'', o :: os)

@[simp] theorem run_nil (step : σ → ι → Except ε (σ × ο)) (s : σ) :
    run step s [] = .ok (s, []) := rfl

/-- A nonempty run succeeds exactly when its first step and the run after it do. -/
theorem run_cons_eq_ok_iff {step : σ → ι → Except ε (σ × ο)} {s s'' : σ} {i : ι} {is : List ι}
    {os : List ο} :
    run step s (i :: is) = .ok (s'', os) ↔
      ∃ s' o os', step s i = .ok (s', o) ∧ run step s' is = .ok (s'', os') ∧ os = o :: os' := by
  constructor
  · intro h
    cases hstep : step s i with
    | error e => simp [run, hstep] at h
    | ok r =>
      obtain ⟨s', o⟩ := r
      cases hrun : run step s' is with
      | error e => simp [run, hstep, hrun] at h
      | ok r' =>
        obtain ⟨t, os'⟩ := r'
        simp only [run, hstep, hrun, Except.ok.injEq, Prod.mk.injEq] at h
        exact ⟨s', o, os', rfl, by rw [hrun, h.1], h.2.symm⟩
  · rintro ⟨s', o, os', hstep, hrun, rfl⟩
    simp only [run, hstep, hrun]

/-- A run over two command lists is the run over the first followed by the run
    over the second from the state reached. -/
theorem run_append_eq_ok_iff {step : σ → ι → Except ε (σ × ο)} {s s'' : σ} {is js : List ι}
    {os : List ο} :
    run step s (is ++ js) = .ok (s'', os) ↔
      ∃ s' os₁ os₂, run step s is = .ok (s', os₁) ∧ run step s' js = .ok (s'', os₂) ∧
        os = os₁ ++ os₂ := by
  induction is generalizing s os with
  | nil => simp
  | cons i is ih =>
    rw [List.cons_append, run_cons_eq_ok_iff]
    constructor
    · rintro ⟨s', o, os', hstep, hrun, rfl⟩
      obtain ⟨t, os₁, os₂, h₁, h₂, rfl⟩ := ih.mp hrun
      exact ⟨t, o :: os₁, os₂, run_cons_eq_ok_iff.mpr ⟨s', o, os₁, hstep, h₁, rfl⟩, h₂, rfl⟩
    · rintro ⟨t, os₁, os₂, h₁, h₂, rfl⟩
      obtain ⟨s', o, os', hstep, hrun, rfl⟩ := run_cons_eq_ok_iff.mp h₁
      exact ⟨s', o, os' ++ os₂, hstep, ih.mpr ⟨t, os', os₂, hrun, h₂, rfl⟩, rfl⟩

/-- Commands that are written in another way. -/
theorem run_map {κ : Type*} {step : σ → ι → Except ε (σ × ο)} (f : κ → ι) (s : σ) (ks : List κ) :
    run step s (ks.map f) = run (fun s k => step s (f k)) s ks := by
  induction ks generalizing s with
  | nil => rfl
  | cons k ks ih => simp only [List.map_cons, run, ih]

/-- A computation on a concrete input can be evaluated for a view of its result. -/
theorem eq_ok_of_view {α υ : Type*} {x : Except ε α} (view : α → υ) {v : υ}
    (hview : x.toOption.map view = some v) : ∃ r, x = .ok r ∧ view r = v := by
  cases x with
  | error e => simp [Except.toOption] at hview
  | ok r => exact ⟨r, rfl, Option.some.inj hview⟩

/-- A run on a concrete input can be evaluated for its outputs alone. -/
theorem run_of_outputs {step : σ → ι → Except ε (σ × ο)} {s : σ} {is : List ι} {os : List ο}
    (houtputs : (run step s is).toOption.map Prod.snd = some os) :
    ∃ s', run step s is = .ok (s', os) := by
  obtain ⟨⟨s', os'⟩, hrun, rfl⟩ := eq_ok_of_view Prod.snd houtputs
  exact ⟨s', hrun⟩

/-- A run on a concrete input can be evaluated for a view of the state it reaches. -/
theorem run_of_view {υ : Type*} {step : σ → ι → Except ε (σ × ο)} {s : σ} {is : List ι} (view : σ → υ) {v : υ}
    (hview : (run step s is).toOption.map (fun r => view r.1) = some v) :
    ∃ s' os, run step s is = .ok (s', os) ∧ view s' = v := by
  obtain ⟨⟨s', os⟩, hrun, hv⟩ := eq_ok_of_view (fun r : σ × List ο => view r.1) hview
  exact ⟨s', os, hrun, hv⟩

/-- Every step of the run is taken in a state that meets `G` for its command.
    Nothing is asked of the steps after a fault. -/
def Guarded (step : σ → ι → Except ε (σ × ο)) (G : σ → ι → Prop) : σ → List ι → Prop
  | _, [] => True
  | s, i :: is => G s i ∧ ∀ s' o, step s i = .ok (s', o) → Guarded step G s' is

instance Guarded.decidable {step : σ → ι → Except ε (σ × ο)} {G : σ → ι → Prop}
    [hdec : ∀ s i, Decidable (G s i)] : ∀ s is, Decidable (Guarded step G s is)
  | _, [] => isTrue trivial
  | s, i :: is =>
    match hstep : step s i with
    | .error _ =>
      decidable_of_iff (G s i)
        ⟨fun hG => ⟨hG, fun _ _ heq => by rw [hstep] at heq; cases heq⟩, And.left⟩
    | .ok (s', o) =>
      have : Decidable (Guarded step G s' is) := Guarded.decidable s' is
      decidable_of_iff (G s i ∧ Guarded step G s' is)
        ⟨fun h => ⟨h.1, fun _ _ heq => by rw [hstep] at heq; cases heq; exact h.2⟩,
          fun h => ⟨h.1, h.2 s' o hstep⟩⟩

theorem guarded_of_forall {step : σ → ι → Except ε (σ × ο)} {G : σ → ι → Prop} (hall : ∀ s i, G s i)
    {s : σ} {is : List ι} : Guarded step G s is := by
  induction is generalizing s with
  | nil => trivial
  | cons i is ih => exact ⟨hall s i, fun _ _ _ => ih⟩

/-- A guarded run is guarded as far as any of its states. -/
theorem Guarded.append_left {step : σ → ι → Except ε (σ × ο)} {G : σ → ι → Prop} {s : σ} {is js : List ι}
    (hG : Guarded step G s (is ++ js)) : Guarded step G s is := by
  induction is generalizing s with
  | nil => trivial
  | cons i is ih => exact ⟨hG.1, fun s' o hs => ih (hG.2 s' o hs)⟩

/-- A condition on the commands alone. -/
theorem guarded_of_mem {step : σ → ι → Except ε (σ × ο)} {G : σ → ι → Prop} {s : σ} {is : List ι}
    (hall : ∀ i ∈ is, ∀ s, G s i) : Guarded step G s is := by
  induction is generalizing s with
  | nil => trivial
  | cons i is ih =>
    exact ⟨hall i List.mem_cons_self s, fun _ _ _ => ih fun j hj => hall j (List.mem_cons_of_mem i hj)⟩

/-- What guarded steps keep holds wherever a guarded run leads. -/
theorem run_keeps {step : σ → ι → Except ε (σ × ο)} {G : σ → ι → Prop} (P : σ → Prop)
    (hstep : ∀ s i s' o, P s → G s i → step s i = .ok (s', o) → P s') {s s' : σ} {is : List ι} {os : List ο}
    (hP : P s) (hG : Guarded step G s is) (hrun : run step s is = .ok (s', os)) : P s' := by
  induction is generalizing s os with
  | nil =>
    obtain ⟨rfl, _⟩ := by simpa using hrun
    exact hP
  | cons i is ih =>
    obtain ⟨t, o, os', hs, hr, _⟩ := run_cons_eq_ok_iff.mp hrun
    exact ih (hstep s i t o hP hG.1 hs) (hG.2 t o hs) hr

/-- What every step keeps holds wherever a run leads. -/
theorem run_invariant {step : σ → ι → Except ε (σ × ο)} (P : σ → Prop)
    (hstep : ∀ s i s' o, P s → step s i = .ok (s', o) → P s') {s s' : σ} {is : List ι} {os : List ο}
    (hP : P s) (hrun : run step s is = .ok (s', os)) : P s' :=
  run_keeps (G := fun _ _ => True) P (fun s i s' o hP _ hs => hstep s i s' o hP hs) hP
    (guarded_of_forall fun _ _ => trivial) hrun

/-- What is kept by the commands of a kind holds after any of them. -/
theorem run_keeps_of_mem {step : σ → ι → Except ε (σ × ο)} {C : ι → Prop} (P : σ → Prop)
    (hstep : ∀ s i s' o, P s → C i → step s i = .ok (s', o) → P s') {s s' : σ} {is : List ι} {os : List ο}
    (hP : P s) (hall : ∀ i ∈ is, C i) (hrun : run step s is = .ok (s', os)) : P s' :=
  run_keeps (G := fun _ i => C i) P hstep hP (guarded_of_mem fun i hi _ => hall i hi) hrun

/-- A state without a step is the end of its run. -/
theorem run_stopped {step : σ → ι → Except ε (σ × ο)} {s s' : σ} {is : List ι} {os : List ο}
    (hstop : ∀ i r, step s i ≠ .ok r) (hrun : run step s is = .ok (s', os)) : is = [] ∧ s' = s := by
  cases is with
  | nil =>
    obtain ⟨rfl, _⟩ := by simpa using hrun
    exact ⟨rfl, rfl⟩
  | cons i is =>
    obtain ⟨t, o, _, hs, _⟩ := run_cons_eq_ok_iff.mp hrun
    exact absurd hs (hstop i (t, o))

/-- A guarded run faults only where one of its steps does, in a state with the
    property that guarded steps keep. -/
theorem run_fault {step : σ → ι → Except ε (σ × ο)} {G : σ → ι → Prop} (P : σ → Prop)
    (hstep : ∀ s i s' o, P s → G s i → step s i = .ok (s', o) → P s') {s : σ} {is : List ι} {e : ε}
    (hP : P s) (hG : Guarded step G s is) (hrun : run step s is = .error e) :
    ∃ s' i, P s' ∧ G s' i ∧ step s' i = .error e := by
  induction is generalizing s with
  | nil => simp at hrun
  | cons i is ih =>
    cases hs : step s i with
    | error e' =>
      simp only [run, hs, Except.error.injEq] at hrun
      exact ⟨s, i, hP, hG.1, by rw [hs, hrun]⟩
    | ok r =>
      obtain ⟨t, o⟩ := r
      refine ih (hstep s i t o hP hG.1 hs) (hG.2 t o hs) ?_
      cases hr : run step t is with
      | error e' => simpa only [run, hs, hr] using hrun
      | ok r' => simp [run, hs, hr] at hrun

/-- What guarded steps keep holds all along a guarded run. -/
theorem Guarded.preserved {step : σ → ι → Except ε (σ × ο)} {G : σ → ι → Prop} (P : σ → Prop)
    (hstep : ∀ s i s' o, P s → G s i → step s i = .ok (s', o) → P s') {s : σ} {is : List ι} (hP : P s)
    (hG : Guarded step G s is) : ∀ js, js <+: is → ∀ s' os, run step s js = .ok (s', os) → P s' := by
  rintro js ⟨ks, rfl⟩ s' os hrun
  exact run_keeps P hstep hP hG.append_left hrun

/-- One guard in place of another, where what the first keeps makes the second hold. -/
theorem Guarded.imp {step : σ → ι → Except ε (σ × ο)} {G G' : σ → ι → Prop} (P : σ → Prop)
    (hstep : ∀ s i s' o, P s → G s i → step s i = .ok (s', o) → P s') (himp : ∀ s i, P s → G s i → G' s i)
    {s : σ} {is : List ι} (hP : P s) (hG : Guarded step G s is) : Guarded step G' s is := by
  induction is generalizing s with
  | nil => trivial
  | cons i is ih => exact ⟨himp s i hP hG.1, fun s' o hs => ih (hstep s i s' o hP hG.1 hs) (hG.2 s' o hs)⟩

/-- What guarded steps put out. -/
theorem run_emits {step : σ → ι → Except ε (σ × ο)} {G : σ → ι → Prop} (P : σ → Prop) (Q : ο → Prop)
    (hstep : ∀ s i s' o, P s → G s i → step s i = .ok (s', o) → P s' ∧ Q o) {s s' : σ} {is : List ι}
    {os : List ο} (hP : P s) (hG : Guarded step G s is) (hrun : run step s is = .ok (s', os)) : ∀ o ∈ os, Q o := by
  induction is generalizing s os with
  | nil =>
    obtain ⟨_, rfl⟩ := Prod.mk.inj (Except.ok.inj hrun)
    nofun
  | cons i is ih =>
    obtain ⟨t, o, os', hs, hr, rfl⟩ := run_cons_eq_ok_iff.mp hrun
    obtain ⟨ht, ho⟩ := hstep s i t o hP hG.1 hs
    intro o' ho'
    rcases List.mem_cons.mp ho' with rfl | ho'
    · exact ho
    · exact ih ht (hG.2 t o hs) hr o' ho'

/-- What holds all along a run holds after its first step and all along the rest. -/
theorem preserved_cons {step : σ → ι → Except ε (σ × ο)} {P : σ → Prop} {s t : σ} {i : ι} {o : ο} {is : List ι}
    (hall : ∀ js, js <+: i :: is → ∀ s' os, run step s js = .ok (s', os) → P s') (hs : step s i = .ok (t, o)) :
    P t ∧ ∀ js, js <+: is → ∀ s' os, run step t js = .ok (s', os) → P s' := by
  constructor
  · exact hall [i] ⟨is, rfl⟩ t [o] (run_cons_eq_ok_iff.mpr ⟨t, o, [], hs, rfl, rfl⟩)
  · intro js hjs s' os hrun
    exact hall (i :: js) (List.cons_prefix_cons.mpr ⟨rfl, hjs⟩) s' (o :: os)
      (run_cons_eq_ok_iff.mpr ⟨t, o, os, hs, hrun, rfl⟩)

/-- Where a step keeps the property exactly when its guard holds, the guard at
    every step is also necessary for the property to hold all along the run. -/
theorem guarded_iff_preserved {step : σ → ι → Except ε (σ × ο)} {G : σ → ι → Prop} (P : σ → Prop)
    (hfault : ∀ s i e, P s → step s i = .error e → G s i)
    (hstep : ∀ s i s' o, P s → step s i = .ok (s', o) → (P s' ↔ G s i))
    {s : σ} (hP : P s) (is : List ι) :
    Guarded step G s is ↔
      ∀ js, js <+: is → ∀ s' os, run step s js = .ok (s', os) → P s' := by
  constructor
  · exact Guarded.preserved P (fun s i s' o hP hG hs => (hstep s i s' o hP hs).mpr hG) hP
  · intro hall
    induction is generalizing s with
    | nil => trivial
    | cons i is ih =>
      refine ⟨?_, fun t o hs => ih (preserved_cons hall hs).1 (preserved_cons hall hs).2⟩
      cases hs : step s i with
      | error e => exact hfault s i e hP hs
      | ok r => exact (hstep s i r.1 r.2 hP hs).mp (preserved_cons hall hs).1

/-- A successful step followed by a run is guarded where both are. -/
theorem guarded_cons_iff {step : σ → ι → Except ε (σ × ο)} {G : σ → ι → Prop} {s s' : σ} {i : ι} {o : ο}
    {is : List ι} (hs : step s i = .ok (s', o)) :
    Guarded step G s (i :: is) ↔ G s i ∧ Guarded step G s' is := by
  constructor
  · exact fun hG => ⟨hG.1, hG.2 s' o hs⟩
  · rintro ⟨hG, hnext⟩
    refine ⟨hG, fun t o' ht => ?_⟩
    rw [hs] at ht
    cases ht
    exact hnext

/-- What guarded steps keep holds after a guarded run. If every other step brings
    about what no step undoes, that holds after every other run. -/
theorem run_splits {step : σ → ι → Except ε (σ × ο)} {G : σ → ι → Prop} (P B : σ → Prop)
    (hkeep : ∀ s i s' o, P s → G s i → step s i = .ok (s', o) → P s')
    (hspoil : ∀ s i s' o, P s → ¬G s i → step s i = .ok (s', o) → B s')
    (hstay : ∀ s i s' o, B s → step s i = .ok (s', o) → B s')
    {s s' : σ} {is : List ι} {os : List ο} (hP : P s) (hrun : run step s is = .ok (s', os)) :
    (Guarded step G s is → P s') ∧ (¬Guarded step G s is → B s') := by
  refine ⟨fun hG => run_keeps P hkeep hP hG hrun, ?_⟩
  induction is generalizing s os with
  | nil => exact fun hG => absurd trivial hG
  | cons i is ih =>
    obtain ⟨t, o, os', hs, hr, _⟩ := run_cons_eq_ok_iff.mp hrun
    intro hnot
    by_cases hG : G s i
    · refine ih (hkeep s i t o hP hG hs) hr fun hnext => hnot ?_
      exact (guarded_cons_iff hs).mpr ⟨hG, hnext⟩
    · exact run_keeps B (fun s i s' o hB _ hs => hstay s i s' o hB hs) (hspoil s i t o hP hG hs)
        (guarded_of_forall (G := fun _ _ => True) fun _ _ => trivial) hr

/-- A count that guarded steps keep and all others raise is kept by the guarded
    runs and by no others. -/
theorem run_counts {step : σ → ι → Except ε (σ × ο)} {G : σ → ι → Prop} (P : σ → Nat → Prop)
    (hkeep : ∀ s i s' o n, P s n → G s i → step s i = .ok (s', o) → P s' n)
    (hraise : ∀ s i s' o n, P s n → ¬G s i → step s i = .ok (s', o) → P s' (n + 1))
    {s s' : σ} {is : List ι} {os : List ο} {n : Nat} (hP : P s n) (hrun : run step s is = .ok (s', os)) :
    ∃ m, n ≤ m ∧ P s' m ∧ (m = n ↔ Guarded step G s is) := by
  induction is generalizing s os n with
  | nil =>
    obtain ⟨rfl, _⟩ := by simpa using hrun
    exact ⟨n, Nat.le_refl n, hP, fun _ => trivial, fun _ => rfl⟩
  | cons i is ih =>
    obtain ⟨t, o, os', hs, hr, _⟩ := run_cons_eq_ok_iff.mp hrun
    rw [guarded_cons_iff hs]
    by_cases hG : G s i
    · obtain ⟨m, hle, hPm, hiff⟩ := ih (hkeep s i t o n hP hG hs) hr
      exact ⟨m, hle, hPm, hiff.trans ⟨fun hnext => ⟨hG, hnext⟩, And.right⟩⟩
    · obtain ⟨m, hle, hPm, _⟩ := ih (hraise s i t o n hP hG hs) hr
      exact ⟨m, by omega, hPm, fun heq => by omega, fun hguarded => absurd hguarded.1 hG⟩

/-- Of a run that succeeds nothing has to be known about faults. -/
theorem run_guarded_iff {step : σ → ι → Except ε (σ × ο)} {G : σ → ι → Prop} (P : σ → Prop)
    (hstep : ∀ s i s' o, P s → step s i = .ok (s', o) → (P s' ↔ G s i))
    {s s' : σ} {is : List ι} {os : List ο} (hP : P s) (hrun : run step s is = .ok (s', os)) :
    Guarded step G s is ↔ ∀ js, js <+: is → ∀ t os, run step s js = .ok (t, os) → P t := by
  constructor
  · exact Guarded.preserved P (fun s i s' o hP hG hs => (hstep s i s' o hP hs).mpr hG) hP
  · intro hall
    induction is generalizing s os with
    | nil => trivial
    | cons i is ih =>
      obtain ⟨t, o, os', hs, hr, _⟩ := run_cons_eq_ok_iff.mp hrun
      obtain ⟨ht, hrest⟩ := preserved_cons hall hs
      exact (guarded_cons_iff hs).mpr ⟨(hstep s i t o hP hs).mp ht, ih ht hr hrest⟩

/-! ## Following a run from outside -/

/-- What an observer makes of the commands and the outputs of a run. -/
def observed (after : τ → ι → ο → τ) : τ → List ι → List ο → τ
  | t, i :: is, o :: os => observed after (after t i o) is os
  | t, _, _ => t

/-- If each guarded step succeeds and keeps the relation to what the observer
    makes of it, so does every guarded run. -/
theorem run_observed {step : σ → ι → Except ε (σ × ο)} {G : σ → ι → Prop} (after : τ → ι → ο → τ)
    (R : σ → τ → Prop)
    (hstep : ∀ s t i, R s t → G s i → ∃ s' o, step s i = .ok (s', o) ∧ R s' (after t i o))
    {s : σ} {t : τ} {is : List ι} (hR : R s t) (hG : Guarded step G s is) :
    ∃ s' os, run step s is = .ok (s', os) ∧ R s' (observed after t is os) := by
  induction is generalizing s t with
  | nil => exact ⟨s, [], rfl, hR⟩
  | cons i is ih =>
    obtain ⟨s', o, hs, hR'⟩ := hstep s t i hR hG.1
    obtain ⟨s'', os, hrun, hR''⟩ := ih hR' (hG.2 s' o hs)
    exact ⟨s'', o :: os, run_cons_eq_ok_iff.mpr ⟨s', o, os, hs, hrun, rfl⟩, hR''⟩

/-- If each step that succeeds keeps the relation, so does every run that does. -/
theorem observed_of_run {step : σ → ι → Except ε (σ × ο)} (after : τ → ι → ο → τ) (R : σ → τ → Prop)
    (hstep : ∀ s t i s' o, R s t → step s i = .ok (s', o) → R s' (after t i o))
    {s s' : σ} {t : τ} {is : List ι} {os : List ο} (hR : R s t) (hrun : run step s is = .ok (s', os)) :
    R s' (observed after t is os) := by
  induction is generalizing s t os with
  | nil =>
    obtain ⟨rfl, rfl⟩ := Prod.mk.inj (Except.ok.inj hrun)
    exact hR
  | cons i is ih =>
    obtain ⟨s₁, o, os', hs, hr, rfl⟩ := run_cons_eq_ok_iff.mp hrun
    exact ih (hstep s t i s₁ o hR hs) hr

/-! ## What the steps of a run were -/

/-- The labels of the steps of a run, in order. -/
def labels {κ : Type*} (step : σ → ι → Except ε (σ × ο)) (label : σ → ι → κ) : σ → List ι → List κ
  | _, [] => []
  | s, i :: is =>
    label s i :: match step s i with
      | .error _ => []
      | .ok (s', _) => labels step label s' is

theorem labels_cons {κ : Type*} {step : σ → ι → Except ε (σ × ο)} (label : σ → ι → κ) {s s' : σ} {i : ι} {o : ο}
    (hs : step s i = .ok (s', o)) (is : List ι) :
    labels step label s (i :: is) = label s i :: labels step label s' is := by rw [labels, hs]

/-! ## Refinement of a total machine -/

/-- The run of a machine that never faults. -/
def runTotal (spec : τ → ι → τ × ο) : τ → List ι → τ × List ο
  | t, [] => (t, [])
  | t, i :: is =>
    let (t', o) := spec t i
    let (t'', os) := runTotal spec t' is
    (t'', o :: os)

/-- Every command is legal in the state of the total machine it is given to. -/
def Legal (spec : τ → ι → τ × ο) (L : τ → ι → Prop) : τ → List ι → Prop
  | _, [] => True
  | t, i :: is => L t i ∧ Legal spec L (spec t i).1 is

instance Legal.decidable {spec : τ → ι → τ × ο} {L : τ → ι → Prop}
    [hdec : ∀ t i, Decidable (L t i)] : ∀ t is, Decidable (Legal spec L t is)
  | _, [] => isTrue trivial
  | t, i :: is =>
    have : Decidable (Legal spec L (spec t i).1 is) := Legal.decidable _ is
    inferInstanceAs (Decidable (L t i ∧ Legal spec L (spec t i).1 is))

/-- Forward simulation: if each legal and guarded step succeeds, shows what the
    specification returns and restores the relation, so does every run. -/
theorem run_simulates {step : σ → ι → Except ε (σ × ω)} {spec : τ → ι → τ × ο}
    {G : σ → ι → Prop} {L : τ → ι → Prop} (obs : ω → ο) (R : σ → τ → Prop)
    (hstep : ∀ s t i, R s t → G s i → L t i →
      ∃ s' o, step s i = .ok (s', o) ∧ obs o = (spec t i).2 ∧ R s' (spec t i).1)
    {s : σ} {t : τ} {is : List ι} (hR : R s t) (hG : Guarded step G s is)
    (hL : Legal spec L t is) :
    ∃ s' os, run step s is = .ok (s', os) ∧ os.map obs = (runTotal spec t is).2 ∧
      R s' (runTotal spec t is).1 := by
  induction is generalizing s t with
  | nil => exact ⟨s, [], rfl, rfl, hR⟩
  | cons i is ih =>
    obtain ⟨s', o, hs, hobs, hR'⟩ := hstep s t i hR hG.1 hL.1
    obtain ⟨s'', os, hrun, hobs', hR''⟩ := ih hR' (hG.2 s' o hs) hL.2
    refine ⟨s'', o :: os, run_cons_eq_ok_iff.mpr ⟨s', o, os, hs, hrun, rfl⟩, ?_, hR''⟩
    rw [List.map_cons, hobs, hobs']
    rfl

/-- Forward simulation where the outputs are compared as they are. -/
theorem run_refines {step : σ → ι → Except ε (σ × ο)} {spec : τ → ι → τ × ο}
    {G : σ → ι → Prop} {L : τ → ι → Prop} (R : σ → τ → Prop)
    (hstep : ∀ s t i, R s t → G s i → L t i →
      ∃ s', step s i = .ok (s', (spec t i).2) ∧ R s' (spec t i).1)
    {s : σ} {t : τ} {is : List ι} (hR : R s t) (hG : Guarded step G s is)
    (hL : Legal spec L t is) :
    ∃ s', run step s is = .ok (s', (runTotal spec t is).2) ∧ R s' (runTotal spec t is).1 := by
  have hstep' : ∀ s t i, R s t → G s i → L t i →
      ∃ s' o, step s i = .ok (s', o) ∧ id o = (spec t i).2 ∧ R s' (spec t i).1 := by
    intro s t i hR hG hL
    obtain ⟨s', hs, hR'⟩ := hstep s t i hR hG hL
    exact ⟨s', _, hs, rfl, hR'⟩
  obtain ⟨s', os, hrun, hobs, hR'⟩ := run_simulates id R hstep' hR hG hL
  rw [List.map_id] at hobs
  exact ⟨s', hobs ▸ hrun, hR'⟩

end machine
