import CodeTools.Lib.Machine

/-!
# Two machines in lockstep

Two machines that fault alike and return the same outputs step by step cannot be
told apart by any run.
-/

namespace machine

variable {ε : Type} {σ τ υ ο ω σ' τ' α : Type} {ι : Type*}

/-- Both computations end in the same fault, or with the same output in related
    states. -/
inductive Lockstep (R : σ → τ → Prop) : Except ε (σ × ο) → Except ε (τ × ο) → Prop
  | error (e : ε) : Lockstep R (.error e) (.error e)
  | ok {s : σ} {t : τ} (o : ο) (hR : R s t) : Lockstep R (.ok (s, o)) (.ok (t, o))

/-- Both computations end in the same fault, or in related results. -/
inductive Matched {α β : Type} (R : α → β → Prop) : Except ε α → Except ε β → Prop
  | error (e : ε) : Matched R (.error e) (.error e)
  | ok {a : α} {b : β} (hR : R a b) : Matched R (.ok a) (.ok b)

/-- What follows on related results. -/
theorem Matched.bind {α β : Type} {R : α → β → Prop} {Q : σ → τ → Prop} {x : Except ε α} {y : Except ε β}
    {f : α → Except ε (σ × ο)} {g : β → Except ε (τ × ο)} (hmatched : Matched R x y)
    (hnext : ∀ a b, R a b → Lockstep Q (f a) (g b)) : Lockstep Q (x >>= f) (y >>= g) := by
  cases hmatched with
  | error e => exact .error e
  | ok hR => exact hnext _ _ hR

namespace Lockstep

variable {R : σ → τ → Prop} {x : Except ε (σ × ο)} {y : Except ε (τ × ο)}

theorem cases_eq (hlock : Lockstep R x y) :
    (∃ e, x = .error e ∧ y = .error e) ∨ ∃ s t o, x = .ok (s, o) ∧ y = .ok (t, o) ∧ R s t := by
  cases hlock with
  | error e => exact Or.inl ⟨e, rfl, rfl⟩
  | ok o hR => exact Or.inr ⟨_, _, o, rfl, rfl, hR⟩

theorem mono {Q : σ → τ → Prop} (hlock : Lockstep R x y) (himp : ∀ s t, R s t → Q s t) : Lockstep Q x y := by
  cases hlock with
  | error e => exact .error e
  | ok o hR => exact .ok o (himp _ _ hR)

theorem symm (hlock : Lockstep R x y) : Lockstep (fun t s => R s t) y x := by
  cases hlock with
  | error e => exact .error e
  | ok o hR => exact .ok o hR

theorem trans {Q : τ → υ → Prop} {z : Except ε (υ × ο)} (hlock : Lockstep R x y) (hnext : Lockstep Q y z) :
    Lockstep (fun s u => ∃ t, R s t ∧ Q t u) x z := by
  cases hlock with
  | error e =>
    cases hnext
    exact .error e
  | ok o hR =>
    cases hnext with
    | ok _ hQ => exact .ok o ⟨_, hR, hQ⟩

/-- The rule for sequences: what follows starts from related states and the same
    output. -/
theorem bind {Q : σ' → τ' → Prop} {f : σ × ο → Except ε (σ' × ω)} {g : τ × ο → Except ε (τ' × ω)}
    (hlock : Lockstep R x y) (hnext : ∀ s t o, R s t → Lockstep Q (f (s, o)) (g (t, o))) :
    Lockstep Q (x >>= f) (y >>= g) := by
  cases hlock with
  | error e => exact .error e
  | ok o hR => exact hnext _ _ o hR

/-- A computation that both sides make on the same data. -/
theorem bind_same {f : α → Except ε (σ × ο)} {g : α → Except ε (τ × ο)} (z : Except ε α)
    (hnext : ∀ a, Lockstep R (f a) (g a)) : Lockstep R (z >>= f) (z >>= g) := by
  cases z with
  | error e => exact .error e
  | ok a => exact hnext a

theorem outputs (hlock : Lockstep R x y) : x.map Prod.snd = y.map Prod.snd := by
  cases hlock with
  | error e => rfl
  | ok o hR => rfl

theorem of_ok (hlock : Lockstep R x y) {s : σ} {o : ο} (hx : x = .ok (s, o)) :
    ∃ t, y = .ok (t, o) ∧ R s t := by
  cases hlock with
  | error e => cases hx
  | ok o hR =>
    obtain ⟨rfl, rfl⟩ := Prod.mk.inj (Except.ok.inj hx)
    exact ⟨_, rfl, hR⟩

/-- Steps in lockstep make runs in lockstep. -/
theorem run {step : σ → ι → Except ε (σ × ο)} {step' : τ → ι → Except ε (τ × ο)} {s : σ} {t : τ} {is : List ι}
    (hstep : ∀ i ∈ is, ∀ s t, R s t → Lockstep R (step s i) (step' t i)) (hR : R s t) :
    Lockstep R (machine.run step s is) (machine.run step' t is) := by
  induction is generalizing s t with
  | nil => exact .ok [] hR
  | cons i is ih =>
    unfold machine.run
    rcases (hstep i List.mem_cons_self s t hR).cases_eq with ⟨e, hs, ht⟩ | ⟨s', t', o, hs, ht, hR'⟩
    · rw [hs, ht]
      exact .error e
    rw [hs, ht]
    dsimp only
    rcases (ih (fun j hj => hstep j (List.mem_cons_of_mem i hj)) hR').cases_eq with
      ⟨e, hs', ht'⟩ | ⟨s'', t'', os, hs', ht', hR''⟩
    · rw [hs', ht']
      exact .error e
    · rw [hs', ht']
      exact .ok (o :: os) hR''

end Lockstep

end machine
