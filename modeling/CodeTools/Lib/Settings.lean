import Mathlib.Data.List.Basic
import Mathlib.Logic.Function.Basic

/-!
# Settings that stay until they are made again

A setting has a key. For each key the last setting counts.
-/

namespace settings

variable {K V : Type*} [DecidableEq K] {key : V → K}

/-- The settings in force after some were made, the first of them first. -/
def settle (key : V → K) (m : K → Option V) (vs : List V) : K → Option V :=
  vs.foldl (fun m v => Function.update m (key v) (some v)) m

theorem settle_append (m : K → Option V) (us vs : List V) :
    settle key m (us ++ vs) = settle key (settle key m us) vs :=
  List.foldl_append

theorem settle_of_notMem {m : K → Option V} {vs : List V} {k : K} (hk : k ∉ vs.map key) :
    settle key m vs k = m k := by
  induction vs generalizing m with
  | nil => rfl
  | cons v vs ih =>
    rw [List.map_cons, List.mem_cons, not_or] at hk
    exact (ih hk.2).trans (Function.update_of_ne hk.1 _ _)

/-- A setting that was made does not depend on those before. -/
theorem settle_of_mem (m m' : K → Option V) {vs : List V} {k : K} (hk : k ∈ vs.map key) :
    settle key m vs k = settle key m' vs k ∧ settle key m vs k ≠ none := by
  induction vs generalizing m m' with
  | nil => cases hk
  | cons v vs ih =>
    by_cases hlater : k ∈ vs.map key
    · exact ih _ _ hlater
    · obtain rfl := (List.mem_cons.mp hk).resolve_right hlater
      have hlast : ∀ m : K → Option V, settle key m (v :: vs) (key v) = some v :=
        fun m => (settle_of_notMem hlater).trans (Function.update_self _ _ _)
      rw [hlast, hlast]
      exact ⟨rfl, nofun⟩

/-- What was set before is forgotten exactly if it is all set again. -/
theorem settle_eq_iff (us vs : List V) :
    settle key (settle key (fun _ => none) us) vs = settle key (fun _ => none) vs ↔
      ∀ u ∈ us, key u ∈ vs.map key := by
  constructor
  · intro heq u hu
    by_contra hk
    have hvalue := congrFun heq (key u)
    rw [settle_of_notMem hk, settle_of_notMem hk] at hvalue
    exact (settle_of_mem _ (fun _ => none) (List.mem_map_of_mem hu)).2 hvalue
  · intro hall
    funext k
    by_cases hk : k ∈ vs.map key
    · exact (settle_of_mem _ _ hk).1
    · have hnone : k ∉ us.map key := by
        intro hmem
        obtain ⟨u, hu, rfl⟩ := List.mem_map.mp hmem
        exact hk (hall u hu)
      rw [settle_of_notMem hk, settle_of_notMem hk, settle_of_notMem hnone]

end settings
