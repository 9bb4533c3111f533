import Mathlib.Data.List.Basic
import Mathlib.Data.List.Nodup
import Mathlib.Logic.Function.Basic

/-!
# Lists with keys

A list of items with distinct keys is a finite map, whatever the order of its items.
-/

namespace keyed

variable {ε κ ν : Type*} [DecidableEq κ] (key : ε → κ) (val : ε → ν)

/-- The value of the first item with the key. -/
def table (items : List ε) (k : κ) : Option ν := (items.find? (key · = k)).map val

variable {key val} {items items' front back : List ε} {e e' : ε} {k : κ} {v : ν}

theorem table_nil : table key val [] = fun _ => none := rfl

theorem table_cons : table key val (e :: items) = Function.update (table key val items) (key e) (some (val e)) := by
  funext k
  unfold table
  by_cases hk : key e = k
  · rw [List.find?_cons_of_pos (by simpa using hk), ← hk, Function.update_self]
    rfl
  · rw [List.find?_cons_of_neg (by simpa using hk), Function.update_of_ne (Ne.symm hk)]

theorem table_eq_none_iff : table key val items k = none ↔ ∀ e ∈ items, key e ≠ k := by
  simp [table]

theorem table_eq_some_iff (hdistinct : (items.map key).Nodup) :
    table key val items k = some v ↔ ∃ e ∈ items, key e = k ∧ val e = v := by
  constructor
  · intro hvalue
    obtain ⟨e, hfind, rfl⟩ := Option.map_eq_some_iff.mp hvalue
    exact ⟨e, List.mem_of_find?_eq_some hfind, by simpa using List.find?_some hfind, rfl⟩
  · rintro ⟨e, he, rfl, rfl⟩
    cases hfind : items.find? (key · = key e) with
    | none =>
      have hother := List.find?_eq_none.mp hfind e he
      simp at hother
    | some e' =>
      have hsame : key e' = key e := by simpa using List.find?_some hfind
      have heq : e' = e := List.inj_on_of_nodup_map hdistinct (List.mem_of_find?_eq_some hfind) he hsame
      rw [table, hfind, heq]
      rfl

/-- The order of the items makes no difference. -/
theorem table_perm (hdistinct : (items.map key).Nodup) (hperm : items.Perm items') :
    table key val items = table key val items' := by
  have hdistinct' : (items'.map key).Nodup := (hperm.map key).nodup_iff.mp hdistinct
  funext k
  apply Option.ext
  intro v
  rw [table_eq_some_iff hdistinct, table_eq_some_iff hdistinct']
  simp only [hperm.mem_iff]

theorem table_insert (hdistinct : ((front ++ e :: back).map key).Nodup) :
    table key val (front ++ e :: back) = Function.update (table key val (front ++ back)) (key e) (some (val e)) := by
  rw [table_perm hdistinct List.perm_middle, table_cons]

theorem table_replace (hdistinct : ((front ++ e :: back).map key).Nodup) (hkey : key e' = key e) :
    table key val (front ++ e' :: back) =
      Function.update (table key val (front ++ e :: back)) (key e) (some (val e')) := by
  have hdistinct' : ((front ++ e' :: back).map key).Nodup := by
    rwa [List.map_append, List.map_cons, hkey, ← List.map_cons, ← List.map_append]
  rw [table_insert hdistinct, table_insert hdistinct', hkey, Function.update_idem]

theorem table_remove (hdistinct : ((front ++ e :: back).map key).Nodup) :
    table key val (front ++ back) = Function.update (table key val (front ++ e :: back)) (key e) none := by
  have hperm : (e :: (front ++ back)).Perm (front ++ e :: back) := List.perm_middle.symm
  have hother : ∀ e' ∈ front ++ back, key e' ≠ key e := by
    have hcons := (hperm.map key).nodup_iff.mpr hdistinct
    rw [List.map_cons, List.nodup_cons] at hcons
    intro e' he' hsame
    exact hcons.1 (hsame ▸ List.mem_map_of_mem he')
  have hnone : table key val (front ++ back) (key e) = none := table_eq_none_iff.mpr hother
  rw [table_insert hdistinct, Function.update_idem, ← hnone, Function.update_eq_self]

end keyed
