import CodeTools.IniParser.Conf
import CodeTools.Lib.Keyed
import Mathlib.Data.List.Find
import Mathlib.Data.List.ReduceOption

/-!
# A dictionary as a finite map

The entries of a dictionary have distinct keys, so their slots make no difference to
a lookup.
-/

namespace code_tools.iniparser

open keyed

/-! ## The slot of a key -/

/-- The table with the first slot of the key changed, when there is one. -/
def update_slot (key : List UInt8) (hash : UInt32) (change : Entry → Option Entry) :
    List (Option Entry) → Option (List (Option Entry))
  | [] => none
  | none :: slots => (update_slot key hash change slots).map (none :: ·)
  | some e :: slots =>
    if e.matches key hash then some (change e :: slots) else (update_slot key hash change slots).map (some e :: ·)

theorem modify_slot_eq (key : List UInt8) (hash : UInt32) (val : Option (List UInt8)) (slots : List (Option Entry)) :
    modify_slot key hash val slots = update_slot key hash (fun e => some { e with val := val }) slots := by
  induction slots with
  | nil => rfl
  | cons slot slots ih => cases slot <;> simp [modify_slot, update_slot, ih]

section

variable {key : List UInt8} {hash : UInt32} {change : Entry → Option Entry} {slots slots' : List (Option Entry)}

theorem update_slot_some (hupdate : update_slot key hash change slots = some slots') :
    ∃ front e back, slots.reduceOption = front ++ e :: back ∧ e.matches key hash = true ∧
      slots'.reduceOption = front ++ ((change e).toList ++ back) ∧ slots'.length = slots.length := by
  induction slots generalizing slots' with
  | nil => cases hupdate
  | cons slot slots ih =>
    cases slot with
    | none =>
      obtain ⟨rest, hrest, rfl⟩ := Option.map_eq_some_iff.mp hupdate
      obtain ⟨front, e, back, hslots, hmatches, hrest, hlen⟩ := ih hrest
      exact ⟨front, e, back, hslots, hmatches, hrest, congrArg (· + 1) hlen⟩
    | some e =>
      rw [update_slot] at hupdate
      split at hupdate
      case isTrue hmatches =>
        obtain rfl := Option.some.inj hupdate
        refine ⟨[], e, slots.reduceOption, List.reduceOption_cons_of_some _ _, hmatches, ?_, rfl⟩
        cases change e with
        | none => rfl
        | some e' => exact List.reduceOption_cons_of_some _ _
      case isFalse =>
        obtain ⟨rest, hrest, rfl⟩ := Option.map_eq_some_iff.mp hupdate
        obtain ⟨front, e', back, hslots, hmatches, hrest, hlen⟩ := ih hrest
        refine ⟨e :: front, e', back, ?_, hmatches, ?_, congrArg (· + 1) hlen⟩
        · rw [List.reduceOption_cons_of_some, hslots, List.cons_append]
        · rw [List.reduceOption_cons_of_some, hrest, List.cons_append]

theorem update_slot_none (hupdate : update_slot key hash change slots = none) :
    ∀ e ∈ slots.reduceOption, e.matches key hash = false := by
  induction slots with
  | nil => exact nofun
  | cons slot slots ih =>
    cases slot with
    | none => exact ih (Option.map_eq_none_iff.mp hupdate)
    | some e =>
      rw [update_slot] at hupdate
      split at hupdate
      case isTrue => cases hupdate
      case isFalse hmatches =>
        rw [List.reduceOption_cons_of_some]
        exact List.forall_mem_cons.mpr ⟨by simpa using hmatches, ih (Option.map_eq_none_iff.mp hupdate)⟩

end

theorem insert_slot_entries (e : Entry) {slots : List (Option Entry)}
    (hroom : slots.countP Option.isSome < slots.length) :
    ∃ front back, slots.reduceOption = front ++ back ∧ (insert_slot e slots).reduceOption = front ++ e :: back := by
  induction slots with
  | nil => simp at hroom
  | cons slot slots ih =>
    cases slot with
    | none => exact ⟨[], slots.reduceOption, rfl, List.reduceOption_cons_of_some _ _⟩
    | some e' =>
      obtain ⟨front, back, hslots, hinsert⟩ := ih (by simpa using hroom)
      refine ⟨e' :: front, back, ?_, ?_⟩
      · rw [List.reduceOption_cons_of_some, hslots, List.cons_append]
      · rw [insert_slot, List.reduceOption_cons_of_some, hinsert, List.cons_append]

theorem countP_eq_length (slots : List (Option Entry)) :
    slots.countP Option.isSome = slots.reduceOption.length := by
  induction slots with
  | nil => rfl
  | cons slot slots ih =>
    cases slot with
    | none => simpa using ih
    | some e => simp [List.reduceOption_cons_of_some, ih]

/-! ## Deleting -/

theorem remove_slot_counts {key : List UInt8} {hash : UInt32} {slots slots' : List (Option Entry)}
    (hremove : update_slot key hash (fun _ => none) slots = some slots') :
    slots.countP Option.isSome = slots'.countP Option.isSome + 1 ∧ slots'.length = slots.length := by
  obtain ⟨front, e, back, hslots, _, hslots', hlen⟩ := update_slot_some hremove
  refine ⟨?_, hlen⟩
  simp only [countP_eq_length, hslots, hslots', List.length_append, List.length_cons, Option.toList_none,
    List.length_nil]
  omega

def dictionary_unset (d : dictionary) (key : List UInt8) : dictionary :=
  match hremove : update_slot key (dictionary_hash key) (fun _ => none) d.slots with
  | none => d
  | some slots =>
    { n := d.n - 1
      slots := slots
      counted := by
        have hcount := (remove_slot_counts hremove).1
        rw [d.counted]
        omega
      room := (remove_slot_counts hremove).2 ▸ d.room }

/-! ## The entries -/

/-- The entries in the order of their slots. -/
def dictionary.entries (d : dictionary) : List Entry := d.slots.reduceOption

/-- Entries with distinct keys and the hashes of these. -/
structure Sound (entries : List Entry) : Prop where
  distinct : (entries.map Entry.key).Nodup
  hashed : ∀ e ∈ entries, e.hash = dictionary_hash e.key

theorem Entry.matches_iff {e : Entry} (hhash : e.hash = dictionary_hash e.key) (key : List UInt8) :
    e.matches key (dictionary_hash key) = true ↔ e.key = key := by
  unfold Entry.matches
  rw [Bool.and_eq_true, decide_eq_true_eq, decide_eq_true_eq]
  constructor
  · rintro ⟨_, rfl⟩
    rfl
  · rintro rfl
    exact ⟨hhash.symm, rfl⟩

theorem Sound.key_ne {entries : List Entry} (hentries : Sound entries) {key : List UInt8}
    (hother : ∀ e ∈ entries, e.matches key (dictionary_hash key) = false) : ∀ e ∈ entries, e.key ≠ key := by
  intro e he hkey
  have hmatches := (Entry.matches_iff (hentries.hashed e he) key).mpr hkey
  rw [hother e he] at hmatches
  cases hmatches

theorem find_slot (p : Entry → Bool) (slots : List (Option Entry)) :
    slots.find? (·.any p) = (slots.reduceOption.find? p).map some := by
  induction slots with
  | nil => rfl
  | cons slot slots ih =>
    cases slot with
    | none => simpa [List.reduceOption_cons_of_none] using ih
    | some e =>
      by_cases hp : p e = true
      · simp [List.reduceOption_cons_of_some, hp]
      · simpa [List.reduceOption_cons_of_some, hp] using ih

/-- A lookup finds the entry of the key. -/
theorem lookup_eq {d : dictionary} (hd : Sound d.entries) : d.lookup = table Entry.key Entry.val d.entries := by
  funext key
  have hfind : d.entries.find? (Entry.matches key (dictionary_hash key)) = d.entries.find? (·.key = key) := by
    refine List.find?_congr fun e he => ?_
    rw [Bool.eq_iff_iff, decide_eq_true_eq]
    exact Entry.matches_iff (hd.hashed e he) key
  rw [dictionary.lookup, find_slot, table, ← hfind, dictionary.entries]
  cases d.slots.reduceOption.find? (Entry.matches key (dictionary_hash key)) with
  | none => rfl
  | some e => rfl

/-! ## What a set does to the entries -/

/-- The value of the entry with the key is changed, or an entry is added. -/
def Sets (entries : List Entry) (key : List UInt8) (val : Option (List UInt8)) (entries' : List Entry) : Prop :=
  (∃ front e back, entries = front ++ e :: back ∧ e.key = key ∧
    entries' = front ++ { e with val := val } :: back) ∨
  (∃ front back, entries = front ++ back ∧ (∀ e ∈ entries, e.key ≠ key) ∧
    entries' = front ++ { key := key, val := val, hash := dictionary_hash key } :: back)

section

variable {entries entries' : List Entry} {key : List UInt8} {val : Option (List UInt8)}

theorem Sets.sound (hsets : Sets entries key val entries') (hentries : Sound entries) : Sound entries' := by
  obtain ⟨hdistinct, hhashed⟩ := hentries
  obtain ⟨front, e, back, rfl, _, rfl⟩ | ⟨front, back, rfl, hother, rfl⟩ := hsets
  · refine ⟨by simpa using hdistinct, fun e' he' => ?_⟩
    obtain hfront | rfl | hback := by simpa using he'
    · exact hhashed e' (by simp [hfront])
    · exact hhashed e (by simp)
    · exact hhashed e' (by simp [hback])
  · refine ⟨?_, fun e' he' => ?_⟩
    · have hnew : key ∉ (front ++ back).map Entry.key := by
        intro hmem
        obtain ⟨e, he, hkey⟩ := List.mem_map.mp hmem
        exact hother e he hkey
      rw [(List.perm_middle.map Entry.key).nodup_iff, List.map_cons, List.nodup_cons]
      exact ⟨hnew, hdistinct⟩
    · obtain hfront | rfl | hback := by simpa using he'
      · exact hhashed e' (by simp [hfront])
      · rfl
      · exact hhashed e' (by simp [hback])

theorem Sets.table_eq (hsets : Sets entries key val entries') (hentries : Sound entries) :
    table Entry.key Entry.val entries' = Function.update (table Entry.key Entry.val entries) key (some val) := by
  have hsound := hsets.sound hentries
  obtain ⟨front, e, back, rfl, rfl, rfl⟩ | ⟨front, back, rfl, _, rfl⟩ := hsets
  · exact table_replace hentries.distinct rfl
  · exact table_insert hsound.distinct

theorem update_slot_sets {slots slots' : List (Option Entry)} (hslots : Sound slots.reduceOption)
    (hupdate : update_slot key (dictionary_hash key) (fun e => some { e with val := val }) slots = some slots') :
    Sets slots.reduceOption key val slots'.reduceOption := by
  obtain ⟨front, e, back, hentries, hmatches, hentries', _⟩ := update_slot_some hupdate
  have he : e ∈ slots.reduceOption := by
    rw [hentries]
    exact List.mem_append_right front List.mem_cons_self
  exact Or.inl ⟨front, e, back, hentries, (Entry.matches_iff (hslots.hashed e he) key).mp hmatches, hentries'⟩

theorem insert_slot_sets {slots : List (Option Entry)} (hother : ∀ e ∈ slots.reduceOption, e.key ≠ key)
    (hroom : slots.countP Option.isSome < slots.length) :
    Sets slots.reduceOption key val
      (insert_slot { key := key, val := val, hash := dictionary_hash key } slots).reduceOption := by
  obtain ⟨front, back, hentries, hinsert⟩ :=
    insert_slot_entries { key := key, val := val, hash := dictionary_hash key } hroom
  exact Or.inr ⟨front, back, hentries, hother, hinsert⟩

/-! ## What an unset does -/

/-- The entry with the key is taken away, if there is one. -/
def Unsets (entries : List Entry) (key : List UInt8) (entries' : List Entry) : Prop :=
  (∃ front e back, entries = front ++ e :: back ∧ e.key = key ∧ entries' = front ++ back) ∨
  ((∀ e ∈ entries, e.key ≠ key) ∧ entries' = entries)

theorem Unsets.subset (hunsets : Unsets entries key entries') : entries'.Sublist entries := by
  obtain ⟨front, e, back, rfl, _, rfl⟩ | ⟨_, rfl⟩ := hunsets
  · exact (List.sublist_cons_self e back).append_left front
  · exact List.Sublist.refl _

theorem Unsets.sound (hunsets : Unsets entries key entries') (hentries : Sound entries) : Sound entries' :=
  ⟨hentries.distinct.sublist (hunsets.subset.map Entry.key), fun e he => hentries.hashed e (hunsets.subset.subset he)⟩

theorem Unsets.table_eq (hunsets : Unsets entries key entries') (hentries : Sound entries) :
    table Entry.key Entry.val entries' = Function.update (table Entry.key Entry.val entries) key none := by
  obtain ⟨front, e, back, rfl, rfl, rfl⟩ | ⟨hother, rfl⟩ := hunsets
  · exact table_remove hentries.distinct
  · have hnone : table Entry.key Entry.val entries' key = none := table_eq_none_iff.mpr hother
    rw [← hnone, Function.update_eq_self]

theorem update_slot_unsets {slots slots' : List (Option Entry)} (hslots : Sound slots.reduceOption)
    (hupdate : update_slot key (dictionary_hash key) (fun _ => none) slots = some slots') :
    Unsets slots.reduceOption key slots'.reduceOption := by
  obtain ⟨front, e, back, hentries, hmatches, hentries', _⟩ := update_slot_some hupdate
  have he : e ∈ slots.reduceOption := by
    rw [hentries]
    exact List.mem_append_right front List.mem_cons_self
  exact Or.inl ⟨front, e, back, hentries, (Entry.matches_iff (hslots.hashed e he) key).mp hmatches, hentries'⟩

end

/-! ## The operations -/

theorem dictionary_new_entries (size : Nat) : (dictionary_new size).entries = [] :=
  List.reduceOption_replicate_none

theorem sound_nil : Sound [] := ⟨List.nodup_nil, nofun⟩

theorem grown_entries (d : dictionary) : d.grown.reduceOption = d.entries := by
  unfold dictionary.grown dictionary.entries
  split
  case isTrue => rw [List.reduceOption_append, List.reduceOption_replicate_none, List.append_nil]
  case isFalse => rfl

theorem dictionary_set_sets {d : dictionary} (hd : Sound d.entries) (key : List UInt8) (val : Option (List UInt8)) :
    Sets d.entries key val (dictionary_set d key val).1.entries := by
  unfold dictionary_set
  dsimp only
  split
  case h_1 slots hmodify =>
    split at hmodify
    case isTrue => exact update_slot_sets hd (modify_slot_eq .. ▸ hmodify)
    case isFalse => cases hmodify
  case h_2 hmodify =>
    obtain ⟨hcount, hlt⟩ := d.grown_spec
    have hother : ∀ e ∈ d.entries, e.key ≠ key := by
      by_cases hn : d.n > 0
      · rw [if_pos hn, modify_slot_eq] at hmodify
        exact hd.key_ne (update_slot_none hmodify)
      · have hempty : d.entries = [] := by
          rw [← List.length_eq_zero_iff, dictionary.entries, ← countP_eq_length, ← d.counted]
          omega
        rw [hempty]
        exact nofun
    rw [← grown_entries] at hother ⊢
    exact insert_slot_sets hother (hcount ▸ hlt)

theorem dictionary_unset_unsets {d : dictionary} (hd : Sound d.entries) (key : List UInt8) :
    Unsets d.entries key (dictionary_unset d key).entries := by
  unfold dictionary_unset
  split
  case h_1 hremove => exact Or.inr ⟨hd.key_ne (update_slot_none hremove), rfl⟩
  case h_2 slots hremove => exact update_slot_unsets hd hremove

end code_tools.iniparser
