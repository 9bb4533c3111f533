import Mathlib.Data.List.Basic

/-!
# The dictionary of `dictionary.c`

A dictionary is a growing table of slots. Memory is never exhausted here, so
`dictionary_set` always returns 0.
-/

namespace code_tools.iniparser

def DICTMINSZ : Nat := 128

structure Entry where
  key : List UInt8
  val : Option (List UInt8)
  hash : UInt32
deriving DecidableEq, Repr

/-- `slots` are the `size` positions of the arrays `key`, `val` and `hash`; a slot
    with no key is empty. -/
structure dictionary where
  n : Nat
  slots : List (Option Entry)
  counted : n = slots.countP Option.isSome
  room : 0 < slots.length
deriving DecidableEq, Repr

def dictionary_hash (key : List UInt8) : UInt32 :=
  let hash : UInt32 := key.foldl (fun hash c =>
    -- a `char` is signed
    let hash := hash + c.toInt8.toInt32.toUInt32
    let hash := hash + (hash <<< 10)
    hash ^^^ (hash >>> 6)) (0 : UInt32)
  let hash := hash + (hash <<< 3)
  let hash := hash ^^^ (hash >>> 11)
  hash + (hash <<< 15)

def dictionary_new (size : Nat) : dictionary :=
  let size := if size < DICTMINSZ then DICTMINSZ else size
  { n := 0
    slots := List.replicate size none
    counted := by simp [List.countP_replicate]
    room := by
      have hmin : 0 < DICTMINSZ := by decide
      rw [List.length_replicate]
      dsimp only [size]
      split <;> omega }

def Entry.matches (key : List UInt8) (hash : UInt32) (e : Entry) : Bool := hash = e.hash && key = e.key

def dictionary_get (d : dictionary) (key : List UInt8) (default : Option (List UInt8)) :
    Option (List UInt8) :=
  match d.slots.find? (·.any (Entry.matches key (dictionary_hash key))) with
  | some (some e) => e.val
  | _ => default

/-! ## Setting -/

/-- The first slot of the key with its new value, when there is one. -/
def modify_slot (key : List UInt8) (hash : UInt32) (val : Option (List UInt8)) :
    List (Option Entry) → Option (List (Option Entry))
  | [] => none
  | none :: slots => (modify_slot key hash val slots).map (none :: ·)
  | some e :: slots =>
    if e.matches key hash then some (some { e with val := val } :: slots)
    else (modify_slot key hash val slots).map (some e :: ·)

/-- The entry in the first empty slot. -/
def insert_slot (e : Entry) : List (Option Entry) → List (Option Entry)
  | [] => []
  | none :: slots => some e :: slots
  | some e' :: slots => some e' :: insert_slot e slots

theorem modify_slot_spec {key : List UInt8} {hash : UInt32} {val : Option (List UInt8)}
    {slots slots' : List (Option Entry)} (hmodify : modify_slot key hash val slots = some slots') :
    slots'.countP Option.isSome = slots.countP Option.isSome ∧ slots'.length = slots.length := by
  induction slots generalizing slots' with
  | nil => cases hmodify
  | cons slot slots ih =>
    cases slot with
    | none =>
      obtain ⟨rest, hrest, rfl⟩ := Option.map_eq_some_iff.mp hmodify
      obtain ⟨hcount, hlen⟩ := ih hrest
      simp [hcount, hlen]
    | some e =>
      rw [modify_slot] at hmodify
      split at hmodify
      case isTrue =>
        obtain rfl := Option.some.inj hmodify
        simp
      case isFalse =>
        obtain ⟨rest, hrest, rfl⟩ := Option.map_eq_some_iff.mp hmodify
        obtain ⟨hcount, hlen⟩ := ih hrest
        simp [hcount, hlen]

theorem length_insert_slot (e : Entry) (slots : List (Option Entry)) :
    (insert_slot e slots).length = slots.length := by
  induction slots with
  | nil => rfl
  | cons slot slots ih => cases slot <;> simp [insert_slot, ih]

theorem countP_insert_slot (e : Entry) {slots : List (Option Entry)}
    (hroom : slots.countP Option.isSome < slots.length) :
    (insert_slot e slots).countP Option.isSome = slots.countP Option.isSome + 1 := by
  induction slots with
  | nil => simp at hroom
  | cons slot slots ih =>
    cases slot with
    | none => simp [insert_slot]
    | some e' =>
      have hrest : slots.countP Option.isSome < slots.length := by simpa using hroom
      simp [insert_slot, ih hrest]

/-- The table with room for one more entry: twice as large when it is full. -/
def dictionary.grown (d : dictionary) : List (Option Entry) :=
  if d.n = d.slots.length then d.slots ++ List.replicate d.slots.length none else d.slots

theorem dictionary.grown_spec (d : dictionary) :
    d.grown.countP Option.isSome = d.n ∧ d.n < d.grown.length := by
  have hle : d.n ≤ d.slots.length := d.counted ▸ List.countP_le_length
  have hroom := d.room
  unfold dictionary.grown
  split
  case isTrue hfull =>
    rw [List.countP_append, List.countP_replicate, ← d.counted, List.length_append,
      List.length_replicate]
    exact ⟨rfl, by omega⟩
  case isFalse hfull => exact ⟨d.counted.symm, by omega⟩

/-- Replace the value of the key, or add the key in the first empty slot. -/
def dictionary_set (d : dictionary) (key : List UInt8) (val : Option (List UInt8)) : dictionary × Int :=
  let hash := dictionary_hash key
  match hmodify : if d.n > 0 then modify_slot key hash val d.slots else none with
  | some slots =>
    have hspec : slots.countP Option.isSome = d.slots.countP Option.isSome ∧
        slots.length = d.slots.length := by
      by_cases hn : d.n > 0
      · exact modify_slot_spec (by rwa [if_pos hn] at hmodify)
      · rw [if_neg hn] at hmodify
        cases hmodify
    ({ n := d.n
       slots := slots
       counted := hspec.1 ▸ d.counted
       room := hspec.2 ▸ d.room }, 0)
  | none =>
    let e : Entry := { key := key, val := val, hash := hash }
    ({ n := d.n + 1
       slots := insert_slot e d.grown
       counted := by
         obtain ⟨hcount, hlt⟩ := d.grown_spec
         rw [countP_insert_slot e (hcount ▸ hlt), hcount]
       room := by
         rw [length_insert_slot]
         exact Nat.lt_of_le_of_lt (Nat.zero_le _) d.grown_spec.2 }, 0)

theorem dictionary_set_returns (d : dictionary) (key : List UInt8) (val : Option (List UInt8)) :
    (dictionary_set d key val).2 = 0 := by
  unfold dictionary_set
  dsimp only
  split <;> rfl

end code_tools.iniparser
