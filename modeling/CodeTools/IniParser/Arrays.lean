import CodeTools.IniParser.Slots

/-!
# The arrays of `dictionary.c`

The three arrays of a dictionary, and `malloc` and `calloc` that may fail. The size of
an array in bytes fits in an `int`.
-/

namespace code_tools.dict

open cmem iniparser keyed

/-- Which allocations of a call are granted: the three arrays, and the copies of the
    two strings. -/
structure Granted where
  val_array : Bool
  key_array : Bool
  hash_array : Bool
  key_copy : Bool
  val_copy : Bool
deriving DecidableEq, Repr

/-- Whether a full dictionary can grow. -/
def Granted.arrays (granted : Granted) : Bool := granted.val_array && granted.key_array && granted.hash_array

/-- An array is `none` where its pointer is `NULL`, and so is a string. -/
structure dictionary where
  n : Nat
  size : Nat
  val : Option (List (Option (List UInt8)))
  key : Option (List (Option (List UInt8)))
  hash : Option (List UInt32)
deriving DecidableEq, Repr

section

variable {α : Type}

def load (array : Option (List α)) (i : Nat) : Except Fault α :=
  match array with
  | none => .error .nullPointer
  | some xs => xs[i]?.elim (.error .outOfBounds) .ok

def store (array : Option (List α)) (i : Nat) (x : α) : Except Fault (Option (List α)) :=
  match array with
  | none => .error .nullPointer
  | some xs => if i < xs.length then .ok (some (xs.set i x)) else .error .outOfBounds

/-- The new array is zeroed behind the copy. -/
def mem_double (granted : Bool) (ptr : Option (List α)) (size : Nat) (zero : α) :
    Except Fault (Option (List α)) :=
  if granted then
    match ptr with
    | none => .error .nullPointer
    | some xs =>
      if size ≤ xs.length then .ok (some (xs.take size ++ List.replicate size zero)) else .error .outOfBounds
  else .ok none

end

def xstrdup (granted : Bool) (s : Option (List UInt8)) : Option (List UInt8) := if granted then s else none

def dictionary_new (granted : Granted) (size : Int) : dictionary :=
  let size := (if size < DICTMINSZ then (DICTMINSZ : Int) else size).toNat
  { n := 0
    size
    val := if granted.val_array then some (List.replicate size none) else none
    key := if granted.key_array then some (List.replicate size none) else none
    hash := if granted.hash_array then some (List.replicate size 0) else none }

/-! ## The searches -/

/-- The loop over the slots for the key, from `i` on with `left` slots to go. -/
def dictionary.find_key (d : dictionary) (key : List UInt8) (hash : UInt32) : Nat → Nat → Except Fault Nat
  | 0, i => .ok i
  | left + 1, i => do
    let key_i ← load d.key i
    match key_i with
    | none => d.find_key key hash left (i + 1)
    | some key_i =>
      let hash_i ← load d.hash i
      if hash = hash_i ∧ key = key_i then .ok i else d.find_key key hash left (i + 1)

/-- The loop over the slots for an empty one. -/
def dictionary.find_empty (d : dictionary) : Nat → Nat → Except Fault Nat
  | 0, i => .ok i
  | left + 1, i => do
    let key_i ← load d.key i
    match key_i with
    | none => .ok i
    | some _ => d.find_empty left (i + 1)

/-! ## The operations -/

def dictionary_get (d : dictionary) (key : List UInt8) (default : Option (List UInt8)) :
    Except Fault (Option (List UInt8)) := do
  let i ← d.find_key key (dictionary_hash key) d.size 0
  if i < d.size then load d.val i else .ok default

/-- The arrays are doubled; `false` where one of them cannot be. -/
def dictionary.grow (d : dictionary) (granted : Granted) : Except Fault (dictionary × Bool) := do
  let val ← mem_double granted.val_array d.val d.size none
  let key ← mem_double granted.key_array d.key d.size none
  let hash ← mem_double granted.hash_array d.hash d.size 0
  if val = none ∨ key = none ∨ hash = none then .ok ({ d with val, key, hash }, false)
  else .ok ({ d with size := d.size * 2, val, key, hash }, true)

/-- See if the dictionary needs to grow. -/
def dictionary.make_room (d : dictionary) (granted : Granted) : Except Fault (dictionary × Bool) :=
  if d.n = d.size then d.grow granted else .ok (d, true)

/-- The part of `dictionary_set` that adds a key. -/
def dictionary.add (d : dictionary) (granted : Granted) (key : List UInt8) (val : Option (List UInt8)) :
    Except Fault dictionary := do
  let i ← d.find_empty d.size 0
  let keys ← store d.key i (xstrdup granted.key_copy (some key))
  let vals ← store d.val i (xstrdup granted.val_copy val)
  let hashes ← store d.hash i (dictionary_hash key)
  .ok { d with n := d.n + 1, key := keys, val := vals, hash := hashes }

def dictionary_set (granted : Granted) (d : dictionary) (key : List UInt8) (val : Option (List UInt8)) :
    Except Fault (dictionary × Int) := do
  let i ← if d.n > 0 then d.find_key key (dictionary_hash key) d.size 0 else .ok d.size
  if i < d.size then
    let vals ← store d.val i (xstrdup granted.val_copy val)
    .ok ({ d with val := vals }, 0)
  else
    let (d, grown) ← d.make_room granted
    if grown then
      let d ← d.add granted key val
      .ok (d, 0)
    else .ok (d, -1)

def dictionary_unset (d : dictionary) (key : List UInt8) : Except Fault dictionary := do
  let i ← d.find_key key (dictionary_hash key) d.size 0
  if i ≥ d.size then .ok d
  else
    let keys ← store d.key i none
    let vals ← store d.val i none
    let hashes ← store d.hash i 0
    .ok { d with n := d.n - 1, key := keys, val := vals, hash := hashes }

/-! ## Arrays over slots -/

/-- An array that has a field of the entry of each slot. -/
def Backs {α : Type} (array : Option (List α)) (slots : List (Option Entry)) (field : Entry → α) : Prop :=
  ∃ xs : List α, array = some xs ∧ xs.length = slots.length ∧
    ∀ (i : Nat) (e : Entry), slots[i]? = some (some e) → xs[i]? = some (field e)

section

variable {α : Type} {array : Option (List α)} {slots : List (Option Entry)} {field : Entry → α} {i : Nat}

theorem Backs.load (hback : Backs array slots field) {e : Entry} (he : slots[i]? = some (some e)) :
    load array i = .ok (field e) := by
  obtain ⟨xs, rfl, _, hxs⟩ := hback
  simp [dict.load, hxs i e he]

theorem Backs.store (hback : Backs array slots field) (hi : i < slots.length) {slot : Option Entry} {x : α}
    (hx : ∀ e, slot = some e → x = field e) :
    ∃ array', store array i x = .ok array' ∧ Backs array' (slots.set i slot) field := by
  obtain ⟨xs, rfl, hlen, hxs⟩ := hback
  refine ⟨some (xs.set i x), if_pos (hlen ▸ hi), xs.set i x, rfl, by simp [hlen], fun j e he => ?_⟩
  by_cases hj : i = j
  · subst hj
    rw [List.getElem?_set_self hi] at he
    rw [List.getElem?_set_self (hlen ▸ hi), hx e (Option.some.inj he)]
  · rw [List.getElem?_set_ne hj] at he ⊢
    exact hxs j e he

theorem Backs.double (hback : Backs array slots field) (zero : α) :
    ∃ xs, mem_double true array slots.length zero = .ok (some xs) ∧
      Backs (some xs) (slots ++ List.replicate slots.length none) field := by
  obtain ⟨xs, rfl, hlen, hxs⟩ := hback
  refine ⟨_, (if_pos rfl).trans (if_pos (Nat.le_of_eq hlen.symm)), _, rfl, by simp [hlen], fun i e he => ?_⟩
  rw [List.take_of_length_le (Nat.le_of_eq hlen)]
  by_cases hi : i < slots.length
  · rw [List.getElem?_append_left hi] at he
    rw [List.getElem?_append_left (hlen ▸ hi)]
    exact hxs i e he
  · rw [List.getElem?_append_right (Nat.not_lt.mp hi)] at he
    have hnone := List.eq_of_mem_replicate (List.mem_of_getElem? he)
    cases hnone

end

/-- The arrays are those of a table of slots. What a value or a hash is in an empty slot
    does not matter. -/
structure Represents (d : dictionary) (slots : List (Option Entry)) : Prop where
  size : d.size = slots.length
  key : d.key = some (slots.map (·.map Entry.key))
  val : Backs d.val slots Entry.val
  hash : Backs d.hash slots Entry.hash

theorem Represents.load_key {d : dictionary} {slots : List (Option Entry)} (hd : Represents d slots) {i : Nat}
    {slot : Option Entry} (hslot : slots[i]? = some slot) : load d.key i = .ok (slot.map Entry.key) := by
  simp [hd.key, load, hslot]

theorem Represents.store_key {d : dictionary} {slots : List (Option Entry)} (hd : Represents d slots) {i : Nat}
    (hi : i < slots.length) (slot : Option Entry) :
    store d.key i (slot.map Entry.key) = .ok (some ((slots.set i slot).map (·.map Entry.key))) := by
  simp [hd.key, store, hi, List.map_set]

/-! ## The searches -/

theorem find_key_spec {d : dictionary} {slots : List (Option Entry)} (hd : Represents d slots)
    (key : List UInt8) (hash : UInt32) :
    d.find_key key hash d.size 0 = .ok (slots.findIdx (·.any (Entry.matches key hash))) := by
  have hloop : ∀ front back, slots = front ++ back → d.find_key key hash back.length front.length =
      .ok (front.length + back.findIdx (·.any (Entry.matches key hash))) := by
    intro front back hslots
    induction back generalizing front with
    | nil => rfl
    | cons slot back ih =>
      have hslot : slots[front.length]? = some slot := by simp [hslots]
      have hnext := ih (front ++ [slot]) (by simp [hslots])
      rw [List.length_append, List.length_singleton] at hnext
      rw [List.length_cons, dictionary.find_key, hd.load_key hslot, ok_bind]
      cases slot with
      | none =>
        dsimp only [Option.map_none]
        rw [hnext, List.findIdx_cons]
        simp
        omega
      | some e =>
        dsimp only [Option.map_some]
        rw [hd.hash.load hslot, ok_bind, List.findIdx_cons]
        by_cases hmatches : e.matches key hash = true
        · rw [if_pos (by simpa [Entry.matches] using hmatches)]
          simp [hmatches]
        · rw [if_neg (by simpa [Entry.matches] using hmatches), hnext]
          simp [hmatches]
          omega
  simpa [hd.size] using hloop [] slots rfl

theorem find_empty_spec {d : dictionary} {slots : List (Option Entry)} (hd : Represents d slots) :
    d.find_empty d.size 0 = .ok (slots.findIdx Option.isNone) := by
  have hloop : ∀ front back, slots = front ++ back → d.find_empty back.length front.length =
      .ok (front.length + back.findIdx Option.isNone) := by
    intro front back hslots
    induction back generalizing front with
    | nil => rfl
    | cons slot back ih =>
      have hslot : slots[front.length]? = some slot := by simp [hslots]
      have hnext := ih (front ++ [slot]) (by simp [hslots])
      rw [List.length_append, List.length_singleton] at hnext
      rw [List.length_cons, dictionary.find_empty, hd.load_key hslot, ok_bind]
      cases slot with
      | none => rfl
      | some e =>
        dsimp only [Option.map_some]
        rw [hnext, List.findIdx_cons]
        simp
        omega
  simpa [hd.size] using hloop [] slots rfl

/-- The slot that is changed is the one that the search finds. -/
theorem update_slot_cases (key : List UInt8) (hash : UInt32) (change : Entry → Option Entry)
    (slots : List (Option Entry)) :
    (slots.findIdx (·.any (Entry.matches key hash)) = slots.length ∧ update_slot key hash change slots = none) ∨
    ∃ i e, slots.findIdx (·.any (Entry.matches key hash)) = i ∧ slots[i]? = some (some e) ∧
      e.matches key hash = true ∧ update_slot key hash change slots = some (slots.set i (change e)) := by
  induction slots with
  | nil => exact Or.inl ⟨rfl, rfl⟩
  | cons slot slots ih =>
    by_cases hslot : slot.any (Entry.matches key hash) = true
    · obtain ⟨e, rfl⟩ : ∃ e, slot = some e := by
        cases slot with
        | none => cases hslot
        | some e => exact ⟨e, rfl⟩
      rw [Option.any_some] at hslot
      exact Or.inr ⟨0, e, by simp [List.findIdx_cons, hslot], rfl, hslot, if_pos hslot⟩
    · have hnext : update_slot key hash change (slot :: slots) =
          (update_slot key hash change slots).map (slot :: ·) := by
        cases slot with
        | none => rfl
        | some e => exact if_neg (by simpa using hslot)
      rw [List.findIdx_cons, hnext]
      simp only [hslot, cond_false]
      obtain ⟨hidx, hnone⟩ | ⟨i, e, hidx, he, hmatches, hsome⟩ := ih
      · exact Or.inl ⟨by simp [hidx], by simp [hnone]⟩
      · exact Or.inr ⟨i + 1, e, by rw [hidx], by simpa using he, hmatches, by simp [hsome]⟩

theorem insert_slot_eq (e : Entry) (slots : List (Option Entry)) :
    insert_slot e slots = slots.set (slots.findIdx Option.isNone) (some e) := by
  induction slots with
  | nil => rfl
  | cons slot slots ih =>
    cases slot with
    | none => rfl
    | some e' => simp [insert_slot, ih, List.findIdx_cons]

/-! ## The operations -/

/-- The arrays hold the entries; `lost` counts the keys that could not be copied, each of
    which was counted in `n` all the same. -/
structure Holds (d : dictionary) (slots : List (Option Entry)) (entries : List Entry) (lost : Nat) : Prop where
  represents : Represents d slots
  entries_eq : slots.reduceOption = entries
  sound : Sound entries
  counted : d.n = entries.length + lost
  le : d.n ≤ d.size
  room : 0 < d.size

section

variable {d : dictionary} {slots : List (Option Entry)} {entries : List Entry} {lost : Nat}

theorem holds_new {granted : Granted} (harrays : granted.arrays = true) (size : Int) :
    ∃ slots, Holds (dictionary_new granted size) slots [] 0 := by
  rw [Granted.arrays, Bool.and_eq_true, Bool.and_eq_true] at harrays
  obtain ⟨⟨hval, hkey⟩, hhash⟩ := harrays
  have hpos : 0 < (if size < DICTMINSZ then (DICTMINSZ : Int) else size).toNat := by
    have hmin : DICTMINSZ = 128 := rfl
    split <;> omega
  unfold dictionary_new
  dsimp only
  generalize (if size < DICTMINSZ then (DICTMINSZ : Int) else size).toNat = size at hpos
  have hempty : ∀ {α : Type} (x : α) (field : Entry → α),
      Backs (some (List.replicate size x)) (List.replicate size none) field := by
    intro α x field
    refine ⟨_, rfl, by simp, fun i e he => ?_⟩
    have hnone := List.eq_of_mem_replicate (List.mem_of_getElem? he)
    cases hnone
  rw [if_pos hval, if_pos hkey, if_pos hhash]
  refine ⟨List.replicate size none, ⟨?_, ?_, hempty none Entry.val, hempty 0 Entry.hash⟩,
    List.reduceOption_replicate_none, sound_nil, rfl, Nat.zero_le _, hpos⟩
  · simp
  · simp

theorem dictionary_get_spec (hd : Holds d slots entries lost) (key : List UInt8) (default : Option (List UInt8)) :
    dictionary_get d key default = .ok ((table Entry.key Entry.val entries key).getD default) := by
  obtain ⟨hrep, rfl, hsound, _⟩ := hd
  unfold dictionary_get
  rw [find_key_spec hrep, ok_bind]
  obtain ⟨hidx, hnone⟩ | ⟨i, e, hidx, he, hmatches, _⟩ := update_slot_cases key (dictionary_hash key) some slots
  · have habsent : table Entry.key Entry.val slots.reduceOption key = none :=
      table_eq_none_iff.mpr (hsound.key_ne (update_slot_none hnone))
    rw [hidx, if_neg (by rw [hrep.size]; omega), habsent]
    rfl
  · have hlt := (List.getElem?_eq_some_iff.mp he).1
    have hmem := List.reduceOption_mem_iff.mpr (List.mem_of_getElem? he)
    have hkey := (Entry.matches_iff (hsound.hashed e hmem) key).mp hmatches
    rw [hidx, if_pos (by rw [hrep.size]; exact hlt), hrep.val.load he,
      (table_eq_some_iff hsound.distinct).mpr ⟨e, hmem, hkey, rfl⟩]
    rfl

theorem dictionary_unset_spec (hd : Holds d slots entries lost) (key : List UInt8) :
    ∃ d' slots' entries', dictionary_unset d key = .ok d' ∧ Holds d' slots' entries' lost ∧
      Unsets entries key entries' := by
  obtain ⟨hrep, rfl, hsound, hcounted, hle, hroom⟩ := hd
  unfold dictionary_unset
  rw [find_key_spec hrep, ok_bind]
  obtain ⟨hidx, hnone⟩ | ⟨i, e, hidx, he, hmatches, hsome⟩ :=
    update_slot_cases key (dictionary_hash key) (fun _ => none) slots
  · rw [hidx, if_pos (Nat.le_of_eq hrep.size)]
    exact ⟨d, slots, _, rfl, ⟨hrep, rfl, hsound, hcounted, hle, hroom⟩,
      Or.inr ⟨hsound.key_ne (update_slot_none hnone), rfl⟩⟩
  · have hlt := (List.getElem?_eq_some_iff.mp he).1
    have hkeys : store d.key i none = _ := hrep.store_key hlt none
    obtain ⟨vals, hvals, hval⟩ : ∃ vals, store d.val i none = .ok vals ∧ Backs vals (slots.set i none) Entry.val :=
      hrep.val.store hlt nofun
    obtain ⟨hashes, hhashes, hhash⟩ : ∃ hashes, store d.hash i 0 = .ok hashes ∧
        Backs hashes (slots.set i none) Entry.hash :=
      hrep.hash.store hlt nofun
    have hcount := (remove_slot_counts hsome).1
    have hunsets := update_slot_unsets hsound hsome
    rw [countP_eq_length, countP_eq_length] at hcount
    rw [hidx, if_neg (by rw [hrep.size]; omega), hkeys, ok_bind, hvals, ok_bind, hhashes, ok_bind]
    refine ⟨_, _, _, rfl, ⟨⟨?_, rfl, hval, hhash⟩, rfl, hunsets.sound hsound, ?_, ?_, hroom⟩, hunsets⟩
    · simp [hrep.size]
    · dsimp only
      omega
    · dsimp only
      omega

/-- A full dictionary grows, or loses an array. -/
theorem grow_spec (hd : Holds d slots entries lost) (hfull : d.n = d.size) (granted : Granted) :
    ∃ d', d.grow granted = .ok (d', granted.arrays) ∧
      (granted.arrays = true → ∃ slots', Holds d' slots' entries lost ∧ d'.n < d'.size) := by
  obtain ⟨hrep, rfl, hsound, hcounted, hle, hroom⟩ := hd
  obtain ⟨vals, hvals, hval⟩ := hrep.val.double none
  obtain ⟨hashes, hhashes, hhash⟩ := hrep.hash.double 0
  have hkeys : mem_double true d.key slots.length none =
      .ok (some ((slots ++ List.replicate slots.length none).map fun slot : Option Entry => slot.map Entry.key)) := by
    simp [hrep.key, mem_double, List.take_of_length_le]
  have hrefused : ∀ {α : Type} (array : Option (List α)) (x : α),
      mem_double false array slots.length x = .ok none := fun _ _ => rfl
  have hentries : (slots ++ List.replicate slots.length none).reduceOption = slots.reduceOption := by
    rw [List.reduceOption_append, List.reduceOption_replicate_none, List.append_nil]
  have hsize := hrep.size
  unfold dictionary.grow
  rw [hsize]
  obtain ⟨val_array, key_array, hash_array, _, _⟩ := granted
  dsimp only [Granted.arrays]
  cases val_array with
  | false =>
    cases key_array <;> cases hash_array <;> simp [hkeys, hhashes, hrefused, ok_bind]
  | true =>
    cases key_array with
    | false => cases hash_array <;> simp [hvals, hhashes, hrefused, ok_bind]
    | true =>
      cases hash_array with
      | false => simp [hvals, hkeys, hrefused, ok_bind]
      | true =>
        rw [hvals, ok_bind, hkeys, ok_bind, hhashes, ok_bind, if_neg (by simp)]
        refine ⟨_, rfl, fun _ => ⟨slots ++ List.replicate slots.length none,
          ⟨⟨?_, rfl, hval, hhash⟩, hentries, hsound, hcounted, ?_, ?_⟩, ?_⟩⟩
        · rw [List.length_append, List.length_replicate]
          exact Nat.mul_two _
        · dsimp only
          omega
        · dsimp only
          omega
        · dsimp only
          omega

/-- The entry is added, or its slot stays empty where the key cannot be copied. -/
theorem add_spec (hd : Holds d slots entries lost) (hfree : d.n < d.size) {key : List UInt8}
    (hother : ∀ e ∈ entries, e.key ≠ key) (granted : Granted) (val : Option (List UInt8)) :
    ∃ d' slots' entries', d.add granted key val = .ok d' ∧
      if granted.key_copy then
        Holds d' slots' entries' lost ∧ Sets entries key (xstrdup granted.val_copy val) entries'
      else Holds d' slots' entries (lost + 1) := by
  obtain ⟨hrep, rfl, hsound, hcounted, hle, hroom⟩ := hd
  have hcount : slots.countP Option.isSome < slots.length := by
    rw [countP_eq_length, ← hrep.size]
    omega
  have hlt : slots.findIdx Option.isNone < slots.length := by
    by_contra hge
    have hall : ∀ slot ∈ slots, slot.isNone = false :=
      List.findIdx_eq_length.mp (Nat.le_antisymm List.findIdx_le_length (Nat.not_lt.mp hge))
    have hfull : slots.countP Option.isSome = slots.length := by
      rw [List.countP_eq_length]
      intro slot hslot
      simpa [Option.isSome_eq_false_iff, Option.isSome_iff_ne_none] using hall slot hslot
    omega
  have hempty : slots[slots.findIdx Option.isNone]? = some none := by
    have hnone := List.findIdx_getElem (w := hlt)
    rw [List.getElem?_eq_getElem hlt, Option.isNone_iff_eq_none.mp hnone]
  unfold dictionary.add
  rw [find_empty_spec hrep, ok_bind]
  generalize hi : slots.findIdx Option.isNone = i at hlt hempty
  cases hcopy : granted.key_copy with
  | true =>
    let e : Entry := { key := key, val := xstrdup granted.val_copy val, hash := dictionary_hash key }
    have hkeys : store d.key i (some key) = _ := hrep.store_key hlt (some e)
    obtain ⟨vals, hvals, hval⟩ : ∃ vals, store d.val i (xstrdup granted.val_copy val) = .ok vals ∧
        Backs vals (slots.set i (some e)) Entry.val :=
      hrep.val.store hlt (by rintro _ ⟨⟩; rfl)
    obtain ⟨hashes, hhashes, hhash⟩ : ∃ hashes, store d.hash i (dictionary_hash key) = .ok hashes ∧
        Backs hashes (slots.set i (some e)) Entry.hash :=
      hrep.hash.store hlt (by rintro _ ⟨⟩; rfl)
    have hinsert : insert_slot e slots = slots.set i (some e) := hi ▸ insert_slot_eq e slots
    have hsets : Sets slots.reduceOption key e.val (slots.set i (some e)).reduceOption :=
      hinsert ▸ insert_slot_sets hother hcount
    have hadded : (slots.set i (some e)).countP Option.isSome = slots.countP Option.isSome + 1 :=
      hinsert ▸ countP_insert_slot e hcount
    rw [countP_eq_length, countP_eq_length] at hadded
    have hxstrdup : xstrdup true (some key) = some key := rfl
    rw [hxstrdup, hkeys, ok_bind, hvals, ok_bind, hhashes, ok_bind]
    refine ⟨_, slots.set i (some e), (slots.set i (some e)).reduceOption, rfl, ?_⟩
    rw [if_pos rfl]
    refine ⟨⟨⟨?_, rfl, hval, hhash⟩, rfl, hsets.sound hsound, ?_, ?_, hroom⟩, hsets⟩
    · simp [hrep.size]
    · dsimp only
      omega
    · dsimp only
      omega
  | false =>
    have hsame : slots.set i none = slots := by
      apply List.ext_getElem?
      intro j
      by_cases hj : i = j
      · rw [← hj, List.getElem?_set_self hlt, hempty]
      · rw [List.getElem?_set_ne hj]
    have hkeys : store d.key i none = _ := hrep.store_key hlt none
    obtain ⟨vals, hvals, hval⟩ : ∃ vals, store d.val i (xstrdup granted.val_copy val) = .ok vals ∧
        Backs vals (slots.set i none) Entry.val :=
      hrep.val.store hlt nofun
    obtain ⟨hashes, hhashes, hhash⟩ : ∃ hashes, store d.hash i (dictionary_hash key) = .ok hashes ∧
        Backs hashes (slots.set i none) Entry.hash :=
      hrep.hash.store hlt nofun
    have hxstrdup : xstrdup false (some key) = none := rfl
    rw [hsame] at hkeys hval hhash
    rw [hxstrdup, hkeys, ok_bind, hvals, ok_bind, hhashes, ok_bind]
    refine ⟨_, slots, [], rfl, ?_⟩
    rw [if_neg (by decide)]
    refine ⟨⟨hrep.size, rfl, hval, hhash⟩, rfl, hsound, ?_, ?_, hroom⟩
    · dsimp only
      omega
    · dsimp only
      omega

theorem Backs.keep {α : Type} {array : Option (List α)} {field : Entry → α} (hback : Backs array slots field) {i : Nat}
    {e e' : Entry} (he : slots[i]? = some (some e)) (hsame : field e' = field e) :
    Backs array (slots.set i (some e')) field := by
  obtain ⟨xs, rfl, hlen, hxs⟩ := hback
  have hlt := (List.getElem?_eq_some_iff.mp he).1
  refine ⟨xs, rfl, by simp [hlen], fun j e'' he'' => ?_⟩
  by_cases hj : i = j
  · subst hj
    rw [List.getElem?_set_self hlt] at he''
    obtain rfl := Option.some.inj (Option.some.inj he'')
    rw [hsame, hxs i e he]
  · rw [List.getElem?_set_ne hj] at he''
    exact hxs j e'' he''

/-- A set changes the entry of the key, or adds one if the key can be copied. It fails
    only where a full dictionary cannot grow. -/
theorem dictionary_set_spec (hd : Holds d slots entries lost) (granted : Granted) (key : List UInt8)
    (val : Option (List UInt8)) :
    ∃ d', (dictionary_set granted d key val = .ok (d', -1) ∧ granted.arrays = false) ∨
      ∃ slots' entries', dictionary_set granted d key val = .ok (d', 0) ∧
        if (table Entry.key Entry.val entries key).isSome ∨ granted.key_copy then
          Holds d' slots' entries' lost ∧ Sets entries key (xstrdup granted.val_copy val) entries'
        else Holds d' slots' entries (lost + 1) := by
  obtain ⟨hrep, hentries, hsound, hcounted, hle, hroom⟩ := hd
  unfold dictionary_set
  rw [find_key_spec hrep]
  obtain ⟨hidx, hnone⟩ | ⟨i, e, hidx, he, hmatches, hsome⟩ := update_slot_cases key (dictionary_hash key)
    (fun e => some { e with val := xstrdup granted.val_copy val }) slots
  · have hother : ∀ e ∈ entries, e.key ≠ key := hsound.key_ne (hentries ▸ update_slot_none hnone)
    have habsent : table Entry.key Entry.val entries key = none := table_eq_none_iff.mpr hother
    rw [hidx, ← hrep.size, ite_self, ok_bind]
    dsimp only
    rw [if_neg (Nat.lt_irrefl _), habsent, dictionary.make_room]
    simp only [Option.isSome_none, Bool.false_eq_true, false_or]
    by_cases hfull : d.n = d.size
    · obtain ⟨grown, hgrow, hholds⟩ := grow_spec ⟨hrep, hentries, hsound, hcounted, hle, hroom⟩ hfull granted
      rw [if_pos hfull, hgrow, ok_bind]
      dsimp only
      cases harrays : granted.arrays with
      | false => exact ⟨grown, Or.inl ⟨rfl, rfl⟩⟩
      | true =>
        obtain ⟨slots', hholds', hfree⟩ := hholds harrays
        obtain ⟨d', slots'', entries', hadd, hresult⟩ := add_spec hholds' hfree hother granted val
        rw [if_pos rfl, hadd, ok_bind]
        exact ⟨d', Or.inr ⟨slots'', entries', rfl, hresult⟩⟩
    · have hfree : d.n < d.size := by omega
      obtain ⟨d', slots', entries', hadd, hresult⟩ :=
        add_spec ⟨hrep, hentries, hsound, hcounted, hle, hroom⟩ hfree hother granted val
      rw [if_neg hfull, ok_bind]
      dsimp only
      rw [if_pos rfl, hadd, ok_bind]
      exact ⟨d', Or.inr ⟨slots', entries', rfl, hresult⟩⟩
  · let e' : Entry := { e with val := xstrdup granted.val_copy val }
    have hlt := (List.getElem?_eq_some_iff.mp he).1
    have hmem : e ∈ entries := hentries ▸ List.reduceOption_mem_iff.mpr (List.mem_of_getElem? he)
    have hkey := (Entry.matches_iff (hsound.hashed e hmem) key).mp hmatches
    have hpresent : table Entry.key Entry.val entries key = some e.val :=
      (table_eq_some_iff hsound.distinct).mpr ⟨e, hmem, hkey, rfl⟩
    have hpos : d.n > 0 := by
      have hlen := List.length_pos_of_mem hmem
      omega
    obtain ⟨vals, hvals, hval⟩ : ∃ vals, store d.val i (xstrdup granted.val_copy val) = .ok vals ∧
        Backs vals (slots.set i (some e')) Entry.val :=
      hrep.val.store hlt (by rintro _ ⟨⟩; rfl)
    have hkeys : (slots.set i (some e')).map (·.map Entry.key) = slots.map (·.map Entry.key) := by
      apply List.ext_getElem?
      intro j
      by_cases hj : i = j
      · subst hj
        rw [List.getElem?_map, List.getElem?_set_self hlt, List.getElem?_map, he]
        rfl
      · rw [List.getElem?_map, List.getElem?_set_ne hj, List.getElem?_map]
    have hsets := update_slot_sets (hentries ▸ hsound) hsome
    obtain ⟨front, _, back, hslots, _, hslots', _⟩ := update_slot_some hsome
    have hlen : (slots.set i (some e')).reduceOption.length = slots.reduceOption.length := by
      rw [hslots, hslots']
      simp
    subst hentries
    rw [if_pos hpos, hidx, ok_bind]
    dsimp only
    rw [if_pos (hrep.size ▸ hlt), hvals, ok_bind]
    refine ⟨_, Or.inr ⟨slots.set i (some e'), (slots.set i (some e')).reduceOption, rfl, ?_⟩⟩
    rw [if_pos (Or.inl (by rw [hpresent]; rfl))]
    refine ⟨⟨⟨?_, ?_, hval, hrep.hash.keep he rfl⟩, rfl, hsets.sound hsound, ?_, hle, hroom⟩, hsets⟩
    · simp [hrep.size]
    · rw [hkeys]
      exact hrep.key
    · dsimp only
      omega

end

/-! ## Runs -/

inductive Call where
  | set (granted : Granted) (key : List UInt8) (val : Option (List UInt8))
  | unset (key : List UInt8)
deriving DecidableEq, Repr

/-- The calls in a row, up to a set that fails. -/
def run : dictionary → List Call → Except Fault (Option dictionary)
  | d, [] => .ok (some d)
  | d, .set granted key val :: calls => do
    let (d, rc) ← dictionary_set granted d key val
    if rc = 0 then run d calls else .ok none
  | d, .unset key :: calls => do
    let d ← dictionary_unset d key
    run d calls

/-- What the calls make of a dictionary: the map, and the keys that could not be copied. -/
structure Contents where
  map : List UInt8 → Option (Option (List UInt8))
  lost : Nat

def Contents.after (c : Contents) : Call → Contents
  | .set granted key val =>
    if (c.map key).isSome ∨ granted.key_copy then
      { c with map := Function.update c.map key (some (xstrdup granted.val_copy val)) }
    else { c with lost := c.lost + 1 }
  | .unset key => { c with map := Function.update c.map key none }

theorem run_spec {d : dictionary} {slots : List (Option Entry)} {entries : List Entry} {c : Contents}
    (hd : Holds d slots entries c.lost) (hmap : table Entry.key Entry.val entries = c.map) (calls : List Call) :
    ∃ r, run d calls = .ok r ∧
      (∀ d', r = some d' → ∃ slots' entries', Holds d' slots' entries' (calls.foldl Contents.after c).lost ∧
        table Entry.key Entry.val entries' = (calls.foldl Contents.after c).map) ∧
      ((∀ granted key val, .set granted key val ∈ calls → granted.arrays = true) → r ≠ none) := by
  induction calls generalizing d slots entries c with
  | nil => exact ⟨some d, rfl, by rintro _ ⟨⟩; exact ⟨slots, entries, hd, hmap⟩, fun _ => nofun⟩
  | cons call calls ih =>
    cases call with
    | set granted key val =>
      unfold run
      obtain ⟨d', ⟨hset, harrays⟩ | ⟨slots', entries', hset, hresult⟩⟩ := dictionary_set_spec hd granted key val
      · rw [hset, ok_bind]
        refine ⟨none, rfl, nofun, fun hgranted => ?_⟩
        have htrue := hgranted granted key val List.mem_cons_self
        rw [harrays] at htrue
        cases htrue
      · rw [hset, ok_bind]
        dsimp only
        rw [if_pos rfl, List.foldl_cons]
        rw [hmap] at hresult
        have hnext : ∃ slots'' entries'', Holds d' slots'' entries'' (c.after (.set granted key val)).lost ∧
            table Entry.key Entry.val entries'' = (c.after (.set granted key val)).map := by
          unfold Contents.after
          dsimp only
          split at hresult
          case isTrue hthere =>
            rw [if_pos hthere]
            exact ⟨slots', entries', hresult.1, by rw [hresult.2.table_eq hd.sound, hmap]⟩
          case isFalse hgone =>
            rw [if_neg hgone]
            exact ⟨slots', entries, hresult, hmap⟩
        obtain ⟨slots'', entries'', hholds, hmap''⟩ := hnext
        obtain ⟨r, hrun, hsome, hnone⟩ := ih hholds hmap''
        exact ⟨r, hrun, hsome, fun hgranted => hnone fun granted key val hmem =>
          hgranted granted key val (List.mem_cons_of_mem _ hmem)⟩
    | unset key =>
      obtain ⟨d', slots', entries', hunset, hholds, hunsets⟩ := dictionary_unset_spec hd key
      have hmap' : table Entry.key Entry.val entries' = (c.after (.unset key)).map := by
        rw [hunsets.table_eq hd.sound, hmap]
        rfl
      obtain ⟨r, hrun, hsome, hnone⟩ := ih (c := c.after (.unset key)) hholds hmap'
      unfold run
      rw [hunset, ok_bind, List.foldl_cons]
      exact ⟨r, hrun, hsome, fun hgranted => hnone fun granted key val hmem =>
        hgranted granted key val (List.mem_cons_of_mem _ hmem)⟩

/-- The call on the table of slots, where no allocation fails. -/
def slots_after (d : iniparser.dictionary) : Call → iniparser.dictionary
  | .set _ key val => (iniparser.dictionary_set d key val).1
  | .unset key => iniparser.dictionary_unset d key

/-- Every allocation that a call may make is granted. -/
def Call.granted : Call → Bool
  | .set granted _ _ => granted.arrays && granted.key_copy && granted.val_copy
  | .unset _ => true

theorem foldl_slots_after {calls : List Call} (hcalls : ∀ call ∈ calls, call.granted = true)
    {d : iniparser.dictionary} (hd : Sound d.entries) {c : Contents}
    (hmap : table Entry.key Entry.val d.entries = c.map) :
    Sound (calls.foldl slots_after d).entries ∧
      table Entry.key Entry.val (calls.foldl slots_after d).entries = (calls.foldl Contents.after c).map ∧
      (calls.foldl Contents.after c).lost = c.lost := by
  induction calls generalizing d c with
  | nil => exact ⟨hd, hmap, rfl⟩
  | cons call calls ih =>
    obtain ⟨hcall, hrest⟩ := List.forall_mem_cons.mp hcalls
    rw [List.foldl_cons, List.foldl_cons]
    cases call with
    | set granted key val =>
      obtain ⟨⟨_, hkey⟩, hval⟩ :
          (granted.arrays = true ∧ granted.key_copy = true) ∧ granted.val_copy = true := by
        simpa [Call.granted] using hcall
      have hafter : c.after (.set granted key val) = { c with map := Function.update c.map key (some val) } := by
        unfold Contents.after
        dsimp only
        rw [if_pos (Or.inr hkey), hval]
        rfl
      have hsets := iniparser.dictionary_set_sets hd key val
      have htable := hsets.table_eq hd
      rw [hmap] at htable
      rw [hafter]
      exact ih hrest (hsets.sound hd) htable
    | unset key =>
      have hunsets := iniparser.dictionary_unset_unsets hd key
      have htable := hunsets.table_eq hd
      rw [hmap] at htable
      exact ih hrest (hunsets.sound hd) htable

/-- Where every allocation is granted, the arrays behave as the table of slots does. -/
theorem arrays_refine_slots {granted : Granted} (harrays : granted.arrays = true) (size : Nat) {calls : List Call}
    (hcalls : ∀ call ∈ calls, call.granted = true) :
    ∃ d, run (dictionary_new granted size) calls = .ok (some d) ∧
      d.n = (calls.foldl slots_after (iniparser.dictionary_new size)).n ∧
      ∀ key default, dictionary_get d key default =
        .ok (iniparser.dictionary_get (calls.foldl slots_after (iniparser.dictionary_new size)) key default) := by
  obtain ⟨slots, hnew⟩ := holds_new harrays size
  obtain ⟨r, hrun, hsome, hnone⟩ := run_spec (c := { map := fun _ => none, lost := 0 }) hnew table_nil calls
  have hgrows : ∀ granted key val, .set granted key val ∈ calls → granted.arrays = true := by
    intro granted key val hmem
    have hcall := hcalls _ hmem
    simp only [Call.granted, Bool.and_eq_true] at hcall
    exact hcall.1.1
  obtain ⟨d, rfl⟩ := Option.ne_none_iff_exists'.mp (hnone hgrows)
  obtain ⟨slots', entries', hholds, hmap⟩ := hsome d rfl
  obtain ⟨hsound, htable, hlost⟩ := foldl_slots_after (c := { map := fun _ => none, lost := 0 }) hcalls
    (d := iniparser.dictionary_new size) (by rw [dictionary_new_entries]; exact sound_nil)
    (by rw [dictionary_new_entries]; rfl)
  generalize calls.foldl slots_after (iniparser.dictionary_new size) = table_ at hsound htable ⊢
  refine ⟨d, hrun, ?_, fun key default => ?_⟩
  · have hkeys : ∀ key, key ∈ entries'.map Entry.key ↔ key ∈ table_.entries.map Entry.key := by
      intro key
      have hnone : table Entry.key Entry.val entries' key = none ↔
          table Entry.key Entry.val table_.entries key = none := by rw [hmap, htable]
      rw [table_eq_none_iff, table_eq_none_iff] at hnone
      simpa using not_congr hnone
    have hperm := (List.perm_ext_iff_of_nodup hholds.sound.distinct hsound.distinct).mpr hkeys
    have hlen := hperm.length_eq
    rw [List.length_map, List.length_map] at hlen
    rw [hholds.counted, hlost, table_.counted, countP_eq_length, hlen]
    rfl
  · rw [dictionary_get_spec hholds, iniparser.dictionary_get_eq, lookup_eq hsound, hmap, htable]

/-- A key that is set twice and deleted. -/
theorem arrays_refine_slots_deleted :
    ∃ d, run (dictionary_new ⟨true, true, true, true, true⟩ (0 : Nat))
        [.set ⟨true, true, true, true, true⟩ [97] none, .set ⟨true, true, true, true, true⟩ [97] (some [49]),
          .unset [97]] = .ok (some d) ∧
      dictionary_get d [97] (some [48]) = .ok (some [48]) := by
  obtain ⟨d, hrun, _, hget⟩ := @arrays_refine_slots ⟨true, true, true, true, true⟩ rfl 0
    [.set ⟨true, true, true, true, true⟩ [97] none, .set ⟨true, true, true, true, true⟩ [97] (some [49]),
      .unset [97]] (by decide)
  refine ⟨d, hrun, (hget [97] (some [48])).trans ?_⟩
  decide +kernel

end code_tools.dict
