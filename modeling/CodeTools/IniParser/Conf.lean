import CodeTools.Lib.Heap
import CodeTools.Lib.Strtol
import CodeTools.IniParser.Strings
import Mathlib.Data.List.Nodup
import Mathlib.Logic.Function.Basic

/-!
# Reading a configuration: `confparser.c`

`parse_conf_file` looks up a key for each item of two tables and stores what it
finds in the variable of the item. A table that is `NULL` has no items.
-/

namespace code_tools.iniparser

open cmem cstring

def CONF_ITEM_LEN : Nat := 200

/-- A `char *` as the getters return it. -/
inductive CharPtr where
  | NULL
  | INI_INVALID_KEY
  | string (s : List UInt8)
deriving DecidableEq, Repr

/-- What a dictionary has under a key: nothing, `NULL`, or a string. -/
def dictionary.lookup (d : dictionary) (key : List UInt8) : Option (Option (List UInt8)) :=
  match d.slots.find? (·.any (Entry.matches key (dictionary_hash key))) with
  | some (some e) => some e.val
  | _ => none

theorem dictionary_get_eq (d : dictionary) (key : List UInt8) (default : Option (List UInt8)) :
    dictionary_get d key default = (d.lookup key).getD default := by
  unfold dictionary_get dictionary.lookup
  generalize d.slots.find? _ = slot
  cases slot with
  | none => rfl
  | some e =>
    cases e with
    | none => rfl
    | some e => rfl

/-- Upper and lower case make no difference to a key. -/
def iniparser_getstring (d : dictionary) (key : List UInt8) (default : CharPtr) : CharPtr :=
  match d.lookup (strlwc key) with
  | some (some s) => .string s
  | some none => .NULL
  | none => default

def iniparser_getint (d : dictionary) (key : List UInt8) (notfound : Int32) : Except Fault Int32 :=
  match iniparser_getstring d key .INI_INVALID_KEY with
  | .INI_INVALID_KEY => .ok notfound
  | .NULL => .error .nullPointer
  | .string s => .ok (Int32.ofInt (strtol s))

/-! ## The tables -/

/-- `CONF_INT_CONFIG` and `CONF_STR_CONFIG`. -/
structure Item (ν : Type) where
  config_name : List UInt8
  var : ν
deriving DecidableEq, Repr

/-- The buffer of a string item; it has room for what is copied into it. -/
structure Target where
  bytes : List UInt8
  room : CONF_ITEM_LEN + 1 ≤ bytes.length

/-- The `n` bytes that `strncpy` writes. -/
def strncpy (s : List UInt8) (n : Nat) : List UInt8 := s.take n ++ List.replicate (n - s.length) 0

theorem length_strncpy (s : List UInt8) (n : Nat) : (strncpy s n).length = n := by
  rw [strncpy, List.length_append, List.length_take, List.length_replicate]
  omega

/-- `strlcpy` is defined to be `strncpy`. -/
def Target.strlcpy (t : Target) (s : List UInt8) : Target :=
  { bytes := strncpy s (CONF_ITEM_LEN + 1) ++ t.bytes.drop (CONF_ITEM_LEN + 1)
    room := by
      rw [List.length_append, length_strncpy]
      exact Nat.le_add_right _ _ }

structure Vars (ν σ : Type) where
  ints : ν → Int32
  strs : σ → Target

/-- What `snprintf` leaves in `buf`. -/
def conf_key (mod_name config_name : List UInt8) : List UInt8 :=
  (mod_name ++ [':'.toUInt8] ++ config_name).take (CONF_ITEM_LEN - 1)

/-- The value of an `int` item; -1 stands for a key that is not there. -/
def fetch_int (conf : dictionary) (key : List UInt8) (old : Int32) : Except Fault Int32 := do
  let i ← iniparser_getint conf key (-1)
  if i ≠ -1 then .ok i else .ok old

def fetch_str (conf : dictionary) (key : List UInt8) (old : Target) : Except Fault Target :=
  match iniparser_getstring conf key .NULL with
  | .string s => .ok (old.strlcpy s)
  | _ => .ok old

section Items

variable {ν α : Type} [DecidableEq ν]

/-- The loop over a table: each variable gets the value that is fetched for it. -/
def parse_items (fetch : List UInt8 → α → Except Fault α) (mod_name : List UInt8) :
    List (Item ν) → (ν → α) → Except Fault (ν → α)
  | [], vars => .ok vars
  | item :: items, vars => do
    let a ← fetch (conf_key mod_name item.config_name) (vars item.var)
    parse_items fetch mod_name items (Function.update vars item.var a)

end Items

def parse_conf_file {ν σ : Type} [DecidableEq ν] [DecidableEq σ] (conf : Option dictionary)
    (mod_name : Option (List UInt8)) (cic : List (Item ν)) (csc : List (Item σ)) (vars : Vars ν σ) :
    Except Fault (Vars ν σ × Int) :=
  match conf, mod_name with
  | some conf, some mod_name => do
    let ints ← parse_items (fetch_int conf) mod_name cic vars.ints
    let strs ← parse_items (fetch_str conf) mod_name csc vars.strs
    .ok ({ ints, strs }, 0)
  | _, _ => .ok (vars, -1)

/-! ## One table -/

section Items

variable {ν α : Type} [DecidableEq ν] {fetch : List UInt8 → α → Except Fault α} {mod_name : List UInt8}

/-- Items with variables of their own do not disturb each other. -/
theorem parse_items_eq_ok_iff {items : List (Item ν)} (hdistinct : (items.map Item.var).Nodup) {vars vars' : ν → α} :
    parse_items fetch mod_name items vars = .ok vars' ↔
      (∀ item ∈ items, fetch (conf_key mod_name item.config_name) (vars item.var) = .ok (vars' item.var)) ∧
        ∀ x, x ∉ items.map Item.var → vars' x = vars x := by
  induction items generalizing vars with
  | nil =>
    constructor
    · intro h
      obtain rfl := Except.ok.inj h
      exact ⟨nofun, fun _ _ => rfl⟩
    · rintro ⟨_, hsame⟩
      exact congrArg Except.ok (funext fun x => (hsame x List.not_mem_nil).symm)
  | cons item items ih =>
    obtain ⟨hnew, hdistinct⟩ := List.nodup_cons.mp hdistinct
    have hother : ∀ a, ∀ item' ∈ items, Function.update vars item.var a item'.var = vars item'.var := by
      intro a item' hmem
      apply Function.update_of_ne
      intro heq
      exact hnew (heq ▸ List.mem_map_of_mem hmem)
    rw [parse_items, bind_eq_ok_iff, List.forall_mem_cons]
    constructor
    · rintro ⟨a, hfetch, hrest⟩
      obtain ⟨hitems, hsame⟩ := (ih hdistinct).mp hrest
      have hfirst : vars' item.var = a := by rw [hsame item.var hnew, Function.update_self]
      refine ⟨⟨by rw [hfirst]; exact hfetch, ?_⟩, ?_⟩
      · intro item' hmem
        rw [← hitems item' hmem, hother a item' hmem]
      · intro x hx
        rw [List.map_cons, List.mem_cons, not_or] at hx
        rw [hsame x hx.2, Function.update_of_ne hx.1]
    · rintro ⟨⟨hfirst, hitems⟩, hsame⟩
      refine ⟨vars' item.var, hfirst, (ih hdistinct).mpr ⟨?_, ?_⟩⟩
      · intro item' hmem
        rw [hother _ item' hmem]
        exact hitems item' hmem
      · intro x hx
        by_cases heq : x = item.var
        · rw [heq, Function.update_self]
        · rw [Function.update_of_ne heq]
          apply hsame x
          rw [List.map_cons, List.mem_cons, not_or]
          exact ⟨heq, hx⟩

/-- The loop ends where every item by itself can be fetched. -/
theorem exists_parse_items {items : List (Item ν)} (hdistinct : (items.map Item.var).Nodup) {vars : ν → α}
    (hall : ∀ item ∈ items, ∃ a, fetch (conf_key mod_name item.config_name) (vars item.var) = .ok a) :
    ∃ vars', parse_items fetch mod_name items vars = .ok vars' := by
  induction items generalizing vars with
  | nil => exact ⟨vars, rfl⟩
  | cons item items ih =>
    obtain ⟨hnew, hdistinct⟩ := List.nodup_cons.mp hdistinct
    obtain ⟨⟨a, hfetch⟩, hothers⟩ := List.forall_mem_cons.mp hall
    rw [parse_items, hfetch, ok_bind]
    apply ih hdistinct
    intro item' hmem
    rw [Function.update_of_ne]
    · exact hothers item' hmem
    · intro heq
      exact hnew (heq ▸ List.mem_map_of_mem hmem)

end Items

/-! ## What is transferred -/

def conf_name (mod_name : List UInt8) {ν : Type} (item : Item ν) : List UInt8 :=
  mod_name ++ [':'.toUInt8] ++ item.config_name

/-- What the dictionary has for an item. -/
def dictionary.has (d : dictionary) (mod_name : List UInt8) {ν : Type} (item : Item ν) :
    Option (Option (List UInt8)) :=
  d.lookup (strlwc (conf_name mod_name item))

/-- The value fits an `int`. -/
def FitsInt (v : List UInt8) : Prop := -2 ^ 31 ≤ strtol v ∧ strtol v < 2 ^ 31

/-- The first `CONF_ITEM_LEN` characters of the value and a terminator. -/
def Target.Holds (t : Target) (v : List UInt8) : Prop := ∃ rest, t.bytes = v.take CONF_ITEM_LEN ++ 0 :: rest

section Transfer

variable {ν σ : Type}

structure Transferred (d : dictionary) (mod_name : List UInt8) (cic : List (Item ν)) (csc : List (Item σ))
    (vars vars' : Vars ν σ) : Prop where
  ints : ∀ item ∈ cic, ∀ v, d.has mod_name item = some (some v) → FitsInt v →
    (vars'.ints item.var).toInt = strtol v
  strs : ∀ item ∈ csc, ∀ v, d.has mod_name item = some (some v) → (vars'.strs item.var).Holds v
  absent_ints : ∀ item ∈ cic, d.has mod_name item = none → vars'.ints item.var = vars.ints item.var
  absent_strs : ∀ item ∈ csc, d.has mod_name item = none → vars'.strs item.var = vars.strs item.var

theorem conf_key_eq {mod_name : List UInt8} {item : Item ν}
    (hshort : mod_name.length + 1 + item.config_name.length < CONF_ITEM_LEN) :
    conf_key mod_name item.config_name = conf_name mod_name item := by
  unfold conf_key conf_name
  rw [List.take_of_length_le]
  simp only [List.length_append, List.length_singleton]
  omega

/-- What is fetched for an `int` item. -/
theorem fetch_int_has {d : dictionary} {mod_name : List UInt8} {item : Item ν} (old : Int32) :
    fetch_int d (conf_name mod_name item) old =
      match d.has mod_name item with
      | none => .ok old
      | some none => .error .nullPointer
      | some (some v) => .ok (if Int32.ofInt (strtol v) ≠ -1 then Int32.ofInt (strtol v) else old) := by
  unfold fetch_int iniparser_getint iniparser_getstring
  change (match (match d.has mod_name item with | some (some s) => _ | some none => _ | none => _ : CharPtr) with
    | .INI_INVALID_KEY => _ | .NULL => _ | .string s => _ : Except Fault Int32) >>= _ = _
  cases d.has mod_name item with
  | none => rfl
  | some v =>
    cases v with
    | none => rfl
    | some v =>
      dsimp only
      rw [ok_bind]
      split <;> rfl

theorem fetch_str_has {d : dictionary} {mod_name : List UInt8} {item : Item ν} (old : Target) :
    fetch_str d (conf_name mod_name item) old =
      .ok (match d.has mod_name item with
        | some (some v) => old.strlcpy v
        | _ => old) := by
  unfold fetch_str iniparser_getstring
  change (match (match d.has mod_name item with | some (some s) => _ | some none => _ | none => _ : CharPtr) with
    | .string s => _ | _ => _ : Except Fault Target) = _
  cases d.has mod_name item with
  | none => rfl
  | some v => cases v <;> rfl

variable [DecidableEq ν] [DecidableEq σ]

/-- The call returns, so that no `NULL` went to `strtol`, and has transferred what
    the dictionary has for the items. -/
def Transfers (d : dictionary) (mod_name : List UInt8) (cic : List (Item ν)) (csc : List (Item σ))
    (vars : Vars ν σ) : Prop :=
  ∃ vars', parse_conf_file (some d) (some mod_name) cic csc vars = .ok (vars', 0) ∧
    Transferred d mod_name cic csc vars vars'

/-- No `int` item has the name of a section, one with the value -1 has it already,
    and no string is longer than `CONF_ITEM_LEN`. -/
structure Transferable (d : dictionary) (mod_name : List UInt8) (cic : List (Item ν)) (csc : List (Item σ))
    (vars : Vars ν σ) : Prop where
  noSection : ∀ item ∈ cic, d.has mod_name item ≠ some none
  noSentinel : ∀ item ∈ cic, ∀ v, d.has mod_name item = some (some v) → strtol v = -1 → vars.ints item.var = -1
  short : ∀ item ∈ csc, ∀ v, d.has mod_name item = some (some v) → v.length ≤ CONF_ITEM_LEN

variable {d : dictionary} {mod_name : List UInt8} {cic : List (Item ν)} {csc : List (Item σ)} {vars : Vars ν σ}

/-- The call returns what is fetched for each item by itself. -/
theorem parse_conf_file_eq_ok_iff (hints : (cic.map Item.var).Nodup) (hstrs : (csc.map Item.var).Nodup)
    (hcic : ∀ item ∈ cic, mod_name.length + 1 + item.config_name.length < CONF_ITEM_LEN)
    (hcsc : ∀ item ∈ csc, mod_name.length + 1 + item.config_name.length < CONF_ITEM_LEN) {vars' : Vars ν σ} :
    parse_conf_file (some d) (some mod_name) cic csc vars = .ok (vars', 0) ↔
      ((∀ item ∈ cic, fetch_int d (conf_name mod_name item) (vars.ints item.var) = .ok (vars'.ints item.var)) ∧
        ∀ x, x ∉ cic.map Item.var → vars'.ints x = vars.ints x) ∧
      (∀ item ∈ csc, fetch_str d (conf_name mod_name item) (vars.strs item.var) = .ok (vars'.strs item.var)) ∧
        ∀ x, x ∉ csc.map Item.var → vars'.strs x = vars.strs x := by
  have hint : parse_items (fetch_int d) mod_name cic vars.ints = .ok vars'.ints ↔ _ := parse_items_eq_ok_iff hints
  have hstr : parse_items (fetch_str d) mod_name csc vars.strs = .ok vars'.strs ↔ _ := parse_items_eq_ok_iff hstrs
  rw [forall₂_congr fun item hmem => by rw [conf_key_eq (hcic item hmem)]] at hint
  rw [forall₂_congr fun item hmem => by rw [conf_key_eq (hcsc item hmem)]] at hstr
  rw [← hint, ← hstr]
  simp only [parse_conf_file]
  rw [bind_eq_ok_iff]
  constructor
  · rintro ⟨ints, hints', hrest⟩
    obtain ⟨strs, hstrs', heq⟩ := bind_eq_ok_iff.mp hrest
    obtain ⟨rfl, _⟩ := Prod.mk.inj (Except.ok.inj heq)
    exact ⟨hints', hstrs'⟩
  · rintro ⟨hints', hstrs'⟩
    exact ⟨vars'.ints, hints', bind_eq_ok_iff.mpr ⟨vars'.strs, hstrs', rfl⟩⟩

theorem exists_parse_conf_file (hints : (cic.map Item.var).Nodup) (hstrs : (csc.map Item.var).Nodup)
    (hcic : ∀ item ∈ cic, mod_name.length + 1 + item.config_name.length < CONF_ITEM_LEN)
    (hcsc : ∀ item ∈ csc, mod_name.length + 1 + item.config_name.length < CONF_ITEM_LEN)
    (hnoSection : ∀ item ∈ cic, d.has mod_name item ≠ some none) :
    ∃ vars', parse_conf_file (some d) (some mod_name) cic csc vars = .ok (vars', 0) := by
  obtain ⟨ints, hint⟩ : ∃ ints, parse_items (fetch_int d) mod_name cic vars.ints = .ok ints := by
    apply exists_parse_items hints
    intro item hmem
    rw [conf_key_eq (hcic item hmem), fetch_int_has]
    cases hhas : d.has mod_name item with
    | none => exact ⟨_, rfl⟩
    | some v =>
      cases v with
      | none => exact absurd hhas (hnoSection item hmem)
      | some v => exact ⟨_, rfl⟩
  obtain ⟨strs, hstr⟩ : ∃ strs, parse_items (fetch_str d) mod_name csc vars.strs = .ok strs := by
    apply exists_parse_items hstrs
    intro item hmem
    rw [conf_key_eq (hcsc item hmem), fetch_str_has]
    exact ⟨_, rfl⟩
  refine ⟨{ ints, strs }, ?_⟩
  simp only [parse_conf_file]
  rw [hint, ok_bind, hstr, ok_bind]

end Transfer

/-! ## Strings -/

theorem dictionary.Strings.lookup {d : dictionary} (hd : d.Strings) {key v : List UInt8}
    (hlookup : d.lookup key = some (some v)) : 0 ∉ v := by
  unfold dictionary.lookup at hlookup
  split at hlookup
  case h_1 e hfind => exact hd _ (List.mem_of_find?_eq_some hfind) v (Option.some.inj hlookup)
  case h_2 => cases hlookup

/-- A string is copied with its terminator exactly when it is not longer than
    `CONF_ITEM_LEN`. -/
theorem strlcpy_holds_iff {v : List UInt8} (hv : 0 ∉ v) (t : Target) :
    (t.strlcpy v).Holds v ↔ v.length ≤ CONF_ITEM_LEN := by
  constructor
  · rintro ⟨rest, hbytes⟩
    by_contra hlong
    have htake : strncpy v (CONF_ITEM_LEN + 1) = v.take (CONF_ITEM_LEN + 1) := by
      rw [strncpy, show CONF_ITEM_LEN + 1 - v.length = 0 by omega, List.replicate_zero, List.append_nil]
    have hlast := congrArg (·[CONF_ITEM_LEN]?) hbytes
    dsimp only [Target.strlcpy] at hlast
    rw [htake, List.getElem?_append_left (by rw [List.length_take]; omega),
      List.getElem?_take_of_lt (Nat.lt_succ_self _),
      List.getElem?_append_right (by rw [List.length_take]; omega), List.length_take,
      Nat.min_eq_left (by omega), Nat.sub_self] at hlast
    exact hv (List.mem_of_getElem? hlast)
  · intro hshort
    obtain ⟨k, hk⟩ := Nat.exists_eq_add_of_le hshort
    refine ⟨List.replicate k 0 ++ t.bytes.drop (CONF_ITEM_LEN + 1), ?_⟩
    dsimp only [Target.strlcpy]
    rw [strncpy, List.take_of_length_le (by omega), List.take_of_length_le hshort,
      show CONF_ITEM_LEN + 1 - v.length = k + 1 by omega, List.replicate_succ, List.append_assoc, List.cons_append]

/-! ## When everything is transferred -/

section Transfer

variable {ν σ : Type} [DecidableEq ν] [DecidableEq σ] {d : dictionary} {mod_name : List UInt8} {cic : List (Item ν)}
  {csc : List (Item σ)} {vars : Vars ν σ}

theorem Transfers.transferable (h : Transfers d mod_name cic csc vars)
    (hd : Loaded d) (hints : (cic.map Item.var).Nodup) (hstrs : (csc.map Item.var).Nodup)
    (hcic : ∀ item ∈ cic, mod_name.length + 1 + item.config_name.length < CONF_ITEM_LEN)
    (hcsc : ∀ item ∈ csc, mod_name.length + 1 + item.config_name.length < CONF_ITEM_LEN) :
    Transferable d mod_name cic csc vars := by
  obtain ⟨vars', hcall, htransferred⟩ := h
  obtain ⟨⟨hint, _⟩, hstr, _⟩ := (parse_conf_file_eq_ok_iff hints hstrs hcic hcsc).mp hcall
  refine ⟨?_, ?_, ?_⟩
  · intro item hmem hhas
    have hfetch := hint item hmem
    rw [fetch_int_has, hhas] at hfetch
    cases hfetch
  · intro item hmem v hhas hsentinel
    have hfetch := hint item hmem
    have hvalue := htransferred.ints item hmem v hhas ⟨by omega, by omega⟩
    rw [fetch_int_has, hhas] at hfetch
    dsimp only at hfetch
    rw [hsentinel, if_neg (by decide)] at hfetch
    rw [← Int32.toInt_inj, Except.ok.inj hfetch, hvalue, hsentinel]
    rfl
  · intro item hmem v hhas
    have hfetch := hstr item hmem
    have hholds := htransferred.strs item hmem v hhas
    rw [fetch_str_has, hhas] at hfetch
    rw [← Except.ok.inj hfetch] at hholds
    exact (strlcpy_holds_iff (hd.strings.lookup hhas) _).mp hholds

theorem Transferable.transfers (h : Transferable d mod_name cic csc vars)
    (hd : Loaded d) (hints : (cic.map Item.var).Nodup) (hstrs : (csc.map Item.var).Nodup)
    (hcic : ∀ item ∈ cic, mod_name.length + 1 + item.config_name.length < CONF_ITEM_LEN)
    (hcsc : ∀ item ∈ csc, mod_name.length + 1 + item.config_name.length < CONF_ITEM_LEN) :
    Transfers d mod_name cic csc vars := by
  obtain ⟨hnoSection, hnoSentinel, hshort⟩ := h
  obtain ⟨vars', hcall⟩ : ∃ vars', parse_conf_file (some d) (some mod_name) cic csc vars = .ok (vars', 0) :=
    exists_parse_conf_file hints hstrs hcic hcsc hnoSection
  obtain ⟨⟨hint, _⟩, hstr, _⟩ := (parse_conf_file_eq_ok_iff hints hstrs hcic hcsc).mp hcall
  refine ⟨vars', hcall, ?_, ?_, ?_, ?_⟩
  · intro item hmem v hhas hfits
    have hfetch := hint item hmem
    have hconvert := Int32.toInt_ofInt_of_le hfits.1 hfits.2
    rw [fetch_int_has, hhas] at hfetch
    rw [← Except.ok.inj hfetch]
    split
    case isTrue => exact hconvert
    case isFalse hminus =>
      rw [not_not] at hminus
      rw [hminus] at hconvert
      rw [hnoSentinel item hmem v hhas hconvert.symm, ← hconvert]
  · intro item hmem v hhas
    have hfetch := hstr item hmem
    rw [fetch_str_has, hhas] at hfetch
    rw [← Except.ok.inj hfetch]
    exact (strlcpy_holds_iff (hd.strings.lookup hhas) _).mpr (hshort item hmem v hhas)
  · intro item hmem hhas
    have hfetch := hint item hmem
    rw [fetch_int_has, hhas] at hfetch
    exact (Except.ok.inj hfetch).symm
  · intro item hmem hhas
    have hfetch := hstr item hmem
    rw [fetch_str_has, hhas] at hfetch
    exact (Except.ok.inj hfetch).symm

/-- A configuration is transferred faithfully exactly when no `int` item names a
    section, none that is not -1 has the value -1, and no string is longer than
    `CONF_ITEM_LEN`. -/
theorem parse_conf_file_transfers_iff (hd : Loaded d) (hints : (cic.map Item.var).Nodup)
    (hstrs : (csc.map Item.var).Nodup)
    (hcic : ∀ item ∈ cic, mod_name.length + 1 + item.config_name.length < CONF_ITEM_LEN)
    (hcsc : ∀ item ∈ csc, mod_name.length + 1 + item.config_name.length < CONF_ITEM_LEN) :
    Transfers d mod_name cic csc vars ↔ Transferable d mod_name cic csc vars := by
  exact ⟨fun h => h.transferable hd hints hstrs hcic hcsc, fun h => h.transfers hd hints hstrs hcic hcsc⟩

end Transfer

/-! ## Configurations -/

/-- A table with one item. -/
def one_item (name : String) : List (Item Unit) := [{ config_name := bytes_of name, var := () }]

/-- An `int` that is 7, and a buffer without a terminator. -/
def Vars.initial : Vars Unit Unit :=
  { ints := fun _ => 7
    strs := fun _ => { bytes := List.replicate (CONF_ITEM_LEN + 1) 1, room := by simp } }

/-- What is loaded from a concrete text can be evaluated for what it has for some
    items. -/
theorem exists_loaded {text : List UInt8} {items : List (Item Unit)} {values : List (Option (Option (List UInt8)))}
    (hview : (iniparser_load (some text)).map (·.map fun d => items.map (d.has (bytes_of "m"))) =
      some (some values)) : ∃ d, Loaded d ∧ items.map (d.has (bytes_of "m")) = values := by
  obtain ⟨d, hload, hd⟩ := Option.map_eq_some_iff.mp hview
  obtain ⟨d, rfl, hv⟩ := Option.map_eq_some_iff.mp hd
  exact ⟨d, Or.inl ⟨some text, hload⟩, hv⟩

/-- A negative number and a word. -/
theorem parse_conf_file_transfers_module :
    ∃ d, Loaded d ∧ d.has (bytes_of "m") (⟨bytes_of "a", ()⟩ : Item Unit) = some (some (bytes_of "-5")) ∧
      Transfers d (bytes_of "m") (one_item "a") (one_item "b") Vars.initial := by
  obtain ⟨d, hd, hvalues⟩ : ∃ d, Loaded d ∧ (one_item "a" ++ one_item "b").map (d.has (bytes_of "m")) =
      [some (some (bytes_of "-5")), some (some (bytes_of "hi"))] :=
    exists_loaded (by decide +kernel : (iniparser_load (some (bytes_of "[m]\na=-5\nb=hi\n"))).map _ = some (some _))
  obtain ⟨ha, hrest⟩ := List.cons.inj hvalues
  obtain ⟨hb, _⟩ := List.cons.inj hrest
  have hiff : Transfers d (bytes_of "m") (one_item "a") (one_item "b") Vars.initial ↔ _ :=
    parse_conf_file_transfers_iff hd (List.nodup_singleton _) (List.nodup_singleton _) (by decide) (by decide)
  refine ⟨d, hd, ha, hiff.mpr ⟨?_, ?_, ?_⟩⟩
  · rintro item hmem hnull
    obtain rfl := List.mem_singleton.mp hmem
    rw [ha] at hnull
    cases Option.some.inj hnull
  · rintro item hmem v hhas hsentinel
    obtain rfl := List.mem_singleton.mp hmem
    rw [ha] at hhas
    obtain rfl := Option.some.inj (Option.some.inj hhas)
    exact absurd hsentinel (by decide +kernel)
  · rintro item hmem v hhas
    obtain rfl := List.mem_singleton.mp hmem
    rw [hb] at hhas
    obtain rfl := Option.some.inj (Option.some.inj hhas)
    decide

/-- The number -1, a string of 201 characters, and an `int` item with the name of a
    section. -/
theorem parse_conf_file_unfaithful :
    ∃ d, Loaded d ∧ ¬Transfers d (bytes_of "m") (one_item "a") ([] : List (Item Unit)) Vars.initial ∧
      ¬Transfers d (bytes_of "m") ([] : List (Item Unit)) (one_item "b") Vars.initial ∧
      ¬Transfers d (bytes_of "m") (one_item "c") ([] : List (Item Unit)) Vars.initial := by
  obtain ⟨d, hd, hvalues⟩ : ∃ d, Loaded d ∧
      (one_item "a" ++ one_item "b" ++ one_item "c").map (d.has (bytes_of "m")) =
        [some (some (bytes_of "-1")), some (some (List.replicate 201 120)), some none] :=
    exists_loaded (by decide +kernel :
      (iniparser_load (some (bytes_of "[m]\na=-1\nb=" ++ List.replicate 201 120 ++ bytes_of "\n[m:c]\n"))).map _ =
        some (some _))
  obtain ⟨ha, hrest⟩ := List.cons.inj hvalues
  obtain ⟨hb, hrest⟩ := List.cons.inj hrest
  obtain ⟨hc, _⟩ := List.cons.inj hrest
  have hone : ∀ name, ((one_item name).map Item.var).Nodup := fun name => List.nodup_singleton _
  refine ⟨d, hd, ?_, ?_, ?_⟩
  · intro h
    have hold := (h.transferable hd (hone "a") List.nodup_nil (by decide) nofun).noSentinel _ List.mem_cons_self _ ha
      (by decide +kernel)
    exact absurd hold (by decide)
  · intro h
    have hshort := (h.transferable hd List.nodup_nil (hone "b") nofun (by decide)).short _ List.mem_cons_self _ hb
    rw [List.length_replicate] at hshort
    exact absurd hshort (by decide)
  · intro h
    exact (h.transferable hd (hone "c") List.nodup_nil (by decide) nofun).noSection _ List.mem_cons_self hc

end code_tools.iniparser
