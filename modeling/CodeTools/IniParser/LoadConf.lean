import CodeTools.IniParser.Conf
import CodeTools.IniParser.Edited

/-!
# Loading a configuration: the rest of `confparser.c`

`load_conf` and `load_conf_mem` load a dictionary, hand it to `parse_conf_file`, and
forget it. What this returns is lost.
-/

namespace code_tools.iniparser

open cmem cstring

/-- The contents of the files that can be opened. -/
abbrev Files : Type := List UInt8 → Option (List UInt8)

/-- `conf_file` is read when there is no name. -/
def open_conf_file (files : Files) (conf_file : List UInt8) (conf_name : Option (List UInt8)) :
    Option (Option dictionary) :=
  iniparser_load (files (conf_name.getD conf_file))

def open_conf_mem (ini : Option (Nat → UInt8)) (len : Nat) : Option (Option dictionary) :=
  match ini with
  | some ini => iniparser_load_mem ini len
  | none => some none

section

variable {ν σ : Type} [DecidableEq ν] [DecidableEq σ]

/-- What follows the loading in both. -/
def parse_opened (conf : Option dictionary) (mod_name : Option (List UInt8)) (cic : List (Item ν))
    (csc : List (Item σ)) (vars : Vars ν σ) : Except Fault (Vars ν σ × Int) :=
  match conf with
  | none => .ok (vars, -1)
  | some conf => do
    let (vars, _) ← parse_conf_file (some conf) mod_name cic csc vars
    .ok (vars, 0)

/-- `none` when the loading does not end. -/
def load_conf (files : Files) (conf_file : List UInt8) (conf_name mod_name : Option (List UInt8))
    (cic : List (Item ν)) (csc : List (Item σ)) (vars : Vars ν σ) : Option (Except Fault (Vars ν σ × Int)) :=
  (open_conf_file files conf_file conf_name).map fun conf => parse_opened conf mod_name cic csc vars

def load_conf_mem (ini : Option (Nat → UInt8)) (len : Nat) (mod_name : Option (List UInt8)) (cic : List (Item ν))
    (csc : List (Item σ)) (vars : Vars ν σ) : Option (Except Fault (Vars ν σ × Int)) :=
  (open_conf_mem ini len).map fun conf => parse_opened conf mod_name cic csc vars

end

/-! ## What a session left for an item -/

/-- What an `int` variable becomes for what is set under the name of its item. -/
def int_after (found : Option (Option (List UInt8))) (old : Int32) : Int32 :=
  match found with
  | some (some v) => if Int32.ofInt (strtol v) ≠ -1 then Int32.ofInt (strtol v) else old
  | _ => old

def str_after (found : Option (Option (List UInt8))) (old : Target) : Target :=
  match found with
  | some (some v) => old.strlcpy v
  | _ => old

/-- The name of an item in lower case, as it is set. -/
def item_key (mod_name : List UInt8) {ν : Type} (item : Item ν) : List UInt8 :=
  mod_name.map tolower ++ COLON :: item.config_name.map tolower

theorem has_eq {d : dictionary} {mod_name : List UInt8} {ν : Type} {item : Item ν}
    (hshort : mod_name.length + 1 + item.config_name.length < CONF_ITEM_LEN) :
    d.has mod_name item = d.lookup (item_key mod_name item) := by
  have hlen : CONF_ITEM_LEN < ASCIILINESZ := by decide
  have hname : conf_name mod_name item = mod_name ++ COLON :: item.config_name := List.append_assoc _ _ _
  rw [dictionary.has, hname, strlwc_entry (by omega)]
  rfl

/-- No section has the name of an item. -/
theorem SectionedMap.has_ne_section {m : List UInt8 → Option (Option (List UInt8))} (hm : SectionedMap m)
    (mod_name : List UInt8) {ν : Type} (item : Item ν) : m (item_key mod_name item) ≠ some none := by
  intro hnull
  have hcolon : COLON ∈ item_key mod_name item := List.mem_append_right _ List.mem_cons_self
  obtain ⟨_, _, v, _, _, _, hv, _⟩ := hm.keys _ _ hnull hcolon
  cases hv

section

variable {ν σ : Type} [DecidableEq ν] [DecidableEq σ] {mod_name : List UInt8} {cic : List (Item ν)}
  {csc : List (Item σ)}

/-- The call returns and leaves in each variable what was set for its item. -/
theorem parse_conf_file_sectioned {d : dictionary} (hd : SectionedMap d.lookup) (hints : (cic.map Item.var).Nodup)
    (hstrs : (csc.map Item.var).Nodup)
    (hcic : ∀ item ∈ cic, mod_name.length + 1 + item.config_name.length < CONF_ITEM_LEN)
    (hcsc : ∀ item ∈ csc, mod_name.length + 1 + item.config_name.length < CONF_ITEM_LEN) (vars : Vars ν σ) :
    ∃ vars', parse_conf_file (some d) (some mod_name) cic csc vars = .ok (vars', 0) ∧
      (∀ item ∈ cic, vars'.ints item.var = int_after (d.lookup (item_key mod_name item)) (vars.ints item.var)) ∧
      (∀ item ∈ csc, vars'.strs item.var = str_after (d.lookup (item_key mod_name item)) (vars.strs item.var)) ∧
      (∀ x, x ∉ cic.map Item.var → vars'.ints x = vars.ints x) ∧
      ∀ x, x ∉ csc.map Item.var → vars'.strs x = vars.strs x := by
  have hnoSection : ∀ item ∈ cic, d.has mod_name item ≠ some none := by
    intro item hmem
    rw [has_eq (hcic item hmem)]
    exact hd.has_ne_section mod_name item
  obtain ⟨vars', hcall⟩ := exists_parse_conf_file hints hstrs hcic hcsc hnoSection
  obtain ⟨⟨hint, hints'⟩, hstr, hstrs'⟩ := (parse_conf_file_eq_ok_iff hints hstrs hcic hcsc).mp hcall
  refine ⟨vars', hcall, fun item hmem => ?_, fun item hmem => ?_, hints', hstrs'⟩
  · have hfetch := hint item hmem
    rw [fetch_int_has] at hfetch
    have hne := hnoSection item hmem
    rw [← has_eq (hcic item hmem)]
    cases hhas : d.has mod_name item with
    | none =>
      rw [hhas] at hfetch
      exact (Except.ok.inj hfetch).symm
    | some v =>
      cases v with
      | none => exact absurd hhas hne
      | some v =>
        rw [hhas] at hfetch
        exact (Except.ok.inj hfetch).symm
  · have hfetch := hstr item hmem
    rw [fetch_str_has] at hfetch
    rw [← has_eq (hcsc item hmem), ← Except.ok.inj hfetch]
    cases d.has mod_name item with
    | none => rfl
    | some v => cases v <;> rfl

end

end code_tools.iniparser
