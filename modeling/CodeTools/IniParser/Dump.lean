import CodeTools.IniParser.Agreement
import CodeTools.IniParser.Slots

/-!
# Saving a dictionary: `iniparser_dump_ini` of `iniparser.c`
-/

namespace code_tools.iniparser

open cmem cstring

def COLON : UInt8 := ':'.toUInt8

/-! ## The sections -/

def getnsec_loop : List (Option Entry) → Nat → Nat
  | [], nsec => nsec
  | none :: slots, nsec => getnsec_loop slots nsec
  | some e :: slots, nsec => getnsec_loop slots (if COLON ∉ e.key then nsec + 1 else nsec)

def iniparser_getnsec (d : dictionary) : Nat := getnsec_loop d.slots 0

def getsecname_loop (n : Nat) : List (Option Entry) → Nat → Option (List UInt8)
  | [], _ => none
  | none :: slots, foundsec => getsecname_loop n slots foundsec
  | some e :: slots, foundsec =>
    if COLON ∉ e.key then
      if foundsec + 1 > n then some e.key else getsecname_loop n slots (foundsec + 1)
    else getsecname_loop n slots foundsec

def iniparser_getsecname (d : dictionary) (n : Int) : Option (List UInt8) :=
  if n < 0 then none else getsecname_loop n.toNat d.slots 0

/-! ## The file -/

/-- `%-30s` -/
def padded (s : List UInt8) : List UInt8 := s ++ List.replicate (30 - s.length) 32

/-- `sprintf(keym, "%s:", secname)`; the terminator is one byte more. -/
def sprintf_keym (secname : List UInt8) : Except Fault (List UInt8) :=
  if secname.length + 1 + 1 ≤ ASCIILINESZ + 1 then .ok (secname ++ [COLON]) else .error .outOfBounds

def value_line (key val : List UInt8) : List UInt8 := padded key ++ bytes_of " = " ++ val

def section_line (secname : List UInt8) : List UInt8 := OPENING :: secname ++ [CLOSING]

/-- The loop over the keys of a section. -/
def dump_keys (keym : List UInt8) (seclen : Nat) : List (Option Entry) → List UInt8
  | [] => []
  | none :: slots => dump_keys keym seclen slots
  | some e :: slots =>
    if e.key.take (seclen + 1) = keym.take (seclen + 1) then
      value_line (e.key.drop (seclen + 1)) (e.val.getD []) ++ [LF] ++ dump_keys keym seclen slots
    else dump_keys keym seclen slots

/-- The loop over the sections, from the `i`-th on with `left` to go. -/
def dump_sections (d : dictionary) : Nat → Nat → Except Fault (List UInt8)
  | 0, _ => .ok []
  | left + 1, i =>
    match iniparser_getsecname d i with
    | none => .error .nullPointer
    | some secname => do
      let keym ← sprintf_keym secname
      let rest ← dump_sections d left (i + 1)
      .ok ([LF] ++ section_line secname ++ [LF] ++ dump_keys keym secname.length d.slots ++ rest)

/-- All keys as they are. -/
def dump_all : List (Option Entry) → Except Fault (List UInt8)
  | [] => .ok []
  | none :: slots => dump_all slots
  | some e :: slots =>
    match e.val with
    | none => .error .nullPointer
    | some val => do
      let rest ← dump_all slots
      .ok (e.key ++ bytes_of " = " ++ val ++ [LF] ++ rest)

def iniparser_dump_ini (d : dictionary) : Except Fault (List UInt8) :=
  let nsec := iniparser_getnsec d
  if nsec < 1 then dump_all d.slots
  else do
    let text ← dump_sections d nsec 0
    .ok (text ++ [LF])

/-! ## What is written -/

/-- The names of the sections in the order of their slots. -/
def sections (entries : List Entry) : List (List UInt8) :=
  (entries.filter fun e => COLON ∉ e.key).map Entry.key

/-- The entries of a section. -/
def members (entries : List Entry) (secname : List UInt8) : List Entry :=
  entries.filter fun e => (secname ++ [COLON]).isPrefixOf e.key

/-- The line of an entry of the section. -/
def member_line (secname : List UInt8) (e : Entry) : List UInt8 :=
  value_line (e.key.drop (secname.length + 1)) (e.val.getD [])

/-- The lines of a file with sections. -/
def dump_lines (entries : List Entry) : List (List UInt8) :=
  (sections entries).flatMap (fun secname =>
    [] :: section_line secname :: (members entries secname).map (member_line secname)) ++ [[]]

theorem iniparser_getnsec_eq (d : dictionary) : iniparser_getnsec d = (sections d.entries).length := by
  have hloop : ∀ slots nsec, getnsec_loop slots nsec = nsec + (sections slots.reduceOption).length := by
    intro slots
    induction slots with
    | nil => exact fun _ => rfl
    | cons slot slots ih =>
      intro nsec
      cases slot with
      | none => exact ih nsec
      | some e =>
        rw [getnsec_loop, ih, List.reduceOption_cons_of_some]
        by_cases hcolon : COLON ∈ e.key
        · simp [sections, hcolon]
        · simp [sections, hcolon]
          omega
  rw [iniparser_getnsec, hloop, dictionary.entries, Nat.zero_add]

/-- `iniparser_getsecname` numbers the sections. -/
theorem iniparser_getsecname_eq (d : dictionary) (n : Nat) :
    iniparser_getsecname d n = (sections d.entries)[n]? := by
  have hloop : ∀ slots foundsec, foundsec ≤ n →
      getsecname_loop n slots foundsec = (sections slots.reduceOption)[n - foundsec]? := by
    intro slots
    induction slots with
    | nil => exact fun _ _ => rfl
    | cons slot slots ih =>
      intro foundsec hfound
      cases slot with
      | none => exact ih foundsec hfound
      | some e =>
        rw [getsecname_loop, List.reduceOption_cons_of_some]
        by_cases hcolon : COLON ∈ e.key
        · rw [if_neg (not_not.mpr hcolon), ih foundsec hfound]
          simp [sections, hcolon]
        · have hcons : sections (e :: slots.reduceOption) = e.key :: sections slots.reduceOption := by
            simp [sections, hcolon]
          rw [if_pos hcolon, hcons]
          split
          case isTrue hlast =>
            have hzero : n - foundsec = 0 := by omega
            rw [hzero]
            rfl
          case isFalse hmore =>
            have hsucc : n - foundsec = n - (foundsec + 1) + 1 := by omega
            rw [ih (foundsec + 1) (by omega), hsucc, List.getElem?_cons_succ]
  rw [iniparser_getsecname, if_neg (by omega), Int.toNat_natCast, hloop _ _ (Nat.zero_le n), dictionary.entries,
    Nat.sub_zero]

theorem dump_keys_eq (secname : List UInt8) (slots : List (Option Entry)) :
    dump_keys (secname ++ [COLON]) secname.length slots =
      text_of ((members slots.reduceOption secname).map (member_line secname)) := by
  have htake : (secname ++ [COLON]).take (secname.length + 1) = secname ++ [COLON] :=
    List.take_of_length_le (by simp)
  induction slots with
  | nil => rfl
  | cons slot slots ih =>
    cases slot with
    | none => exact ih
    | some e =>
      have hstarts : e.key.take (secname.length + 1) = secname ++ [COLON] ↔
          (secname ++ [COLON]).isPrefixOf e.key = true := by
        rw [ List.isPrefixOf_iff_prefix, List.prefix_iff_eq_take, List.length_append, List.length_singleton]
        exact eq_comm
      rw [dump_keys, htake, ih, List.reduceOption_cons_of_some]
      by_cases hmember : (secname ++ [COLON]).isPrefixOf e.key = true
      · have hcons : members (e :: slots.reduceOption) secname = e :: members slots.reduceOption secname :=
          List.filter_cons_of_pos hmember
        rw [if_pos (hstarts.mpr hmember), hcons]
        rfl
      · have hskip : members (e :: slots.reduceOption) secname = members slots.reduceOption secname :=
          List.filter_cons_of_neg hmember
        rw [if_neg (mt hstarts.mp hmember), hskip]

/-- A dictionary with sections is written line by line. -/
theorem iniparser_dump_ini_eq {d : dictionary} (hsome : sections d.entries ≠ [])
    (hfits : ∀ secname ∈ sections d.entries, secname.length < ASCIILINESZ) :
    iniparser_dump_ini d = .ok (text_of (dump_lines d.entries)) := by
  have hloop : ∀ before after, sections d.entries = before ++ after →
      dump_sections d after.length before.length = .ok (text_of (after.flatMap fun secname =>
        [] :: section_line secname :: (members d.entries secname).map (member_line secname))) := by
    intro before after hsections
    induction after generalizing before with
    | nil => rfl
    | cons secname after ih =>
      have hname : iniparser_getsecname d before.length = some secname := by
        rw [iniparser_getsecname_eq, hsections]
        simp
      have hkeym : sprintf_keym secname = .ok (secname ++ [COLON]) := by
        have hlen := hfits secname (by rw [hsections]; simp)
        exact if_pos (by omega)
      have hrest := ih (before ++ [secname]) (by simp [hsections])
      rw [List.length_append, List.length_singleton] at hrest
      rw [List.length_cons, dump_sections, hname]
      dsimp only
      rw [hkeym, ok_bind, hrest, ok_bind, dump_keys_eq]
      simp [text_of, dictionary.entries]
  have hpos := List.length_pos_iff.mpr hsome
  have hall : dump_sections d (sections d.entries).length 0 = _ := hloop [] (sections d.entries) rfl
  unfold iniparser_dump_ini
  rw [iniparser_getnsec_eq]
  dsimp only
  rw [if_neg (by omega), hall, ok_bind]
  simp [dump_lines, text_of]

end code_tools.iniparser
