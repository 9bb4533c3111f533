import CodeTools.IniParser.Saved

/-!
# Editing, saving and loading

What was set with `iniparser_set` and not taken away with `iniparser_unset` is found
again after `iniparser_dump_ini` and a load.
-/

namespace code_tools.iniparser

open cmem cstring keyed

/-! ## Editing -/

def iniparser_set (d : dictionary) (entry : List UInt8) (val : Option (List UInt8)) : dictionary × Int :=
  dictionary_set d (strlwc entry) val

def iniparser_unset (d : dictionary) (entry : List UInt8) : dictionary := dictionary_unset d (strlwc entry)

inductive Edit where
  | add_section (secname : List UInt8)
  | set (secname key val : List UInt8)
  | unset (secname key : List UInt8)
deriving DecidableEq, Repr

def edited (d : dictionary) : Edit → dictionary
  | .add_section secname => (iniparser_set d secname none).1
  | .set secname key val => (iniparser_set d (secname ++ COLON :: key) (some val)).1
  | .unset secname key => iniparser_unset d (secname ++ COLON :: key)

/-- What a dictionary maps its keys to, which are in lower case. -/
def Edit.effect (m : List UInt8 → Option (Option (List UInt8))) : Edit → List UInt8 → Option (Option (List UInt8))
  | .add_section secname => Function.update m (secname.map tolower) (some none)
  | .set secname key val => Function.update m (secname.map tolower ++ COLON :: key.map tolower) (some (some val))
  | .unset secname key => Function.update m (secname.map tolower ++ COLON :: key.map tolower) none

/-- Edits that can be saved: a key is set in a section that was added before. -/
def Valid : List (List UInt8) → List Edit → Prop
  | _, [] => True
  | known, .add_section secname :: edits =>
    SectionName (secname.map tolower) ∧ Valid (secname.map tolower :: known) edits
  | known, .set secname key val :: edits =>
    secname.map tolower ∈ known ∧ Saveable (secname.map tolower) (key.map tolower) val ∧ Valid known edits
  | known, .unset secname key :: edits => secname.length + 1 + key.length ≤ ASCIILINESZ ∧ Valid known edits

/-! ## What can be saved, as a map -/

structure SectionedMap (m : List UInt8 → Option (Option (List UInt8))) : Prop where
  names : ∀ name val, m name = some val → COLON ∉ name → SectionName name ∧ val = none
  keys : ∀ name val, m name = some val → COLON ∈ name →
    ∃ secname key v, name = secname ++ COLON :: key ∧ COLON ∉ secname ∧ (m secname).isSome = true ∧
      val = some v ∧ Saveable secname key v

theorem SectionedMap.sectioned {entries : List Entry} (hentries : Sound entries)
    (hmap : SectionedMap (table Entry.key Entry.val entries)) : Sectioned entries := by
  have hfound : ∀ e ∈ entries, table Entry.key Entry.val entries e.key = some e.val := fun e he =>
    (table_eq_some_iff hentries.distinct).mpr ⟨e, he, rfl, rfl⟩
  refine ⟨hentries, fun e he hcolon => hmap.names e.key e.val (hfound e he) hcolon, fun e he hcolon => ?_⟩
  obtain ⟨secname, key, v, hkey, hname, hsome, hval, hsave⟩ := hmap.keys e.key e.val (hfound e he) hcolon
  obtain ⟨w, hw⟩ := Option.isSome_iff_exists.mp hsome
  obtain ⟨e', he', rfl, _⟩ := (table_eq_some_iff hentries.distinct).mp hw
  exact ⟨e'.key, mem_sections.mpr ⟨e', he', hname, rfl⟩, key, v, hkey, hval, hsave⟩

section

variable {m : List UInt8 → Option (Option (List UInt8))} (hm : SectionedMap m)

include hm

theorem SectionedMap.add_section {secname : List UInt8} (hname : SectionName secname) :
    SectionedMap (Function.update m secname (some none)) := by
  constructor
  · intro name val hval hcolon
    by_cases hsame : name = secname
    · subst hsame
      rw [Function.update_self] at hval
      exact ⟨hname, (Option.some.inj hval).symm⟩
    · rw [Function.update_of_ne hsame] at hval
      exact hm.names name val hval hcolon
  · intro name val hval hcolon
    have hne : name ≠ secname := fun hsame => hname.no_colon (hsame ▸ hcolon)
    rw [Function.update_of_ne hne] at hval
    obtain ⟨secname', key, v, hkey, hname', hsome, hv, hsave⟩ := hm.keys name val hval hcolon
    refine ⟨secname', key, v, hkey, hname', ?_, hv, hsave⟩
    by_cases hsame : secname' = secname
    · rw [hsame, Function.update_self]
      rfl
    · rwa [Function.update_of_ne hsame]

theorem SectionedMap.set {secname key val : List UInt8} (hsec : (m secname).isSome = true) (hname : COLON ∉ secname)
    (hsave : Saveable secname key val) :
    SectionedMap (Function.update m (secname ++ COLON :: key) (some (some val))) := by
  have hkept : ∀ secname', COLON ∉ secname' →
      Function.update m (secname ++ COLON :: key) (some (some val)) secname' = m secname' := by
    intro secname' hname'
    refine Function.update_of_ne (fun hsame => hname' ?_) _ _
    rw [hsame]
    simp
  constructor
  · intro name v hv hcolon
    rw [hkept name hcolon] at hv
    exact hm.names name v hv hcolon
  · intro name v hv hcolon
    by_cases hsame : name = secname ++ COLON :: key
    · subst hsame
      rw [Function.update_self] at hv
      exact ⟨secname, key, val, rfl, hname, by rwa [hkept secname hname], (Option.some.inj hv).symm, hsave⟩
    · rw [Function.update_of_ne hsame] at hv
      obtain ⟨secname', key', v', hkey, hname', hsome, hval, hsave'⟩ := hm.keys name v hv hcolon
      exact ⟨secname', key', v', hkey, hname', by rwa [hkept secname' hname'], hval, hsave'⟩

theorem SectionedMap.unset (secname key : List UInt8) :
    SectionedMap (Function.update m (secname ++ COLON :: key) none) := by
  have hkept : ∀ secname', COLON ∉ secname' →
      Function.update m (secname ++ COLON :: key) none secname' = m secname' := by
    intro secname' hname'
    refine Function.update_of_ne (fun hsame => hname' ?_) _ _
    rw [hsame]
    simp
  constructor
  · intro name v hv hcolon
    rw [hkept name hcolon] at hv
    exact hm.names name v hv hcolon
  · intro name v hv hcolon
    have hne : name ≠ secname ++ COLON :: key := by
      rintro rfl
      rw [Function.update_self] at hv
      cases hv
    rw [Function.update_of_ne hne] at hv
    obtain ⟨secname', key', v', hkey, hname', hsome, hval, hsave⟩ := hm.keys name v hv hcolon
    exact ⟨secname', key', v', hkey, hname', by rwa [hkept secname' hname'], hval, hsave⟩

end

/-! ## Sessions -/

theorem strlwc_entry {secname key : List UInt8} (hfits : secname.length + 1 + key.length ≤ ASCIILINESZ) :
    strlwc (secname ++ COLON :: key) = secname.map tolower ++ COLON :: key.map tolower := by
  have hcolon : tolower COLON = COLON := by decide
  rw [strlwc, List.take_of_length_le, List.map_append, List.map_cons, hcolon]
  rw [List.length_append, List.length_cons]
  omega

/-- What a session keeps of a dictionary. -/
structure Session (d : dictionary) (known : List (List UInt8)) : Prop where
  sound : Sound d.entries
  map : SectionedMap d.lookup
  known : ∀ secname ∈ known, COLON ∉ secname ∧ (d.lookup secname).isSome = true

theorem Session.set {d : dictionary} {known : List (List UInt8)} (hd : Session d known) (key : List UInt8)
    (val : Option (List UInt8)) :
    Sound (dictionary_set d key val).1.entries ∧
      (dictionary_set d key val).1.lookup = Function.update d.lookup key (some val) := by
  have hsets := dictionary_set_sets hd.sound key val
  refine ⟨hsets.sound hd.sound, ?_⟩
  rw [lookup_eq (hsets.sound hd.sound), lookup_eq hd.sound, hsets.table_eq hd.sound]

theorem isSome_update {m : List UInt8 → Option (Option (List UInt8))} {name : List UInt8}
    (hsome : (m name).isSome = true) (key : List UInt8) (val : Option (List UInt8)) :
    (Function.update m key (some val) name).isSome = true := by
  by_cases hsame : name = key
  · rw [hsame, Function.update_self]
    rfl
  · rwa [Function.update_of_ne hsame]

theorem foldl_edited {edits : List Edit} {known : List (List UInt8)} {d : dictionary} (hvalid : Valid known edits)
    (hd : Session d known) :
    ∃ known', Session (edits.foldl edited d) known' ∧ (∀ secname ∈ known, secname ∈ known') ∧
      (∀ secname, .add_section secname ∈ edits → secname.map tolower ∈ known') ∧
      (edits.foldl edited d).lookup = edits.foldl Edit.effect d.lookup := by
  induction edits generalizing known d with
  | nil => exact ⟨known, hd, fun _ h => h, nofun, rfl⟩
  | cons edit edits ih =>
    rw [List.foldl_cons, List.foldl_cons]
    cases edit with
    | add_section secname =>
      obtain ⟨hname, hvalid⟩ := hvalid
      have hlwc : strlwc secname = secname.map tolower := by
        have hshort := hname.short
        have hsize : ASCIILINESZ = 1024 := rfl
        rw [List.length_map] at hshort
        rw [strlwc, List.take_of_length_le (by omega)]
      obtain ⟨hsound, hlookup⟩ := hd.set (secname.map tolower) none
      have hnext : edited d (.add_section secname) = (dictionary_set d (secname.map tolower) none).1 := by
        rw [edited, iniparser_set, hlwc]
      have hsession : Session (edited d (.add_section secname)) (secname.map tolower :: known) := by
        rw [hnext]
        refine ⟨hsound, hlookup ▸ hd.map.add_section hname, List.forall_mem_cons.mpr ⟨⟨hname.no_colon, ?_⟩, ?_⟩⟩
        · rw [hlookup, Function.update_self]
          rfl
        · intro secname' hknown
          exact ⟨(hd.known secname' hknown).1, hlookup ▸ isSome_update (hd.known secname' hknown).2 _ _⟩
      obtain ⟨known', hend, hkept, hadded, hmap⟩ := ih hvalid hsession
      refine ⟨known', hend, fun secname' h => hkept secname' (List.mem_cons_of_mem _ h), fun secname' h => ?_, ?_⟩
      · rcases List.mem_cons.mp h with heq | hlater
        · cases heq
          exact hkept _ List.mem_cons_self
        · exact hadded secname' hlater
      · rw [hmap, hnext, hlookup]
        rfl
    | set secname key val =>
      obtain ⟨hsec, hsave, hvalid⟩ := hvalid
      obtain ⟨hname, hsome⟩ := hd.known _ hsec
      have hlwc : strlwc (secname ++ COLON :: key) = secname.map tolower ++ COLON :: key.map tolower := by
        have hfits := hsave.fits
        rw [List.length_map, List.length_map] at hfits
        exact strlwc_entry hfits
      obtain ⟨hsound, hlookup⟩ := hd.set (secname.map tolower ++ COLON :: key.map tolower) (some val)
      have hnext : edited d (.set secname key val) =
          (dictionary_set d (secname.map tolower ++ COLON :: key.map tolower) (some val)).1 := by
        rw [edited, iniparser_set, hlwc]
      have hsession : Session (edited d (.set secname key val)) known := by
        rw [hnext]
        refine ⟨hsound, hlookup ▸ hd.map.set hsome hname hsave, fun secname' hknown => ?_⟩
        exact ⟨(hd.known secname' hknown).1, hlookup ▸ isSome_update (hd.known secname' hknown).2 _ _⟩
      obtain ⟨known', hend, hkept, hadded, hmap⟩ := ih hvalid hsession
      refine ⟨known', hend, hkept, fun secname' h => hadded secname' ?_, ?_⟩
      · simpa using h
      · rw [hmap, hnext, hlookup]
        rfl
    | unset secname key =>
      obtain ⟨hfits, hvalid⟩ := hvalid
      have hunsets := dictionary_unset_unsets hd.sound (secname.map tolower ++ COLON :: key.map tolower)
      have hnext : edited d (.unset secname key) =
          dictionary_unset d (secname.map tolower ++ COLON :: key.map tolower) := by
        rw [edited, iniparser_unset, strlwc_entry hfits]
      have hlookup : (edited d (.unset secname key)).lookup =
          Function.update d.lookup (secname.map tolower ++ COLON :: key.map tolower) none := by
        rw [hnext, lookup_eq (hunsets.sound hd.sound), lookup_eq hd.sound, hunsets.table_eq hd.sound]
      have hsession : Session (edited d (.unset secname key)) known := by
        refine ⟨by rw [hnext]; exact hunsets.sound hd.sound, hlookup ▸ hd.map.unset _ _, fun secname' hknown => ?_⟩
        obtain ⟨hname, hsome⟩ := hd.known secname' hknown
        refine ⟨hname, ?_⟩
        rw [hlookup, Function.update_of_ne]
        · exact hsome
        · rintro rfl
          simp at hname
      obtain ⟨known', hend, hkept, hadded, hmap⟩ := ih hvalid hsession
      refine ⟨known', hend, hkept, fun secname' h => hadded secname' ?_, ?_⟩
      · simpa using h
      · rw [hmap, hlookup]
        rfl

/-- A session ends with a dictionary that can be saved. -/
theorem session_reloaded {edits : List Edit} (hvalid : Valid [] edits)
    (hsome : ∃ secname, .add_section secname ∈ edits) :
    ∃ text d, Reloaded (edits.foldl edited (dictionary_new 0)) text d ∧
      d.lookup = (edits.foldl Edit.effect fun _ => none) ∧ SectionedMap d.lookup := by
  have hlookup : (dictionary_new 0).lookup = fun _ => none := by
    rw [lookup_eq (by rw [dictionary_new_entries]; exact sound_nil), dictionary_new_entries, table_nil]
  have hstart : Session (dictionary_new 0) [] := by
    refine ⟨by rw [dictionary_new_entries]; exact sound_nil, ?_, nofun⟩
    rw [hlookup]
    exact ⟨nofun, nofun⟩
  obtain ⟨known, hend, _, hadded, hmap⟩ := foldl_edited hvalid hstart
  have hsectioned : Sectioned (edits.foldl edited (dictionary_new 0)).entries :=
    SectionedMap.sectioned hend.sound (lookup_eq hend.sound ▸ hend.map)
  have hsections : sections (edits.foldl edited (dictionary_new 0)).entries ≠ [] := by
    obtain ⟨secname, hsec⟩ := hsome
    obtain ⟨hcolon, hfound⟩ := hend.known _ (hadded secname hsec)
    rw [lookup_eq hend.sound] at hfound
    obtain ⟨w, hw⟩ := Option.isSome_iff_exists.mp hfound
    obtain ⟨e, he, hkey, _⟩ := (table_eq_some_iff hend.sound.distinct).mp hw
    have hmem : secname.map tolower ∈ sections (edits.foldl edited (dictionary_new 0)).entries :=
      mem_sections.mpr ⟨e, he, hkey ▸ hcolon, hkey⟩
    exact List.ne_nil_of_mem hmem
  obtain ⟨text, d, hreloaded⟩ := exists_reloaded hsectioned hsections
  exact ⟨text, d, hreloaded, by rw [hreloaded.same, hmap, hlookup], hreloaded.same ▸ hend.map⟩

theorem saveable_s_k : Saveable [115] [107] [86, 32, 119] where
  key_name := ⟨by decide, by decide, by decide, by decide, by decide, by decide⟩
  no_end := by decide +kernel
  readable := ⟨by decide +kernel, by decide +kernel, by decide +kernel, by decide +kernel⟩
  no_section := by decide
  no_backslash := by decide
  short := by decide
  fits := by decide

end code_tools.iniparser
