import CodeTools.IniParser.Reload

/-!
# Saving and loading

A dictionary that was saved and is loaded again has the same entries, section by
section.
-/

namespace code_tools.iniparser

open cmem cstring keyed

/-! ## What can be saved -/

/-- A section whose line is read back. -/
structure SectionName (secname : List UInt8) : Prop where
  ne_nil : secname ≠ []
  no_end : NoEnd secname
  no_closing : CLOSING ∉ secname
  no_colon : COLON ∉ secname
  stripped : strip secname = secname
  lower : secname.map tolower = secname
  short : secname.length + 2 < 1023

/-- A key and a value of a section whose line is read back. -/
structure Saveable (secname key val : List UInt8) : Prop where
  key_name : KeyName key
  no_end : NoEnd (key ++ val)
  readable : Readable val
  no_section : ¬(key.head? = some OPENING ∧ val.getLast? = some CLOSING)
  no_backslash : val.getLast? ≠ some BACKSLASH
  short : (value_line key val).length < 1023
  fits : secname.length + 1 + key.length ≤ ASCIILINESZ

/-- Entries of sections, all of which can be saved. -/
structure Sectioned (entries : List Entry) : Prop where
  sound : Sound entries
  names : ∀ e ∈ entries, COLON ∉ e.key → SectionName e.key ∧ e.val = none
  keys : ∀ e ∈ entries, COLON ∈ e.key →
    ∃ secname ∈ sections entries, ∃ key val, e.key = secname ++ COLON :: key ∧ e.val = some val ∧
      Saveable secname key val

/-! ## Lines -/

instance (seg : List UInt8) : Decidable (NoEnd seg) := inferInstanceAs (Decidable (∀ b ∈ seg, is_end b = false))

theorem noEnd_append {s t : List UInt8} : NoEnd (s ++ t) ↔ NoEnd s ∧ NoEnd t := List.forall_mem_append

theorem strip_section_line (secname : List UInt8) : strip (section_line secname) = section_line secname := by
  have hdrop : (section_line secname).dropWhile isspace = section_line secname :=
    List.dropWhile_cons_of_neg (by decide)
  rw [strip, hdrop, section_line, rdropWhile_append_cons _ (by decide)]
  rfl

theorem section_line_clean {secname : List UInt8} (hname : SectionName secname) :
    (NoEnd (section_line secname) ∧ (section_line secname).length < 1023) ∧
      ends_in_backslash (section_line secname) = false := by
  refine ⟨⟨?_, ?_⟩, ?_⟩
  · have hclose : NoEnd [CLOSING] := by decide +kernel
    exact noEnd_append.mpr ⟨List.forall_mem_cons.mpr ⟨by decide, hname.no_end⟩, hclose⟩
  · have hshort := hname.short
    simp [section_line]
    omega
  · have hdrop : (section_line secname).rdropWhile isspace = section_line secname := by
      rw [section_line, rdropWhile_append_cons _ (by decide)]
      rfl
    rw [ends_in_backslash, hdrop, section_line, List.getLast?_concat]
    decide

theorem value_line_clean {secname key val : List UInt8} (hsave : Saveable secname key val) :
    (NoEnd (value_line key val) ∧ (value_line key val).length < 1023) ∧
      ends_in_backslash (value_line key val) = false := by
  obtain ⟨hkey, hval⟩ := noEnd_append.mp hsave.no_end
  refine ⟨⟨?_, hsave.short⟩, ?_⟩
  · have hblanks : NoEnd (List.replicate (30 - key.length + 1) 32) := by
      intro b hb
      rw [List.eq_of_mem_replicate hb]
      decide
    have hequals : NoEnd (EQUALS :: 32 :: val) :=
      List.forall_mem_cons.mpr ⟨by decide, List.forall_mem_cons.mpr ⟨by decide, hval⟩⟩
    rw [value_line_eq]
    exact noEnd_append.mpr ⟨noEnd_append.mpr ⟨hkey, hblanks⟩, hequals⟩
  · have hlast := getLast?_value_line hsave.key_name hsave.readable.stripped
    rw [strip, dropWhile_value_line hsave.key_name] at hlast
    rw [ends_in_backslash, hlast, decide_eq_false_iff_not]
    cases hval : val.getLast? with
    | none => decide
    | some c =>
      rw [Option.getD_some, ← hval]
      exact hsave.no_backslash

theorem process_section_line (p : Parser) {secname : List UInt8} (hname : SectionName secname) :
    process p (section_line secname) =
      { p with section_ := secname, dict := (dictionary_set p.dict secname none).1, errs := 0 } := by
  have htake : sscanf section_format (section_line secname) = [secname] := by
    have hplain : (secname ++ [CLOSING]).takeWhile (· ≠ CLOSING) = secname := by
      rw [List.takeWhile_append_of_pos, List.takeWhile_cons_of_neg (by simp), List.append_nil]
      intro c hc
      exact decide_eq_true fun heq => hname.no_closing (heq ▸ hc)
    rw [section_format, section_line, List.cons_append, sscanf, if_pos rfl, sscanf, hplain, if_neg hname.ne_nil]
    rfl
  have hlwc : strlwc (strstrip secname) = secname := by
    have hshort := hname.short
    have hsize : ASCIILINESZ = 1024 := rfl
    rw [strstrip, hname.stripped, strlwc, List.take_of_length_le (by omega), hname.lower]
  have hline : iniparser_line (section_line secname) p.section_ p.key p.val =
      { sta := .LINE_SECTION, section_ := secname, key := p.key, value := p.val } := by
    have hbrackets : (section_line secname).head? = some OPENING ∧ (section_line secname).getLast? = some CLOSING :=
      ⟨rfl, by rw [section_line, List.getLast?_concat]⟩
    have hcomment : (section_line secname).head? ≠ some HASH := by
      rw [hbrackets.1]
      decide
    have hlen : ¬(section_line secname).length < 1 := by simp [section_line]
    unfold iniparser_line
    dsimp only
    rw [strstrip, strip_section_line, if_neg hlen, if_neg hcomment, if_pos hbrackets, htake]
    rw [List.getD_cons_zero, hlwc]
  unfold process
  rw [hline]
  dsimp only
  rw [← dictionary_set_returns p.dict secname none]

theorem process_value_line (p : Parser) {secname key val : List UInt8} (hsave : Saveable secname key val) :
    process p (value_line key val) =
      { p with
        key := key
        val := val
        dict := (dictionary_set p.dict (p.section_ ++ COLON :: key) (some val)).1
        errs := 0 } := by
  have hname : p.section_ ++ [':'.toUInt8] ++ key = p.section_ ++ COLON :: key := List.append_assoc _ _ _
  have hline := iniparser_line_readable hsave.key_name hsave.readable hsave.no_section p.section_ p.key p.val
  unfold process
  rw [hline]
  dsimp only
  rw [hname, ← dictionary_set_returns p.dict (p.section_ ++ COLON :: key) (some val)]

/-! ## A dictionary that only grew -/

/-- The entries are in the first slots. -/
def Packed (d : dictionary) (entries : List Entry) : Prop :=
  ∃ free, d.slots = entries.map some ++ List.replicate free none

theorem Packed.entries_eq {d : dictionary} {entries : List Entry} (hd : Packed d entries) : d.entries = entries := by
  obtain ⟨free, hslots⟩ := hd
  have hall : (entries.map some).reduceOption = entries := by
    clear hslots
    induction entries with
    | nil => rfl
    | cons e entries ih => rw [List.map_cons, List.reduceOption_cons_of_some, ih]
  rw [dictionary.entries, hslots, List.reduceOption_append, List.reduceOption_replicate_none, hall, List.append_nil]

theorem packed_new : Packed (dictionary_new 0) [] := ⟨DICTMINSZ, rfl⟩

theorem insert_slot_packed (e : Entry) (entries : List Entry) (free : Nat) :
    insert_slot e (entries.map some ++ List.replicate (free + 1) none) =
      (entries ++ [e]).map some ++ List.replicate free none := by
  induction entries with
  | nil => rfl
  | cons e' entries ih =>
    rw [List.map_cons, List.cons_append, insert_slot, ih]
    rfl

/-- A new key goes behind the others. -/
theorem Packed.set {d : dictionary} {entries : List Entry} (hd : Packed d entries) {key : List UInt8}
    (hnew : ∀ e ∈ entries, e.key ≠ key) (val : Option (List UInt8)) :
    Packed (dictionary_set d key val).1 (entries ++ [{ key := key, val := val, hash := dictionary_hash key }]) := by
  obtain ⟨free, hslots⟩ := hd
  have hentries : d.entries = entries := Packed.entries_eq ⟨free, hslots⟩
  have hnone : (if d.n > 0 then modify_slot key (dictionary_hash key) val d.slots else none) = none := by
    split
    case isTrue =>
      rw [modify_slot_eq]
      cases hupdate : update_slot key (dictionary_hash key) (fun e => some { e with val := val }) d.slots with
      | none => rfl
      | some slots =>
        obtain ⟨front, e, back, hslots, hmatches, _⟩ := update_slot_some hupdate
        have he : e ∈ entries := by
          rw [← hentries, dictionary.entries, hslots]
          exact List.mem_append_right front List.mem_cons_self
        rw [Entry.matches, Bool.and_eq_true, decide_eq_true_eq, decide_eq_true_eq] at hmatches
        exact absurd hmatches.2.symm (hnew e he)
    case isFalse => rfl
  have hgrown : ∃ free, d.grown = entries.map some ++ List.replicate (free + 1) none := by
    have hlt := d.grown_spec.2
    have hn : d.n = entries.length := by rw [d.counted, countP_eq_length, ← hentries, dictionary.entries]
    unfold dictionary.grown at hlt ⊢
    split
    case isTrue hfull =>
      have hroom := d.room
      refine ⟨free + d.slots.length - 1, ?_⟩
      have hsum : free + d.slots.length - 1 + 1 = free + d.slots.length := by omega
      rw [hsum, List.replicate_add, ← List.append_assoc, ← hslots]
    case isFalse hfull =>
      rw [if_neg hfull, hslots, List.length_append, List.length_map, List.length_replicate, hn] at hlt
      refine ⟨free - 1, ?_⟩
      rw [hslots, Nat.sub_add_cancel (by omega)]
  obtain ⟨free', hgrown⟩ := hgrown
  refine ⟨free', ?_⟩
  unfold dictionary_set
  dsimp only
  split
  case h_1 slots hmodify =>
    rw [hnone] at hmodify
    cases hmodify
  case h_2 =>
    dsimp only
    rw [hgrown, insert_slot_packed]

/-! ## The file is read section by section -/

def section_entry (secname : List UInt8) : Entry :=
  { key := secname, val := none, hash := dictionary_hash secname }

def member_entry (secname key val : List UInt8) : Entry :=
  { key := secname ++ COLON :: key, val := some val, hash := dictionary_hash (secname ++ COLON :: key) }

@[simp] theorem section_entry_key (secname : List UInt8) : (section_entry secname).key = secname := rfl

@[simp] theorem member_entry_key (secname key val : List UInt8) :
    (member_entry secname key val).key = secname ++ COLON :: key := rfl

theorem eq_section_entry {e : Entry} (hhash : e.hash = dictionary_hash e.key) (hval : e.val = none) :
    e = section_entry e.key := by
  rw [section_entry, ← hhash, ← hval]

theorem eq_member_entry {e : Entry} {secname key val : List UInt8} (hhash : e.hash = dictionary_hash e.key)
    (hkey : e.key = secname ++ COLON :: key) (hval : e.val = some val) : e = member_entry secname key val := by
  rw [member_entry, ← hkey, ← hhash, ← hval]

/-- The entries in the order in which they are saved. -/
def grouped (entries : List Entry) : List Entry :=
  (sections entries).flatMap fun secname =>
    section_entry secname :: members entries secname

/-- An entry of the section that can be saved. -/
def IsMember (secname : List UInt8) (e : Entry) : Prop :=
  ∃ key val, e = member_entry secname key val ∧ Saveable secname key val

theorem member_line_eq (secname key val : List UInt8) :
    member_line secname (member_entry secname key val) = value_line key val := by
  have hdrop : (secname ++ COLON :: key).drop (secname.length + 1) = key := by
    rw [List.drop_length_add_append]
    rfl
  rw [member_line, member_entry, hdrop, Option.getD_some]

theorem foldl_members {secname : List UInt8} {ms entries : List Entry} {p : Parser} (hsection : p.section_ = secname)
    (herrs : p.errs = 0) (hp : Packed p.dict entries) (hms : ∀ m ∈ ms, IsMember secname m)
    (hdistinct : ((entries ++ ms).map Entry.key).Nodup) :
    ((ms.map (member_line secname)).foldl process p).errs = 0 ∧
      Packed ((ms.map (member_line secname)).foldl process p).dict (entries ++ ms) := by
  induction ms generalizing p entries with
  | nil => exact ⟨herrs, by rwa [List.append_nil]⟩
  | cons m ms ih =>
    obtain ⟨⟨key, val, rfl, hsave⟩, hrest⟩ := List.forall_mem_cons.mp hms
    have hnew : ∀ e ∈ entries, e.key ≠ secname ++ COLON :: key := by
      intro e he hkey
      rw [List.map_append, List.nodup_append] at hdistinct
      exact hdistinct.2.2 _ (List.mem_map_of_mem he) _ (by simp) hkey
    have hnext := hp.set hnew (some val)
    rw [← List.singleton_append, ← List.append_assoc] at hdistinct ⊢
    rw [List.map_append, List.foldl_append, List.map_singleton, List.foldl_cons, List.foldl_nil, member_line_eq,
      process_value_line p hsave, hsection]
    exact ih rfl rfl hnext hrest hdistinct

theorem foldl_sections {all : List Entry} {names : List (List UInt8)} {entries : List Entry} {p : Parser}
    (herrs : p.errs = 0) (hp : Packed p.dict entries) (hnames : ∀ secname ∈ names, SectionName secname)
    (hmembers : ∀ secname ∈ names, ∀ m ∈ members all secname, IsMember secname m)
    (hdistinct : ((entries ++ names.flatMap fun secname =>
      section_entry secname :: members all secname).map Entry.key).Nodup) :
    ((names.flatMap fun secname =>
      [] :: section_line secname :: (members all secname).map (member_line secname)).foldl process p).errs = 0 ∧
    Packed ((names.flatMap fun secname =>
      [] :: section_line secname :: (members all secname).map (member_line secname)).foldl process p).dict
      (entries ++ names.flatMap fun secname =>
        section_entry secname :: members all secname) := by
  induction names generalizing p entries with
  | nil => exact ⟨herrs, by simpa using hp⟩
  | cons secname names ih =>
    obtain ⟨hname, hnames⟩ := List.forall_mem_cons.mp hnames
    obtain ⟨hfirst, hmembers⟩ := List.forall_mem_cons.mp hmembers
    have hnew : ∀ e ∈ entries, e.key ≠ secname := by
      intro e he hkey
      rw [List.map_append, List.nodup_append] at hdistinct
      exact hdistinct.2.2 _ (List.mem_map_of_mem he) _ (by simp) hkey
    have hsection := hp.set hnew none
    rw [List.flatMap_cons, ← List.append_assoc, List.map_append] at hdistinct
    obtain ⟨hgroup, _⟩ := List.nodup_append.mp hdistinct
    rw [← List.singleton_append, ← List.append_assoc] at hgroup
    obtain ⟨herrs', hpacked⟩ := foldl_members (p := process p (section_line secname))
      (by rw [process_section_line p hname]) (by rw [process_section_line p hname])
      (by rw [process_section_line p hname]; exact hsection) hfirst hgroup
    rw [← List.map_append] at hdistinct
    obtain ⟨herrs'', hpacked'⟩ := ih herrs' hpacked hnames hmembers (by simpa using hdistinct)
    rw [List.flatMap_cons, List.foldl_append, List.foldl_cons, List.foldl_cons, process_nil]
    exact ⟨herrs'', by simpa using hpacked'⟩

/-! ## The order in which entries are saved -/

/-- The section that a key is in, or the section that it is. -/
def section_of (key : List UInt8) : List UInt8 := key.takeWhile (· ≠ COLON)

theorem section_of_name {secname : List UInt8} (hname : COLON ∉ secname) : section_of secname = secname := by
  rw [section_of, List.takeWhile_eq_self_iff]
  intro c hc
  exact decide_eq_true fun heq => hname (heq ▸ hc)

theorem section_of_append {secname : List UInt8} (hname : COLON ∉ secname) (key : List UInt8) :
    section_of (secname ++ COLON :: key) = secname := by
  rw [section_of, List.takeWhile_append_of_pos, List.takeWhile_cons_of_neg (by simp), List.append_nil]
  intro c hc
  exact decide_eq_true fun heq => hname (heq ▸ hc)

theorem mem_sections {entries : List Entry} {secname : List UInt8} :
    secname ∈ sections entries ↔ ∃ e ∈ entries, COLON ∉ e.key ∧ e.key = secname := by
  simp [sections, and_assoc]

theorem mem_members {entries : List Entry} {secname : List UInt8} {e : Entry} :
    e ∈ members entries secname ↔ e ∈ entries ∧ ∃ key, e.key = secname ++ COLON :: key := by
  rw [members, List.mem_filter, List.isPrefixOf_iff_prefix]
  refine and_congr_right fun _ => exists_congr fun key => ?_
  rw [List.append_assoc, List.singleton_append]
  exact eq_comm

section

variable {entries : List Entry} (hentries : Sectioned entries)

include hentries

theorem Sectioned.name {secname : List UInt8} (hsec : secname ∈ sections entries) :
    SectionName secname ∧ section_entry secname ∈ entries := by
  obtain ⟨e, he, hcolon, rfl⟩ := mem_sections.mp hsec
  obtain ⟨hname, hval⟩ := hentries.names e he hcolon
  refine ⟨hname, ?_⟩
  rw [← eq_section_entry (hentries.sound.hashed e he) hval]
  exact he

theorem Sectioned.isMember {secname : List UInt8} (hsec : secname ∈ sections entries) {m : Entry}
    (hm : m ∈ members entries secname) : IsMember secname m := by
  obtain ⟨hmem, key, hkey⟩ := mem_members.mp hm
  obtain ⟨hname, _⟩ := hentries.name hsec
  obtain ⟨secname', hsec', key', val, hkey', hval, hsave⟩ := hentries.keys m hmem (by simp [hkey])
  obtain ⟨hname', _⟩ := hentries.name hsec'
  have hsame : secname = secname' := by
    rw [← section_of_append hname.no_colon key, ← hkey, hkey', section_of_append hname'.no_colon]
  subst hsame
  exact ⟨key', val, eq_member_entry (hentries.sound.hashed m hmem) hkey' hval, hsave⟩

theorem Sectioned.sections_nodup : (sections entries).Nodup :=
  hentries.sound.distinct.sublist (List.filter_sublist.map Entry.key)

/-- Nothing is lost and nothing is saved twice. -/
theorem Sectioned.grouped_perm : (grouped entries).Perm entries := by
  have hgroup : ∀ secname ∈ sections entries, ∀ e ∈
      (section_entry secname :: members entries secname),
      section_of e.key = secname := by
    intro secname hsec e he
    obtain ⟨hname, _⟩ := hentries.name hsec
    rcases List.mem_cons.mp he with rfl | hm
    · exact section_of_name hname.no_colon
    · obtain ⟨_, key, hkey⟩ := mem_members.mp hm
      rw [hkey, section_of_append hname.no_colon]
  have hdistinct : entries.Nodup := List.Nodup.of_map Entry.key hentries.sound.distinct
  have hgrouped : (grouped entries).Nodup := by
    rw [grouped, List.nodup_flatMap]
    refine ⟨fun secname hsec => ?_, ?_⟩
    · obtain ⟨hname, _⟩ := hentries.name hsec
      refine List.nodup_cons.mpr ⟨fun hm => ?_, hdistinct.sublist List.filter_sublist⟩
      obtain ⟨_, key, hkey⟩ := mem_members.mp hm
      rw [section_entry_key] at hkey
      exact hname.no_colon (by rw [hkey]; simp)
    · refine List.Pairwise.imp_of_mem ?_ hentries.sections_nodup
      intro secname secname' hsec hsec' hne e he he'
      exact hne ((hgroup secname hsec e he).symm.trans (hgroup secname' hsec' e he'))
  rw [List.perm_ext_iff_of_nodup hgrouped hdistinct]
  intro e
  rw [grouped, List.mem_flatMap]
  constructor
  · rintro ⟨secname, hsec, he⟩
    rcases List.mem_cons.mp he with rfl | hm
    · exact (hentries.name hsec).2
    · exact (mem_members.mp hm).1
  · intro he
    by_cases hcolon : COLON ∈ e.key
    · obtain ⟨secname, hsec, key, _, hkey, _⟩ := hentries.keys e he hcolon
      exact ⟨secname, hsec, List.mem_cons_of_mem _ (mem_members.mpr ⟨he, key, hkey⟩)⟩
    · exact ⟨e.key, mem_sections.mpr ⟨e, he, hcolon, rfl⟩,
        List.mem_cons.mpr (Or.inl (eq_section_entry (hentries.sound.hashed e he) (hentries.names e he hcolon).2))⟩

theorem Sectioned.sections_grouped : sections (grouped entries) = sections entries := by
  have hone : ∀ secname ∈ sections entries,
      (((section_entry secname :: members entries secname).filter
        fun e => COLON ∉ e.key).map Entry.key) = [secname] := by
    intro secname hsec
    obtain ⟨hname, _⟩ := hentries.name hsec
    have hnone : (members entries secname).filter (fun e => COLON ∉ e.key) = [] := by
      rw [List.filter_eq_nil_iff]
      intro e he
      obtain ⟨_, key, hkey⟩ := mem_members.mp he
      simp [hkey]
    rw [List.filter_cons, hnone, section_entry_key, if_pos (decide_eq_true hname.no_colon)]
    rfl
  rw [sections, grouped, List.filter_flatMap, List.map_flatMap, List.flatMap_congr hone]
  exact List.flatMap_singleton' _

end

theorem flatMap_eq_of_nodup {α β : Type*} {xs : List α} (hxs : xs.Nodup) {x : α} (hx : x ∈ xs) {f : α → List β}
    (hother : ∀ y ∈ xs, y ≠ x → f y = []) : xs.flatMap f = f x := by
  obtain ⟨front, back, rfl⟩ := List.append_of_mem hx
  have hnot := (List.nodup_middle.mp hxs)
  rw [List.nodup_cons, List.mem_append] at hnot
  have hfront : front.flatMap f = [] := List.flatMap_eq_nil_iff.mpr fun y hy =>
    hother y (by simp [hy]) fun heq => hnot.1 (Or.inl (heq ▸ hy))
  have hback : back.flatMap f = [] := List.flatMap_eq_nil_iff.mpr fun y hy =>
    hother y (by simp [hy]) fun heq => hnot.1 (Or.inr (heq ▸ hy))
  rw [List.flatMap_append, List.flatMap_cons, hfront, hback, List.nil_append, List.append_nil]

section

variable {entries : List Entry} (hentries : Sectioned entries)

include hentries

theorem Sectioned.members_grouped {secname : List UInt8} (hsec : secname ∈ sections entries) :
    members (grouped entries) secname = members entries secname := by
  obtain ⟨hname, _⟩ := hentries.name hsec
  have hfirst : ∀ secname' ∈ sections entries, ∀ es,
      members (section_entry secname' :: es) secname = members es secname := by
    intro secname' hsec' es
    refine List.filter_cons_of_neg fun hmember => ?_
    have hstarts := List.isPrefixOf_iff_prefix.mp hmember
    exact (hentries.name hsec').1.no_colon (hstarts.subset (by simp))
  rw [members, grouped, List.filter_flatMap, flatMap_eq_of_nodup hentries.sections_nodup hsec]
  · refine (hfirst secname hsec _).trans ?_
    rw [members, members, List.filter_filter]
    simp
  · intro secname' hsec' hne
    obtain ⟨hname', _⟩ := hentries.name hsec'
    refine (hfirst secname' hsec' _).trans ?_
    rw [members, List.filter_eq_nil_iff]
    intro e he hmember
    obtain ⟨_, key', hkey'⟩ := mem_members.mp he
    obtain ⟨key, hkey⟩ := List.isPrefixOf_iff_prefix.mp hmember
    rw [List.append_assoc, List.singleton_append] at hkey
    apply hne
    rw [← section_of_append hname'.no_colon key', ← hkey', ← hkey, section_of_append hname.no_colon]

/-- A dictionary that was loaded is saved as it was. -/
theorem Sectioned.dump_lines_grouped : dump_lines (grouped entries) = dump_lines entries := by
  rw [dump_lines, dump_lines, hentries.sections_grouped]
  congr 1
  refine List.flatMap_congr fun secname hsec => ?_
  rw [hentries.members_grouped hsec]

theorem Sectioned.dump_lines_clean : ∀ line ∈ dump_lines entries,
    (NoEnd line ∧ line.length < 1023) ∧ ends_in_backslash line = false := by
  have hempty : (NoEnd [] ∧ ([] : List UInt8).length < 1023) ∧ ends_in_backslash [] = false := by decide +kernel
  intro line hline
  rw [dump_lines, List.mem_append, List.mem_flatMap, List.mem_singleton] at hline
  obtain ⟨secname, hsec, hline⟩ | rfl := hline
  · rw [List.mem_cons, List.mem_cons, List.mem_map] at hline
    obtain rfl | rfl | ⟨m, hm, rfl⟩ := hline
    · exact hempty
    · exact section_line_clean (hentries.name hsec).1
    · obtain ⟨key, val, rfl, hsave⟩ := hentries.isMember hsec hm
      rw [member_line_eq]
      exact value_line_clean hsave
  · exact hempty

/-- What the lines that were saved make of a new dictionary. -/
theorem Sectioned.foldl_dump_lines :
    ((dump_lines entries).foldl process Parser.start).errs = 0 ∧
      Packed ((dump_lines entries).foldl process Parser.start).dict (grouped entries) := by
  have hdistinct : ((grouped entries).map Entry.key).Nodup :=
    (hentries.grouped_perm.map Entry.key).nodup_iff.mpr hentries.sound.distinct
  obtain ⟨herrs, hpacked⟩ := foldl_sections (p := Parser.start) rfl packed_new
    (fun secname hsec => (hentries.name hsec).1) (fun secname hsec m hm => hentries.isMember hsec hm)
    (by rw [List.nil_append]; exact hdistinct)
  rw [dump_lines, List.foldl_append, List.foldl_cons, List.foldl_nil, process_nil]
  exact ⟨herrs, hpacked⟩

end

/-- The buffer reader on the text of some lines. -/
theorem load_mem_lines {lines : List (List UInt8)} (hlines : ∀ line ∈ lines, NoEnd line ∧ line.length < 1023)
    (beyond : Nat → UInt8) :
    iniparser_load_mem (memory (text_of lines) beyond) (text_of lines).length =
      some (lines.foldl process Parser.start).result := by
  obtain ⟨reads, hload, _⟩ := load_mem_spec (text_of lines) beyond
  have hall : ∀ seg ∈ lines ++ [[]], fits seg = true := by
    intro seg hseg
    obtain hmem | hmem := List.mem_append.mp hseg
    · exact decide_eq_true (Nat.lt_succ_of_lt (hlines seg hmem).2)
    · rw [List.mem_singleton.mp hmem]
      decide
  rw [segments_text_of fun line hline => (hlines line hline).1,
    List.takeWhile_eq_self_iff.mpr hall, List.foldl_append] at hload
  rw [iniparser_load_mem, hload]
  rfl

/-- What is loaded of a saved dictionary. -/
structure Reloaded (d : dictionary) (text : List UInt8) (d' : dictionary) : Prop where
  saved : iniparser_dump_ini d = .ok text
  loaded : iniparser_load (some text) = some (some d')
  loaded_mem : ∀ beyond, iniparser_load_mem (memory text beyond) text.length = some (some d')
  same : d'.lookup = d.lookup
  saved_again : iniparser_dump_ini d' = .ok text

theorem exists_reloaded {d : dictionary} (hd : Sectioned d.entries) (hsome : sections d.entries ≠ []) :
    ∃ text d', Reloaded d text d' := by
  have hfits : ∀ secname ∈ sections d.entries, secname.length < ASCIILINESZ := by
    intro secname hsec
    have hshort := (hd.name hsec).1.short
    have hsize : ASCIILINESZ = 1024 := rfl
    omega
  obtain ⟨herrs, hpacked⟩ := hd.foldl_dump_lines
  have hentries := hpacked.entries_eq
  have hsound : Sound (grouped d.entries) :=
    ⟨(hd.grouped_perm.map Entry.key).nodup_iff.mpr hd.sound.distinct,
      fun e he => hd.sound.hashed e (hd.grouped_perm.subset he)⟩
  have hresult : ((dump_lines d.entries).foldl process Parser.start).result =
      some ((dump_lines d.entries).foldl process Parser.start).dict := if_neg (by rw [herrs]; exact fun h => h rfl)
  refine ⟨text_of (dump_lines d.entries), ((dump_lines d.entries).foldl process Parser.start).dict,
    iniparser_dump_ini_eq hsome hfits, ?_, fun beyond => ?_, ?_, ?_⟩
  · rw [← hresult]
    exact load_loop_lines hd.dump_lines_clean (Nat.lt_succ_of_le (length_le_text_of _)) (Int.le_refl 0)
  · rw [← hresult]
    exact load_mem_lines (fun line hline => (hd.dump_lines_clean line hline).1) beyond
  · rw [lookup_eq (hentries ▸ hsound), hentries, lookup_eq hd.sound, table_perm hsound.distinct hd.grouped_perm]
  · rw [iniparser_dump_ini_eq, hentries, hd.dump_lines_grouped]
    · rwa [hentries, hd.sections_grouped]
    · rwa [hentries, hd.sections_grouped]

theorem sectionName_s : SectionName [115] where
  ne_nil := by decide
  no_end := by decide +kernel
  no_closing := by decide
  no_colon := by decide
  stripped := by decide +kernel
  lower := by decide
  short := by decide

end code_tools.iniparser
