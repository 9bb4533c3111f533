import CodeTools.IniParser.Load

/-!
# The values of a dictionary are strings

No value that `iniparser_load` or `iniparser_load_mem` puts into a dictionary has
a terminator in it.
-/

namespace code_tools.iniparser

open cstring

/-- A dictionary that one of the readers has returned. -/
def Loaded (d : dictionary) : Prop :=
  (∃ file, iniparser_load file = some (some d)) ∨ ∃ ini inilen, iniparser_load_mem ini inilen = some (some d)

def HoldsString : Option Entry → Prop
  | some e => ∀ s, e.val = some s → 0 ∉ s
  | none => True

def dictionary.Strings (d : dictionary) : Prop := ∀ slot ∈ d.slots, HoldsString slot

/-! ## One line -/

/-- A field that `sscanf` stores has bytes of the string alone. -/
theorem mem_of_mem_sscanf {format : List Directive} {s field : List UInt8} (hfield : field ∈ sscanf format s)
    {b : UInt8} (hb : b ∈ field) : b ∈ s := by
  fun_induction sscanf format s with
  | case1 => cases hfield
  | case2 s p format hnone => cases hfield
  | case3 s p format hsome ih =>
    rcases List.mem_cons.mp hfield with rfl | hrest
    · exact (List.takeWhile_sublist _).subset hb
    · exact (List.dropWhile_sublist _).subset (ih hrest)
  | case4 s format ih => exact (List.dropWhile_sublist isspace).subset (ih hfield)
  | case5 => cases hfield
  | case6 c format s ih => exact List.mem_cons_of_mem _ (ih hfield)
  | case7 => cases hfield

theorem mem_of_mem_strip {s : List UInt8} {b : UInt8} (hb : b ∈ strip s) : b ∈ s := by
  unfold strip at hb
  exact (List.dropWhile_sublist isspace).subset ((List.rdropWhile_prefix isspace _).subset hb)

theorem notMem_getD {fields : List (List UInt8)} {old : List UInt8} {b : UInt8} (hfields : ∀ field ∈ fields, b ∉ field)
    (hold : b ∉ old) (k : Nat) : b ∉ fields.getD k old := by
  rw [List.getD_eq_getElem?_getD]
  cases hget : fields[k]? with
  | none => exact hold
  | some field => exact hfields field (List.mem_of_getElem? hget)

theorem notMem_sscanf_any {line : List UInt8} {b : UInt8} (hline : b ∉ line) (formats : List (List Directive))
    (key : List UInt8) {value : List UInt8} (hvalue : b ∉ value) : b ∉ (sscanf_any line formats key value).2.2 := by
  induction formats generalizing key value with
  | nil => exact hvalue
  | cons format formats ih =>
    have hfields : ∀ field ∈ sscanf format line, b ∉ field := fun field hfield hb =>
      hline (mem_of_mem_sscanf hfield hb)
    unfold sscanf_any
    dsimp only
    split
    · exact notMem_getD hfields hvalue 1
    · exact ih _ (notMem_getD hfields hvalue 1)

theorem iniparser_line_value {line : List UInt8} (hline : 0 ∉ line) (section_ key : List UInt8) {value : List UInt8}
    (hvalue : 0 ∉ value) : 0 ∉ (iniparser_line line section_ key value).value := by
  have hstripped : 0 ∉ strstrip line := fun hzero => hline (mem_of_mem_strip hzero)
  unfold iniparser_line
  dsimp only
  split
  case isTrue => exact hvalue
  case isFalse =>
  split
  case isTrue => exact hvalue
  case isFalse =>
  split
  case isTrue => exact hvalue
  case isFalse =>
  have hfirst := notMem_sscanf_any hstripped
    [quoted_format DOUBLE_QUOTE, quoted_format SINGLE_QUOTE, plain_format] key hvalue
  split
  case isTrue =>
    split
    case isTrue => exact List.not_mem_nil
    case isFalse => exact fun hzero => hfirst (mem_of_mem_strip hzero)
  case isFalse =>
  split
  case isTrue => exact List.not_mem_nil
  case isFalse => exact notMem_sscanf_any hstripped [comment_format, no_value_format] _ hfirst

/-! ## The table -/

theorem modify_slot_strings {key : List UInt8} {hash : UInt32} {val : Option (List UInt8)}
    (hval : ∀ s, val = some s → 0 ∉ s) {slots slots' : List (Option Entry)}
    (hslots : ∀ slot ∈ slots, HoldsString slot) (hmodify : modify_slot key hash val slots = some slots') :
    ∀ slot ∈ slots', HoldsString slot := by
  induction slots generalizing slots' with
  | nil => cases hmodify
  | cons slot slots ih =>
    obtain ⟨hfirst, hothers⟩ := List.forall_mem_cons.mp hslots
    cases slot with
    | none =>
      obtain ⟨rest, hrest, rfl⟩ := Option.map_eq_some_iff.mp hmodify
      exact List.forall_mem_cons.mpr ⟨trivial, ih hothers hrest⟩
    | some e =>
      rw [modify_slot] at hmodify
      split at hmodify
      case isTrue =>
        obtain rfl := Option.some.inj hmodify
        exact List.forall_mem_cons.mpr ⟨hval, hothers⟩
      case isFalse =>
        obtain ⟨rest, hrest, rfl⟩ := Option.map_eq_some_iff.mp hmodify
        exact List.forall_mem_cons.mpr ⟨hfirst, ih hothers hrest⟩

theorem insert_slot_strings {e : Entry} (he : HoldsString (some e)) {slots : List (Option Entry)}
    (hslots : ∀ slot ∈ slots, HoldsString slot) : ∀ slot ∈ insert_slot e slots, HoldsString slot := by
  induction slots with
  | nil => exact nofun
  | cons slot slots ih =>
    obtain ⟨hfirst, hothers⟩ := List.forall_mem_cons.mp hslots
    cases slot with
    | none => exact List.forall_mem_cons.mpr ⟨he, hothers⟩
    | some e' => exact List.forall_mem_cons.mpr ⟨hfirst, ih hothers⟩

theorem dictionary.Strings.grown {d : dictionary} (hd : d.Strings) : ∀ slot ∈ d.grown, HoldsString slot := by
  unfold dictionary.grown
  split
  · intro slot hslot
    rcases List.mem_append.mp hslot with hold | hnew
    · exact hd slot hold
    · rw [List.eq_of_mem_replicate hnew]
      trivial
  · exact hd

theorem dictionary_set_strings {d : dictionary} (hd : d.Strings) (key : List UInt8) {val : Option (List UInt8)}
    (hval : ∀ s, val = some s → 0 ∉ s) : (dictionary_set d key val).1.Strings := by
  unfold dictionary_set
  dsimp only
  split
  case h_1 slots hmodify =>
    split at hmodify
    case isTrue => exact modify_slot_strings hval hd hmodify
    case isFalse => cases hmodify
  case h_2 =>
    have he : HoldsString (some { key := key, val := val, hash := dictionary_hash key }) := hval
    exact insert_slot_strings he hd.grown

/-! ## The readers -/

/-- Neither the value that one line hands to the next nor the dictionary has a
    terminator in a string. -/
def Parser.Strings (p : Parser) : Prop := 0 ∉ p.val ∧ p.dict.Strings

theorem start_strings : Parser.start.Strings := by
  refine ⟨List.not_mem_nil, ?_⟩
  intro slot hslot
  rw [List.eq_of_mem_replicate hslot]
  trivial

theorem process_strings {p : Parser} (hp : p.Strings) {line : List UInt8} (hline : 0 ∉ line) :
    (process p line).Strings := by
  obtain ⟨hval, hdict⟩ := hp
  have hvalue := iniparser_line_value hline p.section_ p.key hval
  unfold process
  generalize iniparser_line line p.section_ p.key p.val = l at hvalue
  obtain ⟨sta, section_, key, value⟩ := l
  cases sta with
  | LINE_SECTION => exact ⟨hvalue, dictionary_set_strings hdict _ nofun⟩
  | LINE_VALUE =>
    refine ⟨hvalue, dictionary_set_strings hdict _ ?_⟩
    intro s hs
    obtain rfl := Option.some.inj hs
    exact hvalue
  | LINE_UNPROCESSED => exact ⟨hvalue, hdict⟩
  | LINE_ERROR => exact ⟨hvalue, hdict⟩
  | LINE_EMPTY => exact ⟨hvalue, hdict⟩
  | LINE_COMMENT => exact ⟨hvalue, hdict⟩

theorem result_strings {p : Parser} (hp : p.Strings) {d : dictionary} (hresult : p.result = some d) : d.Strings := by
  unfold Parser.result at hresult
  split at hresult
  case isTrue => cases hresult
  case isFalse =>
    obtain rfl := Option.some.inj hresult
    exact hp.2

theorem load_loop_strings {fuel : Nat} {line : List UInt8} {last : Nat} {stream : List UInt8} {p : Parser}
    (hp : p.Strings) {d : dictionary} (hload : load_loop fuel line last stream p = some (some d)) : d.Strings := by
  induction fuel generalizing line last stream p with
  | zero => cases hload
  | succ fuel ih =>
    rw [load_loop] at hload
    split at hload
    case h_1 => exact result_strings hp (Option.some.inj hload)
    case h_2 bytes stream hget =>
    dsimp only at hload
    split at hload
    case isTrue => cases Option.some.inj hload
    case isFalse =>
    split at hload
    case isTrue => exact ih hp hload
    case isFalse =>
    have hp' := process_strings hp (zero_notMem_terminated
      (trim (terminated (line.take last ++ bytes)) (terminated (line.take last ++ bytes)).length).1)
    split at hload
    case isTrue => exact result_strings hp' (Option.some.inj hload)
    case isFalse => exact ih hp' hload

theorem load_mem_loop_strings {ini : Nat → UInt8} {inilen fuel : Nat} {line : List UInt8} {last tpos : Nat}
    {p : Parser} (hp : p.Strings) {d : dictionary} {reads : List Read}
    (hload : load_mem_loop ini inilen fuel line last tpos p = some (some d, reads)) : d.Strings := by
  induction fuel generalizing line last tpos p reads with
  | zero => cases hload
  | succ fuel ih =>
    rw [load_mem_loop] at hload
    dsimp only at hload
    split at hload
    case isFalse =>
      exact result_strings hp (congrArg Prod.fst (Option.some.inj hload))
    case isTrue =>
    split at hload
    case isTrue =>
      obtain ⟨⟨dict, rest⟩, hrest, heq⟩ := Option.map_eq_some_iff.mp hload
      obtain rfl : dict = some d := congrArg Prod.fst heq
      exact ih hp hrest
    case isFalse =>
    generalize trim _ _ = trimmed at hload
    have hp' := process_strings hp (zero_notMem_terminated trimmed.1)
    split at hload
    case isTrue => exact result_strings hp' (congrArg Prod.fst (Option.some.inj hload))
    case isFalse =>
      obtain ⟨⟨dict, rest⟩, hrest, heq⟩ := Option.map_eq_some_iff.mp hload
      obtain rfl : dict = some d := congrArg Prod.fst heq
      exact ih hp' hrest

/-- The readers store strings. -/
theorem Loaded.strings {d : dictionary} (hd : Loaded d) : d.Strings := by
  rcases hd with ⟨file, hload⟩ | ⟨ini, inilen, hload⟩
  · cases file with
    | none => cases Option.some.inj hload
    | some stream => exact load_loop_strings start_strings hload
  · obtain ⟨⟨dict, reads⟩, hrun, heq⟩ := Option.map_eq_some_iff.mp hload
    obtain rfl : dict = some d := heq
    exact load_mem_loop_strings start_strings hrun

end code_tools.iniparser
