import CodeTools.IniParser.Cuts

/-!
# The file reader and the buffer reader

On a text of lines that fit, both readers are a fold of `process`. They differ in
the lines they fold over when a line is continued by a backslash.
-/

namespace code_tools.iniparser

open cstring

/-- The text of some lines, each with its newline. -/
def text_of (lines : List (List UInt8)) : List UInt8 := lines.flatMap (· ++ [LF])

/-- Whether the last byte of a line that is no blank is a backslash. -/
def ends_in_backslash (line : List UInt8) : Bool :=
  (line.rdropWhile isspace).getLast? = some BACKSLASH

/-- The lines with the continued ones joined, behind what is pending. -/
def logical_lines (pending : List UInt8) : List (List UInt8) → List (List UInt8)
  | [] => [pending]
  | line :: lines =>
    let joined := pending ++ line
    if ends_in_backslash joined then logical_lines (joined.rdropWhile isspace).dropLast lines
    else joined :: logical_lines [] lines

/-- Lines without `NUL` and `CR` bytes that fit the line buffer, joined or not. -/
def Admissible (lines : List (List UInt8)) : Prop :=
  (∀ line ∈ lines, NoEnd line ∧ line.length < 1023) ∧
    ∀ line ∈ logical_lines [] lines, line.length < 1023

/-- Both refuse the text, or both map the same keys to the same values. -/
def Agree : Option dictionary → Option dictionary → Prop
  | none, none => True
  | some d, some d' => ∀ key default, dictionary_get d key default = dictionary_get d' key default
  | _, _ => False

/-- The readers return and agree on the text of some lines. -/
def ReadersAgree (lines : List (List UInt8)) (beyond : Nat → UInt8) : Prop :=
  ∃ d d', iniparser_load_mem (memory (text_of lines) beyond) (text_of lines).length = some d ∧
    iniparser_load (some (text_of lines)) = some d' ∧ Agree d d'

instance (lines : List (List UInt8)) : Decidable (Admissible lines) :=
  inferInstanceAs (Decidable ((∀ line ∈ lines, (∀ b ∈ line, is_end b = false) ∧ line.length < 1023) ∧
    ∀ line ∈ logical_lines [] lines, line.length < 1023))

theorem Agree.isSome_eq {d d' : Option dictionary} (hagree : Agree d d') : d.isSome = d'.isSome := by
  cases d <;> cases d' <;> first | rfl | cases hagree

theorem Agree.refl (d : Option dictionary) : Agree d d := by
  cases d with
  | none => trivial
  | some d => exact fun _ _ => rfl

/-! ## The file reader -/

/-- The loop at the end of a line overwrites its blanks. -/
theorem trim_eq (line buf : List UInt8) :
    ∃ k, trim (line ++ buf) line.length =
      (line.rdropWhile isspace ++ (List.replicate k 0 ++ buf), (line.rdropWhile isspace).length) := by
  induction line using List.reverseRecOn generalizing buf with
  | nil => exact ⟨0, rfl⟩
  | append_singleton line b ih =>
    have hlen : (line ++ [b]).length = line.length + 1 := by simp
    have hget : (line ++ [b] ++ buf).getD line.length 0 = b := by simp
    by_cases hb : isspace b = true
    · obtain ⟨k, hk⟩ := ih (0 :: buf)
      have hset : (line ++ [b] ++ buf).set line.length 0 = line ++ 0 :: buf := by
        rw [List.append_assoc, List.set_append_right _ _ (Nat.le_refl _), Nat.sub_self]
        rfl
      refine ⟨k + 1, ?_⟩
      rw [hlen, trim, hget, if_pos (.inr hb), hset, hk, List.rdropWhile_concat_pos _ _ _ hb,
        List.replicate_succ', List.append_assoc]
      rfl
    · have hlf : ¬b = LF := by
        rintro rfl
        exact hb (by decide)
      refine ⟨0, ?_⟩
      rw [hlen, trim, hget, if_neg (by simp [hlf, hb]), List.rdropWhile_concat_neg _ _ _ hb, hlen]
      rfl

theorem continues_eq (line buf : List UInt8) :
    continues (line ++ buf) line.length = decide (line.getLast? = some BACKSLASH) := by
  induction line using List.reverseRecOn with
  | nil => rfl
  | append_singleton line b _ =>
    have hlen : (line ++ [b]).length = line.length + 1 := by simp
    have hget : (line ++ [b] ++ buf).getD line.length 0 = b := by simp
    rw [hlen, continues, hget]
    simp

theorem terminated_append_zeros {s : List UInt8} (hs : 0 ∉ s) (k : Nat) :
    terminated (s ++ (List.replicate k 0 ++ [])) = s := by
  cases k with
  | zero => simpa using terminated_of_notMem hs
  | succ k => exact terminated_concat_zero hs _

/-- One line that fits and is not continued. -/
theorem load_loop_line {line : List UInt8} (hline : NoEnd line) (hlen : line.length < 1023)
    (hlast : ends_in_backslash line = false) (stream : List UInt8) (fuel : Nat) {p : Parser}
    (hp : 0 ≤ p.errs) :
    load_loop (fuel + 1) [] 0 (line ++ LF :: stream) p = load_loop fuel [] 0 stream (process p line) := by
  have hlf : LF ∉ line := fun hmem => absurd (hline LF hmem) (by decide)
  have hzero : 0 ∉ line ++ [LF] := by
    rw [List.mem_append]
    rintro (hmem | hmem)
    · exact hline.zero_notMem hmem
    · exact absurd hmem (by decide)
  have hroom : line.length + 1 < ASCIILINESZ := by
    have hsize : ASCIILINESZ = 1024 := rfl
    omega
  have hstrip : (line ++ [LF]).rdropWhile isspace = line.rdropWhile isspace :=
    rdropWhile_append_blanks line (by simp)
  have hstripped : 0 ∉ line.rdropWhile isspace := fun hmem =>
    hline.zero_notMem ((List.rdropWhile_prefix isspace line).subset hmem)
  obtain ⟨k, htrim⟩ := trim_eq (line ++ [LF]) []
  rw [List.append_nil, hstrip] at htrim
  rw [load_loop, Nat.sub_zero, fgets_line hlf hroom]
  dsimp only
  rw [List.take_nil, List.nil_append, terminated_of_notMem hzero, if_neg (by simp), htrim]
  dsimp only
  rw [continues_eq, terminated_append_zeros hstripped,
    process_congr p (strip_rdropWhile line)]
  unfold ends_in_backslash at hlast
  rw [hlast, if_neg (by simp), if_neg (by have := process_errs_nonneg hp line; omega)]

theorem load_loop_lines {lines : List (List UInt8)}
    (hlines : ∀ line ∈ lines, (NoEnd line ∧ line.length < 1023) ∧ ends_in_backslash line = false)
    {fuel : Nat} (hfuel : lines.length < fuel) {p : Parser} (hp : 0 ≤ p.errs) :
    load_loop fuel [] 0 (text_of lines) p = some (lines.foldl process p).result := by
  induction lines generalizing fuel p with
  | nil =>
    obtain ⟨fuel, rfl⟩ := Nat.exists_eq_add_of_lt hfuel
    rfl
  | cons line lines ih =>
    obtain ⟨fuel, rfl⟩ : ∃ fuel', fuel = fuel' + 1 := ⟨fuel - 1, by omega⟩
    obtain ⟨⟨hline, hlen⟩, hlast⟩ := hlines line (by simp)
    have htext : text_of (line :: lines) = line ++ LF :: text_of lines := by
      simp [text_of]
    rw [htext, load_loop_line hline hlen hlast _ fuel hp, List.foldl_cons]
    rw [List.length_cons] at hfuel
    exact ih (fun l hl => hlines l (List.mem_cons_of_mem line hl)) (by omega) (process_errs_nonneg hp line)

/-! ## The buffer reader -/

theorem segments_text_of {lines : List (List UInt8)} (hlines : ∀ line ∈ lines, NoEnd line) :
    segments (text_of lines) = lines ++ [[]] := by
  induction lines with
  | nil => rfl
  | cons line lines ih =>
    have htext : text_of (line :: lines) = line ++ LF :: text_of lines := by
      simp [text_of]
    rw [htext, segments_append_end (hlines line (by simp)) (by decide),
      ih fun l hl => hlines l (List.mem_cons_of_mem line hl)]
    rfl

theorem length_le_text_of (lines : List (List UInt8)) : lines.length ≤ (text_of lines).length := by
  induction lines with
  | nil => exact Nat.le_refl 0
  | cons line lines ih =>
    simp only [text_of, List.flatMap_cons, List.length_append, List.length_cons, List.length_nil] at ih ⊢
    omega

/-- The readers agree when no line ends in a backslash before its trailing blanks.
    Nothing is assumed of the bytes behind the buffer. -/
theorem readers_agree {lines : List (List UInt8)} (hadmissible : Admissible lines)
    (hlast : ∀ line ∈ lines, ends_in_backslash line = false) (beyond : Nat → UInt8) :
    ReadersAgree lines beyond := by
  obtain ⟨hlines, _⟩ := hadmissible
  have hfile : iniparser_load (some (text_of lines)) =
      some (lines.foldl process Parser.start).result :=
    load_loop_lines (fun line hline => ⟨hlines line hline, hlast line hline⟩)
      (Nat.lt_succ_of_le (length_le_text_of lines)) (Int.le_refl 0)
  obtain ⟨reads, hload, _⟩ := load_mem_spec (text_of lines) beyond
  have hall : ∀ seg ∈ lines ++ [[]], fits seg = true := by
    intro seg hseg
    obtain hmem | hmem := List.mem_append.mp hseg
    · have hlen := (hlines seg hmem).2
      exact decide_eq_true (Nat.lt_succ_of_lt hlen)
    · rw [List.mem_singleton.mp hmem]
      decide
  rw [segments_text_of fun line hline => (hlines line hline).1,
    List.takeWhile_eq_self_iff.mpr hall, List.foldl_append] at hload
  refine ⟨_, _, ?_, hfile, Agree.refl _⟩
  unfold iniparser_load_mem
  rw [hload]
  rfl

/-- A section and a value. -/
theorem readers_agree_section :
    ReadersAgree [['['.toUInt8, 's'.toUInt8, ']'.toUInt8], ['a'.toUInt8, '='.toUInt8, '1'.toUInt8]]
      fun _ => 0 :=
  readers_agree (by decide +kernel) (by decide +kernel) _

/-- A value continued on a second line: the buffer reader takes the second line for
    a line of its own, which is an error. -/
theorem continued_value_differs :
    ¬∀ lines beyond, Admissible lines → ReadersAgree lines beyond := by
  intro hall
  let lines : List (List UInt8) :=
    [['['.toUInt8, 's'.toUInt8, ']'.toUInt8], ['a'.toUInt8, '='.toUInt8, BACKSLASH], ['b'.toUInt8]]
  obtain ⟨d, d', hbuffer, hfile, hagree⟩ := hall lines (fun _ => 0) (by decide +kernel)
  have hrefused : (iniparser_load_mem (memory (text_of lines) fun _ => 0) (text_of lines).length).map
      Option.isSome = some false := by decide +kernel
  have haccepted : (iniparser_load (some (text_of lines))).map Option.isSome = some true := by
    decide +kernel
  rw [hbuffer] at hrefused
  rw [hfile] at haccepted
  have hsame := congrArg some hagree.isSome_eq
  rw [← Option.map_some, hrefused, ← Option.map_some, haccepted] at hsame
  cases hsame

end code_tools.iniparser
