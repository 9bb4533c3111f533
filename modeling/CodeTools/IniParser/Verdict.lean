import CodeTools.IniParser.Cuts

/-!
# What the buffer reader reads and accepts
-/

namespace code_tools.iniparser

open cstring

/-! ## Reads -/

/-- The loop ends, and every byte it reads on the way is one of the text or its
    terminator. -/
def StaysInside (text : List UInt8) (beyond : Nat → UInt8) : Prop :=
  ∃ dict reads, load_mem (memory text beyond) text.length = some (dict, reads) ∧
    InBounds text.length reads

/-- The reader stays inside its buffer exactly when it is not left in the middle of
    a last line, whose terminator it would count as a line end. Nothing is assumed
    of the bytes of the text or of those behind it. -/
theorem staysInside_iff (text : List UInt8) (beyond : Nat → UInt8) :
    StaysInside text beyond ↔ EndsClean text := by
  obtain ⟨reads, hload, hbounds⟩ := load_mem_spec text beyond
  rw [← hbounds]
  constructor
  · rintro ⟨dict, reads', hload', hinside⟩
    rw [hload] at hload'
    obtain ⟨-, rfl⟩ := Prod.mk.inj (Option.some.inj hload')
    exact hinside
  · intro hinside
    exact ⟨_, reads, hload, hinside⟩

/-- After the text `a`, the byte behind the terminator is read. -/
theorem unfinished_line_overruns : ¬∀ text beyond, StaysInside text beyond := by
  intro hall
  obtain ⟨dict, reads, hload, hinside⟩ := hall ['a'.toUInt8] fun _ => 0
  have hreads : (load_mem (memory ['a'.toUInt8] fun _ => 0) 1).map Prod.snd =
      some [{ start := 0, seen := 2 }, { start := 2, seen := 1 }] := by decide +kernel
  have hsame := congrArg (Option.map Prod.snd) hload
  rw [List.length_singleton, hreads] at hsame
  obtain rfl := Option.some.inj hsame
  exact absurd (hinside _ (List.mem_cons_of_mem _ (List.mem_singleton.mpr rfl))) (by decide)

/-! ## Acceptance -/

/-- Every line of the text fits the line buffer, so that none keeps the reader from
    the lines after it, and none is a syntax error. -/
def Accepted (text : List UInt8) : Prop :=
  ∀ line ∈ segments text, fits line = true ∧ status line ≠ .LINE_ERROR

/-- The reader returns, and what it returns is a dictionary only when all of the
    text was accepted. -/
def Reports (text : List UInt8) (beyond : Nat → UInt8) : Prop :=
  ∃ dict, iniparser_load_mem (memory text beyond) text.length = some dict ∧
    (dict.isSome = true → Accepted text)

/-- A line after which `errs` says that all is well. -/
def Clears (line : List UInt8) : Prop := status line = .LINE_SECTION ∨ status line = .LINE_VALUE

/-- Some line is an error, and no line after it clears `errs`. -/
def ErrorStands (lines : List (List UInt8)) : Prop :=
  ∃ before line after, lines = before ++ line :: after ∧ status line = .LINE_ERROR ∧
    ∀ l ∈ after, ¬Clears l

theorem errorStands_cons {line : List UInt8} {lines : List (List UInt8)} :
    ErrorStands (line :: lines) ↔
      (status line = .LINE_ERROR ∧ ∀ l ∈ lines, ¬Clears l) ∨ ErrorStands lines := by
  constructor
  · rintro ⟨before, bad, after, hsplit, hbad, hafter⟩
    obtain ⟨rfl, hhead⟩ | ⟨before, rfl, hlines⟩ := List.cons_eq_append_iff.mp hsplit
    · obtain ⟨rfl, rfl⟩ := List.cons.inj hhead
      exact .inl ⟨hbad, hafter⟩
    · exact .inr ⟨before, bad, after, hlines, hbad, hafter⟩
  · rintro (⟨hbad, hafter⟩ | ⟨before, bad, after, rfl, hbad, hafter⟩)
    · exact ⟨[], line, lines, rfl, hbad, hafter⟩
    · exact ⟨line :: before, bad, after, rfl, hbad, hafter⟩

theorem foldl_errs_after_ne_zero_iff (lines : List (List UInt8)) {errs : Int} (herrs : 0 ≤ errs) :
    lines.foldl errs_after errs ≠ 0 ↔ (errs ≠ 0 ∧ ∀ l ∈ lines, ¬Clears l) ∨ ErrorStands lines := by
  induction lines generalizing errs with
  | nil => simp [ErrorStands]
  | cons line lines ih =>
    rw [List.foldl_cons, ih (errs_after_nonneg herrs line), errorStands_cons, List.forall_mem_cons]
    unfold errs_after Clears
    cases hstatus : status line <;> simp
    case LINE_ERROR =>
      have hcount : errs + 1 ≠ 0 := by omega
      simp only [hcount, not_false_eq_true, true_and]
      constructor
      · exact .inr
      · rintro (⟨_, hafter⟩ | hstands)
        · exact .inl hafter
        · exact hstands

theorem foldl_process_errs (lines : List (List UInt8)) (p : Parser) :
    (lines.foldl process p).errs = lines.foldl errs_after p.errs := by
  induction lines generalizing p with
  | nil => rfl
  | cons line lines ih => rw [List.foldl_cons, List.foldl_cons, ih, process_errs]

/-- The verdict can be trusted exactly when the text is accepted, or an error among
    the lines before the first that does not fit is followed by no section and no
    value: those reset the count of errors, and a line that does not fit ends the
    loop like the end of the text. -/
theorem reports_iff (text : List UInt8) (beyond : Nat → UInt8) :
    Reports text beyond ↔ Accepted text ∨ ErrorStands ((segments text).takeWhile fits) := by
  obtain ⟨reads, hload, _⟩ := load_mem_spec text beyond
  have hreturns : iniparser_load_mem (memory text beyond) text.length =
      some (((segments text).takeWhile fits).foldl process Parser.start).result := by
    unfold iniparser_load_mem
    rw [hload]
    rfl
  have herrs := foldl_errs_after_ne_zero_iff ((segments text).takeWhile fits) (Int.le_refl 0)
  have hresult : ∀ p : Parser, p.result.isSome = true ↔ p.errs = 0 := by
    intro p
    unfold Parser.result
    split <;> simp_all
  have hstands : ErrorStands ((segments text).takeWhile fits) ↔
      ¬(((segments text).takeWhile fits).foldl process Parser.start).result.isSome = true := by
    rw [hresult, foldl_process_errs, show Parser.start.errs = 0 from rfl]
    simpa using herrs.symm
  rw [hstands]
  constructor
  · rintro ⟨dict, hdict, haccepted⟩
    obtain rfl := Option.some.inj (hreturns.symm.trans hdict)
    by_cases hsome : (((segments text).takeWhile fits).foldl process Parser.start).result.isSome = true
    · exact .inl (haccepted hsome)
    · exact .inr hsome
  · rintro (haccepted | hnone)
    · exact ⟨_, hreturns, fun _ => haccepted⟩
    · exact ⟨_, hreturns, fun hsome => absurd hsome hnone⟩

/-- A good section line hides the error before it. -/
theorem section_hides_error : ¬∀ text beyond, Reports text beyond := by
  intro hall
  obtain ⟨dict, hload, haccepted⟩ := hall ['a'.toUInt8, LF, '['.toUInt8, 'b'.toUInt8, ']'.toUInt8, LF] fun _ => 0
  have hsome : ((iniparser_load_mem (memory ['a'.toUInt8, LF, '['.toUInt8, 'b'.toUInt8, ']'.toUInt8, LF]
      fun _ => 0) 6).map Option.isSome) = some true := by decide +kernel
  have hsame := congrArg (Option.map Option.isSome) hload
  change Option.map Option.isSome (iniparser_load_mem _ 6) = _ at hsame
  rw [hsome] at hsame
  have hline := (haccepted (Option.some.inj hsame).symm ['a'.toUInt8] (by decide +kernel)).2
  exact hline (by decide +kernel)

end code_tools.iniparser
