import CodeTools.Utf8str.Normalise

/-!
# Trimming before copying

`utf8_ltrim` skips spaces and the wide spaces of Chinese text, but no line breaks.
Its result is what `utf8_strncpy` is meant to be given.
-/

namespace code_tools.utf8str

open cmem cstring text

/-- `utf8_space` -/
def wide_space : Char := '　'

/-- `strncmp` of three bytes stops at the terminator, which is not in `utf8_space`. -/
def utf8_ltrim : List UInt8 → List UInt8
  | [] => []
  | c :: str =>
    if c = SPACE then utf8_ltrim str
    else
      match str with
      | c₁ :: c₂ :: rest => if c = 0xe3 ∧ c₁ = 0x80 ∧ c₂ = 0x80 then utf8_ltrim rest else c :: c₁ :: c₂ :: rest
      | _ => c :: str

/-- The characters that are skipped. -/
def margin (c : Char) : Bool := c = ' ' || c = wide_space

theorem encode_wide_space : String.utf8EncodeChar wide_space = [0xe3, 0x80, 0x80] := by decide

/-- A text has one first character. -/
theorem utf8EncodeChar_append_inj {c d : Char} {s t : List UInt8}
    (heq : String.utf8EncodeChar c ++ s = String.utf8EncodeChar d ++ t) : c = d := by
  have hdecode : ∀ (c : Char) (s : List UInt8),
      ByteArray.utf8DecodeChar? (String.utf8EncodeChar c ++ s).toByteArray 0 = some c := by
    intro c s
    rw [List.toByteArray_append]
    exact ByteArray.utf8DecodeChar?_utf8EncodeChar_append
  exact Option.some.inj ((hdecode c s).symm.trans (heq ▸ hdecode d t))

/-- Nothing is skipped of a text that begins with neither space. -/
theorem utf8_ltrim_stops {str : List UInt8} (hspace : ∀ rest, str ≠ SPACE :: rest)
    (hwide : ∀ rest, str ≠ 0xe3 :: 0x80 :: 0x80 :: rest) : utf8_ltrim str = str := by
  cases str with
  | nil => rfl
  | cons c str =>
    have hc : c ≠ SPACE := by
      rintro rfl
      exact hspace str rfl
    unfold utf8_ltrim
    rw [if_neg hc]
    split
    case h_1 c₁ c₂ rest =>
      refine if_neg ?_
      rintro ⟨rfl, rfl, rfl⟩
      exact hwide rest rfl
    case h_2 => rfl

/-- On a text the characters of the margin are skipped. -/
theorem utf8_ltrim_encode (cs : List Char) : utf8_ltrim (encode cs) = encode (cs.dropWhile margin) := by
  have hspace_code : String.utf8EncodeChar ' ' = [SPACE] := by decide
  induction cs with
  | nil => rfl
  | cons c cs ih =>
    by_cases hspace : c = ' '
    · subst hspace
      have hskip : ∀ str, utf8_ltrim (SPACE :: str) = utf8_ltrim str := by
        intro str
        conv_lhs => unfold utf8_ltrim
        exact if_pos rfl
      rw [List.dropWhile_cons_of_pos (by decide), ← ih, encode_cons, hspace_code, List.singleton_append, hskip]
    by_cases hwide : c = wide_space
    · subst hwide
      rw [List.dropWhile_cons_of_pos (by decide), ← ih, encode_cons, encode_wide_space]
      rfl
    · rw [List.dropWhile_cons_of_neg (by simp [margin, hspace, hwide])]
      apply utf8_ltrim_stops
      · intro rest heq
        rw [encode_cons, ← List.singleton_append, ← hspace_code] at heq
        exact hspace (utf8EncodeChar_append_inj heq)
      · intro rest heq
        have heq : String.utf8EncodeChar c ++ encode cs = String.utf8EncodeChar wide_space ++ rest := by
          rw [encode_wide_space]
          exact heq
        exact hwide (utf8EncodeChar_append_inj heq)

/-! ## What the copy begins with -/

theorem head?_normalise (cs : List Char) : (normalise cs).head? = cs.find? fun c => !(blank c || c = ' ') := by
  rw [normalise_eq_kept]
  induction cs with
  | nil => rfl
  | cons c cs ih =>
    by_cases hskip : blank c = true ∨ c = ' '
    · have hafter : after true c = true := by
        unfold after
        split
        · rfl
        · next hblank => exact decide_eq_true (hskip.resolve_left hblank)
      have hemit : emit true c = [] := if_pos (hskip.imp_right fun hc => ⟨hc, rfl⟩)
      rw [kept, hemit, hafter, List.nil_append, ih, List.find?_cons_of_neg]
      rcases hskip with hblank | hspace
      · simp [hblank]
      · simp [hspace]
    · have hemit : emit true c = [c] := if_neg fun h => hskip (h.imp_right And.left)
      rw [kept, hemit, List.find?_cons_of_pos (by simpa using hskip)]
      rfl

/-- The use that the functions are made for: `utf8_strncpy` of what `utf8_ltrim` left
    copies the normalised text behind the margin, up to `max` characters. The copy
    still begins with a wide space exactly where nothing but line breaks, tabs and
    spaces stands between the margin and one. -/
theorem trimmed_copy {cs : List Char} (hnul : '\x00' ∉ cs) (hsize : (encode cs).length < 2 ^ 32) {max : UInt32}
    (hmax : 1 ≤ max) {dest : List UInt8}
    (hroom : (encode ((normalise (cs.dropWhile margin)).take max.toNat)).length < dest.length) :
    ∃ dest', utf8_strncpy (some dest) (some (utf8_ltrim (encode cs))) max = .ok (some dest') ∧
      terminated dest' = encode ((normalise (cs.dropWhile margin)).take max.toNat) ∧
      (((normalise (cs.dropWhile margin)).take max.toNat).head? = some wide_space ↔
        ∃ between rest, cs.dropWhile margin = between ++ wide_space :: rest ∧
          ∀ c ∈ between, blank c = true ∨ c = ' ') := by
  have hmax : max ≠ 0 := by
    rintro rfl
    exact absurd hmax (by decide)
  have hpos : max.toNat ≠ 0 := fun hzero => hmax (UInt32.toNat_inj.mp hzero)
  have hshort : (encode (cs.dropWhile margin)).length < 2 ^ 32 := by
    have hsplit := congrArg List.length (congrArg encode (List.takeWhile_append_dropWhile (p := margin) (l := cs)))
    rw [encode_append, List.length_append] at hsplit
    omega
  have hcounted := counted_of_length_lt hshort
  have hnul' : '\x00' ∉ cs.dropWhile margin := fun h => hnul ((List.dropWhile_sublist margin).subset h)
  have hends : max.toNat ≤ (normalise (counted (cs.dropWhile margin))).length ∨ Ends (cs.dropWhile margin) :=
    LengthSuffices.ends (Or.inl hshort)
  obtain ⟨dest', hcopy, hterminated⟩ := utf8_strncpy_spec hnul' hmax hends (by rwa [hcounted])
  rw [hcounted] at hterminated
  refine ⟨dest', by rw [utf8_ltrim_encode, hcopy], hterminated, ?_⟩
  rw [List.head?_take, if_neg hpos, head?_normalise, List.find?_eq_some_iff_append]
  constructor
  · rintro ⟨_, between, rest, hcs, hbetween⟩
    exact ⟨between, rest, hcs, fun c hc => by simpa using hbetween c hc⟩
  · rintro ⟨between, rest, hcs, hbetween⟩
    exact ⟨by decide, between, rest, hcs, fun c hc => by simpa using hbetween c hc⟩

/-- Both kinds of spaces in front, and a tab before a third one. -/
theorem trimmed_copy_tab :
    ∃ dest', utf8_strncpy (some (List.replicate 31 0)) (some (utf8_ltrim (encode [' ', '　', '\t', '　', 'a']))) 2 =
        .ok (some dest') ∧
      terminated dest' = encode ['　', 'a'] := by
  obtain ⟨dest', hcopy, hterminated, _⟩ := @trimmed_copy [' ', '　', '\t', '　', 'a'] (by decide) (by decide) 2
    (by decide) (List.replicate 31 0) (by decide)
  exact ⟨dest', hcopy, hterminated.trans (by decide)⟩

end code_tools.utf8str
