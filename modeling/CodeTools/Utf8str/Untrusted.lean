import CodeTools.Utf8str.Reparse
import Mathlib.Algebra.GroupWithZero.Nat

/-!
# Malformed and long characters

Which blanks get through `utf8_strncpy` inside malformed sequences, and how many
bytes it writes.
-/

namespace code_tools.utf8str

open cmem cstring

/-! ## Blanks -/

structure Clean (out : List UInt8) : Prop where
  noBreak : ∀ b ∈ out, b ≠ CR ∧ b ≠ LF ∧ b ≠ TAB
  noRun : out.IsChain fun b b' => ¬(b = SPACE ∧ b' = SPACE)
  noFront : out.head? ≠ some SPACE

/-- Position `j` of the output is inside a character, behind its first byte. -/
def Continues (chars : List (List UInt8)) (j : Nat) : Prop :=
  ∃ before bytes after k, chars = before ++ bytes :: after ∧ k + 1 < bytes.length ∧
    j = before.flatten.length + (k + 1)

theorem Continues.cons {chars : List (List UInt8)} {j : Nat} (h : Continues chars j) (bytes : List UInt8) :
    Continues (bytes :: chars) (bytes.length + j) := by
  obtain ⟨before, piece, after, k, rfl, hk, rfl⟩ := h
  refine ⟨bytes :: before, piece, after, k, rfl, hk, ?_⟩
  rw [List.flatten_cons, List.length_append, Nat.add_assoc]

/-- Every byte stands at the front of a character or inside it. -/
theorem getElem?_flatten_cases {chars : List (List UInt8)} {j : Nat} {b : UInt8} (hget : chars.flatten[j]? = some b) :
    Continues chars j ∨ ∃ before bytes after, chars = before ++ bytes :: after ∧ bytes.head? = some b ∧
      j = before.flatten.length := by
  induction chars generalizing j with
  | nil => cases hget
  | cons bytes chars ih =>
    rw [List.flatten_cons] at hget
    by_cases hj : j < bytes.length
    · rw [List.getElem?_append_left hj] at hget
      cases j with
      | zero =>
        right
        exact ⟨[], bytes, chars, rfl, by rw [List.head?_eq_getElem?, hget], rfl⟩
      | succ j =>
        left
        exact ⟨[], bytes, chars, j, rfl, hj, (Nat.zero_add _).symm⟩
    · rw [List.getElem?_append_right (by omega)] at hget
      rcases ih hget with hinside | ⟨before, piece, after, rfl, hhead, hindex⟩
      · left
        have hlater := hinside.cons bytes
        rwa [Nat.add_sub_cancel' (by omega)] at hlater
      · right
        refine ⟨bytes :: before, piece, after, rfl, hhead, ?_⟩
        rw [List.flatten_cons, List.length_append]
        omega

/-- What the shape says of a character in the middle. -/
theorem Shaped.at {flag : Bool} {before after : List (List UInt8)} {bytes : List UInt8}
    (h : Shaped flag (before ++ bytes :: after)) :
    ∃ flag' c, bytes.head? = some c ∧ ¬(c = CR ∨ c = LF ∨ c = TAB) ∧ (c = SPACE → flag' = false) ∧
      Shaped (decide (c = SPACE)) after := by
  induction before generalizing flag with
  | nil =>
    obtain ⟨c, hhead, hblank, hagain, hrest⟩ := h
    exact ⟨flag, c, hhead, hblank, hagain, hrest⟩
  | cons piece before ih =>
    obtain ⟨_, _, _, _, hrest⟩ := h
    exact ih hrest

/-- A space of its own is not followed by another. -/
theorem Shaped.space_then {flag : Bool} {before after : List (List UInt8)} {bytes : List UInt8}
    (h : Shaped flag (before ++ bytes :: after)) (hspace : bytes.head? = some SPACE) :
    after.flatten.head? ≠ some SPACE := by
  obtain ⟨_, c, hhead, _, _, hrest⟩ := h.at
  rw [hspace] at hhead
  obtain rfl := Option.some.inj hhead
  cases after with
  | nil => exact nofun
  | cons piece after =>
    obtain ⟨c, hc, _, hagain, _⟩ := hrest
    rw [List.flatten_cons, List.head?_append, hc, Option.some_or]
    intro hagain'
    exact absurd (hagain (Option.some.inj hagain')) (by decide)

theorem Shaped.head {chars : List (List UInt8)} (h : Shaped true chars) : chars.flatten.head? ≠ some SPACE := by
  cases chars with
  | nil => exact nofun
  | cons bytes chars =>
    obtain ⟨c, hc, _, hagain, _⟩ := h
    rw [List.flatten_cons, List.head?_append, hc, Option.some_or]
    intro hspace
    exact absurd (hagain (Option.some.inj hspace)) (by decide)

theorem Continues.mem_tail {chars : List (List UInt8)} {j : Nat} {b : UInt8} (h : Continues chars j)
    (hget : chars.flatten[j]? = some b) : ∃ bytes ∈ chars, b ∈ bytes.tail := by
  obtain ⟨before, bytes, after, k, rfl, hk, rfl⟩ := h
  refine ⟨bytes, List.mem_append_right before List.mem_cons_self, ?_⟩
  rw [List.flatten_append, List.getElem?_append_right (by omega), Nat.add_sub_cancel_left, List.flatten_cons,
    List.getElem?_append_left hk, ← List.getElem?_tail] at hget
  exact List.mem_of_getElem? hget

/-- A line break or tabulator is no first byte. -/
theorem Shaped.continues_of_blank {flag : Bool} {chars : List (List UInt8)} (h : Shaped flag chars) {j : Nat}
    {b : UInt8} (hget : chars.flatten[j]? = some b) (hb : b = CR ∨ b = LF ∨ b = TAB) : Continues chars j := by
  rcases getElem?_flatten_cases hget with hinside | ⟨before, bytes, after, rfl, hhead, _⟩
  · exact hinside
  · obtain ⟨_, c, hc, hblank, _⟩ := h.at
    rw [hhead] at hc
    obtain rfl := Option.some.inj hc
    exact absurd hb hblank

/-- The first of two spaces is no first byte. -/
theorem Shaped.continues_of_spaces {flag : Bool} {chars : List (List UInt8)} (h : Shaped flag chars)
    (hwhole : ∀ bytes ∈ chars, Whole bytes) {j : Nat} (hget : chars.flatten[j]? = some SPACE)
    (hnext : chars.flatten[j + 1]? = some SPACE) : Continues chars j := by
  rcases getElem?_flatten_cases hget with hinside | ⟨before, bytes, after, rfl, hhead, rfl⟩
  · exact hinside
  · have hwidth := (hwhole bytes (List.mem_append_right before List.mem_cons_self)).width hhead
    have hone : bytes.length = 1 := by rw [← hwidth, utf8_check_SPACE, UInt32.toNat_one]
    rw [List.flatten_append, List.getElem?_append_right (by omega), Nat.add_sub_cancel_left, List.flatten_cons,
      List.getElem?_append_right (by omega), hone, Nat.sub_self, ← List.head?_eq_getElem?] at hnext
    exact absurd hnext (h.space_then hhead)

variable {src : List UInt8} {max : UInt32}

/-- Bytes that are left out in front of a character get through inside it. The
    output does not begin with a space, and line breaks, tabulators and spaces
    followed by a space stand behind the first byte of a character. -/
theorem utf8_strncpy_blanks (hstays : StaysInSource src max) (hmax : 1 ≤ max) :
    ∃ out, Copies src max out ∧ out = (characters src max).flatten ∧ (∀ bytes ∈ characters src max, Whole bytes) ∧
      out.head? ≠ some SPACE ∧
      (∀ j b, out[j]? = some b → b = CR ∨ b = LF ∨ b = TAB → Continues (characters src max) j) ∧
      (∀ j, out[j]? = some SPACE → out[j + 1]? = some SPACE → Continues (characters src max) j) ∧
      ((∀ bytes ∈ characters src max, ∀ b ∈ bytes.tail, b ≠ CR ∧ b ≠ LF ∧ b ≠ TAB ∧ b ≠ SPACE) → Clean out) := by
  have hwhole := hstays.whole
  have hshaped : Shaped true (characters src max) := shaped_characters_from (toNat_strlen_le src)
  have hcopies := copies_characters (ne_zero_of_one_le hmax) hwhole
  rw [terminated_of_notMem hstays] at hcopies
  refine ⟨_, hcopies, rfl, hwhole, hshaped.head, fun j b => hshaped.continues_of_blank,
    fun j => hshaped.continues_of_spaces hwhole, ?_⟩
  intro htails
  refine ⟨?_, ?_, hshaped.head⟩
  · intro b hb
    obtain ⟨j, hget⟩ := List.mem_iff_getElem?.mp hb
    by_contra hnot
    have hblank : b = CR ∨ b = LF ∨ b = TAB := by
      simp only [ne_eq, not_and_or, not_not] at hnot
      exact hnot
    obtain ⟨bytes, hmem, htail⟩ := (hshaped.continues_of_blank hget hblank).mem_tail hget
    obtain ⟨hcr, hlf, htab, _⟩ := htails bytes hmem b htail
    exact hnot ⟨hcr, hlf, htab⟩
  · rw [List.isChain_iff_getElem]
    rintro j hj ⟨hspace, hagain⟩
    have hget : (characters src max).flatten[j]? = some SPACE := by
      rw [← hspace]
      exact List.getElem?_eq_getElem _
    have hnext : (characters src max).flatten[j + 1]? = some SPACE := by
      rw [← hagain]
      exact List.getElem?_eq_getElem hj
    obtain ⟨bytes, hmem, htail⟩ := (hshaped.continues_of_spaces hwhole hget hnext).mem_tail hget
    exact (htails bytes hmem SPACE htail).2.2.2 rfl

/-- The line feed behind a byte that announces two, and one space of two. -/
theorem utf8_strncpy_blanks_swallowed :
    ∃ out, Copies [97, 32, 32, 0xc3, 10] 3 out ∧ out = (characters [97, 32, 32, 0xc3, 10] 3).flatten ∧
      out.head? ≠ some SPACE := by
  obtain ⟨out, hcopies, hout, _, hfront, _⟩ := utf8_strncpy_blanks
    (staysInSource_of_strlen (by decide) (by decide) : StaysInSource [97, 32, 32, 0xc3, 10] 3 ∧ _).1 (by decide)
  exact ⟨out, hcopies, hout, hfront⟩

/-- A truncated sequence takes the line feed behind it along. -/
theorem line_feed_copied :
    ∃ dest', utf8_strncpy (some [1, 1, 1]) (some [0xc3, 10]) 1 = .ok (some dest') ∧ ¬Clean (terminated dest') :=
  ⟨[0xc3, 10, 0], by decide +kernel, fun h => absurd rfl (h.noBreak LF (by decide)).2.1⟩

/-! ## Room -/

/-- All that is ever written, the terminator included, goes into the first
    `3 * max + 1` bytes of the buffer. -/
def StaysInBuffer (src : List UInt8) (max : UInt32) : Prop :=
  ∀ dest s, Reached src (strlen src) max (.start dest) s →
    s.p ≤ 3 * max.toNat ∧ s.dest.drop (3 * max.toNat) = dest.drop (3 * max.toNat)

/-- The bytes by which characters are longer than three. -/
def surplus (chars : List (List UInt8)) : Nat := (chars.map fun bytes => bytes.length - 3).sum

/-- The bytes by which characters are shorter than three, and three for each
    character that is missing. -/
def slack (chars : List (List UInt8)) (max : UInt32) : Nat :=
  (chars.map fun bytes => 3 - bytes.length).sum + 3 * (max.toNat - chars.length)

theorem length_flatten_add_slack {chars : List (List UInt8)} (hmany : chars.length ≤ max.toNat) :
    chars.flatten.length + slack chars max = 3 * max.toNat + surplus chars := by
  have hsum : chars.flatten.length + (chars.map fun bytes => 3 - bytes.length).sum =
      3 * chars.length + surplus chars := by
    unfold surplus
    clear hmany
    induction chars with
    | nil => rfl
    | cons bytes chars ih =>
      simp only [List.flatten_cons, List.length_append, List.map_cons, List.sum_cons, List.length_cons]
      omega
  unfold slack
  omega

/-- What a run has written and what it is still to write. -/
theorem Reached.written {slen : UInt32} (hslen : slen.toNat ≤ src.length) {s s' : Copying}
    (h : Reached src slen max s s') :
    s'.p + (s'.copied src slen max).flatten.length = s.p + (s.copied src slen max).flatten.length ∧
      s.p ≤ s'.p ∧ ∀ k, s'.p ≤ k → s'.dest.drop k = s.dest.drop k := by
  induction h with
  | refl s => exact ⟨rfl, Nat.le_refl _, fun _ _ => rfl⟩
  | step hi hn hstep hreached ih =>
    obtain ⟨htotal, hle, hbehind⟩ := ih
    rcases copy_step_cases hslen hi hn hstep with ⟨rfl, hahead⟩ | ⟨bytes, dest, hwhole, hblit, rfl, hp, _, hahead⟩
    · unfold Copying.copied at htotal ⊢
      rw [hahead]
      exact ⟨htotal, hle, hbehind⟩
    · rw [Copying.copied_of_ahead_eq_cons hwhole hahead, List.flatten_cons, List.length_append]
      refine ⟨?_, by omega, ?_⟩
      · rw [htotal, hp, Nat.add_assoc]
        rfl
      · intro k hk
        rw [hbehind k hk, drop_of_blit hblit (by omega)]

theorem length_copied_le (src : List UInt8) (max : UInt32) : (copied src max).length ≤ max.toNat := by
  have htake : characters src max = (characters src max).take max.toNat := characters_take (UInt32.le_refl max)
  have hle : (characters src max).length ≤ max.toNat := by
    rw [htake, List.length_take]
    exact Nat.min_le_left _ _
  exact Nat.le_trans (List.length_filter_le _ _) hle

end code_tools.utf8str
