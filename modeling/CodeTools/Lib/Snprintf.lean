import CodeTools.Lib.Buffer

/-!
# Appending with `snprintf`

`snprintf` stores as much of a text as fits and returns how long the text is. A
loop that adds the result to its position, and takes the position from the size to
get the room that is left, goes behind the buffer once the position has.
-/

namespace cmem

/-- With a size of zero nothing is stored, not even the terminator. -/
def snprintf (dst : List UInt8) (off : Nat) (n : UInt64) (text : List UInt8) : Except Fault (List UInt8 × Nat) :=
  if n = 0 then .ok (dst, text.length)
  else do
    let dst ← blit dst off (text.take (n.toNat - 1) ++ [0])
    .ok (dst, text.length)

/-- `len += snprintf(dst + len, size - len, ...)` for one text after another. -/
def snprintf_each (size : UInt64) : List (List UInt8) → List UInt8 → Nat → Except Fault (List UInt8 × Nat)
  | [], dst, len => .ok (dst, len)
  | text :: texts, dst, len => do
    let (dst, n) ← snprintf dst len (size - UInt64.ofNat len) text
    snprintf_each size texts dst (len + n)

section Room

variable {size : UInt64} {len : Nat}

/-- The room that is left, while the position is inside the buffer. -/
theorem room_toNat (hlen : len ≤ size.toNat) : (size - UInt64.ofNat len).toNat = size.toNat - len := by
  have hsize := size.toNat_lt
  rw [UInt64.toNat_sub, UInt64.toNat_ofNat']
  omega

/-- There is none exactly at the end. -/
theorem room_eq_zero_iff (hlen : len < 2 ^ 64) : size - UInt64.ofNat len = 0 ↔ len = size.toNat := by
  have hsize := size.toNat_lt
  rw [← UInt64.toNat_inj, UInt64.toNat_sub, UInt64.toNat_ofNat', UInt64.toNat_zero]
  omega

end Room

section Append

variable {size : UInt64} {dst : List UInt8}

/-- A text at a position inside the buffer goes nowhere else. -/
theorem snprintf_inside (text : List UInt8) {len : Nat} (hdst : dst.length = size.toNat) (hlen : len ≤ size.toNat) :
    ∃ dst', snprintf dst len (size - UInt64.ofNat len) text = .ok (dst', text.length) ∧ dst'.length = dst.length := by
  have hroom := room_toNat hlen
  unfold snprintf
  by_cases hfull : size - UInt64.ofNat len = 0
  · exact ⟨dst, by rw [if_pos hfull], rfl⟩
  · have hpos : 0 < (size - UInt64.ofNat len).toNat := Nat.pos_of_ne_zero fun hzero =>
      hfull (UInt64.toNat_inj.mp hzero)
    have hfits : len + (text.take ((size - UInt64.ofNat len).toNat - 1) ++ [0]).length ≤ dst.length := by
      rw [List.length_append, List.length_take, List.length_singleton]
      omega
    obtain ⟨dst', hblit, hlength, _⟩ := blit_spec hfits
    exact ⟨dst', by rw [if_neg hfull, hblit]; rfl, hlength⟩

/-- Behind the end the room is counted from the other side, and the text is stored. -/
theorem snprintf_behind {text : List UInt8} {len : Nat} (hdst : dst.length = size.toNat) (hlen : size.toNat < len)
    (hsmall : len < 2 ^ 64) : snprintf dst len (size - UInt64.ofNat len) text = .error .outOfBounds := by
  have hroom : size - UInt64.ofNat len ≠ 0 := fun hzero => by
    have hend := (room_eq_zero_iff hsmall).mp hzero
    omega
  unfold snprintf blit
  rw [if_neg hroom, if_neg (by omega)]
  rfl

theorem snprintf_each_cons {text dst' : List UInt8} {len n : Nat}
    (hprint : snprintf dst len (size - UInt64.ofNat len) text = .ok (dst', n)) (texts : List (List UInt8)) :
    snprintf_each size (text :: texts) dst len = snprintf_each size texts dst' (len + n) := by
  rw [snprintf_each, hprint, ok_bind]

theorem snprintf_each_ok_iff {texts : List (List UInt8)} {len : Nat} (hdst : dst.length = size.toNat)
    (hsmall : len + texts.flatten.length < 2 ^ 64) :
    (∃ r, snprintf_each size texts dst len = .ok r) ↔
      texts = [] ∨ len + texts.dropLast.flatten.length ≤ size.toNat := by
  induction texts generalizing dst len with
  | nil => exact ⟨fun _ => .inl rfl, fun _ => ⟨_, rfl⟩⟩
  | cons text texts ih =>
    rw [List.flatten_cons, List.length_append] at hsmall
    by_cases hlen : len ≤ size.toNat
    · obtain ⟨dst', hprint, hlength⟩ := snprintf_inside text hdst hlen
      rw [snprintf_each_cons hprint, ih (hlength.trans hdst) (by omega)]
      cases texts with
      | nil => simp [hlen]
      | cons text' texts =>
        rw [List.dropLast_cons_of_ne_nil (List.cons_ne_nil _ _), List.flatten_cons, List.length_append]
        simp only [List.cons_ne_nil, false_or]
        omega
    · rw [snprintf_each, snprintf_behind hdst (by omega) (by omega)]
      constructor
      · rintro ⟨r, hr⟩
        cases hr
      · intro hinside
        simp only [List.cons_ne_nil, false_or] at hinside
        omega

theorem snprintf_stores {text : List UInt8} {len : Nat} (hdst : dst.length = size.toNat)
    (hroom : len + text.length < size.toNat) :
    ∃ dst', snprintf dst len (size - UInt64.ofNat len) text = .ok (dst', text.length) ∧
      Stores dst len (text ++ [0]) dst' := by
  have hleft := room_toNat (Nat.le_of_lt (Nat.lt_of_le_of_lt (Nat.le_add_right _ _) hroom))
  have hsome : size - UInt64.ofNat len ≠ 0 := fun hzero => by
    rw [hzero, UInt64.toNat_zero] at hleft
    omega
  have hall : text.take ((size - UInt64.ofNat len).toNat - 1) = text := List.take_of_length_le (by omega)
  have hfits : len + (text ++ [0]).length ≤ dst.length := by
    rw [List.length_append, List.length_singleton]
    omega
  obtain ⟨dst', hblit, hstores⟩ := blit_stores hfits
  refine ⟨dst', ?_, hstores⟩
  unfold snprintf
  rw [if_neg hsome, hall, hblit]
  rfl

/-- With room for all texts and a terminator, they stand one behind the other. -/
theorem snprintf_each_stores {text : List UInt8} {texts : List (List UInt8)} {len : Nat}
    (hdst : dst.length = size.toNat) (hroom : len + (text :: texts).flatten.length < size.toNat) :
    ∃ dst', snprintf_each size (text :: texts) dst len = .ok (dst', len + (text :: texts).flatten.length) ∧
      Stores dst len ((text :: texts).flatten ++ [0]) dst' := by
  induction texts generalizing text dst len with
  | nil =>
    rw [List.flatten_singleton] at hroom ⊢
    obtain ⟨dst', hprint, hstores⟩ := snprintf_stores hdst hroom
    refine ⟨dst', ?_, hstores⟩
    exact snprintf_each_cons hprint []
  | cons text' texts ih =>
    rw [List.flatten_cons, List.length_append] at hroom ⊢
    have hfirst : len + text.length < size.toNat := by omega
    have hothers : len + text.length + (text' :: texts).flatten.length < size.toNat := by omega
    obtain ⟨dst₁, hprint, hstores₁⟩ := snprintf_stores hdst hfirst
    obtain ⟨dst₂, hrest, hstores₂⟩ := ih (hstores₁.length.trans hdst) hothers
    refine ⟨dst₂, ?_, ?_⟩
    · rw [snprintf_each_cons hprint, hrest, Nat.add_assoc]
    · rw [List.append_assoc]
      exact (hstores₁.left (by omega)).append hstores₂

end Append

end cmem
