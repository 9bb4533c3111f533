import CodeTools.Lib.Heap

/-!
# Byte buffers

A buffer is the list of its bytes. Copies out of and into a buffer fault when
they would leave it.
-/

namespace cmem

variable {β : Type}

/-- The `n` bytes from offset `off` on. -/
def slice (src : List β) (off n : Nat) : Except Fault (List β) :=
  if off + n ≤ src.length then .ok ((src.drop off).take n) else .error .outOfBounds

/-- Overwrite the bytes from offset `off` on. -/
def blit (dst : List β) (off : Nat) (bytes : List β) : Except Fault (List β) :=
  if off + bytes.length ≤ dst.length then
    .ok (dst.take off ++ bytes ++ dst.drop (off + bytes.length))
  else .error .outOfBounds

theorem slice_eq {src : List β} {off n : Nat} (hroom : off + n ≤ src.length) :
    slice src off n = .ok ((src.drop off).take n) := by
  unfold slice
  rw [if_pos hroom]

theorem blit_eq_ok_iff {dst dst' bytes : List β} {off : Nat} :
    blit dst off bytes = .ok dst' ↔ off + bytes.length ≤ dst.length ∧
      dst' = dst.take off ++ bytes ++ dst.drop (off + bytes.length) := by
  unfold blit
  by_cases hroom : off + bytes.length ≤ dst.length
  · simp [hroom, eq_comm]
  · simp [hroom]

theorem length_of_blit {dst dst' bytes : List β} {off : Nat} (hblit : blit dst off bytes = .ok dst') :
    dst'.length = dst.length := by
  obtain ⟨hroom, rfl⟩ := blit_eq_ok_iff.mp hblit
  simp only [List.length_append, List.length_take, List.length_drop]
  omega

/-- What stands behind a copy stays. -/
theorem drop_of_blit {dst dst' bytes : List β} {off k : Nat} (hblit : blit dst off bytes = .ok dst')
    (hk : off + bytes.length ≤ k) : dst'.drop k = dst.drop k := by
  obtain ⟨hroom, rfl⟩ := blit_eq_ok_iff.mp hblit
  have hlength : (dst.take off ++ bytes).length = off + bytes.length := by
    rw [List.length_append, List.length_take_of_le (by omega)]
  rw [List.drop_append, List.drop_of_length_le (by omega), List.nil_append, hlength, List.drop_drop,
    Nat.add_sub_cancel' hk]

/-- A copy that fits keeps the length of the buffer and all bytes before it, and
    is read back where it was put. -/
theorem blit_spec {dst bytes : List β} {off : Nat} (hroom : off + bytes.length ≤ dst.length) :
    ∃ dst', blit dst off bytes = .ok dst' ∧ dst'.length = dst.length ∧
      dst'.take (off + bytes.length) = dst.take off ++ bytes := by
  have hblit := blit_eq_ok_iff.mpr ⟨hroom, rfl⟩
  refine ⟨_, hblit, length_of_blit hblit, ?_⟩
  · have hlen : (dst.take off ++ bytes).length = off + bytes.length := by
      simp only [List.length_append, List.length_take]
      omega
    rw [← hlen, List.take_left']
    rfl

/-- What stands before a copy stays. -/
theorem take_before {dst dst' bytes : List β} {off : Nat}
    (htake : dst'.take (off + bytes.length) = dst.take off ++ bytes) (hoff : off ≤ dst.length) :
    dst'.take off = dst.take off := by
  have hcut := congrArg (List.take off) htake
  rwa [List.take_take, Nat.min_eq_left (Nat.le_add_right _ _),
    List.take_left' (List.length_take_of_le hoff)] at hcut

/-- `dst'` is as long as `dst`, begins like it and holds `bytes` from offset `off`
    on. -/
structure Stores (dst : List β) (off : Nat) (bytes dst' : List β) : Prop where
  length : dst'.length = dst.length
  take : dst'.take (off + bytes.length) = dst.take off ++ bytes

theorem blit_stores {dst bytes : List β} {off : Nat} (hroom : off + bytes.length ≤ dst.length) :
    ∃ dst', blit dst off bytes = .ok dst' ∧ Stores dst off bytes dst' := by
  obtain ⟨dst', hblit, hlength, htake⟩ := blit_spec hroom
  exact ⟨dst', hblit, hlength, htake⟩

/-- Bytes stored behind those that were stored before. -/
theorem Stores.append {dst dst₁ dst₂ bytes more : List β} {off : Nat} (hfirst : Stores dst off bytes dst₁)
    (hthen : Stores dst₁ (off + bytes.length) more dst₂) : Stores dst off (bytes ++ more) dst₂ := by
  refine ⟨hthen.length.trans hfirst.length, ?_⟩
  rw [List.length_append, ← Nat.add_assoc, hthen.take, hfirst.take, List.append_assoc]

/-- The first of the bytes that were stored. -/
theorem Stores.left {dst dst' bytes more : List β} {off : Nat} (hstores : Stores dst off (bytes ++ more) dst')
    (hoff : off ≤ dst.length) : Stores dst off bytes dst' := by
  refine ⟨hstores.length, ?_⟩
  have hcut := congrArg (List.take (off + bytes.length)) hstores.take
  have hlength : (dst.take off ++ bytes).length = off + bytes.length := by
    rw [List.length_append, List.length_take_of_le hoff]
  rwa [List.take_take, Nat.min_eq_left (by rw [List.length_append]; omega), ← List.append_assoc,
    List.take_left' hlength] at hcut

/-- A copy followed by one more element, as strings are stored. -/
theorem blit_concat {dst bytes : List β} {off : Nat} (x : β) (hroom : off + bytes.length < dst.length) :
    ∃ dst₁ dst₂, blit dst off bytes = .ok dst₁ ∧ blit dst₁ (off + bytes.length) [x] = .ok dst₂ ∧
      dst₂.length = dst.length ∧ dst₂.take (off + bytes.length) = dst.take off ++ bytes ∧
      dst₂[off + bytes.length]? = some x := by
  obtain ⟨dst₁, hfirst, hlen₁, htake₁⟩ := blit_spec (Nat.le_of_lt hroom)
  obtain ⟨dst₂, hsecond, hlen₂, htake₂⟩ := blit_spec
    (by rw [hlen₁, List.length_singleton]; omega : off + bytes.length + [x].length ≤ dst₁.length)
  rw [List.length_singleton, htake₁] at htake₂
  have hprefix : (dst.take off ++ bytes).length = off + bytes.length := by
    rw [List.length_append, List.length_take]
    omega
  refine ⟨dst₁, dst₂, hfirst, hsecond, hlen₂.trans hlen₁, ?_, ?_⟩
  · have hcut := congrArg (List.take (off + bytes.length)) htake₂
    rw [List.take_take, Nat.min_eq_left (by omega), List.take_left' hprefix] at hcut
    exact hcut
  · have hget := congrArg (·[off + bytes.length]?) htake₂
    rw [List.getElem?_take_of_lt (by omega), List.getElem?_append_right (by omega), hprefix] at hget
    simpa using hget

end cmem
