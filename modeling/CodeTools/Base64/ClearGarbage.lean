import CodeTools.Lib.Buffer

/-!
# `clear_garbage` of `base64.c`

The bytes that base64 does not use are taken out one at a time, by moving what
stands behind them. The function does not return how many bytes are left: the
terminator tells.
-/

namespace code_tools.base64

open cmem

/-- The characters that the macro `B64` names, each in the place of its value. -/
def alphabet : List UInt8 :=
  "ABCDEFGHIJKLMNOPQRSTUVWXYZabcdefghijklmnopqrstuvwxyz0123456789+/".toList.map Char.toUInt8

def B64 (c : UInt8) : Int := (alphabet.idxOf? c).elim (-1) Nat.cast

def b64 : List Int := (List.range 256).map fun c => B64 c.toUInt8

/-- A `char` is looked up as an `unsigned char`, which is always in range. -/
def isbase64 (ch : UInt8) : Bool := 0 ≤ b64.getD ch.toNat (-1)

/-- The test of the loop: the padding is no character of the alphabet. -/
def keeps (ch : UInt8) : Bool := isbase64 ch || ch = '='.toUInt8

def clear_garbage_loop : Nat → List UInt8 → Nat → Nat → Except Fault (List UInt8 × Nat)
  | fuel, inbuf, i, n =>
    if 0 < n ∧ i < n then
      match fuel, inbuf[i]? with
      | 0, _ => .error .outOfFuel
      | _ + 1, none => .error .outOfBounds
      | fuel + 1, some ch =>
        if keeps ch then clear_garbage_loop fuel inbuf (i + 1) n
        else do
          -- `memmove(inbuf + i, inbuf + i + 1, --n - i)`
          let moved ← slice inbuf (i + 1) (n - 1 - i)
          let inbuf ← blit inbuf i moved
          clear_garbage_loop fuel inbuf i (n - 1)
    else .ok (inbuf, n)

/-- The buffer and the returned value. -/
def clear_garbage (fuel : Nat) (inbuf : List UInt8) (n : Nat) : Except Fault (List UInt8 × Int) := do
  let (inbuf, n) ← clear_garbage_loop fuel inbuf 0 n
  let inbuf ← blit inbuf n [0]
  .ok (inbuf, 0)

/-! ## The table -/

theorem isbase64_eq (ch : UInt8) : isbase64 ch = decide (0 ≤ B64 ch) := by
  have hlt := ch.toNat_lt
  simp [isbase64, b64, List.getD_eq_getElem?_getD, List.getElem?_range hlt]

theorem isbase64_iff (ch : UInt8) : isbase64 ch = true ↔ ch ∈ alphabet := by
  rw [isbase64_eq, decide_eq_true_iff, B64]
  cases hidx : alphabet.idxOf? ch with
  | none => simpa using List.idxOf?_eq_none_iff.mp hidx
  | some i =>
    refine iff_of_true (Int.natCast_nonneg i) ?_
    by_contra hnot
    rw [List.idxOf?_eq_none_iff.mpr hnot] at hidx
    cases hidx

theorem keeps_iff (ch : UInt8) : keeps ch = true ↔ ch ∈ alphabet ∨ ch = '='.toUInt8 := by
  simp [keeps, isbase64_iff]

theorem not_keeps_zero : keeps 0 = false := by
  rw [← Bool.not_eq_true, keeps_iff]
  decide +kernel

/-! ## The loop -/

/-- The `memmove` puts the bytes behind `ch` over it and leaves one more behind
    them. -/
theorem move_down (before : List UInt8) (ch : UInt8) (pending rest : List UInt8) :
    ∃ moved rest', slice (before ++ ch :: pending ++ rest) (before.length + 1) pending.length = .ok moved ∧
      blit (before ++ ch :: pending ++ rest) before.length moved = .ok (before ++ pending ++ rest') ∧
      rest'.length = rest.length + 1 := by
  have hdrop : (before ++ ch :: pending ++ rest).drop (before.length + 1) = pending ++ rest := by
    rw [List.append_assoc, List.drop_append]
    simp
  have hslice : slice (before ++ ch :: pending ++ rest) (before.length + 1) pending.length = .ok pending := by
    rw [slice_eq, hdrop, List.take_left']
    · rfl
    · simp only [List.length_append, List.length_cons]
      omega
  refine ⟨pending, (ch :: pending ++ rest).drop pending.length, hslice, blit_eq_ok_iff.mpr ⟨?_, ?_⟩, ?_⟩
  · simp only [List.length_append, List.length_cons]
    omega
  · have hbuf : before ++ ch :: pending ++ rest = before ++ (ch :: pending ++ rest) := List.append_assoc _ _ _
    rw [hbuf, List.take_left' rfl, ← List.drop_drop, List.drop_left' rfl]
  · simp only [List.length_drop, List.length_append, List.length_cons]
    omega

/-- The loop with `before` behind it and `pending` ahead. Where it takes nothing out
    it moves nothing. -/
theorem clear_garbage_loop_spec (pending before rest : List UInt8) {fuel : Nat} (hfuel : pending.length ≤ fuel) :
    ∃ rest', clear_garbage_loop fuel (before ++ pending ++ rest) before.length (before.length + pending.length) =
        .ok (before ++ pending.filter keeps ++ rest', before.length + (pending.filter keeps).length) ∧
      (pending.filter keeps).length + rest'.length = pending.length + rest.length ∧
      (pending.filter keeps = pending → rest' = rest) := by
  induction pending generalizing before rest fuel with
  | nil =>
    unfold clear_garbage_loop
    simp
  | cons ch pending ih =>
    obtain ⟨fuel, rfl⟩ : ∃ fuel', fuel = fuel' + 1 :=
      Nat.exists_eq_succ_of_ne_zero (Nat.ne_of_gt (Nat.lt_of_lt_of_le (Nat.zero_lt_succ _) hfuel))
    have hfuel : pending.length ≤ fuel := Nat.le_of_succ_le_succ hfuel
    have hhere : (before ++ ch :: pending ++ rest)[before.length]? = some ch := by simp
    have hmore : 0 < before.length + (ch :: pending).length ∧
        before.length < before.length + (ch :: pending).length := by
      simp only [List.length_cons]
      omega
    unfold clear_garbage_loop
    rw [if_pos hmore, hhere]
    dsimp only
    cases hkeeps : keeps ch with
    | true =>
      obtain ⟨rest', hloop, hlength, hsame⟩ := ih (before ++ [ch]) rest hfuel
      refine ⟨rest', ?_, ?_, ?_⟩
      · simpa [hkeeps, Nat.add_assoc, Nat.add_comm 1] using hloop
      · simp only [List.filter_cons_of_pos hkeeps, List.length_cons]
        omega
      · rw [List.filter_cons_of_pos hkeeps]
        exact fun hall => hsame (List.cons.inj hall).2
    | false =>
      obtain ⟨moved, rest₁, hslice, hblit, hrest₁⟩ := move_down before ch pending rest
      obtain ⟨rest', hloop, hlength, _⟩ := ih before rest₁ hfuel
      have hcount : before.length + (ch :: pending).length - 1 = before.length + pending.length := by simp
      have hmoved : before.length + (ch :: pending).length - 1 - before.length = pending.length := by simp
      have hfilter : (ch :: pending).filter keeps = pending.filter keeps := by simp [hkeeps]
      refine ⟨rest', ?_, ?_, ?_⟩
      · rw [if_neg (by simp), hcount, Nat.add_sub_cancel_left, hslice, ok_bind, hblit, ok_bind, hloop, hfilter]
      · rw [hfilter, List.length_cons]
        omega
      · intro hall
        have hle := List.length_filter_le keeps pending
        rw [← hfilter, hall, List.length_cons] at hle
        omega

/-! ## The result -/

/-- A text in a buffer with room behind it. -/
theorem clear_garbage_spec (text : List UInt8) (next : UInt8) (beyond : List UInt8) {fuel : Nat}
    (hfuel : text.length ≤ fuel) :
    ∃ rest, clear_garbage fuel (text ++ next :: beyond) text.length = .ok (text.filter keeps ++ 0 :: rest, 0) ∧
      (text.filter keeps).length + rest.length = text.length + beyond.length ∧
      (text.filter keeps = text → rest = beyond) := by
  obtain ⟨rest', hloop, hlength, hsame⟩ := clear_garbage_loop_spec text [] (next :: beyond) hfuel
  simp only [List.nil_append, List.length_nil, Nat.zero_add] at hloop
  -- the terminator has a place, since bytes were only taken out
  have hle := List.length_filter_le keeps text
  rw [List.length_cons] at hlength
  obtain ⟨last, rest, rfl⟩ := List.exists_cons_of_length_pos (by omega : 0 < rest'.length)
  rw [List.length_cons] at hlength
  have hend : blit (text.filter keeps ++ last :: rest) (text.filter keeps).length [0] =
      .ok (text.filter keeps ++ 0 :: rest) := by
    refine blit_eq_ok_iff.mpr ⟨by simp, ?_⟩
    simp
  refine ⟨rest, ?_, by omega, fun hall => (List.cons.inj (hsame hall)).2⟩
  unfold clear_garbage
  rw [hloop, ok_bind]
  dsimp only
  rw [hend, ok_bind]

/-- The bytes among the first `n` that base64 uses. -/
def kept (inbuf : List UInt8) (n : Nat) : List UInt8 := (inbuf.take n).filter keeps

/-- A terminator is never kept, so the string that is left has the length of what was
    kept. -/
theorem zero_notMem_kept (inbuf : List UInt8) (n : Nat) : 0 ∉ kept inbuf n := by
  simp [kept, not_keeps_zero]

/-- For every buffer of `n + 1` bytes the call ends without leaving it, and the buffer
    begins with what base64 uses of the `n` bytes and a terminator. A second call on
    the string that was left changes nothing. -/
theorem clear_garbage_filters {inbuf : List UInt8} {n : Nat} (hroom : inbuf.length = n + 1) {fuel : Nat}
    (hfuel : n ≤ fuel) :
    ∃ rest, clear_garbage fuel inbuf n = .ok (kept inbuf n ++ 0 :: rest, 0) ∧
      (kept inbuf n ++ 0 :: rest).length = n + 1 ∧ 0 ∉ kept inbuf n ∧
      ∀ fuel', (kept inbuf n).length ≤ fuel' →
        clear_garbage fuel' (kept inbuf n ++ 0 :: rest) (kept inbuf n).length =
          .ok (kept inbuf n ++ 0 :: rest, 0) := by
  obtain ⟨last, hlast⟩ : ∃ last, inbuf.drop n = [last] := by
    apply List.length_eq_one_iff.mp
    simp [hroom]
  have hsplit : inbuf.take n ++ [last] = inbuf := by rw [← hlast, List.take_append_drop]
  have htext : (inbuf.take n).length = n := List.length_take_of_le (by omega)
  have hall : (inbuf.take n).length ≤ fuel := Nat.le_trans (Nat.le_of_eq htext) hfuel
  obtain ⟨rest, hcall, hlength, _⟩ := clear_garbage_spec (inbuf.take n) last [] hall
  rw [hsplit, htext] at hcall
  refine ⟨rest, hcall, ?_, zero_notMem_kept inbuf n, fun fuel' hfuel' => ?_⟩
  · rw [htext] at hlength
    simp only [kept, List.length_append, List.length_cons]
    exact congrArg Nat.succ hlength
  · have hall : (kept inbuf n).filter keeps = kept inbuf n := by simp [kept]
    obtain ⟨rest', hagain, _, hsame⟩ := clear_garbage_spec (kept inbuf n) 0 rest hfuel'
    rw [hagain, hall, hsame hall]

theorem clear_garbage_filters_two_marks :
    ∃ rest, clear_garbage 3 [33, 33, 97, 0] 3 = .ok ([97] ++ 0 :: rest, 0) ∧
      clear_garbage 1 ([97] ++ 0 :: rest) 1 = .ok ([97] ++ 0 :: rest, 0) := by
  have hkept : kept [33, 33, 97, 0] 3 = [97] := by decide +kernel
  obtain ⟨rest, hcall, _, _, hagain⟩ := clear_garbage_filters (n := 3)
    (show ([33, 33, 97, 0] : List UInt8).length = 3 + 1 from rfl) (Nat.le_refl 3)
  rw [hkept] at hcall hagain
  exact ⟨rest, hcall, hagain 1 (Nat.le_refl 1)⟩

/-- A second call for as many bytes as the first takes in what lies behind the
    terminator. -/
theorem same_length_again :
    ∃ after again, clear_garbage 3 [33, 33, 97, 0] 3 = .ok (after, 0) ∧
      clear_garbage 3 after 3 = .ok (again, 0) ∧ again ≠ after :=
  ⟨[97, 0, 97, 0], [97, 97, 0, 0], by decide +kernel, by decide +kernel, by decide⟩

end code_tools.base64
