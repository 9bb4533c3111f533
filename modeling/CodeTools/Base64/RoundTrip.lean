import CodeTools.Base64.Encode
import CodeTools.Base64.Stream

/-!
# Decoding what was encoded
-/

namespace code_tools.base64

open blocks cmem

/-! ## The two tables -/

/-- The table of the decoder is the inverse of that of the encoder. -/
theorem tables_agree : ∀ i < 64, isbase64 (b64str.getD i 0) = true ∧ digit (b64str.getD i 0) = i ∧
    b64str.getD i 0 ≠ '='.toUInt8 := by
  decide +kernel

section

variable (a b c : UInt8) (k : Nat)

theorem isbase64_sextet : isbase64 (sextet a b c k) = true := (tables_agree _ (Nat.mod_lt _ (by decide))).1

theorem digit_sextet :
    digit (sextet a b c k) = (a.toNat * 2 ^ 16 + b.toNat * 2 ^ 8 + c.toNat) / 64 ^ (3 - k) % 64 :=
  (tables_agree _ (Nat.mod_lt _ (by decide))).2.1

theorem sextet_ne_padding : sextet a b c k ≠ '='.toUInt8 := (tables_agree _ (Nat.mod_lt _ (by decide))).2.2

theorem or_eq_add {high low n : Nat} (hlow : low < 2 ^ n) : high <<< n ||| low = high * 2 ^ n + low := by
  rw [← Nat.shiftLeft_add_eq_or_of_lt hlow, Nat.shiftLeft_eq]

/-- Masks keep what belongs to the byte. -/
theorem masks : ∀ i < 64, i <<< 4 &&& 0xf0 = (i % 16) <<< 4 ∧ i <<< 6 &&& 0xc0 = (i % 4) <<< 6 := by
  decide +kernel

theorem byte_zero :
    ((digit (sextet a b c 0) <<< 2) ||| (digit (sextet a b c 1) >>> 4)).toUInt8 = a := by
  have ha := a.toNat_lt
  have hb := b.toNat_lt
  have hc := c.toNat_lt
  rw [digit_sextet, digit_sextet, Nat.shiftRight_eq_div_pow, or_eq_add (by omega)]
  apply UInt8.toNat_inj.mp
  rw [UInt8.toNat_ofNat']
  omega

theorem byte_one :
    ((digit (sextet a b c 1) <<< 4 &&& 0xf0) ||| (digit (sextet a b c 2) >>> 2)).toUInt8 = b := by
  have hb := b.toNat_lt
  have hc := c.toNat_lt
  rw [digit_sextet, digit_sextet, (masks _ (Nat.mod_lt _ (by decide))).1, Nat.shiftRight_eq_div_pow,
    or_eq_add (by omega)]
  apply UInt8.toNat_inj.mp
  rw [UInt8.toNat_ofNat']
  omega

theorem byte_two :
    ((digit (sextet a b c 2) <<< 6 &&& 0xc0) ||| digit (sextet a b c 3)).toUInt8 = c := by
  have hc := c.toNat_lt
  rw [digit_sextet, digit_sextet, (masks _ (Nat.mod_lt _ (by decide))).2, or_eq_add (by omega)]
  apply UInt8.toNat_inj.mp
  rw [UInt8.toNat_ofNat']
  omega

/-! ## Four characters -/

theorem quad_one : quad [sextet a 0 0 0, sextet a 0 0 1, PADDING, PADDING] = ([a], true) := by
  unfold quad
  dsimp only
  rw [isbase64_sextet, isbase64_sextet, Bool.and_self, if_pos rfl, byte_zero]
  rfl

theorem quad_two : quad [sextet a b 0 0, sextet a b 0 1, sextet a b 0 2, PADDING] = ([a, b], true) := by
  unfold quad
  dsimp only
  rw [isbase64_sextet, isbase64_sextet, Bool.and_self, if_pos rfl, byte_zero,
    if_neg (sextet_ne_padding a b 0 2), isbase64_sextet, if_pos rfl, byte_one]
  rfl

theorem quad_three (s : List UInt8) :
    quad (sextet a b c 0 :: sextet a b c 1 :: sextet a b c 2 :: sextet a b c 3 :: s) = ([a, b, c], true) := by
  unfold quad
  dsimp only
  rw [isbase64_sextet, isbase64_sextet, Bool.and_self, if_pos rfl, byte_zero,
    if_neg (sextet_ne_padding a b c 2), isbase64_sextet, if_pos rfl, byte_one,
    if_neg (sextet_ne_padding a b c 3), isbase64_sextet, if_pos rfl, byte_two]

end

/-- Four characters that are accepted, in front of what is decoded. -/
theorem decode_four {in0 in1 in2 in3 : UInt8} {bytes : List UInt8}
    (hquad : quad [in0, in1, in2, in3] = (bytes, true)) (s : List UInt8) :
    decode quad 4 (in0 :: in1 :: in2 :: in3 :: s) = (bytes ++ (decode quad 4 s).1, (decode quad 4 s).2) :=
  by
  have hlen : [in0, in1, in2, in3].length = 4 := rfl
  exact decode_block_append (by decide) hlen hquad s

theorem decode_encoding (data : List UInt8) : decode quad 4 (encoding data) = (data, some []) := by
  have hend : decode quad 4 [] = ([], some []) := decode_of_lt (by decide)
  induction data using encoding.induct with
  | case1 => exact hend
  | case2 a => rw [encoding, decode_four (quad_one a), hend, List.append_nil]
  | case3 a b => rw [encoding, decode_four (quad_two a b), hend, List.append_nil]
  | case4 a b c data ih =>
    rw [encoding, decode_four (quad_three a b c []), ih]
    rfl

theorem decoded_encoding (data : List UInt8) : decoded (encoding data) = (data, true) := by
  simp [decoded, decode_encoding, quad_nil]

/-! ## Pieces of a text -/

/-- What a context keeps after `base64_decode_ctx_init`. -/
theorem pending_init (ctx : base64_decode_context) : (base64_decode_ctx_init ctx).pending = [] := by
  simp [base64_decode_context.pending, base64_decode_ctx_init]

/-- Without a context the encoding is decoded in place. -/
theorem decode_fours_encoding (data : List UInt8) {fuel : Nat} (hfuel : (encoding data).length < fuel) (o : Output) :
    decode_fours fuel (encoding data) o = .ok ([], o.puts data, (o.puts data).outleft) := by
  have hend : ∀ {fuel : Nat} (o : Output), 0 < fuel → decode_fours fuel [] o = .ok ([], o, o.outleft) := by
    intro fuel o hfuel
    obtain ⟨fuel, rfl⟩ := Nat.exists_eq_succ_of_ne_zero (Nat.ne_of_gt hfuel)
    rfl
  -- four characters that are accepted, in front of what is decoded
  have hfour : ∀ {fuel : Nat} {in0 in1 in2 in3 : UInt8} {s bytes more : List UInt8} (o : Output),
      quad (in0 :: in1 :: in2 :: in3 :: s) = (bytes, true) →
      decode_fours fuel s (o.puts bytes) = .ok ([], (o.puts bytes).puts more, ((o.puts bytes).puts more).outleft) →
      decode_fours (fuel + 1) (in0 :: in1 :: in2 :: in3 :: s) o =
        .ok ([], o.puts (bytes ++ more), (o.puts (bytes ++ more)).outleft) := by
    intro fuel in0 in1 in2 in3 s bytes more o hquad hrest
    unfold decode_fours
    rw [decode_4_eq (Nat.le_refl _), List.take_length, hquad, ok_bind]
    dsimp only
    rw [if_pos rfl, ← Output.puts_append]
    exact hrest
  induction data using encoding.induct generalizing fuel o with
  | case1 => rw [encoding, hend o (by omega), Output.puts_nil]
  | case2 a =>
    obtain ⟨fuel, rfl⟩ := Nat.exists_eq_succ_of_ne_zero (Nat.ne_of_gt (Nat.zero_lt_of_lt hfuel))
    have hrest := hend (o.puts [a]) (by simp [encoding] at hfuel; omega : 0 < fuel)
    exact hfour o (quad_one a) (by rw [hrest, Output.puts_nil])
  | case3 a b =>
    obtain ⟨fuel, rfl⟩ := Nat.exists_eq_succ_of_ne_zero (Nat.ne_of_gt (Nat.zero_lt_of_lt hfuel))
    have hrest := hend (o.puts [a, b]) (by simp [encoding] at hfuel; omega : 0 < fuel)
    exact hfour o (quad_two a b) (by rw [hrest, Output.puts_nil])
  | case4 a b c data ih =>
    obtain ⟨fuel, rfl⟩ := Nat.exists_eq_succ_of_ne_zero (Nat.ne_of_gt (Nat.zero_lt_of_lt hfuel))
    refine hfour o (quad_three a b c (encoding data)) (ih ?_ _)
    simp only [encoding, List.length_cons] at hfuel
    omega

theorem base64_decode_ctx_none_encoding (data : List UInt8) (outlen : Nat) :
    base64_decode_ctx none (encoding data) outlen = .ok { ctx := none, out := data.take outlen, ok := true } := by
  unfold base64_decode_ctx
  dsimp only [Option.elim_none, Option.isSome_none, Bool.false_and]
  unfold base64_decode_ctx_loop
  rw [if_pos ⟨rfl, rfl⟩, decode_fours_encoding data (Nat.lt_succ_self _), ok_bind]
  rfl

theorem unwrapped_of_keeps {text : List UInt8} (hkeeps : ∀ c ∈ text, keeps c = true) : unwrapped text = text := by
  refine List.filter_eq_self.mpr fun c hc => ?_
  have hnewline : keeps cstring.LF = false := by
    rw [← Bool.not_eq_true, keeps_iff]
    decide +kernel
  rw [decide_eq_true_iff]
  rintro rfl
  rw [hkeeps _ hc] at hnewline
  cases hnewline

/-- Bytes that base64 does not use, strewn anywhere into what was encoded, do no harm:
    `clear_garbage` leaves the string that was encoded, and this is decoded to the
    bytes that it was made from, all of them. -/
theorem clear_garbage_decodes {malloc : Nat → Bool} {data buf inbuf : List UInt8} {len n : Nat}
    (hdata : data ≠ []) (hsize : data.length ≤ SIZE_MAX) (hencode : base64_encode_alloc malloc data = (some buf, len))
    (hroom : inbuf.length = n + 1) (hstrewn : (inbuf.take n).filter keeps = buf.take len)
    (hmalloc : malloc (3 * (len / 4) + 2) = true) (ctx : base64_decode_context) :
    ∃ after ctx', clear_garbage n inbuf n = .ok (after, 0) ∧ after.takeWhile (· ≠ 0) = buf.take len ∧
      base64_decode_alloc_ctx malloc (some (base64_decode_ctx_init ctx)) (after.takeWhile (· ≠ 0)) =
        .ok { ctx := some ctx', out := some data, ok := true } := by
  obtain ⟨rfl, rfl⟩ := eq_of_base64_encode_alloc hsize hencode
  rw [List.take_left' rfl] at hstrewn ⊢
  have hkept : kept inbuf n = encoding data := hstrewn
  obtain ⟨last, hlast⟩ : ∃ last, inbuf.drop n = [last] := List.length_eq_one_iff.mp (by simp [hroom])
  have hsplit : inbuf.take n ++ [last] = inbuf := by rw [← hlast, List.take_append_drop]
  have htext : (inbuf.take n).length = n := List.length_take_of_le (by omega)
  obtain ⟨rest, hcall, _⟩ := clear_garbage_spec (inbuf.take n) last [] (Nat.le_of_eq htext)
  rw [hsplit, htext, hstrewn] at hcall
  have hzero : ∀ c ∈ encoding data, (decide (c ≠ 0)) = true := by
    intro c hc
    rw [decide_eq_true_iff]
    rintro rfl
    exact zero_notMem_kept inbuf n (hkept ▸ hc)
  have hstring : (encoding data ++ 0 :: rest).takeWhile (· ≠ 0) = encoding data := by
    rw [List.takeWhile_append_of_pos hzero]
    simp
  have hwhole : unwrapped (encoding data) = encoding data := unwrapped_of_keeps fun c hc =>
    (List.mem_filter.mp (hkept ▸ hc : c ∈ kept inbuf n)).2
  have hne : encoding data ≠ [] := by
    have hpos := List.length_pos_iff.mpr hdata
    rw [← List.length_pos_iff, length_encoding]
    omega
  obtain ⟨ctx', hdecode, _⟩ := base64_decode_ctx_spec (base64_decode_ctx_init ctx) hne
    (3 * ((encoding data).length / 4) + 2)
  rw [pending_init, List.nil_append, hwhole, decode_encoding] at hdecode
  have hfits : data.length ≤ 3 * ((encoding data).length / 4) + 2 := by
    rw [length_encoding]
    omega
  dsimp only at hdecode
  rw [List.take_of_length_le hfits] at hdecode
  refine ⟨_, ctx', hcall, hstring, ?_⟩
  rw [hstring]
  unfold base64_decode_alloc_ctx
  dsimp only
  rw [hmalloc, if_pos rfl, hdecode, ok_bind]
  rfl

/-- `"ab"` with a blank, a newline and a mark strewn into it. -/
theorem clear_garbage_decodes_ab :
    ∃ after ctx', clear_garbage 7 [89, 32, 87, 10, 73, 33, 61, 9] 7 = .ok (after, 0) ∧
      base64_decode_alloc_ctx (fun _ => true) (some (base64_decode_ctx_init ⟨3, [1, 2, 3, 4], by decide, rfl⟩))
        (after.takeWhile (· ≠ 0)) = .ok { ctx := some ctx', out := some [97, 98], ok := true } := by
  have hencode : base64_encode_alloc (fun _ => true) [97, 98] = (some [89, 87, 73, 61, 0], 4) := by decide +kernel
  obtain ⟨after, ctx', hclear, _, hdecode⟩ := @clear_garbage_decodes (fun _ => true) [97, 98] _
    [89, 32, 87, 10, 73, 33, 61, 9] 4 7 (by decide) (by decide) hencode rfl (by decide +kernel) rfl
    ⟨3, [1, 2, 3, 4], by decide, rfl⟩
  exact ⟨after, ctx', hclear, hdecode⟩

end code_tools.base64
