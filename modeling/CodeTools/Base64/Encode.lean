import CodeTools.Base64.ClearGarbage

/-!
# `base64_encode` of `base64.c`

The encoder stores character by character and stops where the room ends, also in
the middle of a pass.
-/

namespace code_tools.base64

def b64str : List UInt8 :=
  "ABCDEFGHIJKLMNOPQRSTUVWXYZabcdefghijklmnopqrstuvwxyz0123456789+/".toList.map Char.toUInt8

def PADDING : UInt8 := '='.toUInt8

/-- `b64str[x & 0x3f]` -/
def b64str_at (x : Nat) : UInt8 := b64str.getD (x &&& 0x3f) 0

/-- One pass over `in[0]` and, where there are such, `in[1]` and `in[2]`. Each
    character takes room, and without room there is a `break`; `next` goes on with
    what is left. -/
def encode_pass (in0 : UInt8) (in1 in2 : Option UInt8) (outlen : Nat) (next : Nat → List UInt8) : List UInt8 :=
  if outlen = 0 then []
  else
    b64str_at (in0.toNat >>> 2) ::
    if outlen - 1 = 0 then []
    else
      b64str_at ((in0.toNat <<< 4) + in1.elim 0 fun in1 => in1.toNat >>> 4) ::
      if outlen - 2 = 0 then []
      else
        (in1.elim PADDING fun in1 => b64str_at ((in1.toNat <<< 2) + in2.elim 0 fun in2 => in2.toNat >>> 6)) ::
        if outlen - 3 = 0 then []
        else
          (in2.elim PADDING fun in2 => b64str_at in2.toNat) ::
          if outlen - 4 = 0 then [] else next (outlen - 4)

/-- The bytes that are stored in `out`, in order. -/
def base64_encode : List UInt8 → Nat → List UInt8
  | [], outlen => if outlen ≠ 0 then [0] else []
  | [in0], outlen => encode_pass in0 none none outlen (base64_encode [])
  | [in0, in1], outlen => encode_pass in0 (some in1) none outlen (base64_encode [])
  | in0 :: in1 :: in2 :: in_, outlen => encode_pass in0 (some in1) (some in2) outlen (base64_encode in_)

def SIZE_MAX : Nat := 2 ^ 64 - 1

/-- `BASE64_LENGTH` in `size_t`. -/
def BASE64_LENGTH (inlen : Nat) : Nat := (inlen + 2) % 2 ^ 64 / 3 * 4 % 2 ^ 64

/-- `malloc` says which requests are granted. The result is what `*out` points to and
    the returned value. -/
def base64_encode_alloc (malloc : Nat → Bool) (in_ : List UInt8) : Option (List UInt8) × Nat :=
  let outlen := (1 + BASE64_LENGTH in_.length) % 2 ^ 64
  if in_.length > outlen then (none, 0)
  else if malloc outlen then (some (base64_encode in_ outlen), outlen - 1)
  else (none, outlen)

/-! ## The encoding -/

/-- The `k`-th digit to the base 64, counted from the front, of three bytes read as
    one number. -/
def sextet (a b c : UInt8) (k : Nat) : UInt8 :=
  b64str.getD ((a.toNat * 2 ^ 16 + b.toNat * 2 ^ 8 + c.toNat) / 64 ^ (3 - k) % 64) 0

/-- Three bytes as four characters; missing bytes are padded. -/
def encoding : List UInt8 → List UInt8
  | [] => []
  | [a] => [sextet a 0 0 0, sextet a 0 0 1, PADDING, PADDING]
  | [a, b] => [sextet a b 0 0, sextet a b 0 1, sextet a b 0 2, PADDING]
  | a :: b :: c :: in_ =>
    sextet a b c 0 :: sextet a b c 1 :: sextet a b c 2 :: sextet a b c 3 :: encoding in_

theorem length_encoding (in_ : List UInt8) : (encoding in_).length = (in_.length + 2) / 3 * 4 := by
  induction in_ using encoding.induct with
  | case1 => rfl
  | case2 a => simp [encoding]
  | case3 a b => simp [encoding]
  | case4 a b c in_ ih =>
    simp only [encoding, List.length_cons, ih]
    omega

/-! ## What is stored -/

section

variable (a b c : UInt8)

/-- Only the last six bits of a sum of shifted bytes count. -/
theorem b64str_at_eq_sextet {a b c : UInt8} {x k : Nat}
    (hx : x % 64 = (a.toNat * 2 ^ 16 + b.toNat * 2 ^ 8 + c.toNat) / 64 ^ (3 - k) % 64) :
    b64str_at x = sextet a b c k := by
  have hmask : x &&& 0x3f = x % 64 := Nat.and_two_pow_sub_one_eq_mod x 6
  rw [b64str_at, sextet, hmask, hx]

theorem sextet_zero : b64str_at (a.toNat >>> 2) = sextet a b c 0 := by
  have hb := b.toNat_lt
  have hc := c.toNat_lt
  apply b64str_at_eq_sextet
  rw [Nat.shiftRight_eq_div_pow]
  omega

theorem sextet_one : b64str_at ((a.toNat <<< 4) + b.toNat >>> 4) = sextet a b c 1 := by
  have hc := c.toNat_lt
  apply b64str_at_eq_sextet
  rw [Nat.shiftRight_eq_div_pow, Nat.shiftLeft_eq]
  omega

theorem sextet_two : b64str_at ((b.toNat <<< 2) + c.toNat >>> 6) = sextet a b c 2 := by
  apply b64str_at_eq_sextet
  rw [Nat.shiftRight_eq_div_pow, Nat.shiftLeft_eq]
  omega

theorem sextet_three : b64str_at c.toNat = sextet a b c 3 := by
  apply b64str_at_eq_sextet
  omega

end

/-- What is stored while there is room. -/
theorem take_cons_eq_ite {α : Type*} (x : α) (xs : List α) (n : Nat) :
    (x :: xs).take n = if n = 0 then [] else x :: xs.take (n - 1) := by
  cases n <;> rfl

/-- A pass stores its four characters and goes on, as far as there is room. -/
theorem encode_pass_eq (in0 : UInt8) {in1 in2 : Option UInt8} (hin : in1 = none → in2 = none) (outlen : Nat)
    {next : Nat → List UInt8} {rest : List UInt8} (hnext : ∀ n, next n = rest.take n) :
    encode_pass in0 in1 in2 outlen next =
      (sextet in0 (in1.getD 0) (in2.getD 0) 0 :: sextet in0 (in1.getD 0) (in2.getD 0) 1 ::
        in1.elim PADDING (fun in1 => sextet in0 in1 (in2.getD 0) 2) ::
        in2.elim PADDING (fun in2 => sextet in0 (in1.getD 0) in2 3) :: rest).take outlen := by
  have hrest : rest.take (outlen - 4) = if outlen - 4 = 0 then [] else next (outlen - 4) := by
    rw [hnext]
    split
    case isTrue hzero => rw [hzero, List.take_zero]
    case isFalse => rfl
  simp only [take_cons_eq_ite, Nat.sub_sub, hrest, encode_pass]
  -- a missing byte counts as 0
  cases in1 with
  | none =>
    obtain rfl := hin rfl
    have hone : b64str_at ((in0.toNat <<< 4) + 0) = sextet in0 0 0 1 := sextet_one in0 0 0
    simp only [Option.elim_none, Option.getD_none, sextet_zero in0 0 0, hone]
  | some in1 =>
    cases in2 with
    | none =>
      have htwo : b64str_at ((in1.toNat <<< 2) + 0) = sextet in0 in1 0 2 := sextet_two in0 in1 0
      simp only [Option.elim_none, Option.elim_some, Option.getD_none, Option.getD_some, sextet_zero in0 in1 0,
        sextet_one in0 in1 0, htwo]
    | some in2 =>
      simp only [Option.elim_some, Option.getD_some, sextet_zero in0 in1 in2, sextet_one in0 in1 in2,
        sextet_two in0 in1 in2, sextet_three in0 in1 in2]

/-- `base64_encode` stores the standard encoding and a terminator, as much of them as
    there is room for. -/
theorem base64_encode_stores (in_ : List UInt8) (outlen : Nat) :
    base64_encode in_ outlen = (encoding in_ ++ [0]).take outlen := by
  have hend : ∀ n, base64_encode [] n = [(0 : UInt8)].take n := by
    intro n
    cases n <;> simp [base64_encode]
  induction in_ using encoding.induct generalizing outlen with
  | case1 => exact hend outlen
  | case2 a =>
    rw [base64_encode, encode_pass_eq a (fun _ => rfl) outlen hend]
    simp [encoding]
  | case3 a b =>
    rw [base64_encode, encode_pass_eq a (by simp) outlen hend]
    simp [encoding]
  | case4 a b c in_ ih =>
    rw [base64_encode, encode_pass_eq a (by simp) outlen ih]
    simp [encoding]

theorem BASE64_LENGTH_of_fits {inlen : Nat} (hfits : (inlen + 2) / 3 * 4 + 1 ≤ SIZE_MAX) :
    (1 + BASE64_LENGTH inlen) % 2 ^ 64 = (inlen + 2) / 3 * 4 + 1 := by
  unfold SIZE_MAX at hfits
  have hsum : (inlen + 2) % 2 ^ 64 = inlen + 2 := Nat.mod_eq_of_lt (by omega)
  unfold BASE64_LENGTH
  rw [hsum, Nat.mod_eq_of_lt (by omega : (inlen + 2) / 3 * 4 < 2 ^ 64), Nat.add_comm 1]
  exact Nat.mod_eq_of_lt (by omega)

/-- The length is multiplied by 4 and divided by 3, so an overflow loses more than half
    of it. -/
theorem BASE64_LENGTH_of_overflow {inlen : Nat} (hinlen : inlen ≤ SIZE_MAX)
    (hover : SIZE_MAX < (inlen + 2) / 3 * 4 + 1) : (1 + BASE64_LENGTH inlen) % 2 ^ 64 < inlen := by
  unfold SIZE_MAX at hinlen hover
  unfold BASE64_LENGTH
  by_cases hsum : inlen + 2 < 2 ^ 64
  · rw [Nat.mod_eq_of_lt hsum]
    have hwrap : (inlen + 2) / 3 * 4 % 2 ^ 64 = (inlen + 2) / 3 * 4 - 2 ^ 64 := by
      rw [Nat.mod_eq_sub_mod (by omega), Nat.mod_eq_of_lt (by omega)]
    rw [hwrap, Nat.mod_eq_of_lt (by omega)]
    omega
  · have hwrap : (inlen + 2) % 2 ^ 64 = inlen + 2 - 2 ^ 64 := by
      rw [Nat.mod_eq_sub_mod (by omega), Nat.mod_eq_of_lt (by omega)]
    have hsmall : (inlen + 2 - 2 ^ 64) / 3 = 0 := by omega
    rw [hwrap, hsmall]
    omega

/-- The test for an overflow is exact. -/
theorem overflow_iff {inlen : Nat} (hinlen : inlen ≤ SIZE_MAX) :
    inlen > (1 + BASE64_LENGTH inlen) % 2 ^ 64 ↔ SIZE_MAX < (inlen + 2) / 3 * 4 + 1 := by
  constructor
  · intro hgt
    by_contra hfits
    rw [BASE64_LENGTH_of_fits (by omega)] at hgt
    omega
  · exact BASE64_LENGTH_of_overflow hinlen

theorem base64_encode_alloc_of_fits (malloc : Nat → Bool) {in_ : List UInt8} (hin : in_.length ≤ SIZE_MAX)
    (hfits : (encoding in_).length + 1 ≤ SIZE_MAX) :
    base64_encode_alloc malloc in_ =
      if malloc ((encoding in_).length + 1) then (some (encoding in_ ++ [0]), (encoding in_).length)
      else (none, (encoding in_).length + 1) := by
  rw [length_encoding] at hfits ⊢
  unfold base64_encode_alloc
  dsimp only
  rw [if_neg (fun hgt => absurd ((overflow_iff hin).mp hgt) (by omega)), BASE64_LENGTH_of_fits hfits,
    base64_encode_stores, List.take_of_length_le]
  · rfl
  · rw [List.length_append, length_encoding]
    simp

theorem base64_encode_alloc_of_overflow (malloc : Nat → Bool) {in_ : List UInt8} (hin : in_.length ≤ SIZE_MAX)
    (hover : SIZE_MAX < (encoding in_).length + 1) : base64_encode_alloc malloc in_ = (none, 0) := by
  rw [length_encoding] at hover
  unfold base64_encode_alloc
  dsimp only
  rw [if_pos ((overflow_iff hin).mpr hover)]

/-- What is given back is the encoding and its terminator. -/
theorem eq_of_base64_encode_alloc {malloc : Nat → Bool} {in_ buf : List UInt8} {n : Nat} (hin : in_.length ≤ SIZE_MAX)
    (hencode : base64_encode_alloc malloc in_ = (some buf, n)) :
    buf = encoding in_ ++ [0] ∧ n = (encoding in_).length := by
  by_cases hover : SIZE_MAX < (encoding in_).length + 1
  · rw [base64_encode_alloc_of_overflow malloc hin hover] at hencode
    cases hencode
  · rw [base64_encode_alloc_of_fits malloc hin (by omega)] at hencode
    split at hencode
    · obtain ⟨hbuf, hn⟩ := Prod.mk.inj hencode
      exact ⟨(Option.some.inj hbuf).symm, hn.symm⟩
    · cases hencode

/-- `base64_encode_alloc` allocates room for the encoding and its terminator, and
    stores both. It returns 0 without an allocation exactly where the length overflows,
    and the requested size where the allocation fails. -/
theorem base64_encode_alloc_spec (malloc : Nat → Bool) {in_ : List UInt8} (hin : in_.length ≤ SIZE_MAX) :
    base64_encode_alloc malloc in_ =
      if SIZE_MAX < (encoding in_).length + 1 then (none, 0)
      else if malloc ((encoding in_).length + 1) then (some (encoding in_ ++ [0]), (encoding in_).length)
      else (none, (encoding in_).length + 1) := by
  by_cases hover : SIZE_MAX < (encoding in_).length + 1
  · rw [if_pos hover, base64_encode_alloc_of_overflow malloc hin hover]
  · rw [if_neg hover, base64_encode_alloc_of_fits malloc hin (by omega)]

/-- Two bytes, where memory is refused. -/
theorem base64_encode_alloc_refused :
    base64_encode_alloc (fun outlen => 8 < outlen) [97, 98] = (none, 5) :=
  base64_encode_alloc_spec (fun outlen => 8 < outlen) (by decide)

end code_tools.base64
