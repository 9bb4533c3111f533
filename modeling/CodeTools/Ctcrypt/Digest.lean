import CodeTools.Lib.CString
import CodeTools.Lib.Hex
import CodeTools.Lib.Snprintf
import Mathlib.Data.List.Infix

/-!
# Digests as text: `ctcrypt.c`

The digests come from OpenSSL, which is a parameter. A loop prints them into the
buffer of the caller.
-/

namespace code_tools.ctcrypt

open cmem cstring text

/-! ## The loops -/

def format_x (n : Nat) : List UInt8 := (Nat.toDigits 16 n).map Char.toUInt8

def format_02x (n : Nat) : List UInt8 := List.leftpad 2 48 (format_x n)

/-- What is printed in the `i`-th step, for half a byte. -/
def digit (hash_ret : List UInt8) (i : Nat) : List UInt8 :=
  if i % 2 = 0 then format_x (((hash_ret.getD (i / 2) 0).toNat >>> 4) &&& 0xf)
  else format_x ((hash_ret.getD (i / 2) 0).toNat &&& 0xf)

/-- The loop of `ct_md5` and `ct_sha1`; the result has `pout_len` with it. -/
def digits_loop (hash_ret : List UInt8) (steps : Nat) (out_str : List UInt8) (out_str_size : UInt64) :
    Except Fault (List UInt8 × Nat) :=
  snprintf_each out_str_size ((List.range steps).map (digit hash_ret)) out_str 0

def ct_md5_loop (hash_ret : Vector UInt8 16) (out_str : List UInt8) (out_str_size : UInt64) :
    Except Fault (List UInt8 × Nat) :=
  digits_loop hash_ret.toList 32 out_str out_str_size

def ct_sha1_loop (hash_ret : Vector UInt8 20) (out_str : List UInt8) (out_str_size : UInt64) :
    Except Fault (List UInt8 × Nat) :=
  digits_loop hash_ret.toList 40 out_str out_str_size

def ct_hash_hmac_loop (hash_ret : List UInt8) (out_data : List UInt8) (out_data_size : UInt64) :
    Except Fault (List UInt8 × Nat) :=
  snprintf_each out_data_size (hash_ret.map fun b => format_02x b.toNat) out_data 0

/-! ## The functions -/

/-- The calls for a digest of `n` bytes; `none` is a result of 0. -/
structure Hash (n : Nat) where
  Ctx : Type
  Init : Option Ctx
  Update : Ctx → List UInt8 → Option Ctx
  Final : Ctx → Option (Vector UInt8 n)

def Hash.digest {n : Nat} (openssl : Hash n) (data : List UInt8) : Option (Vector UInt8 n) := do
  let hash_ctx ← openssl.Init
  let hash_ctx ← openssl.Update hash_ctx data
  openssl.Final hash_ctx

/-- How the functions end: with 1 when a call has failed, else after the loop. -/
def finish {α : Type} (digest : Option α) (loop : α → Except Fault (List UInt8 × Nat)) (out_str : List UInt8) :
    Except Fault (Nat × List UInt8) :=
  match digest with
  | none => .ok (1, out_str)
  | some hash_ret => do
    let (out_str, _) ← loop hash_ret
    .ok (0, out_str)

def ct_md5 (openssl : Hash 16) (in_str : List UInt8) (in_str_len : Nat) (out_str : List UInt8)
    (out_str_size : UInt64) : Except Fault (Nat × List UInt8) :=
  match in_str with
  | [] => .error .outOfBounds
  | first :: _ =>
    if first = 0 ∨ in_str_len = 0 then .ok (1, out_str)
    else do
      let data ← slice in_str 0 in_str_len
      finish (openssl.digest data) (fun hash_ret => ct_md5_loop hash_ret out_str out_str_size) out_str

def ct_sha1 (openssl : Hash 20) (in_str : List UInt8) (in_str_len : Nat) (out_str : List UInt8)
    (out_str_size : UInt64) : Except Fault (Nat × List UInt8) := do
  let data ← slice in_str 0 in_str_len
  finish (openssl.digest data) (fun hash_ret => ct_sha1_loop hash_ret out_str out_str_size) out_str

inductive EVP_MD where
  | null | md2 | md4 | md5 | sha | sha1 | dss | dss1 | ecdsa | sha224 | sha256 | sha384 | sha512 | ripemd160
  | whirlpool

def evp_names : List (String × EVP_MD) :=
  [("md2", .md2), ("md4", .md4), ("md5", .md5), ("sha", .sha), ("sha1", .sha1), ("dss", .dss), ("dss1", .dss1),
    ("ecdsa", .ecdsa), ("sha224", .sha224), ("sha256", .sha256), ("sha384", .sha384), ("sha512", .sha512),
    ("ripemd160", .ripemd160), ("whirlpool", .whirlpool)]

/-- For a name that is not in the list `evp_md` is left without a value. -/
def evp_md (algo : Option (List UInt8)) : Option EVP_MD :=
  match algo with
  | none => some .null
  | some algo => (evp_names.find? fun e => strcasecmp_eq algo (bytes_of e.1)).map Prod.snd

/-- A bound for the digests of all algorithms. -/
def EVP_MAX_MD_SIZE : Nat := 64

def Digest : Type := { bytes : List UInt8 // bytes.length ≤ EVP_MAX_MD_SIZE }

structure Hmac where
  Ctx : Type
  Init_ex : EVP_MD → List UInt8 → Option Ctx
  Update : Ctx → List UInt8 → Option Ctx
  Final : Ctx → Option Digest

def Hmac.digest (openssl : Hmac) (md : EVP_MD) (key data : List UInt8) : Option Digest := do
  let hash_ctx ← openssl.Init_ex md key
  let hash_ctx ← openssl.Update hash_ctx data
  openssl.Final hash_ctx

/-- `hash_ret` has 20 bytes, whatever the algorithm. -/
def ct_hash_hmac (openssl : Hmac) (algo : Option (List UInt8)) (data : List UInt8) (data_len : Nat)
    (key : List UInt8) (key_len : Nat) (out_data : List UInt8) (out_data_size : UInt64) :
    Except Fault (Nat × List UInt8) :=
  match evp_md algo with
  | none => .error .danglingPointer
  | some md => do
    let key ← slice key 0 key_len
    let data ← slice data 0 data_len
    finish (openssl.digest md key data)
      (fun hash_ret =>
        if hash_ret.1.length ≤ 20 then ct_hash_hmac_loop hash_ret.1 out_data out_data_size
        else .error .outOfBounds)
      out_data

/-! ## What is printed -/

theorem format_02x_byte (b : UInt8) : format_02x b.toNat = hex_byte b := by
  have hall : ∀ b : UInt8, format_02x b.toNat = hex_byte b := forall_byte (by decide +kernel)
  exact hall b

theorem digit_zero (b : UInt8) (hash_ret : List UInt8) : digit (b :: hash_ret) 0 = [hex_digit (b.toNat / 16)] := by
  have hhalf : ∀ b : UInt8, format_x ((b.toNat >>> 4) &&& 0xf) = [hex_digit (b.toNat / 16)] :=
    forall_byte (by decide +kernel)
  exact hhalf b

theorem digit_one (b : UInt8) (hash_ret : List UInt8) : digit (b :: hash_ret) 1 = [hex_digit (b.toNat % 16)] := by
  have hhalf : ∀ b : UInt8, format_x (b.toNat &&& 0xf) = [hex_digit (b.toNat % 16)] := forall_byte (by decide +kernel)
  exact hhalf b

theorem digit_next (b : UInt8) (hash_ret : List UInt8) (i : Nat) :
    digit (b :: hash_ret) (i + 2) = digit hash_ret i := by
  have hhalf : (i + 2) / 2 = i / 2 + 1 := by omega
  rw [digit, digit, hhalf, List.getD_cons_succ, Nat.add_mod_right]

/-- The two steps for the first byte, and those for the others. -/
theorem digits_cons (b : UInt8) (hash_ret : List UInt8) (n : Nat) :
    (List.range (2 * (n + 1))).map (digit (b :: hash_ret)) =
      [hex_digit (b.toNat / 16)] :: [hex_digit (b.toNat % 16)] :: (List.range (2 * n)).map (digit hash_ret) := by
  have hsteps : List.range (2 * (n + 1)) = 0 :: 1 :: (List.range (2 * n)).map (· + 2) := by
    rw [Nat.mul_succ, List.range_succ_eq_map, List.range_succ_eq_map, List.map_cons, List.map_map]
    rfl
  rw [hsteps, List.map_cons, List.map_cons, List.map_map, digit_zero, digit_one]
  congr 2
  exact List.map_congr_left fun i _ => digit_next b hash_ret i

theorem digits_flatten (hash_ret : List UInt8) :
    ((List.range (2 * hash_ret.length)).map (digit hash_ret)).flatten = hex hash_ret := by
  induction hash_ret with
  | nil => rfl
  | cons b hash_ret ih =>
    rw [List.length_cons, digits_cons, List.flatten_cons, List.flatten_cons, ih]
    rfl

theorem bytes_flatten (hash_ret : List UInt8) : (hash_ret.map fun b => format_02x b.toNat).flatten = hex hash_ret := by
  rw [hex, List.flatMap_def]
  congr 1
  exact List.map_congr_left fun b _ => format_02x_byte b

/-! ## The caller's buffer -/

/-- A buffer with its size. -/
structure Out where
  bytes : List UInt8
  size : UInt64
  length : bytes.length = size.toNat

/-- The buffer has the digest as a string, and the digest can be read from it. -/
def Holds (digest out : List UInt8) : Prop :=
  out.take (2 * digest.length + 1) = hex digest ++ [0] ∧ unhex (terminated out) = digest

/-- The loop stays inside the buffer, and stores the digest if it has room. -/
def Respects (loop : List UInt8 → UInt64 → Except Fault (List UInt8 × Nat)) (digest : List UInt8) (out : Out) : Prop :=
  ∃ out' pout_len, loop out.bytes out.size = .ok (out', pout_len) ∧
    (2 * digest.length + 1 ≤ out.size.toNat → Holds digest out')

theorem holds_of_take {digest out : List UInt8} (htake : out.take (2 * digest.length + 1) = hex digest ++ [0]) :
    Holds digest out := by
  refine ⟨htake, ?_⟩
  have hstring : terminated out = hex digest := by
    rw [← List.take_append_drop (2 * digest.length + 1) out, htake, List.append_assoc]
    exact terminated_concat_zero (zero_notMem_hex digest) _
  rw [hstring, unhex_hex]

/-- For texts that make up the digits of a digest, the loop respects the buffer
    exactly when the last text does not start behind it. -/
theorem respects_iff {text : List UInt8} {texts : List (List UInt8)} {digest : List UInt8} (out : Out)
    (hdigits : (text :: texts).flatten = hex digest) (hsmall : 2 * digest.length < 2 ^ 64) :
    Respects (fun dst size => snprintf_each size (text :: texts) dst 0) digest out ↔
      (text :: texts).dropLast.flatten.length ≤ out.size.toNat := by
  have hlength : (text :: texts).flatten.length = 2 * digest.length := by rw [hdigits, length_hex]
  have hsize : 0 + (text :: texts).flatten.length < 2 ^ 64 := by omega
  have hinside := snprintf_each_ok_iff out.length hsize
  simp only [List.cons_ne_nil, false_or, Nat.zero_add] at hinside
  rw [← hinside]
  constructor
  · rintro ⟨out', pout_len, hloop, _⟩
    exact ⟨_, hloop⟩
  · rintro ⟨⟨out', pout_len⟩, hloop⟩
    refine ⟨out', pout_len, hloop, fun hroom => holds_of_take ?_⟩
    have hfits : 0 + (text :: texts).flatten.length < out.size.toNat := by omega
    obtain ⟨dst', hall, hstores⟩ := snprintf_each_stores out.length hfits
    obtain ⟨rfl, _⟩ := Prod.mk.inj (Except.ok.inj (hloop.symm.trans hall))
    have htake := hstores.take
    rwa [List.take_zero, List.nil_append, hdigits, List.length_append, length_hex, Nat.zero_add] at htake

theorem length_flatten_of_forall {texts : List (List UInt8)} {k : Nat} (htexts : ∀ text ∈ texts, text.length = k) :
    texts.flatten.length = k * texts.length := by
  induction texts with
  | nil => rfl
  | cons text texts ih =>
    obtain ⟨htext, hothers⟩ := List.forall_mem_cons.mp htexts
    rw [List.flatten_cons, List.length_append, ih hothers, htext, List.length_cons, Nat.mul_succ, Nat.add_comm]

/-- Where the last text starts. -/
theorem length_dropLast_flatten {texts : List (List UInt8)} {k : Nat} (htexts : ∀ text ∈ texts, text.length = k) :
    texts.dropLast.flatten.length = k * (texts.length - 1) := by
  rw [length_flatten_of_forall fun text htext => htexts text (List.mem_of_mem_dropLast htext), List.length_dropLast]

theorem length_digit (hash_ret : List UInt8) (i : Nat) : (digit hash_ret i).length = 1 := by
  have hhigh : ∀ b : UInt8, (format_x ((b.toNat >>> 4) &&& 0xf)).length = 1 := forall_byte (by decide +kernel)
  have hlow : ∀ b : UInt8, (format_x (b.toNat &&& 0xf)).length = 1 := forall_byte (by decide +kernel)
  unfold digit
  split
  · exact hhigh _
  · exact hlow _

theorem digits_loop_respects_iff {hash_ret : List UInt8} (hne : hash_ret ≠ []) (hsmall : 2 * hash_ret.length < 2 ^ 64)
    (out : Out) :
    Respects (digits_loop hash_ret (2 * hash_ret.length)) hash_ret out ↔
      2 * hash_ret.length - 1 ≤ out.size.toNat := by
  have hflatten := digits_flatten hash_ret
  have hlast : ((List.range (2 * hash_ret.length)).map (digit hash_ret)).dropLast.flatten.length =
      2 * hash_ret.length - 1 := by
    rw [length_dropLast_flatten (k := 1), List.length_map, List.length_range, Nat.one_mul]
    intro text htext
    obtain ⟨i, _, rfl⟩ := List.mem_map.mp htext
    exact length_digit hash_ret i
  unfold digits_loop
  cases htexts : (List.range (2 * hash_ret.length)).map (digit hash_ret) with
  | nil =>
    rw [List.map_eq_nil_iff, List.range_eq_nil] at htexts
    exact absurd (List.length_eq_zero_iff.mp (by omega)) hne
  | cons text texts =>
    rw [htexts] at hflatten hlast
    rw [respects_iff out hflatten hsmall, hlast]

theorem hmac_loop_respects_iff {hash_ret : List UInt8} (hne : hash_ret ≠ []) (hsmall : 2 * hash_ret.length < 2 ^ 64)
    (out : Out) :
    Respects (ct_hash_hmac_loop hash_ret) hash_ret out ↔ 2 * hash_ret.length ≤ out.size.toNat + 2 := by
  have hflatten := bytes_flatten hash_ret
  have hlast : (hash_ret.map fun b => format_02x b.toNat).dropLast.flatten.length = 2 * (hash_ret.length - 1) := by
    rw [length_dropLast_flatten (k := 2), List.length_map]
    intro text htext
    obtain ⟨b, _, rfl⟩ := List.mem_map.mp htext
    rw [format_02x_byte]
    rfl
  unfold ct_hash_hmac_loop
  cases htexts : hash_ret.map fun b => format_02x b.toNat with
  | nil => exact absurd (List.map_eq_nil_iff.mp htexts) hne
  | cons text texts =>
    rw [htexts] at hflatten hlast
    rw [respects_iff out hflatten hsmall, hlast]
    omega

theorem holds_nil_iff (out : List UInt8) : Holds [] out ↔ out.head? = some 0 := by
  cases out with
  | nil => exact ⟨fun h => absurd h.1 (by decide), nofun⟩
  | cons b out =>
    constructor
    · intro h
      exact congrArg some (List.head_eq_of_cons_eq h.1)
    · intro hhead
      obtain rfl := Option.some.inj hhead
      exact holds_of_take rfl

/-- Without a digest nothing is printed, not even the terminator. -/
theorem hmac_loop_nil_respects_iff (out : Out) :
    Respects (ct_hash_hmac_loop []) [] out ↔ out.size = 0 ∨ out.bytes.head? = some 0 := by
  rw [← holds_nil_iff]
  constructor
  · rintro ⟨out', pout_len, hloop, hholds⟩
    obtain ⟨rfl, _⟩ := Prod.mk.inj (Except.ok.inj hloop)
    by_cases hempty : out.size = 0
    · exact .inl hempty
    · have hpos : 0 < out.size.toNat := Nat.pos_of_ne_zero fun hzero => hempty (UInt64.toNat_inj.mp hzero)
      exact .inr (hholds hpos)
  · intro hout
    refine ⟨out.bytes, 0, rfl, fun hroom => ?_⟩
    cases hout with
    | inl hempty =>
      rw [hempty] at hroom
      exact absurd hroom (by decide)
    | inr hholds => exact hholds

/-- The loop over the digits of a digest whose length is known. -/
theorem vector_loop_respects_iff {n : Nat} (hash_ret : Vector UInt8 (n + 1)) (hsmall : 2 * (n + 1) < 2 ^ 64)
    (out : Out) :
    Respects (digits_loop hash_ret.toList (2 * (n + 1))) hash_ret.toList out ↔ 2 * (n + 1) - 1 ≤ out.size.toNat := by
  have hlength : hash_ret.toList.length = n + 1 := hash_ret.length_toList
  have hne : hash_ret.toList ≠ [] := List.ne_nil_of_length_pos (by omega)
  have hloop := digits_loop_respects_iff hne (by omega) out
  rwa [hlength] at hloop

theorem ct_md5_loop_respects_iff (hash_ret : Vector UInt8 16) (out : Out) :
    Respects (ct_md5_loop hash_ret) hash_ret.toList out ↔ 31 ≤ out.size.toNat :=
  vector_loop_respects_iff hash_ret (by decide) out

theorem ct_sha1_loop_respects_iff (hash_ret : Vector UInt8 20) (out : Out) :
    Respects (ct_sha1_loop hash_ret) hash_ret.toList out ↔ 39 ≤ out.size.toNat :=
  vector_loop_respects_iff hash_ret (by decide) out

/-- Room for eight bytes. -/
def eight : Out := { bytes := List.replicate 8 1, size := 8, length := rfl }

theorem Respects.holds {loop : List UInt8 → UInt64 → Except Fault (List UInt8 × Nat)} {digest out' : List UInt8}
    {out : Out} {pout_len : Nat} (h : Respects loop digest out)
    (hloop : loop out.bytes out.size = .ok (out', pout_len)) (hroom : 2 * digest.length + 1 ≤ out.size.toNat) :
    Holds digest out' := by
  obtain ⟨out'', pout_len', hsame, hholds⟩ := h
  obtain ⟨rfl, _⟩ := Prod.mk.inj (Except.ok.inj (hsame.symm.trans hloop))
  exact hholds hroom

/-- What a function that reports success has printed. -/
theorem finish_success {α : Type} {digest : Option α} {loop : α → Except Fault (List UInt8 × Nat)}
    {out_str out' : List UInt8} (hsuccess : finish digest loop out_str = .ok (0, out')) :
    ∃ hash_ret pout_len, digest = some hash_ret ∧ loop hash_ret = .ok (out', pout_len) := by
  cases digest with
  | none => cases hsuccess
  | some hash_ret =>
    obtain ⟨⟨out, pout_len⟩, hloop, hresult⟩ := bind_eq_ok_iff.mp hsuccess
    obtain ⟨_, rfl⟩ := Prod.mk.inj (Except.ok.inj hresult)
    exact ⟨hash_ret, pout_len, rfl, hloop⟩

theorem slice_zero_eq_ok {src data : List UInt8} {n : Nat} (hslice : slice src 0 n = .ok data) :
    data = src.take n := by
  unfold slice at hslice
  split at hslice
  · exact (Except.ok.inj hslice).symm
  · cases hslice

/-- When `ct_md5` reports success and there was room, the digest is in the buffer. -/
theorem ct_md5_success {openssl : Hash 16} {in_str out' : List UInt8} {in_str_len : Nat} {out : Out}
    (hsuccess : ct_md5 openssl in_str in_str_len out.bytes out.size = .ok (0, out')) (hroom : 33 ≤ out.size.toNat) :
    ∃ hash_ret, openssl.digest (in_str.take in_str_len) = some hash_ret ∧ Holds hash_ret.toList out' := by
  unfold ct_md5 at hsuccess
  split at hsuccess
  case h_1 => cases hsuccess
  case h_2 first rest =>
  split at hsuccess
  case isTrue => cases hsuccess
  case isFalse =>
  obtain ⟨data, hdata, hdigest⟩ := bind_eq_ok_iff.mp hsuccess
  obtain ⟨hash_ret, pout_len, hsome, hloop⟩ := finish_success hdigest
  rw [slice_zero_eq_ok hdata] at hsome
  refine ⟨hash_ret, hsome, ?_⟩
  apply ((ct_md5_loop_respects_iff hash_ret out).mpr (by omega)).holds hloop
  rw [hash_ret.length_toList]
  exact hroom

theorem ct_sha1_success {openssl : Hash 20} {in_str out' : List UInt8} {in_str_len : Nat} {out : Out}
    (hsuccess : ct_sha1 openssl in_str in_str_len out.bytes out.size = .ok (0, out')) (hroom : 41 ≤ out.size.toNat) :
    ∃ hash_ret, openssl.digest (in_str.take in_str_len) = some hash_ret ∧ Holds hash_ret.toList out' := by
  obtain ⟨data, hdata, hdigest⟩ := bind_eq_ok_iff.mp hsuccess
  obtain ⟨hash_ret, pout_len, hsome, hloop⟩ := finish_success hdigest
  rw [slice_zero_eq_ok hdata] at hsome
  refine ⟨hash_ret, hsome, ?_⟩
  apply ((ct_sha1_loop_respects_iff hash_ret out).mpr (by omega)).holds hloop
  rw [hash_ret.length_toList]
  exact hroom

/-- A digest longer than `hash_ret` never gets to the loop. -/
theorem ct_hash_hmac_overrun {openssl : Hmac} {algo : Option (List UInt8)} {md : EVP_MD} {data key : List UInt8}
    {data_len key_len : Nat} {hash_ret : Digest} (hmd : evp_md algo = some md) (hdata : data_len ≤ data.length)
    (hkey : key_len ≤ key.length)
    (hdigest : openssl.digest md (key.take key_len) (data.take data_len) = some hash_ret)
    (hlong : 20 < hash_ret.1.length) (out : Out) :
    ct_hash_hmac openssl algo data data_len key key_len out.bytes out.size = .error .outOfBounds := by
  unfold ct_hash_hmac
  rw [hmd]
  dsimp only
  rw [slice_eq (by omega), ok_bind, slice_eq (by omega), ok_bind, List.drop_zero, List.drop_zero, hdigest, finish,
    if_neg (by omega)]
  rfl

end code_tools.ctcrypt
