import CodeTools.Lib.Horner
import Mathlib.Algebra.Ring.Int.Parity
import Mathlib.RingTheory.Int.Basic

/-!
# The string hashes: `cthash.c`

Most of them read the string as the digits of a number, in an `unsigned int` whose
top bit is cleared at the end. A string is the list of its bytes.
-/

namespace code_tools.cthash

open horner

/-- `*str` in a sum of `unsigned int`: a `char` has a sign, which is extended. -/
def char (c : UInt8) : UInt32 := c.toInt8.toInt32.toUInt32

def simple_hash (str : List UInt8) : UInt32 :=
  str.foldl (fun (hash : UInt32) p => 31 * hash + p.toUInt32) 0 &&& 0x7FFFFFFF

def SDBM_hash (str : List UInt8) : UInt32 :=
  str.foldl (fun (hash : UInt32) c => char c + (hash <<< 6) + (hash <<< 16) - hash) 0 &&& 0x7FFFFFFF

/-- The loop of `RS_hash`; the factor `a` changes with every byte. -/
def RS_loop : List UInt8 → UInt32 → UInt32 → UInt32
  | [], hash, _ => hash
  | c :: str, hash, a =>
    let b : UInt32 := 378551
    RS_loop str (hash * a + char c) (a * b)

def RS_hash (str : List UInt8) : UInt32 := RS_loop str 0 63689 &&& 0x7FFFFFFF

def BKDR_hash (str : List UInt8) : UInt32 :=
  let seed : UInt32 := 131
  str.foldl (fun (hash : UInt32) c => hash * seed + char c) 0 &&& 0x7FFFFFFF

def DJB_hash (str : List UInt8) : UInt32 :=
  str.foldl (fun (hash : UInt32) c => hash + ((hash <<< 5) + char c)) 5381 &&& 0x7FFFFFFF

def bits_in_unsigned_int : UInt32 := 32

def three_quarters : UInt32 := bits_in_unsigned_int * 3 / 4

/-- An eighth of three quarters, so that it is 3. -/
def one_eighth : UInt32 := three_quarters / 8

def high_bits : UInt32 := 0xFFFFFFFF <<< (bits_in_unsigned_int - one_eighth)

def PJW_step (hash : UInt32) (c : UInt8) : UInt32 :=
  let hash := (hash <<< one_eighth) + char c
  let test := hash &&& high_bits
  if test ≠ 0 then (hash ^^^ (test >>> three_quarters)) &&& ~~~high_bits else hash

def PJW_hash (str : List UInt8) : UInt32 := str.foldl PJW_step 0 &&& 0x7FFFFFFF

def ELF_step (hash : UInt32) (c : UInt8) : UInt32 :=
  let hash := (hash <<< 4) + char c
  let x := hash &&& 0xF0000000
  if x ≠ 0 then (hash ^^^ (x >>> 24)) &&& ~~~x else hash

def ELF_hash (str : List UInt8) : UInt32 := str.foldl ELF_step 0 &&& 0x7FFFFFFF

/-! ## Residues -/

/-- The integer that a value of 32 bits stands for, up to what was carried away. -/
def Means (x : UInt32) (v : ℤ) : Prop := (2 ^ 32 : ℤ) ∣ x.toNat - v

theorem Means.add {x y : UInt32} {v w : ℤ} (hx : Means x v) (hy : Means y w) : Means (x + y) (v + w) := by
  unfold Means at *
  rw [UInt32.toNat_add]
  omega

theorem Means.sub {x y : UInt32} {v w : ℤ} (hx : Means x v) (hy : Means y w) : Means (x - y) (v - w) := by
  unfold Means at *
  rw [UInt32.toNat_sub]
  have hlt := y.toNat_lt
  omega

theorem Means.mul {x y : UInt32} {v w : ℤ} (hx : Means x v) (hy : Means y w) : Means (x * y) (v * w) := by
  unfold Means at *
  obtain ⟨k, hk⟩ := hx
  obtain ⟨l, hl⟩ := hy
  rw [UInt32.toNat_mul]
  have hprod : (x.toNat * y.toNat : ℤ) - v * w = 2 ^ 32 * (k * y.toNat + v * l) := by
    rw [show (x.toNat : ℤ) = v + 2 ^ 32 * k by omega, show (y.toNat : ℤ) = w + 2 ^ 32 * l by omega]
    ring
  push_cast
  omega

theorem Means.shift {x : UInt32} {v : ℤ} (hx : Means x v) {k : UInt32} (hk : k.toNat < 32) :
    Means (x <<< k) (v * 2 ^ k.toNat) := by
  unfold Means at *
  obtain ⟨l, hl⟩ := hx
  rw [UInt32.toNat_shiftLeft, Nat.mod_eq_of_lt hk, Nat.shiftLeft_eq]
  have hprod : (x.toNat * 2 ^ k.toNat : ℤ) - v * 2 ^ k.toNat = 2 ^ 32 * (l * 2 ^ k.toNat) := by
    rw [show (x.toNat : ℤ) = v + 2 ^ 32 * l by omega]
    ring
  push_cast
  omega

theorem means_toNat (x : UInt32) : Means x x.toNat := by
  unfold Means
  rw [sub_self]
  exact dvd_zero _

theorem means_char (c : UInt8) : Means (char c) c.toInt8.toInt := by
  have hall : ∀ k : Fin 256, (2 ^ 32 : ℤ) ∣ (char (UInt8.ofFin k)).toNat - (UInt8.ofFin k).toInt8.toInt := by
    decide +kernel
  exact hall c.toFin

/-- Clearing the top bit leaves the residue of 31 bits. -/
theorem Means.masked {x : UInt32} {v : ℤ} (hx : Means x v) : ((x &&& 0x7FFFFFFF).toNat : ℤ) = v % 2 ^ 31 := by
  unfold Means at hx
  have hmask : (x &&& 0x7FFFFFFF).toNat = x.toNat % 2 ^ 31 := by
    rw [UInt32.toNat_and]
    exact Nat.and_two_pow_sub_one_eq_mod x.toNat 31
  rw [hmask]
  push_cast
  omega

/-! ## Hashes that read digits -/

/-- The hash is the last 31 bits of a number whose digits the string gives. -/
def Reads (hash : List UInt8 → UInt32) (seed : ℤ) (digits : List UInt8 → List (ℤ × ℤ)) : Prop :=
  ∀ str, ((hash str).toNat : ℤ) = feed seed (digits str) % 2 ^ 31

/-- Digits with one factor for all of them. -/
def digits_of (factor : ℤ) (digit : UInt8 → ℤ) (str : List UInt8) : List (ℤ × ℤ) :=
  str.map fun c => (factor, digit c)

/-- A `char` as it is. -/
def signed (c : UInt8) : ℤ := c.toInt8.toInt

/-- An `unsigned char`. -/
def unsigned (c : UInt8) : ℤ := c.toNat

/-- A loop whose passes multiply by a factor and add a digit. -/
theorem means_foldl {step : UInt32 → UInt8 → UInt32} {factor : ℤ} {digit : UInt8 → ℤ}
    (hstep : ∀ x v c, Means x v → Means (step x c) (v * factor + digit c)) (str : List UInt8) {x : UInt32} {v : ℤ}
    (hx : Means x v) : Means (str.foldl step x) (feed v (digits_of factor digit str)) := by
  induction str generalizing x v with
  | nil => exact hx
  | cons c str ih => exact ih (hstep x v c hx)

theorem reads_foldl {step : UInt32 → UInt8 → UInt32} {factor : ℤ} {digit : UInt8 → ℤ}
    (hstep : ∀ x v c, Means x v → Means (step x c) (v * factor + digit c)) (seed : UInt32) :
    Reads (fun str => str.foldl step seed &&& 0x7FFFFFFF) seed.toNat (digits_of factor digit) :=
  fun str => (means_foldl hstep str (means_toNat seed)).masked

theorem simple_hash_reads : Reads simple_hash 0 (digits_of 31 unsigned) := by
  refine reads_foldl (fun x v c hx => ?_) 0
  have hsum := ((means_toNat 31).mul hx).add (means_toNat c.toUInt32)
  rw [UInt8.toNat_toUInt32] at hsum
  rwa [mul_comm v]

theorem SDBM_hash_reads : Reads SDBM_hash 0 (digits_of 65599 signed) := by
  refine reads_foldl (fun x v c hx => ?_) 0
  have hsum := (((means_char c).add (hx.shift (by decide : (6 : UInt32).toNat < 32))).add
    (hx.shift (by decide : (16 : UInt32).toNat < 32))).sub hx
  have hvalue : c.toInt8.toInt + v * 2 ^ 6 + v * 2 ^ 16 - v = v * 65599 + signed c := by
    unfold signed
    ring
  rwa [← hvalue]

theorem BKDR_hash_reads : Reads BKDR_hash 0 (digits_of 131 signed) :=
  reads_foldl (fun _ _ c hx => (hx.mul (means_toNat 131)).add (means_char c)) 0

theorem DJB_hash_reads : Reads DJB_hash 5381 (digits_of 33 signed) := by
  refine reads_foldl (fun x v c hx => ?_) 5381
  have hsum := hx.add ((hx.shift (by decide : (5 : UInt32).toNat < 32)).add (means_char c))
  have hvalue : v + (v * 2 ^ 5 + c.toInt8.toInt) = v * 33 + signed c := by
    unfold signed
    ring
  rwa [← hvalue]

/-- The digits that `RS_hash` reads, the first with the factor `a`. -/
def RS_digits : ℤ → List UInt8 → List (ℤ × ℤ)
  | _, [] => []
  | a, c :: str => (a, signed c) :: RS_digits (a * 378551) str

theorem means_RS_loop (str : List UInt8) {hash a : UInt32} {v w : ℤ} (hhash : Means hash v) (ha : Means a w) :
    Means (RS_loop str hash a) (feed v (RS_digits w str)) := by
  induction str generalizing hash a v w with
  | nil => exact hhash
  | cons c str ih => exact ih ((hhash.mul ha).add (means_char c)) (ha.mul (means_toNat 378551))

theorem RS_hash_reads : Reads RS_hash 0 (RS_digits 63689) :=
  fun str => (means_RS_loop str (means_toNat 0) (means_toNat 63689)).masked

theorem RS_digits_append (a : ℤ) (s t : List UInt8) :
    RS_digits a (s ++ t) = RS_digits a s ++ RS_digits (a * 378551 ^ s.length) t := by
  induction s generalizing a with
  | nil => rw [List.nil_append, List.length_nil, pow_zero, mul_one]; rfl
  | cons c s ih =>
    rw [List.cons_append, RS_digits, ih, List.length_cons, pow_succ', ← mul_assoc]
    rfl

theorem odd_RS_digits {a : ℤ} (ha : Odd a) (str : List UInt8) : ∀ d ∈ RS_digits a str, Odd d.1 := by
  induction str generalizing a with
  | nil => nofun
  | cons c str ih =>
    intro d hd
    rcases List.mem_cons.mp hd with rfl | hd
    · exact ha
    · exact ih (ha.mul (by decide : Odd (378551 : ℤ))) d hd

/-! ## Strings that go on in the same way -/

section Reads

variable {hash : List UInt8 → UInt32} {seed : ℤ} {digits : List UInt8 → List (ℤ × ℤ)}

theorem Reads.eq_iff (hreads : Reads hash seed digits) (s t : List UInt8) :
    hash s = hash t ↔ (2 ^ 31 : ℤ) ∣ feed seed (digits s) - feed seed (digits t) := by
  have hs := hreads s
  have ht := hreads t
  rw [← UInt32.toNat_inj]
  omega

/-- Odd factors can be divided out again. -/
theorem Reads.append_iff (hreads : Reads hash seed digits) {s t u : List UInt8} {ds : List (ℤ × ℤ)}
    (hs : digits (s ++ u) = digits s ++ ds) (ht : digits (t ++ u) = digits t ++ ds) (hodd : ∀ d ∈ ds, Odd d.1) :
    hash (s ++ u) = hash (t ++ u) ↔ hash s = hash t := by
  have hunits : ∀ d ∈ ds, IsCoprime (2 ^ 31 : ℤ) d.1 :=
    fun d hd => (Int.isCoprime_two_left.mpr (hodd d hd)).pow_left
  rw [hreads.eq_iff, hreads.eq_iff, hs, ht, feed_append, feed_append]
  exact dvd_feed_sub_iff _ _ hunits

end Reads

/-- Hashes that read a string with one odd factor. -/
theorem append_iff_of_factor {hash : List UInt8 → UInt32} {seed factor : ℤ} {digit : UInt8 → ℤ}
    (hreads : Reads hash seed (digits_of factor digit)) (hodd : Odd factor) (s t u : List UInt8) :
    hash (s ++ u) = hash (t ++ u) ↔ hash s = hash t := by
  refine hreads.append_iff List.map_append List.map_append fun d hd => ?_
  obtain ⟨c, _, rfl⟩ := List.mem_map.mp hd
  exact hodd

/-! ## Hashes that fold their high bits back -/

theorem and_not_of_clear {x m : UInt32} (hclear : x &&& m = 0) : x &&& ~~~m = x := by
  have hbits : x.toBitVec &&& m.toBitVec = 0#32 := congrArg UInt32.toBitVec hclear
  apply UInt32.toBitVec_inj.mp
  ext i hi
  have hbit : (x.toBitVec &&& m.toBitVec)[i] = (0#32)[i] := by rw [hbits]
  rw [BitVec.getElem_and, BitVec.getElem_zero] at hbit
  rw [UInt32.toBitVec_and, UInt32.toBitVec_not, BitVec.getElem_and, BitVec.getElem_not]
  cases hx : x.toBitVec[i] with
  | false => rfl
  | true =>
    rw [hx, Bool.true_and] at hbit
    rw [hbit]
    rfl

theorem lt_of_clear {x m : UInt32} {k : Nat} (hm : (~~~m).toNat = 2 ^ k - 1) (hclear : x &&& m = 0) :
    x.toNat < 2 ^ k := by
  have hle : x.toNat ≤ (~~~m).toNat := by
    rw [← and_not_of_clear hclear, UInt32.toNat_and]
    exact Nat.and_le_right
  have hpos := Nat.two_pow_pos k
  omega

/-- The bits that are taken out are those that the test found. -/
theorem clear_xor {hash y m : UInt32} (hy : y &&& m = 0) : (hash ^^^ y) &&& ~~~(hash &&& m) &&& m = 0 := by
  have hbits : y.toBitVec &&& m.toBitVec = 0#32 := congrArg UInt32.toBitVec hy
  apply UInt32.toBitVec_inj.mp
  ext i hi
  have hbit : (y.toBitVec &&& m.toBitVec)[i] = (0#32)[i] := by rw [hbits]
  rw [BitVec.getElem_and, BitVec.getElem_zero] at hbit
  show ((hash.toBitVec ^^^ y.toBitVec) &&& ~~~(hash.toBitVec &&& m.toBitVec) &&& m.toBitVec)[i] = (0#32)[i]
  rw [BitVec.getElem_and, BitVec.getElem_and, BitVec.getElem_xor, BitVec.getElem_not, BitVec.getElem_and,
    BitVec.getElem_zero]
  cases hm : m.toBitVec[i] with
  | false => rw [Bool.and_false]
  | true =>
    rw [hm, Bool.and_true] at hbit
    rw [hbit, Bool.xor_false, Bool.and_true, Bool.and_true, Bool.and_not_self]

theorem PJW_step_clear (hash : UInt32) (c : UInt8) : PJW_step hash c &&& high_bits = 0 := by
  unfold PJW_step
  dsimp only
  split
  · rw [UInt32.and_assoc, UInt32.not_and_self, UInt32.and_zero]
  · next hzero => exact not_not.mp hzero

/-- The bits that are folded back land in the low byte. -/
theorem folded_clear (x : UInt32) : (x >>> 24) &&& 0xF0000000 = 0 := by
  have hlow : x >>> 24 = (x >>> 24) &&& 0xFF := by
    have hlt := x.toNat_lt
    have hshift : (x >>> 24).toNat = x.toNat / 2 ^ 24 := by
      rw [UInt32.toNat_shiftRight]
      exact Nat.shiftRight_eq_div_pow _ _
    have hmask : ((x >>> 24) &&& 0xFF).toNat = (x >>> 24).toNat % 2 ^ 8 := by
      rw [UInt32.toNat_and]
      exact Nat.and_two_pow_sub_one_eq_mod _ 8
    rw [← UInt32.toNat_inj, hmask, Nat.mod_eq_of_lt (by omega)]
  rw [hlow, UInt32.and_assoc]
  exact UInt32.and_zero

theorem ELF_step_clear (hash : UInt32) (c : UInt8) : ELF_step hash c &&& 0xF0000000 = 0 := by
  unfold ELF_step
  dsimp only
  split
  · exact clear_xor (folded_clear _)
  · next hzero => exact not_not.mp hzero

/-- A loop whose passes leave the top bit clear needs no mask, so that its hash is
    all that it knows of the string. -/
theorem foldl_masked {step : UInt32 → UInt8 → UInt32} {k : Nat} (hk : k ≤ 31)
    (hstep : ∀ hash c, (step hash c).toNat < 2 ^ k) (str : List UInt8) :
    (str.foldl step 0).toNat < 2 ^ k ∧ str.foldl step 0 &&& 0x7FFFFFFF = str.foldl step 0 := by
  have hlt : (str.foldl step 0).toNat < 2 ^ k := by
    obtain rfl | ⟨str, c, rfl⟩ := List.eq_nil_or_concat str
    · exact Nat.two_pow_pos k
    · rw [List.concat_eq_append, List.foldl_append]
      exact hstep _ c
  refine ⟨hlt, ?_⟩
  have hmask : (str.foldl step 0 &&& 0x7FFFFFFF).toNat = (str.foldl step 0).toNat % 2 ^ 31 := by
    rw [UInt32.toNat_and]
    exact Nat.and_two_pow_sub_one_eq_mod _ 31
  have hle := Nat.pow_le_pow_right (by decide : 0 < 2) hk
  rw [← UInt32.toNat_inj, hmask, Nat.mod_eq_of_lt (by omega)]

theorem PJW_hash_spec (str : List UInt8) : (PJW_hash str).toNat < 2 ^ 29 ∧ PJW_hash str = str.foldl PJW_step 0 := by
  have hstep : ∀ hash c, (PJW_step hash c).toNat < 2 ^ 29 :=
    fun hash c => lt_of_clear (by decide) (PJW_step_clear hash c)
  obtain ⟨hlt, hmask⟩ := foldl_masked (by decide) hstep str
  rw [PJW_hash, hmask]
  exact ⟨hlt, rfl⟩

theorem ELF_hash_spec (str : List UInt8) : (ELF_hash str).toNat < 2 ^ 28 ∧ ELF_hash str = str.foldl ELF_step 0 := by
  have hstep : ∀ hash c, (ELF_step hash c).toNat < 2 ^ 28 :=
    fun hash c => lt_of_clear (by decide) (ELF_step_clear hash c)
  obtain ⟨hlt, hmask⟩ := foldl_masked (by decide) hstep str
  rw [ELF_hash, hmask]
  exact ⟨hlt, rfl⟩

/-- Bytes put behind two strings leave the hashes of the four that read with one factor
    as equal or different as they were, and that of `RS_hash` if the strings are equally
    long. `PJW_hash` and `ELF_hash` keep equal hashes equal; they have 29 and 28 bits. -/
theorem string_hashes_append (s t u : List UInt8) :
    (∀ hash ∈ [simple_hash, SDBM_hash, BKDR_hash, DJB_hash], hash (s ++ u) = hash (t ++ u) ↔ hash s = hash t) ∧
      (s.length = t.length → (RS_hash (s ++ u) = RS_hash (t ++ u) ↔ RS_hash s = RS_hash t)) ∧
      (∀ hash ∈ [PJW_hash, ELF_hash], hash s = hash t → hash (s ++ u) = hash (t ++ u)) ∧
      (PJW_hash s).toNat < 2 ^ 29 ∧ (ELF_hash s).toNat < 2 ^ 28 := by
  refine ⟨fun hash hmem => ?_, fun hlength => ?_, fun hash hmem heq => ?_, (PJW_hash_spec s).1, (ELF_hash_spec s).1⟩
  · simp only [List.mem_cons, List.not_mem_nil, or_false] at hmem
    rcases hmem with rfl | rfl | rfl | rfl
    · exact append_iff_of_factor simple_hash_reads (by decide) s t u
    · exact append_iff_of_factor SDBM_hash_reads (by decide) s t u
    · exact append_iff_of_factor BKDR_hash_reads (by decide) s t u
    · exact append_iff_of_factor DJB_hash_reads (by decide) s t u
  · have hfactor : Odd ((63689 : ℤ) * 378551 ^ t.length) :=
      (by decide : Odd (63689 : ℤ)).mul ((by decide : Odd (378551 : ℤ)).pow)
    refine RS_hash_reads.append_iff ?_ (RS_digits_append 63689 t u) (odd_RS_digits hfactor u)
    rw [RS_digits_append, hlength]
  · simp only [List.mem_cons, List.not_mem_nil, or_false] at hmem
    rcases hmem with rfl | rfl
    · rw [(PJW_hash_spec s).2, (PJW_hash_spec t).2] at heq
      rw [(PJW_hash_spec (s ++ u)).2, (PJW_hash_spec (t ++ u)).2, List.foldl_append, List.foldl_append, heq]
    · rw [(ELF_hash_spec s).2, (ELF_hash_spec t).2] at heq
      rw [(ELF_hash_spec (s ++ u)).2, (ELF_hash_spec (t ++ u)).2, List.foldl_append, List.foldl_append, heq]

end code_tools.cthash
