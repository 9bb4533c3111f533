import CodeTools.Lib.Crc
import Mathlib.Algebra.Group.Nat.Defs

/-!
# CRC-32: `cthash.c`

`CRC32_hash` takes the result of the call before and goes on with it, in an
`unsigned long` of 64 bits.
-/

namespace code_tools.cthash

open crc

set_option maxRecDepth 4000 in
def crc32_tab : Vector UInt32 256 :=
  #v[
    0x00000000, 0x77073096, 0xee0e612c, 0x990951ba, 0x076dc419, 0x706af48f, 0xe963a535, 0x9e6495a3,
    0x0edb8832, 0x79dcb8a4, 0xe0d5e91e, 0x97d2d988, 0x09b64c2b, 0x7eb17cbd, 0xe7b82d07, 0x90bf1d91,
    0x1db71064, 0x6ab020f2, 0xf3b97148, 0x84be41de, 0x1adad47d, 0x6ddde4eb, 0xf4d4b551, 0x83d385c7,
    0x136c9856, 0x646ba8c0, 0xfd62f97a, 0x8a65c9ec, 0x14015c4f, 0x63066cd9, 0xfa0f3d63, 0x8d080df5,
    0x3b6e20c8, 0x4c69105e, 0xd56041e4, 0xa2677172, 0x3c03e4d1, 0x4b04d447, 0xd20d85fd, 0xa50ab56b,
    0x35b5a8fa, 0x42b2986c, 0xdbbbc9d6, 0xacbcf940, 0x32d86ce3, 0x45df5c75, 0xdcd60dcf, 0xabd13d59,
    0x26d930ac, 0x51de003a, 0xc8d75180, 0xbfd06116, 0x21b4f4b5, 0x56b3c423, 0xcfba9599, 0xb8bda50f,
    0x2802b89e, 0x5f058808, 0xc60cd9b2, 0xb10be924, 0x2f6f7c87, 0x58684c11, 0xc1611dab, 0xb6662d3d,
    0x76dc4190, 0x01db7106, 0x98d220bc, 0xefd5102a, 0x71b18589, 0x06b6b51f, 0x9fbfe4a5, 0xe8b8d433,
    0x7807c9a2, 0x0f00f934, 0x9609a88e, 0xe10e9818, 0x7f6a0dbb, 0x086d3d2d, 0x91646c97, 0xe6635c01,
    0x6b6b51f4, 0x1c6c6162, 0x856530d8, 0xf262004e, 0x6c0695ed, 0x1b01a57b, 0x8208f4c1, 0xf50fc457,
    0x65b0d9c6, 0x12b7e950, 0x8bbeb8ea, 0xfcb9887c, 0x62dd1ddf, 0x15da2d49, 0x8cd37cf3, 0xfbd44c65,
    0x4db26158, 0x3ab551ce, 0xa3bc0074, 0xd4bb30e2, 0x4adfa541, 0x3dd895d7, 0xa4d1c46d, 0xd3d6f4fb,
    0x4369e96a, 0x346ed9fc, 0xad678846, 0xda60b8d0, 0x44042d73, 0x33031de5, 0xaa0a4c5f, 0xdd0d7cc9,
    0x5005713c, 0x270241aa, 0xbe0b1010, 0xc90c2086, 0x5768b525, 0x206f85b3, 0xb966d409, 0xce61e49f,
    0x5edef90e, 0x29d9c998, 0xb0d09822, 0xc7d7a8b4, 0x59b33d17, 0x2eb40d81, 0xb7bd5c3b, 0xc0ba6cad,
    0xedb88320, 0x9abfb3b6, 0x03b6e20c, 0x74b1d29a, 0xead54739, 0x9dd277af, 0x04db2615, 0x73dc1683,
    0xe3630b12, 0x94643b84, 0x0d6d6a3e, 0x7a6a5aa8, 0xe40ecf0b, 0x9309ff9d, 0x0a00ae27, 0x7d079eb1,
    0xf00f9344, 0x8708a3d2, 0x1e01f268, 0x6906c2fe, 0xf762575d, 0x806567cb, 0x196c3671, 0x6e6b06e7,
    0xfed41b76, 0x89d32be0, 0x10da7a5a, 0x67dd4acc, 0xf9b9df6f, 0x8ebeeff9, 0x17b7be43, 0x60b08ed5,
    0xd6d6a3e8, 0xa1d1937e, 0x38d8c2c4, 0x4fdff252, 0xd1bb67f1, 0xa6bc5767, 0x3fb506dd, 0x48b2364b,
    0xd80d2bda, 0xaf0a1b4c, 0x36034af6, 0x41047a60, 0xdf60efc3, 0xa867df55, 0x316e8eef, 0x4669be79,
    0xcb61b38c, 0xbc66831a, 0x256fd2a0, 0x5268e236, 0xcc0c7795, 0xbb0b4703, 0x220216b9, 0x5505262f,
    0xc5ba3bbe, 0xb2bd0b28, 0x2bb45a92, 0x5cb36a04, 0xc2d7ffa7, 0xb5d0cf31, 0x2cd99e8b, 0x5bdeae1d,
    0x9b64c2b0, 0xec63f226, 0x756aa39c, 0x026d930a, 0x9c0906a9, 0xeb0e363f, 0x72076785, 0x05005713,
    0x95bf4a82, 0xe2b87a14, 0x7bb12bae, 0x0cb61b38, 0x92d28e9b, 0xe5d5be0d, 0x7cdcefb7, 0x0bdbdf21,
    0x86d3d2d4, 0xf1d4e242, 0x68ddb3f8, 0x1fda836e, 0x81be16cd, 0xf6b9265b, 0x6fb077e1, 0x18b74777,
    0x88085ae6, 0xff0f6a70, 0x66063bca, 0x11010b5c, 0x8f659eff, 0xf862ae69, 0x616bffd3, 0x166ccf45,
    0xa00ae278, 0xd70dd2ee, 0x4e048354, 0x3903b3c2, 0xa7672661, 0xd06016f7, 0x4969474d, 0x3e6e77db,
    0xaed16a4a, 0xd9d65adc, 0x40df0b66, 0x37d83bf0, 0xa9bcae53, 0xdebb9ec5, 0x47b2cf7f, 0x30b5ffe9,
    0xbdbdf21c, 0xcabac28a, 0x53b39330, 0x24b4a3a6, 0xbad03605, 0xcdd70693, 0x54de5729, 0x23d967bf,
    0xb3667a2e, 0xc4614ab8, 0x5d681b02, 0x2a6f2b94, 0xb40bbe37, 0xc30c8ea1, 0x5a05df1b, 0x2d02ef8d]

/-- The place in the table for a byte. -/
def crc32_index (crc32 : UInt64) (byte : UInt8) : UInt64 := (crc32 ^^^ byte.toUInt64) &&& 0xFF

theorem crc32_index_lt (crc32 : UInt64) (byte : UInt8) : (crc32_index crc32 byte).toNat < 256 := by
  rw [crc32_index, UInt64.toNat_and]
  exact Nat.lt_of_le_of_lt Nat.and_le_right (by decide)

/-- The body of the loop. -/
def crc32_step (crc32 : UInt64) (byte : UInt8) : UInt64 :=
  (crc32 >>> 8) ^^^ (crc32_tab.get ⟨(crc32_index crc32 byte).toNat, crc32_index_lt crc32 byte⟩).toUInt64

def CRC32_hash (crc : UInt64) (buf : List UInt8) : UInt64 :=
  (buf.foldl crc32_step (crc ^^^ 0xFFFFFFFF)) ^^^ 0xFFFFFFFF

/-! ## The standard -/

/-- The reversed polynomial. -/
def polynomial : BitVec 32 := 0xEDB88320

/-- The bits of a byte string, the low bit of each byte first. -/
def message (bytes : List UInt8) : List Bool := (bytes.map UInt8.toBitVec).flatMap (low_bits 8)

/-- The CRC-32 of a byte string, bit by bit. -/
def crc32 (bytes : List UInt8) : BitVec 32 := feed polynomial (0 ^^^ 0xFFFFFFFF) (message bytes) ^^^ 0xFFFFFFFF

/-! ## The table -/

theorem crc32_tab_entry (i : BitVec 8) : (crc32_tab.get ⟨i.toNat, i.isLt⟩).toBitVec = entry polynomial i := by
  have hall : ∀ k : Fin 256, (crc32_tab.get k).toBitVec = entry polynomial (BitVec.ofNat 8 k) := by decide +kernel
  have hi := hall ⟨i.toNat, i.isLt⟩
  rwa [BitVec.ofNat_toNat, BitVec.setWidth_eq] at hi

/-! ## The accumulator -/

/-- The accumulator has the value of the register. -/
def Holds (crc32 : UInt64) (c : BitVec 32) : Prop := crc32.toBitVec = c.setWidth 64

theorem Holds.toNat {crc32 : UInt64} {c : BitVec 32} (h : Holds crc32 c) : crc32.toNat = c.toNat := by
  have hnat := congrArg BitVec.toNat h
  rwa [BitVec.toNat_setWidth, Nat.mod_eq_of_lt (by omega)] at hnat

theorem Holds.complement {crc32 : UInt64} {c : BitVec 32} (h : Holds crc32 c) :
    Holds (crc32 ^^^ 0xFFFFFFFF) (c ^^^ 0xFFFFFFFF) := by
  unfold Holds at h ⊢
  rw [UInt64.toBitVec_xor, h, BitVec.setWidth_xor]
  rfl

theorem crc32_index_eq {crc32 : UInt64} {c : BitVec 32} (h : Holds crc32 c) (byte : UInt8) :
    (crc32_index crc32 byte).toNat = (c.setWidth 8 ^^^ byte.toBitVec).toNat := by
  rw [crc32_index, UInt64.toNat_and, UInt64.toNat_xor, h.toNat, UInt8.toNat_toUInt64]
  calc
    (c.toNat ^^^ byte.toNat) &&& 255 = (c.toNat ^^^ byte.toNat) % 2 ^ 8 := Nat.and_two_pow_sub_one_eq_mod _ 8
    _ = c.toNat % 2 ^ 8 ^^^ byte.toNat % 2 ^ 8 := Nat.xor_mod_two_pow
    _ = c.toNat % 2 ^ 8 ^^^ byte.toNat := by rw [Nat.mod_eq_of_lt byte.toNat_lt]
    _ = (c.setWidth 8 ^^^ byte.toBitVec).toNat := by rw [BitVec.toNat_xor, BitVec.toNat_setWidth]; rfl

theorem Holds.step {crc32 : UInt64} {c : BitVec 32} (h : Holds crc32 c) (byte : UInt8) :
    Holds (crc32_step crc32 byte) (feed polynomial c (low_bits 8 byte.toBitVec)) := by
  have hindex : (⟨(crc32_index crc32 byte).toNat, crc32_index_lt crc32 byte⟩ : Fin 256) =
      ⟨(c.setWidth 8 ^^^ byte.toBitVec).toNat, BitVec.isLt _⟩ := Fin.ext (crc32_index_eq h byte)
  unfold Holds at h ⊢
  rw [crc32_step, hindex, UInt64.toBitVec_xor, UInt32.toBitVec_toUInt64, crc32_tab_entry, feed_entry,
    BitVec.setWidth_xor, BitVec.setWidth_ushiftRight (by decide), ← h]
  rfl

/-- The loop over a chunk. -/
theorem Holds.foldl {crc32 : UInt64} {c : BitVec 32} (h : Holds crc32 c) (buf : List UInt8) :
    Holds (buf.foldl crc32_step crc32) (feed polynomial c (message buf)) := by
  induction buf generalizing crc32 c with
  | nil => exact h
  | cons byte buf ih =>
    have hmessage : message (byte :: buf) = low_bits 8 byte.toBitVec ++ message buf := rfl
    rw [List.foldl_cons, hmessage, feed_append]
    exact ih (h.step byte)

theorem message_append (bytes buf : List UInt8) : message (bytes ++ buf) = message bytes ++ message buf := by
  rw [message, List.map_append, List.flatMap_append]
  rfl

/-- Inside a call the accumulator is the register after the bytes so far. -/
theorem Holds.start {crc : UInt64} {bytes : List UInt8} (h : Holds crc (crc32 bytes)) :
    Holds (crc ^^^ 0xFFFFFFFF) (feed polynomial (0 ^^^ 0xFFFFFFFF) (message bytes)) := by
  have hstart := h.complement
  rwa [cthash.crc32, BitVec.xor_assoc, BitVec.xor_self, BitVec.xor_zero] at hstart

/-- One call goes on where the call before has ended. -/
theorem Holds.hash {crc : UInt64} {bytes : List UInt8} (h : Holds crc (crc32 bytes)) (buf : List UInt8) :
    Holds (CRC32_hash crc buf) (cthash.crc32 (bytes ++ buf)) := by
  have hend := (h.start.foldl buf).complement
  rwa [← feed_append, ← message_append] at hend

/-- The calls for the chunks of a byte string. -/
theorem Holds.chunks {crc : UInt64} {bytes : List UInt8} (h : Holds crc (crc32 bytes)) (chunks : List (List UInt8)) :
    Holds (chunks.foldl CRC32_hash crc) (cthash.crc32 (bytes ++ chunks.flatten)) := by
  induction chunks generalizing crc bytes with
  | nil => rwa [List.flatten_nil, List.append_nil]
  | cons buf chunks ih =>
    rw [List.foldl_cons, List.flatten_cons, ← List.append_assoc]
    exact ih (h.hash buf)

theorem holds_zero : Holds 0 (crc32 []) := by
  unfold Holds crc32
  decide

/-! ## Pieces -/

/-- What the calls are given one after another, and what the last one returns. -/
def results (chunks : List (List UInt8)) : List UInt64 := chunks.scanl CRC32_hash 0

/-- What `crc32` holds in a call. -/
def accumulators (crc : UInt64) (buf : List UInt8) : List UInt64 := buf.scanl crc32_step (crc ^^^ 0xFFFFFFFF)

theorem of_mem_scanl {α β : Type} {P : β → Prop} {f : β → α → β} (hstep : ∀ b a, P b → P (f b a)) {b : β} (hb : P b)
    {l : List α} {x : β} (hx : x ∈ l.scanl f b) : P x := by
  induction l generalizing b with
  | nil =>
    rw [List.scanl_nil, List.mem_singleton] at hx
    exact hx ▸ hb
  | cons a l ih =>
    rw [List.scanl_cons, List.mem_cons] at hx
    cases hx with
    | inl hfirst => exact hfirst ▸ hb
    | inr hlater => exact ih (hstep b a hb) hlater

theorem holds_of_mem_accumulators {crc : UInt64} {bytes : List UInt8} (h : Holds crc (crc32 bytes)) {buf : List UInt8}
    {acc : UInt64} (hacc : acc ∈ accumulators crc buf) : ∃ c, Holds acc c := by
  refine of_mem_scanl (P := fun acc => ∃ c, Holds acc c) ?_ ⟨_, h.start⟩ hacc
  rintro acc byte ⟨c, hc⟩
  exact ⟨_, hc.step byte⟩

theorem holds_of_mem_results {chunks : List (List UInt8)} {crc : UInt64} (hcrc : crc ∈ results chunks) :
    ∃ bytes, Holds crc (crc32 bytes) := by
  refine of_mem_scanl (P := fun crc => ∃ bytes, Holds crc (crc32 bytes)) ?_ ⟨_, holds_zero⟩ hcrc
  rintro crc buf ⟨bytes, hbytes⟩
  exact ⟨_, hbytes.hash buf⟩

/-- Chunk by chunk or at once, the result is the CRC-32 of the bytes, and nothing
    that the accumulator holds on the way needs more than 32 bits. -/
theorem CRC32_hash_chunks (chunks : List (List UInt8)) :
    chunks.foldl CRC32_hash 0 = CRC32_hash 0 chunks.flatten ∧
      (CRC32_hash 0 chunks.flatten).toNat = (crc32 chunks.flatten).toNat ∧
      ∀ crc ∈ results chunks, crc.toNat < 2 ^ 32 ∧ ∀ buf, ∀ acc ∈ accumulators crc buf, acc.toNat < 2 ^ 32 := by
  have hpieces := holds_zero.chunks chunks
  have hwhole := holds_zero.hash chunks.flatten
  refine ⟨?_, hwhole.toNat, ?_⟩
  · apply UInt64.toBitVec_inj.mp
    exact hpieces.trans hwhole.symm
  · intro crc hcrc
    obtain ⟨bytes, hbytes⟩ := holds_of_mem_results hcrc
    refine ⟨?_, fun buf acc hacc => ?_⟩
    · rw [hbytes.toNat]
      exact BitVec.isLt _
    · obtain ⟨c, hc⟩ := holds_of_mem_accumulators hbytes hacc
      rw [hc.toNat]
      exact c.isLt

/-- The check value of the standard. -/
example : crc32 [49, 50, 51, 52, 53, 54, 55, 56, 57] = 0xCBF43926 := by decide +kernel

/-! ## `crc32_file` -/

/-- What the calls of `fread` deliver; after the pieces they return 0, with or
    without an error. -/
structure Stream where
  pieces : List (List UInt8)
  ferror : Bool

/-- The loop, with the value that goes into the next call. -/
def crc32_file_loop (ferror : Bool) : List (List UInt8) → UInt64 → Option UInt64
  | [], crc => if ferror then none else some crc
  | buf :: pieces, crc =>
    if buf.length = 0 then if ferror then none else some crc
    else crc32_file_loop ferror pieces (CRC32_hash crc buf)

def crc32_file : Option Stream → Option UInt64
  | none => none
  | some fp => crc32_file_loop fp.ferror fp.pieces 0

theorem crc32_file_loop_eq (ferror : Bool) (pieces : List (List UInt8)) (crc : UInt64) :
    crc32_file_loop ferror pieces crc =
      if ferror then none else some ((pieces.takeWhile (· ≠ [])).foldl CRC32_hash crc) := by
  induction pieces generalizing crc with
  | nil => rfl
  | cons buf pieces ih =>
    rw [crc32_file_loop]
    by_cases hempty : buf = []
    · rw [if_pos (List.length_eq_zero_iff.mpr hempty), List.takeWhile_cons_of_neg (by simp [hempty])]
      rfl
    · rw [if_neg (fun hzero => hempty (List.length_eq_zero_iff.mp hzero)), ih,
        List.takeWhile_cons_of_pos (by simp [hempty]), List.foldl_cons]

/-- The value for a file is the CRC-32 of what was read, however it was read. -/
theorem crc32_file_value {fp : Stream} {crc32_val : UInt64} (hfile : crc32_file (some fp) = some crc32_val) :
    crc32_val.toNat = (crc32 (fp.pieces.takeWhile (· ≠ [])).flatten).toNat := by
  rw [crc32_file, crc32_file_loop_eq] at hfile
  split at hfile
  · cases hfile
  · rw [← Option.some.inj hfile]
    exact (holds_zero.chunks _).toNat

end code_tools.cthash
