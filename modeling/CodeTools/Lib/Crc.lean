import Mathlib.Data.List.Basic

/-!
# Reflected cyclic redundancy checks

The register of a reflected check of width `w` takes the bits of a message one by
one, the low bit of each word first. Words of `n` bits can be taken at once with a
table, because the register is linear in exclusive or.
-/

namespace crc

/-- The low bits of a word, the lowest first. -/
def low_bits {w : Nat} (n : Nat) (c : BitVec w) : List Bool := (List.range n).map fun i => c.getLsbD i

/-- One bit of the message. -/
def feed_bit {w : Nat} (poly c : BitVec w) (bit : Bool) : BitVec w :=
  if c.getLsbD 0 ^^ bit then (c >>> 1) ^^^ poly else c >>> 1

def feed {w : Nat} (poly c : BitVec w) (bits : List Bool) : BitVec w := bits.foldl (feed_bit poly) c

section Bits

variable {w : Nat}

theorem length_low_bits (n : Nat) (c : BitVec w) : (low_bits n c).length = n := by
  rw [low_bits, List.length_map, List.length_range]

theorem low_bits_succ (n : Nat) (c : BitVec w) : low_bits (n + 1) c = c.getLsbD 0 :: low_bits n (c >>> 1) := by
  simp only [low_bits, List.range_succ_eq_map, List.map_cons, List.map_map]
  congr 1
  apply List.map_congr_left
  intro i _
  rw [Function.comp_apply, BitVec.getLsbD_ushiftRight, Nat.succ_eq_one_add]

theorem zipWith_low_bits (n : Nat) (c : BitVec w) (b : BitVec n) :
    List.zipWith xor (low_bits n c) (low_bits n b) = low_bits n (c.setWidth n ^^^ b) := by
  simp only [low_bits, List.zipWith_map, List.zipWith_self]
  apply List.map_congr_left
  intro i hi
  rw [BitVec.getLsbD_xor, BitVec.getLsbD_setWidth, decide_eq_true (List.mem_range.mp hi), Bool.true_and]

theorem zipWith_xor_cancel {l bits : List Bool} (hlength : l.length = bits.length) :
    List.zipWith xor l (List.zipWith xor l bits) = bits := by
  induction l generalizing bits with
  | nil => exact (List.length_eq_zero_iff.mp hlength.symm).symm
  | cons x l ih =>
    cases bits with
    | nil => cases hlength
    | cons bit bits =>
      rw [List.zipWith_cons_cons, List.zipWith_cons_cons, ih (Nat.succ.inj hlength), ← Bool.xor_assoc, Bool.xor_self,
        Bool.false_xor]

end Bits

section Linear

variable {w : Nat} (poly : BitVec w)

theorem feed_cons (c : BitVec w) (bit : Bool) (bits : List Bool) :
    feed poly c (bit :: bits) = feed poly (feed_bit poly c bit) bits := rfl

theorem feed_append (c : BitVec w) (bits bits' : List Bool) :
    feed poly c (bits ++ bits') = feed poly (feed poly c bits) bits' := List.foldl_append

theorem feed_bit_eq (c : BitVec w) (bit : Bool) :
    feed_bit poly c bit = (c >>> 1) ^^^ (if c.getLsbD 0 ^^ bit then poly else 0#w) := by
  unfold feed_bit
  split
  · rfl
  · rw [BitVec.xor_zero]

theorem feed_bit_xor (c d : BitVec w) (bit bit' : Bool) :
    feed_bit poly (c ^^^ d) (bit ^^ bit') = feed_bit poly c bit ^^^ feed_bit poly d bit' := by
  have hbits : ((c ^^^ d).getLsbD 0 ^^ (bit ^^ bit')) = ((c.getLsbD 0 ^^ bit) ^^ (d.getLsbD 0 ^^ bit')) := by
    rw [BitVec.getLsbD_xor, Bool.xor_assoc, Bool.xor_left_comm (d.getLsbD 0), ← Bool.xor_assoc]
  have hpoly : ∀ x y : Bool, (if x ^^ y then poly else 0#w) =
      (if x then poly else 0#w) ^^^ (if y then poly else 0#w) := by
    intro x y
    cases x <;> cases y <;> simp
  rw [feed_bit_eq, feed_bit_eq, feed_bit_eq, hbits, hpoly, BitVec.ushiftRight_xor_distrib]
  ac_rfl

/-- Registers and messages can be added. -/
theorem feed_xor (c d : BitVec w) {bits bits' : List Bool} (hlength : bits.length = bits'.length) :
    feed poly (c ^^^ d) (List.zipWith xor bits bits') = feed poly c bits ^^^ feed poly d bits' := by
  induction bits generalizing c d bits' with
  | nil =>
    cases bits' with
    | nil => rfl
    | cons bit' bits' => cases hlength
  | cons bit bits ih =>
    cases bits' with
    | nil => cases hlength
    | cons bit' bits' =>
      rw [List.zipWith_cons_cons, feed_cons, feed_cons, feed_cons, feed_bit_xor, ih _ _ (Nat.succ.inj hlength)]

/-- The low bits of the register itself take it down. -/
theorem feed_low_bits (n : Nat) (c : BitVec w) : feed poly c (low_bits n c) = c >>> n := by
  induction n generalizing c with
  | zero => rfl
  | succ n ih =>
    have hbit : feed_bit poly c (c.getLsbD 0) = c >>> 1 := by
      rw [feed_bit, Bool.xor_self, if_neg Bool.false_ne_true]
    rw [low_bits_succ, feed_cons, hbit, ih, ← BitVec.shiftRight_add, Nat.add_comm]

/-- A word of the message: the register goes down by a word, and the bits that went
    out of it go into an empty one with the message. -/
theorem feed_word (c : BitVec w) (bits : List Bool) :
    feed poly c bits =
      (c >>> bits.length) ^^^ feed poly 0#w (List.zipWith xor (low_bits bits.length c) bits) := by
  have hlength : (low_bits bits.length c).length = bits.length := length_low_bits _ _
  calc
    feed poly c bits =
        feed poly (c ^^^ 0#w) (List.zipWith xor (low_bits bits.length c)
          (List.zipWith xor (low_bits bits.length c) bits)) := by
        rw [zipWith_xor_cancel hlength, BitVec.xor_zero]
    _ = feed poly c (low_bits bits.length c) ^^^
          feed poly 0#w (List.zipWith xor (low_bits bits.length c) bits) := by
        apply feed_xor
        rw [List.length_zipWith, hlength, Nat.min_self]
    _ = (c >>> bits.length) ^^^ feed poly 0#w (List.zipWith xor (low_bits bits.length c) bits) := by
        rw [feed_low_bits]

/-- The entry of the table for a word. -/
def entry {n : Nat} (word : BitVec n) : BitVec w := feed poly 0#w (low_bits n word)

theorem feed_entry {n : Nat} (c : BitVec w) (word : BitVec n) :
    feed poly c (low_bits n word) = (c >>> n) ^^^ entry poly (c.setWidth n ^^^ word) := by
  rw [feed_word, length_low_bits, zipWith_low_bits, entry]

end Linear

end crc
