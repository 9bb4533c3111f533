import CodeTools.Lib.Text

/-!
# Hexadecimal digits

Two lower-case digits for each byte, the high one first.
-/

namespace text

def hex_digit (d : Nat) : UInt8 := UInt8.ofNat (if d < 10 then 48 + d else 87 + d)

def hex_byte (b : UInt8) : List UInt8 := [hex_digit (b.toNat / 16), hex_digit (b.toNat % 16)]

def hex (bytes : List UInt8) : List UInt8 := bytes.flatMap hex_byte

def digit_value (c : UInt8) : Nat := if c < 58 then c.toNat - 48 else c.toNat - 87

def unhex : List UInt8 → List UInt8
  | high :: low :: s => UInt8.ofNat (16 * digit_value high + digit_value low) :: unhex s
  | _ => []

theorem hex_cons (b : UInt8) (bytes : List UInt8) : hex (b :: bytes) = hex_byte b ++ hex bytes := rfl

theorem length_hex (bytes : List UInt8) : (hex bytes).length = 2 * bytes.length := by
  induction bytes with
  | nil => rfl
  | cons b bytes ih =>
    rw [hex_cons, List.length_append, ih, List.length_cons, hex_byte, List.length_cons, List.length_singleton]
    omega

/-- The digits of a byte string are read back as the byte string. -/
theorem unhex_hex (bytes : List UInt8) : unhex (hex bytes) = bytes := by
  induction bytes with
  | nil => rfl
  | cons b bytes ih =>
    have hbyte : ∀ b : UInt8,
        UInt8.ofNat (16 * digit_value (hex_digit (b.toNat / 16)) + digit_value (hex_digit (b.toNat % 16))) = b :=
      forall_byte (by decide +kernel)
    rw [hex_cons, hex_byte, List.cons_append, List.singleton_append, unhex, hbyte, ih]

theorem zero_notMem_hex (bytes : List UInt8) : 0 ∉ hex bytes := by
  have hbyte : ∀ b : UInt8, 0 ∉ hex_byte b := forall_byte (by decide +kernel)
  unfold hex
  rw [List.mem_flatMap]
  rintro ⟨b, _, hzero⟩
  exact hbyte b hzero

end text
