import CodeTools.Lib.CString
import Mathlib.Algebra.Group.Int.Defs

/-!
# Numbers in strings

`strtol` with base 0, for a `long` of 64 bits.
-/

namespace cstring

def LONG_MAX : Int := 2 ^ 63 - 1

def LONG_MIN : Int := -2 ^ 63

def PLUS : UInt8 := '+'.toUInt8

def MINUS : UInt8 := '-'.toUInt8

def ZERO : UInt8 := '0'.toUInt8

/-- The value of a digit in the bases up to 36. -/
def digit (c : UInt8) : Option Nat :=
  let c := tolower c
  if 48 ≤ c ∧ c ≤ 57 then some (c.toNat - 48)
  else if 97 ≤ c ∧ c ≤ 122 then some (c.toNat - 87)
  else none

def is_digit (base : Nat) (c : UInt8) : Bool := (digit c).any (· < base)

/-- The number that the digits at the start of a string make. -/
def number (base : Nat) (s : List UInt8) : Nat :=
  (s.takeWhile (is_digit base)).foldl (fun n c => n * base + (digit c).getD 0) 0

/-- The base that a prefix asks for, and what is behind the prefix. -/
def base_of : List UInt8 → Nat × List UInt8
  | z :: x :: d :: s =>
    if z = ZERO ∧ tolower x = 'x'.toUInt8 ∧ is_digit 16 d = true then (16, d :: s)
    else if z = ZERO then (8, z :: x :: d :: s)
    else (10, z :: x :: d :: s)
  | z :: s => (if z = ZERO then 8 else 10, z :: s)
  | [] => (10, [])

/-- The sign and what is behind it. -/
def sign_of : List UInt8 → Int × List UInt8
  | [] => (1, [])
  | c :: s => if c = MINUS then (-1, s) else if c = PLUS then (1, s) else (1, c :: s)

/-- `strtol(s, NULL, 0)`; a value out of range becomes the nearest limit. -/
def strtol (s : List UInt8) : Int :=
  let (sign, s) := sign_of (s.dropWhile isspace)
  let (base, s) := base_of s
  max LONG_MIN (min LONG_MAX (sign * number base s))

/-- The usual notations of C. -/
example : [strtol ("42".toList.map Char.toUInt8), strtol ("042".toList.map Char.toUInt8),
    strtol ("0x42".toList.map Char.toUInt8), strtol (" -1".toList.map Char.toUInt8)] = [42, 34, 66, -1] := by
  decide +kernel

end cstring
