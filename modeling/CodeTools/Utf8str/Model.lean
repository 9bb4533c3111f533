import CodeTools.Lib.Buffer
import CodeTools.Lib.CString

/-!
# Copying UTF-8 text: `utf8str.c`

Strings are lists of bytes without their terminator, which stands behind them in
memory. Lengths, indices and counts are `unsigned int`s.
-/

namespace code_tools.utf8str

open cmem cstring

def TAB : UInt8 := 9

def SPACE : UInt8 := 32

/-- The length of the sequence that a byte leads, 0 for a byte that leads none. -/
def utf8_check (c : UInt8) : UInt32 :=
  if c &&& 0x80 = 0 then 1
  else if c &&& 0xe0 = 0xc0 then 2
  else if c &&& 0xf0 = 0xe0 then 3
  else if c &&& 0xf8 = 0xf0 then 4
  else if c &&& 0xfc = 0xf8 then 5
  else if c &&& 0xfe = 0xfc then 6
  else 0

/-- `strlen` as it is stored in an `unsigned int`. -/
def strlen (src : List UInt8) : UInt32 := UInt32.ofNat src.length

/-- The variables of the loop of `utf8_strncpy`: the buffer with the offset that
    `p` points to, `flag`, which is set behind a space and at the start, the index
    `i` into the source and the count `n` of the characters written. -/
structure Copying where
  dest : List UInt8
  p : Nat
  flag : Bool
  i : UInt32
  n : UInt32
deriving DecidableEq, Repr

def Copying.start (dest : List UInt8) : Copying := { dest, p := 0, flag := true, i := 0, n := 0 }

/-- One round of the loop; `none` where it breaks. -/
def copy_step (src : List UInt8) (slen : UInt32) (s : Copying) : Except Fault (Option Copying) := do
  let c ← ((src ++ [0])[s.i.toNat]?).elim (.error .outOfBounds) .ok
  if c = CR ∨ c = LF ∨ c = TAB then .ok (some { s with i := s.i + 1 })
  else if c = SPACE then
    if s.flag then .ok (some { s with i := s.i + 1 })
    else do
      let dest ← blit s.dest s.p [c]
      .ok (some { dest, p := s.p + 1, flag := true, i := s.i + 1, n := s.n + 1 })
  else
    let tmp := utf8_check c
    if tmp > 0 ∧ s.i + tmp ≤ slen then do
      let bytes ← slice (src ++ [0]) s.i.toNat tmp.toNat
      let dest ← blit s.dest s.p bytes
      .ok (some { dest, p := s.p + tmp.toNat, flag := false, i := s.i + tmp, n := s.n + 1 })
    else .ok none

def copy_loop (src : List UInt8) (slen max : UInt32) : Nat → Copying → Except Fault Copying
  | 0, s => if s.i < slen ∧ s.n < max then .error .outOfFuel else .ok s
  | fuel + 1, s =>
    if s.i < slen ∧ s.n < max then do
      match ← copy_step src slen s with
      | none => .ok s
      | some s => copy_loop src slen max fuel s
    else .ok s

/-- Rounds that are enough for the loop: `i` grows in each round that leaves `n` as
    it is. -/
def copy_fuel (slen max : UInt32) : Nat := (slen.toNat + 1) * (max.toNat + 1)

/-- `none` is `NULL`. The result is the buffer that `dest` points to. -/
def utf8_strncpy (dest src : Option (List UInt8)) (max : UInt32) : Except Fault (Option (List UInt8)) :=
  match dest, src with
  | some dest, some src =>
    if max = 0 then .ok (some dest)
    else do
      let s ← copy_loop src (strlen src) max (copy_fuel (strlen src) max) (.start dest)
      let dest ← blit s.dest s.p [0]
      .ok (some dest)
  | dest, _ => .ok dest

/-- The variables of the loop of `utf8_strlen`. -/
structure Counting where
  i : UInt32
  ulen : UInt32
deriving DecidableEq, Repr

/-- The index is moved before the loop breaks at a sequence that is too long. -/
def strlen_loop (src : List UInt8) (slen : UInt32) : Nat → Counting → Except Fault Counting
  | 0, s => if s.i < slen then .error .outOfFuel else .ok s
  | fuel + 1, s =>
    if s.i < slen then do
      let c ← ((src ++ [0])[s.i.toNat]?).elim (.error .outOfBounds) .ok
      let tmp := utf8_check c
      if tmp > 0 then
        let s := { s with i := s.i + tmp }
        if s.i ≤ slen then strlen_loop src slen fuel { s with ulen := s.ulen + 1 } else .ok s
      else .ok s
    else .ok s

/-- Where `utf8_strlen` stops. A loop that stops at all sees each index once. -/
def strlen_end (src : List UInt8) : Except Fault Counting :=
  strlen_loop src (strlen src) ((strlen src).toNat + 1) { i := 0, ulen := 0 }

def utf8_strlen (src : Option (List UInt8)) : Except Fault UInt32 :=
  match src with
  | none => .ok 0
  | some src => (strlen_end src).map Counting.ulen

end code_tools.utf8str
