import Mathlib.Tactic.Common

/-!
# Text as code points

The UTF-8 bytes of a list of characters, the characters that fit into a number
of bytes, and lists without runs of one element.
-/

namespace text

/-! ## Encoding -/

def encode (cs : List Char) : List UInt8 := cs.flatMap String.utf8EncodeChar

@[simp] theorem encode_nil : encode [] = [] := rfl

@[simp] theorem encode_cons (c : Char) (cs : List Char) :
    encode (c :: cs) = String.utf8EncodeChar c ++ encode cs := rfl

@[simp] theorem encode_append (cs ds : List Char) : encode (cs ++ ds) = encode cs ++ encode ds :=
  List.flatMap_append

/-- More characters need more bytes. -/
theorem length_encode_pos {cs : List Char} (hcs : cs ≠ []) : 0 < (encode cs).length := by
  cases cs with
  | nil => exact absurd rfl hcs
  | cons c cs =>
    have hsize := Char.utf8Size_pos c
    rw [encode_cons, List.length_append, String.length_utf8EncodeChar]
    omega

/-- A property of all bytes can be checked on the 256 of them. -/
theorem forall_byte {P : UInt8 → Prop} (hall : ∀ n < 256, P (UInt8.ofNat n)) (b : UInt8) : P b := by
  have hb := hall b.toNat b.toNat_lt
  rwa [UInt8.ofNat_toNat] at hb

theorem utf8Size_cases (c : Char) : c.utf8Size = 1 ∨ c.utf8Size = 2 ∨ c.utf8Size = 3 ∨ c.utf8Size = 4 := by
  have hpos := Char.utf8Size_pos c
  have hle := Char.utf8Size_le_four c
  omega

/-- Characters of one byte are told apart by this byte. -/
theorem toUInt8_inj {c d : Char} (hc : c.utf8Size = 1) (hd : d.utf8Size = 1) :
    c.val.toUInt8 = d.val.toUInt8 ↔ c = d := by
  rw [Char.utf8Size_eq_one_iff, UInt32.le_iff_toNat_le] at hc hd
  have hbound : (127 : UInt32).toNat = 127 := rfl
  constructor
  · intro heq
    have hnat := congrArg UInt8.toNat heq
    rw [UInt32.toNat_toUInt8, UInt32.toNat_toUInt8, Nat.mod_eq_of_lt (by omega), Nat.mod_eq_of_lt (by omega)] at hnat
    exact Char.ext (UInt32.toNat_inj.mp hnat)
  · rintro rfl
    rfl

/-- Only the character NUL is encoded with a zero byte: the bytes of longer
    encodings are marked. -/
theorem zero_notMem_utf8EncodeChar {c : Char} (hc : c ≠ '\x00') : 0 ∉ String.utf8EncodeChar c := by
  rcases utf8Size_cases c with hsize | hsize | hsize | hsize
  · rw [String.utf8EncodeChar_eq_singleton hsize, List.mem_singleton]
    intro hzero
    exact hc ((toUInt8_inj hsize rfl).mp hzero.symm)
  · rw [String.utf8EncodeChar_eq_cons_cons hsize]
    simp [eq_comm (a := (0 : UInt8))]
  · rw [String.utf8EncodeChar_eq_cons_cons_cons hsize]
    simp [eq_comm (a := (0 : UInt8))]
  · rw [String.utf8EncodeChar_eq_cons_cons_cons_cons hsize]
    simp [eq_comm (a := (0 : UInt8))]

theorem zero_notMem_encode {cs : List Char} (hcs : '\x00' ∉ cs) : 0 ∉ encode cs := by
  unfold encode
  rw [List.mem_flatMap]
  rintro ⟨c, hc, hzero⟩
  exact zero_notMem_utf8EncodeChar (fun heq => hcs (heq ▸ hc)) hzero

/-! ## Characters that fit -/

/-- The characters from the front whose encodings all fit into the given number of
    bytes. -/
def whole : Nat → List Char → List Char
  | _, [] => []
  | room, c :: cs => if c.utf8Size ≤ room then c :: whole (room - c.utf8Size) cs else []

theorem length_encode_whole_le (room : Nat) (cs : List Char) : (encode (whole room cs)).length ≤ room := by
  induction cs generalizing room with
  | nil => exact Nat.zero_le room
  | cons c cs ih =>
    unfold whole
    split
    · have hrest := ih (room - c.utf8Size)
      rw [encode_cons, List.length_append, String.length_utf8EncodeChar]
      omega
    · exact Nat.zero_le room

theorem whole_of_length_le {room : Nat} {cs : List Char} (hfits : (encode cs).length ≤ room) :
    whole room cs = cs := by
  induction cs generalizing room with
  | nil => rfl
  | cons c cs ih =>
    rw [encode_cons, List.length_append, String.length_utf8EncodeChar] at hfits
    rw [whole, if_pos (by omega), ih (by omega)]

/-- The first character that does not fit crosses the bound. -/
theorem whole_append (room : Nat) (cs : List Char) :
    ∃ rest, cs = whole room cs ++ rest ∧
      ∀ c, rest.head? = some c → room < (encode (whole room cs)).length + c.utf8Size := by
  induction cs generalizing room with
  | nil => exact ⟨[], rfl, nofun⟩
  | cons c cs ih =>
    unfold whole
    split
    · obtain ⟨rest, hcs, hcross⟩ := ih (room - c.utf8Size)
      refine ⟨rest, congrArg (c :: ·) hcs, ?_⟩
      intro d hd
      have hd' := hcross d hd
      rw [encode_cons, List.length_append, String.length_utf8EncodeChar]
      omega
    · rename_i hbig
      refine ⟨c :: cs, rfl, ?_⟩
      intro d hd
      obtain rfl : c = d := Option.some.inj hd
      rw [encode_nil, List.length_nil]
      omega

/-! ## Runs of one element -/

section Squeeze

variable {α : Type*} [DecidableEq α]

/-- Every run of `x` becomes a single `x`. -/
def squeeze (x : α) : List α → List α
  | [] => []
  | y :: ys => if y = x ∧ ys.head? = some x then squeeze x ys else y :: squeeze x ys

theorem squeeze_cons_of_ne {x y : α} (hne : y ≠ x) (ys : List α) : squeeze x (y :: ys) = y :: squeeze x ys := by
  rw [squeeze, if_neg (fun h => hne h.1)]

/-- What follows an `x` is squeezed without the rest of its run. -/
theorem squeeze_cons_self (x : α) (ys : List α) :
    squeeze x (x :: ys) = x :: squeeze x (ys.dropWhile (· = x)) := by
  induction ys with
  | nil => simp [squeeze]
  | cons y ys ih =>
    by_cases hy : y = x
    · subst y
      rw [squeeze, if_pos ⟨rfl, rfl⟩, ih, List.dropWhile_cons_of_pos (by simp)]
    · rw [squeeze, if_neg (by simp [hy]), List.dropWhile_cons_of_neg (by simp [hy])]

end Squeeze

end text
