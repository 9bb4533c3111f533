import CodeTools.Base64.ClearGarbage
import CodeTools.Lib.Blocks
import CodeTools.Lib.CString

/-!
# `base64_decode_ctx` of `base64.c`

The decoder reads four characters at a time. With a context it skips newlines and
keeps up to four characters from one call to the next.
-/

namespace code_tools.base64

open cmem cstring

/-- `uchar_in_range` is always true; the value of a character of the alphabet. -/
def digit (ch : UInt8) : Nat := (b64.getD ch.toNat (-1)).toNat

def load (in_ : List UInt8) (i : Nat) : Except Fault UInt8 := in_[i]?.elim (.error .outOfBounds) .ok

/-- The output: the bytes before the pointer `out`, and the room behind it. -/
structure Output where
  out : List UInt8
  outleft : Nat
deriving DecidableEq, Repr

/-- `if (*outleft) { *out++ = x; --*outleft; }` -/
def Output.put (o : Output) (x : UInt8) : Output :=
  if o.outleft ≠ 0 then { out := o.out ++ [x], outleft := o.outleft - 1 } else o

/-- Back to where `saved` was left: `out -= outleft_save - outleft`. -/
def Output.restore (o : Output) (outleft_save : Nat) : Output :=
  { out := o.out.take (o.out.length - (outleft_save - o.outleft)), outleft := outleft_save }

/-- Whether up to four characters were decoded, and the output. -/
def decode_4 (in_ : List UInt8) (inlen : Nat) (o : Output) : Except Fault (Bool × Output) :=
  if inlen < 2 then .ok (false, o)
  else do
    let in0 ← load in_ 0
    let in1 ← load in_ 1
    if !isbase64 in0 || !isbase64 in1 then .ok (false, o)
    else
      let o := o.put ((digit in0 <<< 2) ||| (digit in1 >>> 4)).toUInt8
      if inlen = 2 then .ok (false, o)
      else
        let in2 ← load in_ 2
        if in2 = '='.toUInt8 then
          if inlen ≠ 4 then .ok (false, o)
          else
            let in3 ← load in_ 3
            .ok (in3 = '='.toUInt8, o)
        else if !isbase64 in2 then .ok (false, o)
        else
          let o := o.put ((digit in1 <<< 4 &&& 0xf0) ||| (digit in2 >>> 2)).toUInt8
          if inlen = 3 then .ok (false, o)
          else
            let in3 ← load in_ 3
            if in3 = '='.toUInt8 then .ok (inlen = 4, o)
            else if !isbase64 in3 then .ok (false, o)
            else .ok (true, o.put ((digit in2 <<< 6 &&& 0xc0) ||| digit in3).toUInt8)

/-! ## The context -/

structure base64_decode_context where
  i : Nat
  buf : List UInt8
  le : i ≤ 4
  size : buf.length = 4
deriving DecidableEq, Repr

def base64_decode_ctx_init (ctx : base64_decode_context) : base64_decode_context :=
  { ctx with i := 0, le := Nat.zero_le 4 }

/-- The loop that copies bytes other than newlines; the result is `p`, `i` and `buf`. -/
def get_4_loop : List UInt8 → Nat → List UInt8 → List UInt8 × Nat × List UInt8
  | [], i, buf => ([], i, buf)
  | c :: p, i, buf =>
    if c ≠ LF then
      if i + 1 = 4 then (p, i + 1, buf.set i c) else get_4_loop p (i + 1) (buf.set i c)
    else get_4_loop p i buf

theorem get_4_loop_le {i : Nat} (hi : i < 4) (p buf : List UInt8) : (get_4_loop p i buf).2.1 ≤ 4 := by
  induction p generalizing i buf with
  | nil => exact Nat.le_of_lt hi
  | cons c p ih =>
    unfold get_4_loop
    split
    · split
      case isTrue hfour => exact Nat.le_of_eq hfour
      case isFalse => exact ih (by omega) _
    · exact ih hi _

theorem length_get_4_loop (p : List UInt8) (i : Nat) (buf : List UInt8) :
    (get_4_loop p i buf).2.2.length = buf.length := by
  induction p generalizing i buf with
  | nil => rfl
  | cons c p ih =>
    unfold get_4_loop
    split
    · split
      · exact List.length_set
      · rw [ih, List.length_set]
    · exact ih i buf

/-- What `get_4` leaves: the context, `*in`, the characters it points to and
    `*n_non_newline`. -/
structure Get4 where
  ctx : base64_decode_context
  in_ : List UInt8
  non_nl : List UInt8
  n_non_newline : Nat
deriving DecidableEq, Repr

def get_4 (ctx : base64_decode_context) (in_ : List UInt8) : Get4 :=
  let i := if ctx.i = 4 then 0 else ctx.i
  have hi : i < 4 := by
    have hle := ctx.le
    dsimp only [i]
    split <;> omega
  if i = 0 ∧ 4 ≤ in_.length ∧ LF ∉ in_.take 4 then
    -- the common case: no newline
    { ctx := { ctx with i := i, le := Nat.le_of_lt hi }, in_ := in_.drop 4, non_nl := in_, n_non_newline := 4 }
  else
    let copied := get_4_loop in_ i ctx.buf
    { ctx :=
        { i := copied.2.1
          buf := copied.2.2
          le := get_4_loop_le hi in_ ctx.buf
          size := (length_get_4_loop in_ i ctx.buf).trans ctx.size }
      in_ := copied.1
      non_nl := copied.2.2
      n_non_newline := copied.2.1 }

/-! ## The loop -/

/-- The inner loop: fours of characters as long as they are decoded. The result is
    `in`, the output and `outleft_save`. -/
def decode_fours : Nat → List UInt8 → Output → Except Fault (List UInt8 × Output × Nat)
  | 0, _, _ => .error .outOfFuel
  | fuel + 1, in_, o => do
    let (decoded, o') ← decode_4 in_ in_.length o
    if decoded then decode_fours fuel (in_.drop 4) o' else .ok (in_, o', o.outleft)

/-- One turn of the outer loop behind the inner loop. `inlen` is the length of `in_` up
    to the call of `get_4`; what it is at the end is returned. `again` is the next
    turn. -/
def decode_turn (flush_ctx : Bool)
    (again : Option base64_decode_context → List UInt8 → Output →
      Except Fault (Option base64_decode_context × Output × Nat))
    (ctx : Option base64_decode_context) (in_ : List UInt8) (o : Output) (outleft_save : Nat) :
    Except Fault (Option base64_decode_context × Output × Nat) :=
  if in_.length = 0 ∧ !flush_ctx then .ok (ctx, o, in_.length)
  else if in_.head? = some LF ∧ ctx.isSome then again ctx in_.tail o
  else
    let o := o.restore outleft_save
    match ctx with
    | some ctx =>
      let got := get_4 ctx in_
      if got.n_non_newline = 0 ∨ (got.n_non_newline < 4 ∧ !flush_ctx) then .ok (some got.ctx, o, 0)
      else do
        let (decoded, o) ← decode_4 got.non_nl got.n_non_newline o
        if decoded then again (some got.ctx) got.in_ o else .ok (some got.ctx, o, got.n_non_newline)
    | none => do
      -- `inlen` is not 0 here
      let (decoded, o) ← decode_4 in_ in_.length o
      if decoded then again none in_ o else .ok (none, o, in_.length)

def base64_decode_ctx_loop (ctx_i : Nat) (flush_ctx : Bool) :
    Nat → Option base64_decode_context → List UInt8 → Output →
      Except Fault (Option base64_decode_context × Output × Nat)
  | 0, _, _, _ => .error .outOfFuel
  | fuel + 1, ctx, in_, o =>
    if ctx_i = 0 ∧ !flush_ctx then do
      let (in_, o, outleft_save) ← decode_fours (in_.length + 1) in_ o
      decode_turn flush_ctx (base64_decode_ctx_loop ctx_i flush_ctx fuel) ctx in_ o outleft_save
    else decode_turn flush_ctx (base64_decode_ctx_loop ctx_i flush_ctx fuel) ctx in_ o o.outleft

/-- What a call leaves: the context, the bytes it decoded, which are as many as
    `*outlen` says, and the returned value. -/
structure Decoded where
  ctx : Option base64_decode_context
  out : List UInt8
  ok : Bool
deriving DecidableEq, Repr

def base64_decode_ctx (ctx : Option base64_decode_context) (in_ : List UInt8) (outlen : Nat) :
    Except Fault Decoded := do
  let ctx_i := ctx.elim 0 (·.i)
  let flush_ctx := ctx.isSome && in_.length = 0
  let (ctx, o, inlen) ←
    base64_decode_ctx_loop ctx_i flush_ctx (in_.length + 1) ctx in_ { out := [], outleft := outlen }
  .ok { ctx, out := o.out, ok := inlen = 0 }

/-- What a call leaves that allocates its output: the context, the bytes at `*out`, if
    it is not null, and the returned value. -/
structure DecodedAlloc where
  ctx : Option base64_decode_context
  out : Option (List UInt8)
  ok : Bool
deriving DecidableEq, Repr

/-- `malloc` says which requests are granted. -/
def base64_decode_alloc_ctx (malloc : Nat → Bool) (ctx : Option base64_decode_context) (in_ : List UInt8) :
    Except Fault DecodedAlloc :=
  let needlen := 3 * (in_.length / 4) + 2
  if malloc needlen then do
    let d ← base64_decode_ctx ctx in_ needlen
    .ok { ctx := d.ctx, out := if d.ok then some d.out else none, ok := d.ok }
  else .ok { ctx, out := none, ok := true }

/-! ## Four characters -/

/-- The bytes of the characters at the front, and whether these are four characters
    that end where padding says so. -/
def quad : List UInt8 → List UInt8 × Bool
  | in0 :: in1 :: in_ =>
    if isbase64 in0 && isbase64 in1 then
      let byte0 := ((digit in0 <<< 2) ||| (digit in1 >>> 4)).toUInt8
      match in_ with
      | [] => ([byte0], false)
      | in2 :: in_ =>
        if in2 = '='.toUInt8 then ([byte0], in_ = ['='.toUInt8])
        else if isbase64 in2 then
          let byte1 := ((digit in1 <<< 4 &&& 0xf0) ||| (digit in2 >>> 2)).toUInt8
          match in_ with
          | [] => ([byte0, byte1], false)
          | in3 :: in_ =>
            if in3 = '='.toUInt8 then ([byte0, byte1], in_ = [])
            else if isbase64 in3 then
              ([byte0, byte1, ((digit in2 <<< 6 &&& 0xc0) ||| digit in3).toUInt8], true)
            else ([byte0, byte1], false)
        else ([byte0], false)
    else ([], false)
  | _ => ([], false)

/-- Bytes are put as far as there is room. -/
def Output.puts (o : Output) (bytes : List UInt8) : Output :=
  { out := o.out ++ bytes.take o.outleft, outleft := o.outleft - bytes.length }

theorem Output.puts_nil (o : Output) : o.puts [] = o := by simp [puts]

theorem Output.puts_append (o : Output) (bytes more : List UInt8) :
    (o.puts bytes).puts more = o.puts (bytes ++ more) := by
  simp only [puts, List.append_assoc, List.take_append, List.length_append, Nat.sub_sub]

theorem Output.put_eq (o : Output) (x : UInt8) : o.put x = o.puts [x] := by
  obtain ⟨out, outleft⟩ := o
  cases outleft <;> simp [put, puts]

/-- Going back takes away what was put. -/
theorem Output.restore_puts (o : Output) (bytes : List UInt8) : (o.puts bytes).restore o.outleft = o := by
  obtain ⟨out, outleft⟩ := o
  have hlen : (out ++ bytes.take outleft).length - (outleft - (outleft - bytes.length)) = out.length := by
    rw [List.length_append, List.length_take]
    omega
  simp only [puts, restore, hlen, List.take_left']

/-- `decode_4` reads within its characters and decodes what `quad` says, as far as
    there is room. -/
theorem decode_4_eq {in_ : List UInt8} {n : Nat} (hn : n ≤ in_.length) (o : Output) :
    decode_4 in_ n o = .ok ((quad (in_.take n)).2, o.puts (quad (in_.take n)).1) := by
  obtain ⟨t, beyond, rfl, rfl⟩ : ∃ t beyond, in_ = t ++ beyond ∧ n = t.length :=
    ⟨in_.take n, in_.drop n, (List.take_append_drop n in_).symm, (List.length_take_of_le hn).symm⟩
  rw [List.take_left' rfl]
  match t with
  | [] | [_] => simp [decode_4, quad, Output.puts_nil]
  | in0 :: in1 :: t =>
    have hload0 : load (in0 :: in1 :: t ++ beyond) 0 = .ok in0 := rfl
    have hload1 : load (in0 :: in1 :: t ++ beyond) 1 = .ok in1 := rfl
    unfold decode_4 quad
    rw [if_neg (by simp), hload0, ok_bind, hload1, ok_bind, ← Bool.not_and]
    simp only [Output.put_eq]
    cases isbase64 in0 && isbase64 in1 with
    | false => simp [Output.puts_nil]
    | true =>
      match t with
      | [] => simp
      | in2 :: t =>
        have hload2 : load (in0 :: in1 :: in2 :: t ++ beyond) 2 = .ok in2 := rfl
        rw [Bool.not_true, if_neg (by decide), if_neg (by simp), if_pos rfl, hload2, ok_bind]
        dsimp only
        by_cases hpad : in2 = '='.toUInt8
        · rw [if_pos hpad, if_pos hpad]
          match t with
          | [] | _ :: _ :: _ => simp
          | [in3] => simp [load, ok_bind]
        · rw [if_neg hpad, if_neg hpad]
          cases isbase64 in2 with
          | false => simp
          | true =>
            match t with
            | [] => simp [Output.puts_append]
            | in3 :: t =>
              have hload3 : load (in0 :: in1 :: in2 :: in3 :: t ++ beyond) 3 = .ok in3 := rfl
              rw [Bool.not_true, if_neg (by decide), if_neg (by simp), if_pos rfl, hload3, ok_bind]
              dsimp only
              rw [Output.puts_append, Output.puts_append]
              by_cases hlast : in3 = '='.toUInt8
              · simp [hlast]
              · rw [if_neg hlast, if_neg hlast]
                cases isbase64 in3 <;> simp

theorem quad_nil : quad [] = ([], false) := rfl

theorem not_isbase64_LF : isbase64 LF = false := by decide +kernel

theorem quad_LF (s : List UInt8) : quad (LF :: s) = ([], false) := by
  cases s with
  | nil => rfl
  | cons in1 s => simp [quad, not_isbase64_LF]

/-- Fewer than four characters are not accepted. -/
theorem quad_short {t : List UInt8} (ht : t.length < 4) : (quad t).2 = false := by
  match t with
  | [] | [_] => rfl
  | [in0, in1] =>
    unfold quad
    dsimp only
    split <;> rfl
  | [in0, in1, in2] =>
    unfold quad
    dsimp only
    split
    · split
      · rfl
      · split <;> rfl
    · rfl
  | _ :: _ :: _ :: _ :: _ =>
    simp at ht
    omega

/-- What is accepted are four characters, none of them a newline; padding is accepted
    only at the end of the input. -/
theorem quad_accepts {s : List UInt8} (hs : (quad s).2 = true) :
    4 ≤ s.length ∧ quad (s.take 4) = quad s ∧ LF ∉ s.take 4 := by
  match s with
  | [] | [_] => cases hs
  | [_, _] | [_, _, _] =>
    rw [quad_short (by simp)] at hs
    cases hs
  | in0 :: in1 :: in2 :: in3 :: s =>
    have hlen : 4 ≤ (in0 :: in1 :: in2 :: in3 :: s).length := by simp
    have htake : (in0 :: in1 :: in2 :: in3 :: s).take 4 = [in0, in1, in2, in3] := rfl
    have hfour : ∀ c, isbase64 c = true ∨ c = '='.toUInt8 → LF ≠ c := by
      rintro c hc rfl
      rw [not_isbase64_LF] at hc
      exact hc.elim nofun (by decide)
    refine ⟨hlen, ?_⟩
    rw [htake]
    unfold quad at hs ⊢
    dsimp only at hs ⊢
    split at hs
    case isFalse => cases hs
    case isTrue hfirst =>
      obtain ⟨h0, h1⟩ := Bool.and_eq_true_iff.mp hfirst
      have hsymbols : ∀ {c d : UInt8}, (isbase64 c = true ∨ c = '='.toUInt8) → (isbase64 d = true ∨ d = '='.toUInt8) →
          LF ∉ [in0, in1, c, d] := by
        intro c d hc hd
        simp [hfour in0 (Or.inl h0), hfour in1 (Or.inl h1), hfour c hc, hfour d hd]
      rw [if_pos hfirst, if_pos hfirst]
      split at hs
      case isTrue h2 =>
        rw [if_pos h2, if_pos h2]
        obtain ⟨rfl, rfl⟩ := List.cons_eq_cons.mp (of_decide_eq_true hs)
        exact ⟨rfl, hsymbols (Or.inr h2) (Or.inr rfl)⟩
      case isFalse h2 =>
        rw [if_neg h2, if_neg h2]
        split at hs
        case isFalse => cases hs
        case isTrue h2' =>
          rw [if_pos h2', if_pos h2']
          split at hs
          case isTrue h3 =>
            obtain rfl := of_decide_eq_true hs
            exact ⟨rfl, hsymbols (Or.inl h2') (Or.inr h3)⟩
          case isFalse h3 =>
            rw [if_neg h3, if_neg h3]
            split at hs
            case isFalse => cases hs
            case isTrue h3' => exact ⟨by rw [if_pos h3'], hsymbols (Or.inl h2') (Or.inl h3')⟩

end code_tools.base64
