import CodeTools.Base64.Decode

/-!
# Decoding a stream of calls

What a context keeps is the beginning of the next four characters, so the calls
decode the text that they are given without its newlines, four characters at a
time.
-/

namespace code_tools.base64

open blocks cmem cstring

/-- A text without its newlines. -/
def unwrapped (s : List UInt8) : List UInt8 := s.filter (· ≠ LF)

/-- The characters that a context keeps for the next call. -/
def base64_decode_context.pending (ctx : base64_decode_context) : List UInt8 := ctx.buf.take (ctx.i % 4)

theorem length_pending (ctx : base64_decode_context) : ctx.pending.length = ctx.i % 4 := by
  rw [base64_decode_context.pending, List.length_take_of_le (by rw [ctx.size]; omega)]

theorem unwrapped_nil : unwrapped [] = [] := rfl

theorem unwrapped_append (s t : List UInt8) : unwrapped (s ++ t) = unwrapped s ++ unwrapped t :=
  List.filter_append s t

theorem unwrapped_of_notMem {s : List UInt8} (hs : LF ∉ s) : unwrapped s = s := by
  rw [unwrapped, List.filter_eq_self]
  intro c hc
  simp only [ne_eq, decide_eq_true_eq]
  rintro rfl
  exact hs hc

/-! ## The four characters that are next -/

theorem get_4_loop_spec {i : Nat} (hi : i < 4) (p : List UInt8) {buf : List UInt8} (hbuf : buf.length = 4) :
    ∃ taken, p = taken ++ (get_4_loop p i buf).1 ∧
      (get_4_loop p i buf).2.2.take (get_4_loop p i buf).2.1 = buf.take i ++ unwrapped taken ∧
      (get_4_loop p i buf).2.1 = i + (unwrapped taken).length ∧
      ((get_4_loop p i buf).2.1 < 4 → (get_4_loop p i buf).1 = []) := by
  induction p generalizing i buf with
  | nil => exact ⟨[], rfl, (List.append_nil _).symm, rfl, fun _ => rfl⟩
  | cons c p ih =>
    unfold get_4_loop
    by_cases hc : c ≠ LF
    · have hset : (buf.set i c).take (i + 1) = buf.take i ++ [c] := by
        rw [List.take_add_one, List.take_set_of_le (Nat.le_refl i), List.getElem?_set_self (by omega)]
        rfl
      rw [if_pos hc]
      by_cases hfour : i + 1 = 4
      · rw [if_pos hfour]
        refine ⟨[c], rfl, ?_, ?_, fun h => absurd h (by dsimp only; omega)⟩
        · simpa [unwrapped, hc] using hset
        · simp [unwrapped, hc]
      · rw [if_neg hfour]
        have hlen : (buf.set i c).length = 4 := by rw [List.length_set, hbuf]
        obtain ⟨taken, hp, htake, hi', hend⟩ := ih (by omega : i + 1 < 4) hlen
        refine ⟨c :: taken, congrArg (c :: ·) hp, ?_, ?_, hend⟩
        · rw [htake, hset, List.append_assoc]
          simp [unwrapped, hc]
        · rw [hi']
          simp [unwrapped, hc]
          omega
    · rw [if_neg hc]
      obtain ⟨taken, hp, htake, hi', hend⟩ := ih hi hbuf
      have hskip : unwrapped (c :: taken) = unwrapped taken := by
        rw [unwrapped, List.filter_cons_of_neg (by simpa using hc), unwrapped]
      exact ⟨c :: taken, congrArg (c :: ·) hp, by rw [hskip, htake], by rw [hskip, hi'], hend⟩

/-- `get_4` hands out what the context keeps and what it takes of the input, four
    characters if it can. -/
theorem get_4_spec (ctx : base64_decode_context) (in_ : List UInt8) :
    ∃ taken, in_ = taken ++ (get_4 ctx in_).in_ ∧ (get_4 ctx in_).n_non_newline ≤ (get_4 ctx in_).non_nl.length ∧
      (get_4 ctx in_).non_nl.take (get_4 ctx in_).n_non_newline = ctx.pending ++ unwrapped taken ∧
      ((get_4 ctx in_).n_non_newline = 4 ∧ (get_4 ctx in_).ctx.pending = [] ∨
        (get_4 ctx in_).n_non_newline < 4 ∧ (get_4 ctx in_).in_ = [] ∧
          (get_4 ctx in_).ctx.pending = ctx.pending ++ unwrapped taken) := by
  have hmod : (if ctx.i = 4 then 0 else ctx.i) = ctx.i % 4 := by
    have hle := ctx.le
    split <;> omega
  unfold get_4
  simp only [hmod]
  by_cases hcommon : ctx.i % 4 = 0 ∧ 4 ≤ in_.length ∧ LF ∉ in_.take 4
  · obtain ⟨hzero, hlen, hnone⟩ := hcommon
    rw [if_pos ⟨hzero, hlen, hnone⟩]
    have hpending : ctx.pending = [] := by rw [base64_decode_context.pending, hzero, List.take_zero]
    refine ⟨in_.take 4, (List.take_append_drop 4 in_).symm, hlen, ?_, Or.inl ⟨rfl, ?_⟩⟩
    · rw [hpending, unwrapped_of_notMem hnone, List.nil_append]
    · simp [base64_decode_context.pending, hzero]
  · rw [if_neg hcommon]
    obtain ⟨taken, hin, htake, hi, hend⟩ :=
      get_4_loop_spec (Nat.mod_lt ctx.i (by decide)) in_ ctx.size
    have hle := get_4_loop_le (Nat.mod_lt ctx.i (by decide)) in_ ctx.buf
    have hsize := length_get_4_loop in_ (ctx.i % 4) ctx.buf
    have hbuf := ctx.size
    refine ⟨taken, hin, by dsimp only; omega, htake, ?_⟩
    by_cases hfour : (get_4_loop in_ (ctx.i % 4) ctx.buf).2.1 = 4
    · exact Or.inl ⟨hfour, by simp [base64_decode_context.pending, hfour]⟩
    · have hlt : (get_4_loop in_ (ctx.i % 4) ctx.buf).2.1 < 4 := by omega
      refine Or.inr ⟨hlt, hend hlt, ?_⟩
      simp only [base64_decode_context.pending, Nat.mod_eq_of_lt hlt]
      exact htake

/-! ## Fours of characters -/

/-- The inner loop decodes what is accepted in place and tries what follows it. -/
theorem decode_fours_spec {fuel : Nat} {in_ : List UInt8} (hfuel : in_.length < fuel) (o : Output) :
    ∃ front back bytes, in_ = front ++ back ∧ LF ∉ front ∧ decode quad 4 front = (bytes, some []) ∧
      decode_fours fuel in_ o = .ok (back, (o.puts bytes).puts (quad back).1, (o.puts bytes).outleft) := by
  induction fuel generalizing in_ o with
  | zero => omega
  | succ fuel ih =>
    unfold decode_fours
    rw [decode_4_eq (Nat.le_refl _), List.take_length, ok_bind]
    cases haccepts : (quad in_).2 with
    | false =>
      refine ⟨[], in_, [], rfl, List.not_mem_nil, decode_of_lt (by decide), ?_⟩
      rw [Output.puts_nil]
      rfl
    | true =>
      obtain ⟨hlen, hquad, hnone⟩ := quad_accepts haccepts
      obtain ⟨front, back, bytes, hin, hfront, hdecode, hloop⟩ :=
        ih (by rw [List.length_drop]; omega : (in_.drop 4).length < fuel) (o.puts (quad in_).1)
      refine ⟨in_.take 4 ++ front, back, (quad in_).1 ++ bytes, ?_, ?_, ?_, ?_⟩
      · rw [List.append_assoc, ← hin, List.take_append_drop]
      · rw [List.mem_append]
        exact fun hmem => hmem.elim hnone hfront
      · have hblock : quad (in_.take 4) = ((quad in_).1, true) := by rw [hquad, ← haccepts]
        rw [decode_block_append (by decide) (List.length_take_of_le hlen) hblock, hdecode]
      · dsimp only
        rw [if_pos rfl, hloop, ← Output.puts_append]

/-! ## One call -/

/-- The context that is left and the final `inlen`, where the text was decoded as `r`. -/
def Leaves (ctx : base64_decode_context) (inlen : Nat) (r : List UInt8 × Option (List UInt8)) : Prop :=
  match r.2 with
  | none => inlen ≠ 0
  | some rest => inlen = 0 ∧ ctx.pending = rest

/-- One turn, if the turns after it decode what they are given. What the inner loop
    tried in vain is taken back. -/
theorem decode_turn_spec {ctx : base64_decode_context} {in_ tried : List UInt8} {o : Output}
    {again : Option base64_decode_context → List UInt8 → Output →
      Except Fault (Option base64_decode_context × Output × Nat)}
    (htried : in_ = [] ∨ in_.head? = some LF → tried = [])
    (hagain : ∀ ctx' in_' o', in_'.length < in_.length → ctx'.pending = [] ∨ ctx' = ctx →
      ∃ ctx'' inlen, again (some ctx') in_' o' =
          .ok (some ctx'', o'.puts (decode quad 4 (ctx'.pending ++ unwrapped in_')).1, inlen) ∧
        Leaves ctx'' inlen (decode quad 4 (ctx'.pending ++ unwrapped in_'))) :
    ∃ ctx' inlen, decode_turn false again (some ctx) in_ (o.puts tried) o.outleft =
        .ok (some ctx', o.puts (decode quad 4 (ctx.pending ++ unwrapped in_)).1, inlen) ∧
      Leaves ctx' inlen (decode quad 4 (ctx.pending ++ unwrapped in_)) := by
  have hfew : ctx.pending.length < 4 := by
    rw [length_pending]
    exact Nat.mod_lt _ (by decide)
  unfold decode_turn
  cases in_ with
  | nil =>
    have hdecode : decode quad 4 (ctx.pending ++ unwrapped []) = ([], some ctx.pending) := by
      rw [unwrapped_nil, List.append_nil, decode_of_lt hfew]
    rw [if_pos ⟨rfl, rfl⟩, hdecode, htried (Or.inl rfl)]
    exact ⟨ctx, 0, rfl, rfl, rfl⟩
  | cons c rest =>
    rw [if_neg (by simp)]
    by_cases hc : c = LF
    · have hskip : unwrapped (c :: rest) = unwrapped rest := by
        rw [unwrapped, List.filter_cons_of_neg (by simpa using hc), unwrapped]
      rw [if_pos ⟨by rw [hc]; rfl, rfl⟩, hskip, htried (Or.inr (by rw [hc]; rfl)), Output.puts_nil]
      exact hagain ctx rest o (Nat.lt_succ_self _) (Or.inr rfl)
    · obtain ⟨taken, hin, hroom, hblock, hnext⟩ := get_4_spec ctx (c :: rest)
      have hn : (get_4 ctx (c :: rest)).n_non_newline = (ctx.pending ++ unwrapped taken).length := by
        rw [← hblock, List.length_take_of_le hroom]
      have htext : unwrapped (c :: rest) = unwrapped taken ++ unwrapped (get_4 ctx (c :: rest)).in_ := by
        rw [← unwrapped_append, ← hin]
      rw [if_neg (by simpa using hc), Output.restore_puts, htext, ← List.append_assoc]
      dsimp only
      rcases hnext with ⟨hfour, hpending⟩ | ⟨hlt, hend, hpending⟩
      · have hshorter : (get_4 ctx (c :: rest)).in_.length < (c :: rest).length := by
          have hlen := congrArg List.length hin
          rw [List.length_append] at hlen
          have htaken : taken ≠ [] := by
            rintro rfl
            rw [hfour, unwrapped_nil, List.append_nil] at hn
            omega
          have hpos := List.length_pos_iff.mpr htaken
          omega
        rw [if_neg (by omega), decode_4_eq hroom, hblock, ok_bind]
        dsimp only
        cases haccepts : (quad (ctx.pending ++ unwrapped taken)).2 with
        | true =>
          have hdecode := decode_block_append (by decide) (hn.symm.trans hfour) (Prod.ext rfl haccepts)
            (unwrapped (get_4 ctx (c :: rest)).in_)
          obtain ⟨ctx', inlen, hloop, hleaves⟩ := hagain (get_4 ctx (c :: rest)).ctx (get_4 ctx (c :: rest)).in_
            (o.puts (quad (ctx.pending ++ unwrapped taken)).1) hshorter (Or.inl hpending)
          rw [hpending, List.nil_append, Output.puts_append] at hloop
          rw [hpending, List.nil_append] at hleaves
          rw [if_pos rfl, hdecode]
          exact ⟨ctx', inlen, hloop, hleaves⟩
        | false =>
          have hlen : 4 ≤ (ctx.pending ++ unwrapped taken ++ unwrapped (get_4 ctx (c :: rest)).in_).length := by
            rw [List.length_append, ← hn]
            omega
          have hdecode := decode_of_refuses (by decide) hlen
            (by rw [List.take_left' (hn.symm.trans hfour)]; exact Prod.ext rfl haccepts)
          rw [if_neg (by decide), hdecode]
          exact ⟨_, _, rfl, by dsimp only [Leaves]; omega⟩
      · have hdecode : decode quad 4 (ctx.pending ++ unwrapped taken) = ([], some (ctx.pending ++ unwrapped taken)) :=
          decode_of_lt (by omega)
        rw [if_pos (Or.inr ⟨hlt, rfl⟩), hend, unwrapped_nil, List.append_nil, hdecode, Output.puts_nil]
        exact ⟨_, 0, rfl, rfl, hpending⟩

theorem base64_decode_ctx_loop_spec {ctx_i fuel : Nat} {ctx : base64_decode_context} {in_ : List UInt8}
    (hctx : ctx_i = 0 → ctx.pending = []) (hfuel : in_.length < fuel) (o : Output) :
    ∃ ctx' inlen, base64_decode_ctx_loop ctx_i false fuel (some ctx) in_ o =
        .ok (some ctx', o.puts (decode quad 4 (ctx.pending ++ unwrapped in_)).1, inlen) ∧
      Leaves ctx' inlen (decode quad 4 (ctx.pending ++ unwrapped in_)) := by
  induction fuel generalizing ctx in_ o with
  | zero => omega
  | succ fuel ih =>
    unfold base64_decode_ctx_loop
    have hagain : ∀ ctx' in_' o', in_'.length < in_.length → ctx'.pending = [] ∨ ctx' = ctx →
        ∃ ctx'' inlen, base64_decode_ctx_loop ctx_i false fuel (some ctx') in_' o' =
            .ok (some ctx'', o'.puts (decode quad 4 (ctx'.pending ++ unwrapped in_')).1, inlen) ∧
          Leaves ctx'' inlen (decode quad 4 (ctx'.pending ++ unwrapped in_')) := by
      intro ctx' in_' o' hshorter hctx'
      refine ih (fun hzero => ?_) (by omega) o'
      rcases hctx' with hpending | rfl
      · exact hpending
      · exact hctx hzero
    by_cases hfast : ctx_i = 0 ∧ (!false) = true
    · obtain ⟨front, back, bytes, rfl, hfront, hdecode, hfours⟩ := decode_fours_spec (Nat.lt_succ_self in_.length) o
      have htried : back = [] ∨ back.head? = some LF → (quad back).1 = [] := by
        rintro (rfl | hhead)
        · rfl
        · obtain ⟨rest, rfl⟩ : ∃ rest, back = LF :: rest := by
            cases back with
            | nil => cases hhead
            | cons c rest => exact ⟨rest, by rw [Option.some.inj hhead]⟩
          rw [quad_LF]
      obtain ⟨ctx', inlen, hturn, hleaves⟩ := decode_turn_spec (o := o.puts bytes) htried fun ctx' in_' o' hshorter =>
        hagain ctx' in_' o' (by rw [List.length_append]; omega)
      rw [hctx hfast.1, List.nil_append] at hturn hleaves ⊢
      rw [if_pos hfast, hfours, ok_bind]
      dsimp only
      rw [hturn, Output.puts_append, unwrapped_append, unwrapped_of_notMem hfront, decode_append (by decide), hdecode]
      exact ⟨ctx', inlen, rfl, hleaves⟩
    · rw [if_neg hfast]
      have hturn := @decode_turn_spec ctx in_ [] o _ (fun _ => rfl) hagain
      rwa [Output.puts_nil] at hturn

/-- A call with input decodes what was kept and its own text, and keeps what is no
    four characters. It stores as many bytes as there is room for. -/
theorem base64_decode_ctx_spec (ctx : base64_decode_context) {in_ : List UInt8} (hin : in_ ≠ []) (outlen : Nat) :
    ∃ ctx', base64_decode_ctx (some ctx) in_ outlen = .ok
        { ctx := some ctx'
          out := (decode quad 4 (ctx.pending ++ unwrapped in_)).1.take outlen
          ok := (decode quad 4 (ctx.pending ++ unwrapped in_)).2.isSome } ∧
      ∀ rest, (decode quad 4 (ctx.pending ++ unwrapped in_)).2 = some rest → ctx'.pending = rest := by
  have hctx : ctx.i = 0 → ctx.pending = [] := by
    intro hzero
    rw [base64_decode_context.pending, hzero]
    rfl
  obtain ⟨ctx', inlen, hloop, hleaves⟩ :=
    base64_decode_ctx_loop_spec hctx (Nat.lt_succ_self in_.length) { out := [], outleft := outlen }
  have hflush : ((some ctx).isSome && decide (in_.length = 0)) = false := by simpa using hin
  unfold base64_decode_ctx
  rw [hflush]
  dsimp only [Option.elim_some]
  rw [hloop, ok_bind]
  refine ⟨ctx', ?_, fun rest hrest => ?_⟩
  · cases hrest : (decode quad 4 (ctx.pending ++ unwrapped in_)).2 with
    | none =>
      have hinlen : inlen ≠ 0 := by rwa [Leaves, hrest] at hleaves
      simp [Output.puts, hinlen]
    | some rest =>
      rw [Leaves, hrest] at hleaves
      simp [Output.puts, hleaves.1]
  · rw [Leaves, hrest] at hleaves
    exact hleaves.2

/-- A call without input reports whether anything was kept. What was kept is too short
    to be accepted; its first bytes are decoded all the same. -/
theorem base64_decode_ctx_flush (ctx : base64_decode_context) (outlen : Nat) :
    ∃ ctx', base64_decode_ctx (some ctx) [] outlen = .ok
      { ctx := some ctx'
        out := (quad ctx.pending).1.take outlen
        ok := ctx.pending = [] } := by
  obtain ⟨taken, hin, hroom, hblock, _⟩ := get_4_spec ctx []
  obtain ⟨rfl, _⟩ := List.append_eq_nil_iff.mp hin.symm
  rw [unwrapped_nil, List.append_nil] at hblock
  have hn : (get_4 ctx []).n_non_newline = ctx.pending.length := by
    rw [← hblock, List.length_take_of_le hroom]
  have hfew : ctx.pending.length < 4 := by
    rw [length_pending]
    exact Nat.mod_lt _ (by decide)
  refine ⟨(get_4 ctx []).ctx, ?_⟩
  have hflush : ((some ctx).isSome && decide (([] : List UInt8).length = 0)) = true := rfl
  unfold base64_decode_ctx
  rw [hflush]
  dsimp only [Option.elim_some]
  unfold base64_decode_ctx_loop
  rw [if_neg (by simp)]
  unfold decode_turn
  rw [if_neg (by simp), if_neg (by simp)]
  dsimp only
  rw [hn]
  by_cases hkept : ctx.pending = []
  · rw [if_pos (Or.inl (by rw [hkept]; rfl)), ok_bind, hkept, quad_nil]
    simp [Output.restore]
  · have hpos := List.length_pos_iff.mpr hkept
    rw [if_neg (by simp; omega), decode_4_eq (by omega), ← hn, hblock, hn, ok_bind, quad_short hfew]
    simp [Output.restore, Output.puts, hkept, ok_bind]

/-! ## The room that is needed -/

theorem length_quad_le (t : List UInt8) : (quad t).1.length ≤ 3 := by
  match t with
  | [] | [_] => simp [quad]
  | [_, _] | [_, _, _] | _ :: _ :: _ :: _ :: _ =>
    unfold quad
    dsimp only
    split_ifs <;> simp

theorem length_quad_short {t : List UInt8} (ht : t.length < 4) : (quad t).1.length ≤ 2 := by
  match t with
  | [] | [_] => simp [quad]
  | [_, _] | [_, _, _] =>
    unfold quad
    dsimp only
    split_ifs <;> simp
  | _ :: _ :: _ :: _ :: _ =>
    simp at ht
    omega

/-- Four characters are at most three bytes. -/
theorem length_decode_le (t : List UInt8) : (decode quad 4 t).1.length ≤ 3 * (t.length / 4) := by
  induction hlen : t.length using Nat.strongRecOn generalizing t with
  | ind len ih =>
    subst hlen
    by_cases hblock : 4 ≤ t.length
    · have hfirst := length_quad_le (t.take 4)
      cases hf : quad (t.take 4) with
      | mk out accepted =>
        rw [hf] at hfirst
        dsimp only at hfirst
        cases accepted with
        | true =>
          have hrest := ih (t.drop 4).length (by rw [List.length_drop]; omega) (t.drop 4) rfl
          rw [List.length_drop] at hrest
          rw [decode_of_accepts (by decide) hblock hf, List.length_append]
          omega
        | false =>
          rw [decode_of_refuses (by decide) hblock hf]
          dsimp only
          omega
    · rw [decode_of_lt (by omega)]
      simp

theorem length_unwrapped_le (s : List UInt8) : (unwrapped s).length ≤ s.length := List.length_filter_le _ _

/-! ## Calls in a row -/

/-- The calls that decode a text in pieces, each with room for `outlen` bytes, up to one
    that fails. The last call has no input. -/
def decode_calls : Option base64_decode_context → List (List UInt8 × Nat) → Nat → Except Fault (List UInt8 × Bool)
  | ctx, [], outlen => do
    let d ← base64_decode_ctx ctx [] outlen
    .ok (d.out, d.ok)
  | ctx, (in_, outlen) :: calls, last => do
    let d ← base64_decode_ctx ctx in_ outlen
    if d.ok then
      let (out, ok) ← decode_calls d.ctx calls last
      .ok (d.out ++ out, ok)
    else .ok (d.out, false)

/-- The text of the calls. -/
def text (calls : List (List UInt8 × Nat)) : List UInt8 := unwrapped (calls.map Prod.fst).flatten

/-- Every piece is something and has room for what it can complete. -/
def Roomy (calls : List (List UInt8 × Nat)) : Prop :=
  ∀ call ∈ calls, call.1 ≠ [] ∧ 3 * (call.1.length / 4 + 1) ≤ call.2

/-- What a text stands for, and whether it is whole. -/
def decoded (t : List UInt8) : List UInt8 × Bool :=
  match decode quad 4 t with
  | (out, none) => (out, false)
  | (out, some rest) => (out ++ (quad rest).1, rest = [])

theorem decode_calls_spec (ctx : base64_decode_context) {calls : List (List UInt8 × Nat)} (hcalls : Roomy calls)
    {last : Nat} (hlast : 2 ≤ last) :
    decode_calls (some ctx) calls last = .ok (decoded (ctx.pending ++ text calls)) := by
  induction calls generalizing ctx with
  | nil =>
    have hfew : ctx.pending.length < 4 := by
      rw [length_pending]
      exact Nat.mod_lt _ (by decide)
    obtain ⟨ctx', hcall⟩ := base64_decode_ctx_flush ctx last
    unfold decode_calls
    rw [hcall, ok_bind, List.take_of_length_le (Nat.le_trans (length_quad_short hfew) hlast)]
    have htext : text [] = [] := rfl
    rw [htext, List.append_nil, decoded, decode_of_lt hfew]
    rfl
  | cons call calls ih =>
    obtain ⟨in_, outlen⟩ := call
    obtain ⟨⟨hin, hroom⟩, hrest⟩ := List.forall_mem_cons.mp hcalls
    obtain ⟨ctx', hcall, hkept⟩ := base64_decode_ctx_spec ctx hin outlen
    have htext : text ((in_, outlen) :: calls) = unwrapped in_ ++ text calls := by
      rw [text, List.map_cons, List.flatten_cons, unwrapped_append, text]
    have hfits : (decode quad 4 (ctx.pending ++ unwrapped in_)).1.length ≤ outlen := by
      have hle := length_decode_le (ctx.pending ++ unwrapped in_)
      have hshort := length_unwrapped_le in_
      rw [List.length_append, length_pending] at hle
      dsimp only at hroom
      omega
    have happend := decode_append (f := quad) (n := 4) (by decide) (ctx.pending ++ unwrapped in_) (text calls)
    unfold decode_calls
    rw [hcall, ok_bind, List.take_of_length_le hfits, htext, ← List.append_assoc, decoded, happend]
    cases hdecode : decode quad 4 (ctx.pending ++ unwrapped in_) with
    | mk out rest =>
      cases rest with
      | none => rfl
      | some rest =>
        have hpending := hkept rest (by rw [hdecode])
        dsimp only
        rw [Option.isSome_some, if_pos rfl, ih ctx' hrest, hpending, ok_bind, decoded]
        cases decode quad 4 (rest ++ text calls) with
        | mk more rest =>
          cases rest with
          | none => rfl
          | some rest => simp

end code_tools.base64
