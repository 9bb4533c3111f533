import CodeTools.Utf8str.Normalise

/-!
# Reading any bytes

What `utf8_strncpy` takes from its source when nothing is known of the source.
The loop looks at the first byte of a character alone: the bytes behind it come
along unseen, and the 32-bit index may wrap around.
-/

namespace code_tools.utf8str

open cmem cstring

/-- What a round of the loop does at its index: leave out a byte, take the bytes
    of a character and go on with a flag and an index, or break. -/
inductive Look where
  | skip
  | take (bytes : List UInt8) (flag : Bool) (i : UInt32)
  | stop

/-- The terminator is the last byte that is there to be taken. -/
def look (src : List UInt8) (slen : UInt32) (flag : Bool) (i : UInt32) : Look :=
  let c := (src ++ [0]).getD i.toNat 0
  if c = CR ∨ c = LF ∨ c = TAB then .skip
  else if c = SPACE then (if flag then .skip else .take [c] true (i + 1))
  else
    let tmp := utf8_check c
    if tmp > 0 ∧ i + tmp ≤ slen then .take (((src ++ [0]).drop i.toNat).take tmp.toNat) false (i + tmp)
    else .stop

/-- As many bytes as the first one announces. -/
def Whole (bytes : List UInt8) : Prop := bytes.head?.map (fun c => (utf8_check c).toNat) = some bytes.length

instance (bytes : List UInt8) : Decidable (Whole bytes) := inferInstanceAs (Decidable (_ = _))

theorem toNat_succ_of_lt {i slen : UInt32} (hi : i < slen) : (i + 1).toNat = i.toNat + 1 := by
  have hslen := slen.toNat_lt
  have hlt := UInt32.lt_iff_toNat_lt.mp hi
  exact toNat_add_of_lt (by rw [UInt32.toNat_one]; omega)

/-- The characters that the loop takes from index `i` on when `budget` may still be
    written. One that runs over the terminator is the last. -/
def characters_from (src : List UInt8) (slen : UInt32) (budget : Nat) (flag : Bool) (i : UInt32) :
    List (List UInt8) :=
  if _hlive : i < slen ∧ 0 < budget then
    match look src slen flag i with
    | .skip => characters_from src slen budget flag (i + 1)
    | .take bytes flag i =>
      bytes :: if Whole bytes then characters_from src slen (budget - 1) flag i else []
    | .stop => []
  else []
termination_by (budget, slen.toNat - i.toNat)
decreasing_by
  · apply Prod.Lex.right
    have hlt := UInt32.lt_iff_toNat_lt.mp _hlive.1
    rw [toNat_succ_of_lt _hlive.1]
    omega
  · exact Prod.Lex.left _ _ (Nat.sub_lt _hlive.2 Nat.one_pos)

def characters (src : List UInt8) (max : UInt32) : List (List UInt8) :=
  characters_from src (strlen src) max.toNat true 0

/-! ## One round -/

theorem utf8_check_SPACE : utf8_check SPACE = 1 := by decide

theorem getD_terminated {src : List UInt8} {i : Nat} (hi : i < src.length) : (src ++ [0]).getD i 0 = src[i] := by
  rw [List.getD_eq_getElem?_getD, List.getElem?_append_left hi, List.getElem?_eq_getElem hi, Option.getD_some]

/-- The characters that are taken begin with a byte that is no blank, and with a
    space only where the flag allows it. -/
structure Taken (src : List UInt8) (slen : UInt32) (flag : Bool) (i : UInt32) (c : UInt8) (bytes : List UInt8)
    (flag' : Bool) (i' : UInt32) : Prop where
  lead : src[i.toNat]? = some c
  notBlank : ¬(c = CR ∨ c = LF ∨ c = TAB)
  notAgain : c = SPACE → flag = false
  flag : flag' = decide (c = SPACE)
  index : i' = i + utf8_check c
  within : i' ≤ slen
  width : 0 < (utf8_check c).toNat
  bytes : bytes = ((src ++ [0]).drop i.toNat).take (utf8_check c).toNat

variable {src : List UInt8} {slen : UInt32} {flag : Bool} {i : UInt32}

theorem look_take {bytes : List UInt8} {flag' : Bool} {i' : UInt32}
    (hlook : look src slen flag i = .take bytes flag' i') (hi : i < slen) (hslen : slen.toNat ≤ src.length) :
    ∃ c, Taken src slen flag i c bytes flag' i' := by
  have hlt := UInt32.lt_iff_toNat_lt.mp hi
  have hin : i.toNat < src.length := by omega
  have hget : src[i.toNat]? = some src[i.toNat] := List.getElem?_eq_getElem hin
  refine ⟨src[i.toNat], ?_⟩
  unfold look at hlook
  rw [getD_terminated hin] at hlook
  dsimp only at hlook
  split at hlook
  case isTrue => cases hlook
  case isFalse hblank =>
  split at hlook
  case isTrue hspace =>
    split at hlook
    case isTrue => cases hlook
    case isFalse hflag =>
    obtain ⟨rfl, rfl, rfl⟩ := Look.take.inj hlook
    have hone : utf8_check src[i.toNat] = 1 := by rw [hspace, utf8_check_SPACE]
    refine ⟨hget, hblank, fun _ => by simpa using hflag, by simp [hspace], by rw [hone], ?_, by simp [hone], ?_⟩
    · rw [UInt32.le_iff_toNat_le, toNat_succ_of_lt hi]
      exact hlt
    · rw [hone, UInt32.toNat_one, List.drop_append_of_le_length (Nat.le_of_lt hin), List.drop_eq_getElem_cons hin]
      rfl
  case isFalse hspace =>
  split at hlook
  case isFalse => cases hlook
  case isTrue htmp =>
  obtain ⟨rfl, rfl, rfl⟩ := Look.take.inj hlook
  exact ⟨hget, hblank, fun heq => absurd heq hspace, by simp [hspace], rfl, htmp.2,
    UInt32.lt_iff_toNat_lt.mp htmp.1, rfl⟩

/-- These facts also determine what is taken. -/
theorem Taken.look_eq {c : UInt8} {bytes : List UInt8} {flag' : Bool} {i' : UInt32}
    (htaken : Taken src slen flag i c bytes flag' i') : look src slen flag i = .take bytes flag' i' := by
  obtain ⟨hin, hget⟩ := List.getElem?_eq_some_iff.mp htaken.lead
  unfold look
  rw [getD_terminated hin, hget]
  dsimp only
  rw [if_neg htaken.notBlank]
  by_cases hspace : c = SPACE
  · rw [if_pos hspace, htaken.notAgain hspace, if_neg Bool.false_ne_true, htaken.bytes, htaken.flag, htaken.index,
      hspace, utf8_check_SPACE, List.drop_append_of_le_length (Nat.le_of_lt hin), List.drop_eq_getElem_cons hin, hget,
      hspace]
    rfl
  · have hwithin := htaken.within
    rw [htaken.index] at hwithin
    rw [if_neg hspace, if_pos ⟨UInt32.lt_iff_toNat_lt.mpr htaken.width, hwithin⟩, htaken.bytes, htaken.flag,
      htaken.index]
    simp [hspace]

theorem Taken.cons {c : UInt8} {bytes : List UInt8} {flag' : Bool} {i' : UInt32}
    (htaken : Taken src slen flag i c bytes flag' i') : ∃ rest, bytes = c :: rest := by
  obtain ⟨hin, hget⟩ := List.getElem?_eq_some_iff.mp htaken.lead
  obtain ⟨width, hwidth⟩ := Nat.exists_eq_succ_of_ne_zero (Nat.ne_of_gt htaken.width)
  rw [htaken.bytes, List.drop_append_of_le_length (Nat.le_of_lt hin), List.drop_eq_getElem_cons hin, hget, hwidth]
  exact ⟨_, rfl⟩

theorem Taken.whole_iff {c : UInt8} {bytes : List UInt8} {flag' : Bool} {i' : UInt32}
    (htaken : Taken src slen flag i c bytes flag' i') :
    Whole bytes ↔ i.toNat + (utf8_check c).toNat ≤ (src ++ [0]).length := by
  obtain ⟨hin, _⟩ := List.getElem?_eq_some_iff.mp htaken.lead
  obtain ⟨rest, hrest⟩ := htaken.cons
  have hlength : bytes.length = min (utf8_check c).toNat ((src ++ [0]).length - i.toNat) := by
    rw [htaken.bytes, List.length_take, List.length_drop]
  unfold Whole
  rw [hlength, hrest, List.head?_cons, Option.map_some, Option.some.injEq, List.length_append, List.length_singleton]
  omega

variable {s : Copying}

/-- The read at the index. -/
theorem getElem?_terminated (hi : s.i < slen) (hslen : slen.toNat ≤ src.length) :
    (src ++ [0])[s.i.toNat]? = some ((src ++ [0]).getD s.i.toNat 0) := by
  have hlt := UInt32.lt_iff_toNat_lt.mp hi
  have hin : s.i.toNat < (src ++ [0]).length := by
    rw [List.length_append]
    omega
  rw [List.getD_eq_getElem?_getD, List.getElem?_eq_getElem hin, Option.getD_some]

theorem copy_step_skip (hi : s.i < slen) (hslen : slen.toNat ≤ src.length) (hlook : look src slen s.flag s.i = .skip) :
    copy_step src slen s = .ok (some { s with i := s.i + 1 }) := by
  unfold copy_step
  rw [getElem?_terminated hi hslen, Option.elim_some, ok_bind]
  unfold look at hlook
  dsimp only at hlook ⊢
  split at hlook
  case isTrue hblank => rw [if_pos hblank]
  case isFalse hblank =>
  rw [if_neg hblank]
  split at hlook
  case isTrue hspace =>
    rw [if_pos hspace]
    split at hlook
    case isTrue hflag => rw [if_pos hflag]
    case isFalse => cases hlook
  case isFalse => split at hlook <;> cases hlook

theorem copy_step_stop (hi : s.i < slen) (hslen : slen.toNat ≤ src.length) (hlook : look src slen s.flag s.i = .stop) :
    copy_step src slen s = .ok none := by
  unfold copy_step
  rw [getElem?_terminated hi hslen, Option.elim_some, ok_bind]
  unfold look at hlook
  dsimp only at hlook ⊢
  split at hlook
  case isTrue => cases hlook
  case isFalse hblank =>
  rw [if_neg hblank]
  split at hlook
  case isTrue => split at hlook <;> cases hlook
  case isFalse hspace =>
  rw [if_neg hspace]
  split at hlook
  case isTrue => cases hlook
  case isFalse htmp => rw [if_neg htmp]

/-- A character is copied unless it runs over the terminator. -/
theorem copy_step_take {bytes : List UInt8} {flag' : Bool} {i' : UInt32} (hi : s.i < slen)
    (hslen : slen.toNat ≤ src.length) (hlook : look src slen s.flag s.i = .take bytes flag' i') :
    copy_step src slen s =
      if Whole bytes then blit s.dest s.p bytes >>= fun dest =>
        .ok (some { dest, p := s.p + bytes.length, flag := flag', i := i', n := s.n + 1 })
      else .error .outOfBounds := by
  obtain ⟨c, htaken⟩ := look_take hlook hi hslen
  obtain ⟨hin, hget⟩ := List.getElem?_eq_some_iff.mp htaken.lead
  obtain ⟨rest, hrest⟩ := htaken.cons
  unfold copy_step
  rw [getElem?_terminated hi hslen, getD_terminated hin, hget, Option.elim_some, ok_bind, if_neg htaken.notBlank]
  by_cases hspace : c = SPACE
  · have hbytes : bytes = [c] := by
      rw [htaken.bytes, List.drop_append_of_le_length (Nat.le_of_lt hin), List.drop_eq_getElem_cons hin, hget, hspace,
        utf8_check_SPACE]
      rfl
    rw [if_pos hspace, htaken.notAgain hspace, if_neg Bool.false_ne_true, hbytes, if_pos (by rw [hspace]; decide),
      htaken.flag, htaken.index, hspace, utf8_check_SPACE]
    rfl
  · have hwithin := htaken.within
    rw [htaken.index] at hwithin
    rw [if_neg hspace]
    dsimp only
    rw [if_pos ⟨UInt32.lt_iff_toNat_lt.mpr htaken.width, hwithin⟩]
    by_cases hwhole : Whole bytes
    · have hlength : (utf8_check c).toNat = bytes.length := by simpa [Whole, hrest] using hwhole
      rw [if_pos hwhole, slice_eq (htaken.whole_iff.mp hwhole), ← htaken.bytes, ok_bind, hlength, htaken.flag,
        htaken.index]
      simp [hspace]
    · rw [if_neg hwhole, slice, if_neg (mt htaken.whole_iff.mpr hwhole)]
      rfl

/-! ## The characters in order -/

section Characters

variable {budget : Nat}

theorem characters_from_done (hdone : ¬(i < slen ∧ 0 < budget)) : characters_from src slen budget flag i = [] := by
  rw [characters_from, dif_neg hdone]

theorem characters_from_skip (hi : i < slen) (hbudget : 0 < budget) (hlook : look src slen flag i = .skip) :
    characters_from src slen budget flag i = characters_from src slen budget flag (i + 1) := by
  rw [characters_from, dif_pos ⟨hi, hbudget⟩, hlook]

theorem characters_from_stop (hlook : look src slen flag i = .stop) :
    characters_from src slen budget flag i = [] := by
  rw [characters_from, hlook]
  split
  · rfl
  · rfl

theorem characters_from_take {bytes : List UInt8} {flag' : Bool} {i' : UInt32} (hi : i < slen) (hbudget : 0 < budget)
    (hlook : look src slen flag i = .take bytes flag' i') :
    characters_from src slen budget flag i =
      bytes :: if Whole bytes then characters_from src slen (budget - 1) flag' i' else [] := by
  rw [characters_from, dif_pos ⟨hi, hbudget⟩, hlook]

/-- No character begins with a blank, and none with a space behind another or, as
    the flag says, at the start. -/
def Shaped : Bool → List (List UInt8) → Prop
  | _, [] => True
  | flag, bytes :: rest =>
    ∃ c, bytes.head? = some c ∧ ¬(c = CR ∨ c = LF ∨ c = TAB) ∧ (c = SPACE → flag = false) ∧
      Shaped (decide (c = SPACE)) rest

theorem shaped_characters_from (hslen : slen.toNat ≤ src.length) :
    Shaped flag (characters_from src slen budget flag i) := by
  fun_induction characters_from src slen budget flag i with
  | case1 budget flag i hlive hlook ih => exact ih
  | case2 budget flag i hlive bytes flag' i' hlook ih =>
    obtain ⟨c, htaken⟩ := look_take hlook hlive.1 hslen
    obtain ⟨rest, hrest⟩ := htaken.cons
    refine ⟨c, by rw [hrest, List.head?_cons], htaken.notBlank, htaken.notAgain, ?_⟩
    rw [← htaken.flag]
    split
    · exact ih
    · trivial
  | case3 => trivial
  | case4 => trivial

theorem mem_characters_from (hslen : slen.toNat ≤ src.length) {bytes : List UInt8}
    (hmem : bytes ∈ characters_from src slen budget flag i) :
    ∃ flag c flag' i i', i < slen ∧ Taken src slen flag i c bytes flag' i' := by
  fun_induction characters_from src slen budget flag i with
  | case1 budget flag i hlive hlook ih => exact ih hmem
  | case2 budget flag i hlive taken flag' i' hlook ih =>
    rcases List.mem_cons.mp hmem with rfl | htail
    · obtain ⟨c, htaken⟩ := look_take hlook hlive.1 hslen
      exact ⟨flag, c, flag', i, i', hlive.1, htaken⟩
    · split at htail
      · exact ih htail
      · cases htail
  | case3 => cases hmem
  | case4 => cases hmem

/-- With a smaller budget the same characters come first. -/
theorem characters_from_take_budget {m : Nat} (hm : m ≤ budget) :
    characters_from src slen m flag i = (characters_from src slen budget flag i).take m := by
  by_cases hzero : m = 0
  · rw [hzero, List.take_zero, characters_from_done (by omega)]
  fun_induction characters_from src slen budget flag i generalizing m with
  | case1 budget flag i hlive hlook ih =>
    rw [characters_from_skip hlive.1 (by omega) hlook]
    exact ih hm hzero
  | case2 budget flag i hlive bytes flag' i' hlook ih =>
    obtain ⟨k, rfl⟩ := Nat.exists_eq_succ_of_ne_zero hzero
    rw [characters_from_take hlive.1 (by omega) hlook, List.take_succ_cons, Nat.succ_sub_one]
    by_cases hwhole : Whole bytes
    · rw [if_pos hwhole, if_pos hwhole]
      by_cases hk : k = 0
      · rw [hk, List.take_zero, characters_from_done (by omega)]
      · rw [ih (by omega) hk]
    · rw [if_neg hwhole, if_neg hwhole, List.take_nil]
  | case3 budget flag i hlive hlook => rw [characters_from_stop hlook, List.take_nil]
  | case4 budget flag i hdone => rw [characters_from_done (fun h => hdone ⟨h.1, by omega⟩), List.take_nil]

end Characters

/-! ## The states of the loop -/

/-- The loop comes from one state to the other. -/
inductive Reached (src : List UInt8) (slen max : UInt32) : Copying → Copying → Prop
  | refl (s : Copying) : Reached src slen max s s
  | step {s s₁ s' : Copying} (hi : s.i < slen) (hn : s.n < max) (hstep : copy_step src slen s = .ok (some s₁))
      (hreached : Reached src slen max s₁ s') : Reached src slen max s s'

/-- The characters that the loop is still to take. -/
def Copying.ahead (src : List UInt8) (slen max : UInt32) (s : Copying) : List (List UInt8) :=
  characters_from src slen (max.toNat - s.n.toNat) s.flag s.i

/-- Those of them that it copies: one that runs over the terminator is not. -/
def Copying.copied (src : List UInt8) (slen max : UInt32) (s : Copying) : List (List UInt8) :=
  (s.ahead src slen max).filter (Whole ·)

variable {max : UInt32}

theorem toNat_count_succ {n : UInt32} (hn : n < max) :
    (n + 1).toNat = n.toNat + 1 ∧ max.toNat - (n + 1).toNat = max.toNat - n.toNat - 1 := by
  have hsucc := toNat_succ_of_lt hn
  omega

/-- What one round does. -/
theorem copy_step_cases {s₁ : Copying} (hslen : slen.toNat ≤ src.length) (hi : s.i < slen) (hn : s.n < max)
    (hstep : copy_step src slen s = .ok (some s₁)) :
    (s₁ = { s with i := s.i + 1 } ∧ s.ahead src slen max = s₁.ahead src slen max) ∨
      ∃ bytes dest, Whole bytes ∧ blit s.dest s.p bytes = .ok dest ∧ s₁.dest = dest ∧
        s₁.p = s.p + bytes.length ∧ s₁.n = s.n + 1 ∧
        s.ahead src slen max = bytes :: s₁.ahead src slen max := by
  have hbudget : 0 < max.toNat - s.n.toNat := by
    have hlt := UInt32.lt_iff_toNat_lt.mp hn
    omega
  cases hlook : look src slen s.flag s.i with
  | skip =>
    left
    rw [copy_step_skip hi hslen hlook] at hstep
    obtain rfl := Option.some.inj (Except.ok.inj hstep)
    exact ⟨rfl, characters_from_skip hi hbudget hlook⟩
  | stop =>
    rw [copy_step_stop hi hslen hlook] at hstep
    cases Except.ok.inj hstep
  | take bytes flag' i' =>
    right
    rw [copy_step_take hi hslen hlook] at hstep
    split at hstep
    case isFalse => cases hstep
    case isTrue hwhole =>
    cases hblit : blit s.dest s.p bytes with
    | error e =>
      rw [hblit] at hstep
      cases hstep
    | ok dest =>
      rw [hblit, ok_bind] at hstep
      obtain rfl := Option.some.inj (Except.ok.inj hstep)
      refine ⟨bytes, dest, hwhole, hblit, rfl, rfl, rfl, ?_⟩
      unfold Copying.ahead
      rw [characters_from_take hi hbudget hlook, if_pos hwhole, (toNat_count_succ hn).2]

/-- The loop is done, or it breaks, or it faults at a character that runs over the
    terminator. -/
inductive Halts (src : List UInt8) (slen max : UInt32) (chars : List (List UInt8)) (s : Copying) : Prop
  | done (hwhole : ∀ bytes ∈ chars, Whole bytes) (hdone : ¬(s.i < slen ∧ s.n < max))
  | break_ (hwhole : ∀ bytes ∈ chars, Whole bytes) (hbreak : copy_step src slen s = .ok none)
  | fault (bytes : List UInt8) (hmem : bytes ∈ chars) (hcut : ¬Whole bytes) (hi : s.i < slen) (hn : s.n < max)
      (hfault : copy_step src slen s = .error .outOfBounds)

theorem Halts.cons {chars : List (List UInt8)} {bytes : List UInt8} {s : Copying} (hhalts : Halts src slen max chars s)
    (hwhole : Whole bytes) : Halts src slen max (bytes :: chars) s := by
  cases hhalts with
  | done hall hdone => exact .done (List.forall_mem_cons.mpr ⟨hwhole, hall⟩) hdone
  | break_ hall hbreak => exact .break_ (List.forall_mem_cons.mpr ⟨hwhole, hall⟩) hbreak
  | fault cut hmem hcut hi hn hfault => exact .fault cut (List.mem_cons_of_mem bytes hmem) hcut hi hn hfault

theorem Copying.copied_of_ahead_eq_cons {bytes : List UInt8} {rest : List (List UInt8)} (hwhole : Whole bytes)
    (hahead : s.ahead src slen max = bytes :: rest) : s.copied src slen max = bytes :: rest.filter (Whole ·) := by
  unfold Copying.copied
  rw [hahead, List.filter_cons_of_pos (by simpa using hwhole)]

/-- Nothing is left to copy. -/
theorem exists_halts_of_halts (hnone : s.copied src slen max = [])
    (hhalts : Halts src slen max (s.ahead src slen max) s) :
    ∃ s', Reached src slen max s s' ∧ Stores s.dest s.p (s.copied src slen max).flatten s'.dest ∧
      s'.p = s.p + (s.copied src slen max).flatten.length ∧ Halts src slen max (s.ahead src slen max) s' := by
  rw [hnone]
  exact ⟨s, .refl s, ⟨rfl, (List.append_nil _).symm⟩, rfl, hhalts⟩

/-- With room for them, the loop copies the characters one behind another. -/
theorem exists_halts (hslen : slen.toNat ≤ src.length)
    (hroom : s.p + (s.copied src slen max).flatten.length ≤ s.dest.length) :
    ∃ s', Reached src slen max s s' ∧ Stores s.dest s.p (s.copied src slen max).flatten s'.dest ∧
      s'.p = s.p + (s.copied src slen max).flatten.length ∧ Halts src slen max (s.ahead src slen max) s' := by
  generalize hbudget : max.toNat - s.n.toNat = budget
  generalize hflag : s.flag = flag
  generalize hi : s.i = i
  fun_induction characters_from src slen budget flag i generalizing s with
  | case1 budget flag i hlive hlook ih =>
    subst hflag hi hbudget
    have hn : s.n < max := by
      rw [UInt32.lt_iff_toNat_lt]
      omega
    have hahead : s.ahead src slen max = Copying.ahead src slen max { s with i := s.i + 1 } :=
      characters_from_skip hlive.1 hlive.2 hlook
    have hcopied : s.copied src slen max = Copying.copied src slen max { s with i := s.i + 1 } :=
      congrArg (List.filter _) hahead
    rw [hcopied] at hroom
    obtain ⟨s', hreached, hstores, hp, hhalts⟩ := ih (s := { s with i := s.i + 1 }) hroom rfl rfl rfl
    rw [hahead, hcopied]
    exact ⟨s', .step hlive.1 hn (copy_step_skip hlive.1 hslen hlook) hreached, hstores, hp, hhalts⟩
  | case2 budget flag i hlive bytes flag' i' hlook ih =>
    subst hflag hi hbudget
    have hn : s.n < max := by
      rw [UInt32.lt_iff_toNat_lt]
      omega
    have hstep := copy_step_take hlive.1 hslen hlook
    have htake := characters_from_take hlive.1 hlive.2 hlook
    by_cases hwhole : Whole bytes
    · rw [if_pos hwhole] at hstep htake
      obtain ⟨dest, hblit, hput⟩ : ∃ dest, blit s.dest s.p bytes = .ok dest ∧ Stores s.dest s.p bytes dest := by
        apply blit_stores
        rw [Copying.copied_of_ahead_eq_cons hwhole htake, List.flatten_cons, List.length_append] at hroom
        omega
      rw [hblit, ok_bind] at hstep
      generalize hs₁ : ({ dest, p := s.p + bytes.length, flag := flag', i := i', n := s.n + 1 } : Copying) = s₁
        at hstep
      have hbudget : max.toNat - s₁.n.toNat = max.toNat - s.n.toNat - 1 := by
        rw [← hs₁]
        exact (toNat_count_succ hn).2
      have hahead : s.ahead src slen max = bytes :: s₁.ahead src slen max := by
        rw [Copying.ahead, htake, Copying.ahead, hbudget, ← hs₁]
      have hcopied : s.copied src slen max = bytes :: s₁.copied src slen max :=
        Copying.copied_of_ahead_eq_cons hwhole hahead
      have hp₁ : s₁.p = s.p + bytes.length := by rw [← hs₁]
      have hdest₁ : s₁.dest = dest := by rw [← hs₁]
      rw [hcopied, List.flatten_cons, List.length_append] at hroom
      obtain ⟨s', hreached, hstores, hp, hhalts⟩ := ih (s := s₁) (by rw [hdest₁, hput.length, hp₁]; omega) hbudget
        (by rw [← hs₁]) (by rw [← hs₁])
      rw [hcopied, hahead, List.flatten_cons, List.length_append]
      refine ⟨s', .step hlive.1 hn hstep hreached, ?_, by omega, hhalts.cons hwhole⟩
      apply hput.append
      rw [← hp₁, ← hdest₁]
      exact hstores
    · rw [if_neg hwhole] at hstep htake
      have hahead : s.ahead src slen max = [bytes] := htake
      have hnone : s.copied src slen max = [] := by
        unfold Copying.copied
        rw [hahead, List.filter_cons_of_neg (by simpa using hwhole), List.filter_nil]
      apply exists_halts_of_halts hnone
      rw [hahead]
      exact .fault bytes List.mem_cons_self hwhole hlive.1 hn hstep
  | case3 budget flag i hlive hlook =>
    subst hflag hi hbudget
    have hahead : s.ahead src slen max = [] := characters_from_stop hlook
    apply exists_halts_of_halts (by rw [Copying.copied, hahead]; rfl)
    rw [hahead]
    exact .break_ nofun (copy_step_stop hlive.1 hslen hlook)
  | case4 budget flag i hdone =>
    subst hflag hi hbudget
    have hahead : s.ahead src slen max = [] := characters_from_done hdone
    apply exists_halts_of_halts (by rw [Copying.copied, hahead]; rfl)
    rw [hahead]
    refine .done nofun ?_
    intro hlive
    have hlt := UInt32.lt_iff_toNat_lt.mp hlive.2
    exact hdone ⟨hlive.1, by omega⟩

/-! ## The whole call -/

/-- Rounds that are enough in a state. -/
def Copying.rounds (slen max : UInt32) (s : Copying) : Nat :=
  (max.toNat - s.n.toNat) * (slen.toNat + 1) + (slen.toNat - s.i.toNat)

theorem rounds_lt {s₁ : Copying} (hslen : slen.toNat ≤ src.length) (hi : s.i < slen) (hn : s.n < max)
    (hstep : copy_step src slen s = .ok (some s₁)) : s₁.rounds slen max < s.rounds slen max := by
  unfold Copying.rounds
  have hlt := UInt32.lt_iff_toNat_lt.mp hi
  have hcount := UInt32.lt_iff_toNat_lt.mp hn
  rcases copy_step_cases hslen hi hn hstep with ⟨rfl, _⟩ | ⟨bytes, dest, _, _, _, _, hn₁, _⟩
  · have hsucc : (s.i + 1).toNat = s.i.toNat + 1 := toNat_succ_of_lt hi
    dsimp only
    omega
  · obtain ⟨budget, hbudget⟩ := Nat.exists_eq_add_of_lt hcount
    rw [hn₁, (toNat_count_succ hn).2, show max.toNat - s.n.toNat = budget + 1 by omega, Nat.add_sub_cancel,
      Nat.succ_mul]
    omega

theorem rounds_start_le (slen max : UInt32) (dest : List UInt8) :
    (Copying.start dest).rounds slen max ≤ copy_fuel slen max := by
  have hmul : copy_fuel slen max = max.toNat * (slen.toNat + 1) + (slen.toNat + 1) := by
    rw [copy_fuel, Nat.mul_succ, Nat.mul_comm]
  have hstart : (Copying.start dest).rounds slen max = max.toNat * (slen.toNat + 1) + slen.toNat := by
    simp [Copying.rounds, Copying.start]
  omega

theorem Reached.copy_loop_eq {s' : Copying} (hslen : slen.toNat ≤ src.length) (hreached : Reached src slen max s s')
    {fuel : Nat} (hfuel : s.rounds slen max ≤ fuel) :
    ∃ fuel', s'.rounds slen max ≤ fuel' ∧ copy_loop src slen max fuel s = copy_loop src slen max fuel' s' := by
  induction hreached generalizing fuel with
  | refl s => exact ⟨fuel, hfuel, rfl⟩
  | step hi hn hstep hreached ih =>
    have hlt := rounds_lt hslen hi hn hstep
    obtain ⟨k, rfl⟩ := Nat.exists_eq_succ_of_ne_zero (by omega : fuel ≠ 0)
    obtain ⟨fuel', hfuel', hloop⟩ := ih (by omega : _ ≤ k)
    exact ⟨fuel', hfuel', by rw [copy_loop_next hi hn hstep, hloop]⟩

/-- Where the loop halts, it returns its state or the fault. -/
theorem Halts.copy_loop_eq {chars : List (List UInt8)} (hhalts : Halts src slen max chars s) {fuel : Nat}
    (hfuel : s.rounds slen max ≤ fuel) :
    copy_loop src slen max fuel s = if ∀ bytes ∈ chars, Whole bytes then .ok s else .error .outOfBounds := by
  cases hhalts with
  | done hwhole hdone => rw [if_pos hwhole, copy_loop_done hdone]
  | break_ hwhole hbreak =>
    rw [if_pos hwhole]
    cases fuel with
    | zero =>
      rw [copy_loop_done]
      rintro ⟨hi, hn⟩
      have hlt := UInt32.lt_iff_toNat_lt.mp hi
      have hrounds : 0 < s.rounds slen max := by
        unfold Copying.rounds
        omega
      omega
    | succ fuel => rw [copy_loop_break hbreak]
  | fault bytes hmem hcut hi hn hfault =>
    have hlt := UInt32.lt_iff_toNat_lt.mp hi
    have hrounds : 0 < s.rounds slen max := by
      unfold Copying.rounds
      omega
    obtain ⟨k, rfl⟩ := Nat.exists_eq_succ_of_ne_zero (by omega : fuel ≠ 0)
    rw [if_neg (fun hall => hcut (hall bytes hmem)), copy_loop, if_pos ⟨hi, hn⟩, hfault]
    rfl

theorem toNat_strlen_le (src : List UInt8) : (strlen src).toNat ≤ src.length := by
  rw [strlen, UInt32.toNat_ofNat']
  exact Nat.mod_le _ _

/-- The characters that are copied of a source. -/
def copied (src : List UInt8) (max : UInt32) : List (List UInt8) := (characters src max).filter (Whole ·)

theorem copied_eq_of_whole (hwhole : ∀ bytes ∈ characters src max, Whole bytes) :
    copied src max = characters src max := by
  unfold copied
  rw [List.filter_eq_self]
  simpa using hwhole

/-- A call with enough room stores the characters and the terminator, unless one of
    them runs over the terminator of the source. -/
theorem utf8_strncpy_characters (src : List UInt8) {max : UInt32} (hmax : max ≠ 0) (dest : List UInt8)
    (hroom : (copied src max).flatten.length < dest.length) :
    if ∀ bytes ∈ characters src max, Whole bytes then
      ∃ dest', utf8_strncpy (some dest) (some src) max = .ok (some dest') ∧
        Stores dest 0 ((characters src max).flatten ++ [0]) dest'
    else utf8_strncpy (some dest) (some src) max = .error .outOfBounds := by
  have hslen := toNat_strlen_le src
  have hahead : Copying.ahead src (strlen src) max (.start dest) = characters src max := rfl
  have hcopied : Copying.copied src (strlen src) max (.start dest) = copied src max := rfl
  obtain ⟨s, hreached, hstores, hp, hhalts⟩ := exists_halts hslen (s := .start dest)
    (by rw [hcopied]; simpa [Copying.start] using Nat.le_of_lt hroom)
  obtain ⟨fuel, hfuel, hloop⟩ := hreached.copy_loop_eq hslen (rounds_start_le (strlen src) max dest)
  rw [hhalts.copy_loop_eq hfuel, hahead] at hloop
  rw [hcopied] at hstores hp
  simp only [utf8_strncpy]
  rw [if_neg hmax, hloop]
  split
  case isTrue hwhole =>
    rw [copied_eq_of_whole hwhole] at hstores hp hroom
    obtain ⟨dest', hblit, hzero⟩ := blit_stores (by
      rw [hp, hstores.length]
      simpa [Copying.start, Nat.succ_le_iff] using hroom : s.p + ([0] : List UInt8).length ≤ s.dest.length)
    rw [ok_bind, hblit, ok_bind]
    refine ⟨dest', rfl, hstores.append ?_⟩
    rw [← hp]
    exact hzero
  case isFalse => rfl

/-! ## Characters that stay inside the source -/

/-- No character that the loop takes has the terminator of the source in it. -/
def StaysInSource (src : List UInt8) (max : UInt32) : Prop := 0 ∉ (characters src max).flatten

/-- Behind the string there is only its terminator to be taken. -/
theorem Taken.runs_over {c : UInt8} {bytes : List UInt8} {flag' : Bool} {i' : UInt32}
    (htaken : Taken src slen flag i c bytes flag' i') (hover : src.length < i.toNat + (utf8_check c).toNat) :
    bytes = src.drop i.toNat ++ [0] := by
  obtain ⟨hin, _⟩ := List.getElem?_eq_some_iff.mp htaken.lead
  rw [htaken.bytes, List.drop_append_of_le_length (Nat.le_of_lt hin), List.take_of_length_le]
  rw [List.length_append, List.length_drop, List.length_singleton]
  omega

theorem Taken.inside {c : UInt8} {bytes : List UInt8} {flag' : Bool} {i' : UInt32}
    (htaken : Taken src slen flag i c bytes flag' i') (hfits : i.toNat + (utf8_check c).toNat ≤ src.length) :
    bytes = (src.drop i.toNat).take (utf8_check c).toNat ∧ Whole bytes := by
  obtain ⟨hin, _⟩ := List.getElem?_eq_some_iff.mp htaken.lead
  constructor
  · rw [htaken.bytes, List.drop_append_of_le_length (Nat.le_of_lt hin), List.take_append_of_le_length]
    rw [List.length_drop]
    omega
  · rw [htaken.whole_iff, List.length_append]
    omega

theorem StaysInSource.whole (hstays : StaysInSource src max) : ∀ bytes ∈ characters src max, Whole bytes := by
  intro bytes hmem
  obtain ⟨flag, c, flag', i, i', _, htaken⟩ := mem_characters_from (toNat_strlen_le src) hmem
  by_contra hcut
  apply hstays
  rw [List.mem_flatten]
  refine ⟨bytes, hmem, ?_⟩
  rw [htaken.runs_over]
  · exact List.mem_append_right _ (List.mem_singleton.mpr rfl)
  · rw [htaken.whole_iff, List.length_append, List.length_singleton] at hcut
    omega

theorem utf8_check_le_six : ∀ c, (utf8_check c).toNat ≤ 6 := by
  apply text.forall_byte
  decide +kernel

/-- Where the index cannot wrap around, the characters are pieces of the source. -/
theorem characters_from_inside (hslen : slen.toNat ≤ src.length) (hlow : slen.toNat + 5 < 2 ^ 32) {budget : Nat} :
    (characters_from src slen budget flag i).flatten.Sublist ((src.take slen.toNat).drop i.toNat) := by
  fun_induction characters_from src slen budget flag i with
  | case1 budget flag i hlive hlook ih =>
    rw [toNat_succ_of_lt hlive.1, ← List.drop_drop] at ih
    exact ih.trans (List.drop_sublist 1 _)
  | case2 budget flag i hlive bytes flag' i' hlook ih =>
    obtain ⟨c, htaken⟩ := look_take hlook hlive.1 hslen
    have hlt := UInt32.lt_iff_toNat_lt.mp hlive.1
    have hsix := utf8_check_le_six c
    have hindex : i'.toNat = i.toNat + (utf8_check c).toNat := by
      rw [htaken.index, toNat_add_of_lt (by omega)]
    have hwithin := UInt32.le_iff_toNat_le.mp htaken.within
    obtain ⟨hbytes, hwhole⟩ := htaken.inside (by omega)
    rw [if_pos hwhole, List.flatten_cons, hbytes, ← List.take_append_drop (utf8_check c).toNat
      ((src.take slen.toNat).drop i.toNat), List.drop_drop, ← hindex]
    apply List.Sublist.append _ ih
    rw [List.drop_take, List.take_take, Nat.min_eq_left (by omega)]
  | case3 => exact List.nil_sublist _
  | case4 => exact List.nil_sublist _

/-- Only a source whose length is just below a multiple of 2^32 can be left, and no
    more than the counted bytes are copied of the others. -/
theorem staysInSource_of_strlen (hsrc : 0 ∉ src) (hlow : (strlen src).toNat + 5 < 2 ^ 32) :
    StaysInSource src max ∧ (characters src max).flatten.length < 2 ^ 32 := by
  have hsub : (characters src max).flatten.Sublist ((src.take (strlen src).toNat).drop (0 : UInt32).toNat) :=
    characters_from_inside (toNat_strlen_le src) hlow
  constructor
  · intro hzero
    exact hsrc (List.mem_of_mem_take (List.mem_of_mem_drop (hsub.subset hzero)))
  · have hle := hsub.length_le
    rw [List.length_drop, List.length_take] at hle
    omega

end code_tools.utf8str
