import CodeTools.Lib.Lockstep
import CodeTools.MFile.Model

/-!
# Two handles read side by side

A relation between handles that the single steps of the readers keep is kept by
whole reads, which then return the same on both handles.
-/

namespace code_tools.mfile

open cmem machine

/-- A reader finds the same in both blocks. -/
structure SameBlock (block block' : DataBlock) : Prop where
  data : block'.data = block.data
  current_write_count : block'.current_write_count = block.current_write_count
  current_read_count : block'.current_read_count = block.current_read_count

/-- The steps of `mread` and `mgetc` do the same on related handles and keep them
    related. -/
structure Steady (R : MFile → MFile → Prop) : Prop where
  start : ∀ h k, R h k → read_start h = none ∧ read_start k = none ∨ ∃ a b, read_start h = some a ∧
    read_start k = some b ∧ R { h with current_read_p := some a } { k with current_read_p := some b }
  advance : ∀ h k, R h k → Matched (Option.Rel R) (read_advance h) (read_advance k)
  block : ∀ h k, R h k → Matched
    (fun block block' => SameBlock block block' ∧
      ∀ count, 0 < count → R (consume h block count) (consume k block' count))
    (h.head.read h.current_read_p) (k.head.read k.current_read_p)

/-- So do those of `mread_line`, which hold a byte back. -/
structure LineSteady (R : MFile → MFile → Prop) : Prop extends Steady R where
  held : ∀ h k, R h k → k.ccache = h.ccache
  hold : ∀ h k c, R h k → R { h with ccache := c } { k with ccache := c }

/-- Taking all that is unread of a block already sets the flag. -/
theorem consume_rest (h : MFile) {block : DataBlock} (hmore : block.current_read_count < block.current_write_count) :
    { consume h block (block.current_write_count - block.current_read_count) with is_empty := true } =
      consume h block (block.current_write_count - block.current_read_count) := by
  have hflag : decide (block.current_read_count + (block.current_write_count - block.current_read_count) =
      block.current_write_count) = true := decide_eq_true (by omega)
  unfold consume
  rw [hflag]

namespace Steady

variable {R : MFile → MFile → Prop} {h k : MFile}

theorem mread_loop (hsteady : Steady R) (hR : R h k) (fuel : Nat) (len : Int) (out : List UInt8) :
    Lockstep R (mfile.mread_loop fuel h len out) (mfile.mread_loop fuel k len out) := by
  induction fuel generalizing h k out with
  | zero =>
    unfold mfile.mread_loop
    by_cases hmore : (out.length : Int) < len
    · rw [if_pos hmore, if_pos hmore]
      exact .error _
    · rw [if_neg hmore, if_neg hmore]
      exact .ok out hR
  | succ fuel ih =>
    unfold mfile.mread_loop
    by_cases hmore : (out.length : Int) < len
    · rw [if_pos hmore, if_pos hmore]
      apply (hsteady.advance h k hR).bind
      intro next next' hnext
      cases hnext with
      | none => exact .ok out hR
      | @some h₁ k₁ hR₁ =>
        apply (hsteady.block h₁ k₁ hR₁).bind
        rintro block block' ⟨hsame, hconsume⟩
        dsimp only
        rw [hsame.data, hsame.current_write_count, hsame.current_read_count]
        by_cases hdry : block.current_write_count ≤ block.current_read_count
        · rw [if_pos hdry, if_pos hdry]
          exact .ok out hR₁
        rw [if_neg hdry, if_neg hdry]
        by_cases hlast : (len - out.length).toNat ≤ block.current_write_count - block.current_read_count
        · rw [if_pos hlast, if_pos hlast]
          exact .bind_same _ fun bytes => .ok _ (hconsume _ (by omega))
        · have hrest := hconsume (block.current_write_count - block.current_read_count) (by omega)
          have hflag := consume_rest h₁ (by omega : block.current_read_count < block.current_write_count)
          have hflag' := consume_rest k₁ (by rw [hsame.current_write_count, hsame.current_read_count]; omega :
            block'.current_read_count < block'.current_write_count)
          rw [hsame.current_write_count, hsame.current_read_count] at hflag'
          rw [if_neg hlast, if_neg hlast]
          apply Lockstep.bind_same
          intro bytes
          rw [hflag, hflag']
          exact ih hrest (out ++ bytes)
    · rw [if_neg hmore, if_neg hmore]
      exact .ok out hR

/-- Related handles give `mread` the same bytes. -/
theorem mread (hsteady : Steady R) (hR : R h k) (len : Int) :
    Lockstep R (mfile.mread h len) (mfile.mread k len) := by
  unfold mfile.mread
  rcases hsteady.start h k hR with ⟨hh, hk⟩ | ⟨a, b, hh, hk, hR₁⟩
  · rw [hh, hk]
    exact .ok _ hR
  · rw [hh, hk]
    apply (hsteady.mread_loop hR₁ len.toNat len []).bind
    intro h₁ k₁ out hR₂
    exact .ok _ hR₂

/-- Related handles give `mgetc` the same byte. -/
theorem mgetc (hsteady : Steady R) (hR : R h k) (beyond : UInt8) :
    Lockstep R (mfile.mgetc h beyond) (mfile.mgetc k beyond) := by
  unfold mfile.mgetc
  rcases hsteady.start h k hR with ⟨hh, hk⟩ | ⟨a, b, hh, hk, hR₁⟩
  · rw [hh, hk]
    exact .ok _ hR
  · rw [hh, hk]
    apply (hsteady.advance _ _ hR₁).bind
    intro next next' hnext
    cases hnext with
    | none => exact .ok _ hR₁
    | some hR₂ =>
      apply (hsteady.block _ _ hR₂).bind
      rintro block block' ⟨hsame, hconsume⟩
      rw [hsame.data, hsame.current_read_count]
      exact .ok _ (hconsume 1 Nat.zero_lt_one)

end Steady

namespace LineSteady

variable {R : MFile → MFile → Prop} {h k : MFile}

theorem line_char (hsteady : LineSteady R) (hR : R h k) (beyond : UInt8) :
    Lockstep R (mfile.line_char h beyond) (mfile.line_char k beyond) := by
  unfold mfile.line_char
  rw [hsteady.held h k hR]
  by_cases hnothing : h.ccache = 10
  · rw [if_pos hnothing, if_pos hnothing]
    exact hsteady.toSteady.mgetc hR beyond
  · rw [if_neg hnothing, if_neg hnothing]
    exact .ok _ (hsteady.hold h k 13 hR)

theorem mread_line_loop (hsteady : LineSteady R) (hR : R h k) (beyond : Nat → UInt8) (fuel : Nat)
    (buf : List UInt8) (d : Nat) (n : Int) :
    Lockstep R (mfile.mread_line_loop beyond fuel h buf d n) (mfile.mread_line_loop beyond fuel k buf d n) := by
  induction fuel generalizing h k buf d n with
  | zero => exact .error _
  | succ fuel ih =>
    apply (hsteady.line_char hR (beyond d)).bind
    intro h k c hR
    apply Lockstep.bind_same
    intro buf
    dsimp only
    by_cases hreturn : c = 13
    · rw [if_pos hreturn, if_pos hreturn]
      apply (hsteady.toSteady.mgetc hR (beyond (d + 1))).bind
      intro h k ccache hR
      have hheld := hsteady.hold h k ccache hR
      dsimp only
      by_cases hend : ccache = 0
      · rw [if_pos hend, if_pos hend]
        exact .bind_same _ fun _ => .bind_same _ fun _ => .ok _ hheld
      rw [if_neg hend, if_neg hend]
      by_cases hfeed : ccache ≠ 10
      · rw [if_pos hfeed, if_pos hfeed]
        exact .ok _ hheld
      · rw [if_neg hfeed, if_neg hfeed]
        exact .bind_same _ fun _ => .ok _ hheld
    rw [if_neg hreturn, if_neg hreturn]
    by_cases hfeed : c = 10
    · rw [if_pos hfeed, if_pos hfeed]
      exact .ok _ hR
    rw [if_neg hfeed, if_neg hfeed]
    by_cases hend : c = 0
    · rw [if_pos hend, if_pos hend]
      exact .ok _ hR
    rw [if_neg hend, if_neg hend]
    by_cases hroom : n - 1 > 0
    · rw [if_pos hroom, if_pos hroom]
      exact ih hR buf (d + 1) (n - 1)
    · rw [if_neg hroom, if_neg hroom]
      exact .ok _ hR

/-- Related handles give `mread_line` the same line. -/
theorem mread_line (hsteady : LineSteady R) (hR : R h k) (buf : List UInt8) (n : Int) (beyond : Nat → UInt8) :
    Lockstep R (mfile.mread_line h buf n beyond) (mfile.mread_line k buf n beyond) := by
  unfold mfile.mread_line
  by_cases hbefore : n - 1 < 0
  · rw [if_pos hbefore, if_pos hbefore]
    exact .error _
  rw [if_neg hbefore, if_neg hbefore]
  apply Lockstep.bind_same
  intro buf
  by_cases hloop : n - 2 ≠ 0
  · rw [if_pos hloop, if_pos hloop]
    exact hsteady.mread_line_loop hR beyond _ buf 0 (n - 2)
  · rw [if_neg hloop, if_neg hloop]
    exact .ok _ hR

end LineSteady

/-! ## One handle -/

section Keeps

variable {P : MFile → Prop} {h h' : MFile}

/-- What the steps keep of one handle. -/
theorem steady_of_keeps (hstart : ∀ h a, P h → read_start h = some a → P { h with current_read_p := some a })
    (hnext : ∀ h a, P h → h.head.next h.current_read_p = .ok (some a) → P { h with current_read_p := some a })
    (hconsume : ∀ h block count, P h → h.head.read h.current_read_p = .ok block → P (consume h block count)) :
    Steady fun h k => h = k ∧ P h := by
  refine ⟨?_, ?_, ?_⟩
  · rintro h _ ⟨rfl, hP⟩
    cases hfirst : read_start h with
    | none => exact Or.inl ⟨rfl, rfl⟩
    | some a => exact Or.inr ⟨a, a, rfl, rfl, rfl, hstart h a hP hfirst⟩
  · rintro h _ ⟨rfl, hP⟩
    unfold read_advance
    by_cases hempty : h.is_empty = true
    · rw [if_pos hempty]
      cases hfound : h.head.next h.current_read_p with
      | error e => exact .error e
      | ok next =>
        cases next with
        | none => exact .ok .none
        | some a => exact .ok (.some ⟨rfl, hnext h a hP hfound⟩)
    · rw [if_neg hempty]
      exact .ok (.some ⟨rfl, hP⟩)
  · rintro h _ ⟨rfl, hP⟩
    cases hread : h.head.read h.current_read_p with
    | error e => exact .error e
    | ok block => exact .ok ⟨⟨rfl, rfl, rfl⟩, fun count _ => ⟨rfl, hconsume h block count hP hread⟩⟩

theorem LineSteady.of_keeps (hsteady : Steady fun h k => h = k ∧ P h) (hhold : ∀ h c, P h → P { h with ccache := c }) :
    LineSteady fun h k => h = k ∧ P h := by
  refine ⟨hsteady, ?_, ?_⟩
  · rintro h _ ⟨rfl, _⟩
    rfl
  · rintro h _ c ⟨rfl, hP⟩
    exact ⟨rfl, hhold h c hP⟩

theorem Steady.keeps_mread (hsteady : Steady fun h k => h = k ∧ P h) (hP : P h) {len rc : Int} {bytes : List UInt8}
    (hread : mfile.mread h len = .ok (h', rc, bytes)) : P h' := by
  obtain ⟨_, _, rfl, hP'⟩ := (hsteady.mread ⟨rfl, hP⟩ len).of_ok hread
  exact hP'

theorem Steady.keeps_mgetc (hsteady : Steady fun h k => h = k ∧ P h) (hP : P h) {beyond c : UInt8}
    (hget : mfile.mgetc h beyond = .ok (h', c)) : P h' := by
  obtain ⟨_, _, rfl, hP'⟩ := (hsteady.mgetc ⟨rfl, hP⟩ beyond).of_ok hget
  exact hP'

theorem LineSteady.keeps_mread_line (hsteady : LineSteady fun h k => h = k ∧ P h) (hP : P h) {buf buf' : List UInt8}
    {n : Int} {beyond : Nat → UInt8} {r : Nat} (hline : mfile.mread_line h buf n beyond = .ok (h', buf', r)) :
    P h' := by
  obtain ⟨_, _, rfl, hP'⟩ := (hsteady.mread_line ⟨rfl, hP⟩ buf n beyond).of_ok hline
  exact hP'

end Keeps

end code_tools.mfile
