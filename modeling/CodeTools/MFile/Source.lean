import CodeTools.Lib.Lockstep
import CodeTools.MFile.Lines

/-!
# The line reader over a plain source

All that `mread_line` sees of a handle whose blocks are not empty is the byte
that it holds back and the bytes that are still to come.
-/

namespace code_tools.mfile

open cmem machine

/-- The byte held back, and what is left. -/
structure Source where
  held : UInt8
  left : List UInt8
deriving DecidableEq, Repr

namespace Source

/-- What `mgetc` gets: the next byte, or 0 at the end. -/
def next (s : Source) : UInt8 := s.left.headD 0

/-- The source without its next byte. -/
def advance (s : Source) : Source := { s with left := s.left.tail }

def line_char (s : Source) : Except Fault (Source × UInt8) :=
  if s.held = 10 then .ok (s.advance, s.next) else .ok ({ s with held := 13 }, s.held)

/-- The loop of `mread_line` over a source. -/
def line_loop : Nat → Source → List UInt8 → Nat → Int → Except Fault (Source × List UInt8 × Nat)
  | 0, _, _, _, _ => .error .outOfFuel
  | fuel + 1, s, buf, d, n => do
    let (s, c) ← s.line_char
    let buf ← blit buf d [c]
    if c = 13 then
      let ccache := s.next
      let s := { s.advance with held := ccache }
      if ccache = 0 then
        let buf ← blit buf (d + 1) [10]
        let buf ← blit buf (d + 2) [0]
        .ok (s, buf, d + 2)
      else if ccache ≠ 10 then .ok (s, buf, d + 1)
      else
        let buf ← blit buf (d + 1) [ccache]
        .ok (s, buf, d + 2)
    else if c = 10 then .ok (s, buf, d + 1)
    else if c = 0 then .ok (s, buf, d)
    else if n - 1 > 0 then line_loop fuel s buf (d + 1) (n - 1)
    else .ok (s, buf, 0)

/-- `mread_line` over a source. -/
def line (s : Source) (buf : List UInt8) (n : Int) : Except Fault (Source × List UInt8 × Nat) :=
  if n - 1 < 0 then .error .outOfBounds
  else do
    let buf ← blit buf (n - 1).toNat [0]
    if n - 2 ≠ 0 then line_loop n.toNat s buf 0 (n - 2) else .ok (s, buf, 0)

end Source

/-- The line reader sees the handle as this source. -/
structure Stands (h : MFile) (s : Source) : Prop where
  faces : Faces h s.left
  solid : Solid h.head
  alert : Alert h
  ccache : h.ccache = s.held

theorem Fresh.stands {h : MFile} (hfresh : Fresh h) : Stands h ⟨10, content h⟩ :=
  have hawaits := hfresh.awaits
  ⟨hawaits.faces, hawaits.solid, hawaits.alert, hawaits.ccache⟩

/-- What `mread_line` holds back is not part of what the reader faces. -/
theorem Stands.hold {h : MFile} {s : Source} (hstands : Stands h s) (c : UInt8) :
    Stands { h with ccache := c } { s with held := c } := by
  obtain ⟨hfaces, hsolid, halert, _⟩ := hstands
  refine ⟨⟨hfaces.sound.of_same (SameStore.ccache h c) hfaces.sound.reader, hfaces.unstarted, ?_⟩, hsolid,
    halert, rfl⟩
  intro a ha
  obtain ⟨pre, block, post, hplace, hdrained, htodo⟩ := hfaces.started a ha
  exact ⟨pre, block, post, ⟨hplace.sound.of_same (SameStore.ccache h c) hplace.sound.reader, hplace.pointer,
    hplace.head, hplace.le, hplace.later⟩, hdrained, htodo⟩

theorem Stands.mgetc {h : MFile} {s : Source} (hstands : Stands h s) (beyond : UInt8) :
    ∃ h', mfile.mgetc h beyond = .ok (h', s.next) ∧ Stands h' s.advance := by
  obtain ⟨held, left⟩ := s
  cases left with
  | nil => exact ⟨h, mgetc_faces_nil hstands.faces hstands.solid hstands.alert beyond, hstands⟩
  | cons c left =>
    obtain ⟨h', hget, hsame, hfaces, halert, _⟩ := mgetc_faces hstands.faces beyond
    exact ⟨h', hget, hfaces, hstands.solid.of_same hsame, halert, (mgetc_ccache hget).trans hstands.ccache⟩

theorem Stands.line_char {h : MFile} {s : Source} (hstands : Stands h s) (beyond : UInt8) :
    Lockstep Stands (mfile.line_char h beyond) s.line_char := by
  unfold mfile.line_char Source.line_char
  rw [hstands.ccache]
  by_cases hheld : s.held = 10
  · obtain ⟨h', hget, hstands'⟩ := hstands.mgetc beyond
    rw [if_pos hheld, if_pos hheld, hget]
    exact .ok _ hstands'
  · rw [if_neg hheld, if_neg hheld]
    exact .ok _ (hstands.hold 13)

theorem Stands.line_loop {h : MFile} {s : Source} (hstands : Stands h s) (beyond : Nat → UInt8) (fuel : Nat)
    (buf : List UInt8) (d : Nat) (n : Int) :
    Lockstep Stands (mread_line_loop beyond fuel h buf d n) (Source.line_loop fuel s buf d n) := by
  induction fuel generalizing h s buf d n with
  | zero => exact .error _
  | succ fuel ih =>
    apply (hstands.line_char (beyond d)).bind
    intro h s c hstands
    apply Lockstep.bind_same
    intro buf
    dsimp only
    by_cases hreturn : c = 13
    · obtain ⟨h', hget, hstands'⟩ := hstands.mgetc (beyond (d + 1))
      have hheld := hstands'.hold s.next
      rw [if_pos hreturn, if_pos hreturn, hget, ok_bind]
      dsimp only
      by_cases hend : s.next = 0
      · rw [if_pos hend, if_pos hend]
        exact .bind_same _ fun _ => .bind_same _ fun _ => .ok _ hheld
      rw [if_neg hend, if_neg hend]
      by_cases hfeed : s.next ≠ 10
      · rw [if_pos hfeed, if_pos hfeed]
        exact .ok _ hheld
      · rw [if_neg hfeed, if_neg hfeed]
        exact .bind_same _ fun _ => .ok _ hheld
    rw [if_neg hreturn, if_neg hreturn]
    by_cases hfeed : c = 10
    · rw [if_pos hfeed, if_pos hfeed]
      exact .ok _ hstands
    rw [if_neg hfeed, if_neg hfeed]
    by_cases hend : c = 0
    · rw [if_pos hend, if_pos hend]
      exact .ok _ hstands
    rw [if_neg hend, if_neg hend]
    by_cases hroom : n - 1 > 0
    · rw [if_pos hroom, if_pos hroom]
      exact ih hstands buf (d + 1) (n - 1)
    · rw [if_neg hroom, if_neg hroom]
      exact .ok _ hstands

/-- On the handle and on the source `mread_line` does the same, faults included. -/
theorem Stands.mread_line {h : MFile} {s : Source} (hstands : Stands h s) (buf : List UInt8) (n : Int)
    (beyond : Nat → UInt8) : Lockstep Stands (mfile.mread_line h buf n beyond) (s.line buf n) := by
  unfold mfile.mread_line Source.line
  by_cases hbefore : n - 1 < 0
  · rw [if_pos hbefore, if_pos hbefore]
    exact .error _
  rw [if_neg hbefore, if_neg hbefore]
  apply Lockstep.bind_same
  intro buf
  by_cases hloop : n - 2 ≠ 0
  · rw [if_pos hloop, if_pos hloop]
    exact hstands.line_loop beyond _ buf 0 (n - 2)
  · rw [if_neg hloop, if_neg hloop]
    exact .ok _ hstands

/-! ## Runs of line reads -/

/-- A line read as a caller makes it: the buffer, its length, and what lies
    behind the blocks. -/
structure LineRead where
  buf : List UInt8
  n : Int
  beyond : Nat → UInt8

def LineRead.call (read : LineRead) : Call := .mread_line read.buf read.n read.beyond

/-- A line read of a source. -/
def Source.read (s : Source) (read : LineRead) : Except Fault (Source × Reply) := do
  let (s, buf, r) ← s.line read.buf read.n
  .ok (s, .line r buf)

theorem Stands.perform {h : MFile} {s : Source} (hstands : Stands h s) (alloc : Alloc) (read : LineRead) :
    Lockstep Stands (mfile.perform alloc h read.call) (s.read read) := by
  apply (hstands.mread_line read.buf read.n read.beyond).bind
  intro h s o hstands
  exact .ok _ hstands

theorem Stands.run {h : MFile} {s : Source} (hstands : Stands h s) (alloc : Alloc) (reads : List LineRead) :
    Lockstep Stands (machine.run (mfile.perform alloc) h (reads.map LineRead.call))
      (machine.run Source.read s reads) := by
  rw [run_map]
  exact Lockstep.run (fun read _ _ _ hstands => hstands.perform alloc read) hstands

end code_tools.mfile
