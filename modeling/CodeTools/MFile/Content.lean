import CodeTools.Lib.Machine
import CodeTools.MFile.Reading

/-!
# A handle stores a byte sequence
-/

namespace code_tools.mfile

open cmem machine

/-- The bytes that a handle should hold, and how many of them came by head
    writes. -/
structure Contents where
  bytes : List UInt8
  heads : Nat
deriving DecidableEq, Repr

def Contents.empty : Contents := { bytes := [], heads := 0 }

/-- What each call should do to the bytes. Writes return 1. -/
def Contents.step (s : Contents) : Op → Contents × Option Int
  | .mwrite data len => ({ s with bytes := s.bytes ++ data.take len.toNat }, some 1)
  | .mwrite_head data len =>
    ({ bytes := data.take len.toNat ++ s.bytes, heads := s.heads + len.toNat }, some 1)
  | .mread _ => (s, none)
  | .mgetc _ => (s, none)
  | .mseek => (s, none)
  | .mseek_pos _ => (s, none)

/-- The caller's buffers cover the lengths, head writes are nonempty and fit a
    block, and all bytes together stay below 2^31. -/
def Contents.Allowed (size : Nat) (s : Contents) : Op → Prop
  | .mwrite data len => 0 ≤ len ∧ len ≤ data.length ∧ s.bytes.length + len < 2 ^ 31
  | .mwrite_head data len =>
    1 ≤ len ∧ len ≤ size ∧ len ≤ data.length ∧ s.bytes.length + len < 2 ^ 31
  | .mread _ => True
  | .mgetc _ => True
  | .mseek => True
  | .mseek_pos _ => True

def Outcome.rc : Outcome → Option Int
  | .wrote rc => some rc
  | .read _ _ => none
  | .got _ => none
  | .sought => none

/-- The counters of a handle agree with its queue, and the writer knows whether
    its block, the last one, has room. -/
structure WellKept (h : MFile) : Prop where
  block_num : h.block_num = h.head.length
  blocks : ∀ x ∈ h.head, 0 < x.2.data_len ∧ x.2.data_len = x.2.current_write_count ∧
    x.2.current_write_count ≤ h.DATA_BLOCK_SIZE ∧ x.2.data.length = h.DATA_BLOCK_SIZE
  size : msize h = (content h).length
  writer : h.current_write_p = none ∨
    ∃ pre a block, h.current_write_p = some a ∧ h.head = pre ++ [(a, block)]
  is_full : h.is_full = true ↔ h.current_write_p = none ∨
    ∃ pre a block, h.current_write_p = some a ∧ h.head = pre ++ [(a, block)] ∧
      block.current_write_count = h.DATA_BLOCK_SIZE

theorem Layout.wellKept {h : MFile} (hlayout : Layout h) (hsize : h.total_size = (content h).length) :
    WellKept h := by
  have hblocks : ∀ x ∈ h.head, 0 < x.2.data_len ∧ x.2.data_len = x.2.current_write_count ∧
      x.2.current_write_count ≤ h.DATA_BLOCK_SIZE ∧ x.2.data.length = h.DATA_BLOCK_SIZE := by
    intro x hx
    obtain ⟨hpos, hlen, hle, hbuffer⟩ := hlayout.filled x hx
    exact ⟨by omega, hlen, hle, hbuffer⟩
  cases hp : h.current_write_p with
  | none =>
    have hfull := hlayout.unwritten hp
    exact ⟨hlayout.block_num, hblocks, hsize, Or.inl hp, iff_of_true hfull (Or.inl hp)⟩
  | some a =>
    obtain ⟨block, hlast, hiff⟩ := hlayout.writer a hp
    obtain ⟨pre, hhead⟩ := List.getLast?_eq_some_iff.mp hlast
    refine ⟨hlayout.block_num, hblocks, hsize, Or.inr ⟨pre, a, block, hp, hhead⟩, ?_⟩
    constructor
    · intro hfull
      exact Or.inr ⟨pre, a, block, hp, hhead, hiff.mp hfull⟩
    · rintro (hnone | ⟨pre', a', block', hp', hhead', hcount⟩)
      · rw [hp] at hnone
        cases hnone
      · have hlast' : h.head.getLast? = some (a', block') := by simp [hhead']
        rw [hlast] at hlast'
        obtain ⟨_, rfl⟩ := Prod.mk.inj (Option.some.inj hlast')
        exact hiff.mpr hcount

/-- The handle holds what the specification says. -/
structure Holds (size : Nat) (h : MFile) (s : Contents) : Prop where
  layout : Layout h
  block_size : h.DATA_BLOCK_SIZE = size
  bytes : content h = s.bytes
  total_size : h.total_size = s.bytes.length
  heads : h.new_header_size = s.heads
  heads_le : s.heads ≤ s.bytes.length

theorem Holds.of_same {size : Nat} {h h' : MFile} {s : Contents} (hholds : Holds size h s)
    (hsame : SameStore h h') (hsound : Sound h') : Holds size h' s :=
  ⟨hholds.layout.of_same hsame hsound, hsame.size.trans hholds.block_size, hsame.content_eq.trans hholds.bytes,
    hsame.total_size.trans hholds.total_size, hsame.new_header_size.trans hholds.heads, hholds.heads_le⟩

/-- Each allowed call succeeds and does to the bytes what the specification
    says. -/
theorem exec_holds {alloc : Alloc} (halloc : ∀ n, (alloc n).isSome) {size : Nat} (hsize : 1 ≤ size)
    {h : MFile} {s : Contents} (hholds : Holds size h s) {op : Op} (hallowed : s.Allowed size op) :
    ∃ h' out, exec alloc h op = .ok (h', out) ∧ out.rc = (s.step op).2 ∧
      Holds size h' (s.step op).1 := by
  have hblock := hholds.block_size
  cases op with
  | mwrite data len =>
    obtain ⟨hnonneg, hdata, _⟩ := hallowed
    obtain ⟨n, rfl⟩ := Int.eq_ofNat_of_zero_le hnonneg
    have hn : n ≤ data.length := by omega
    obtain ⟨h', hwrite, hlayout, huntouched, hchunks⟩ :=
      mwrite_spec halloc hholds.layout (by omega) hn
    refine ⟨h', .wrote 1, ?_, rfl, hlayout, huntouched.size.trans hblock, ?_, ?_, ?_, ?_⟩
    · simp only [exec, hwrite, ok_bind]
    · show contents h'.head = s.bytes ++ data.take n
      rw [hchunks.contents_eq, ← hholds.bytes]
      rfl
    · show h'.total_size = ((s.bytes ++ data.take n).length : Int)
      rw [huntouched.total_size, List.length_append, List.length_take]
      have htotal := hholds.total_size
      dsimp only
      omega
    · exact huntouched.new_header_size.trans hholds.heads
    · show s.heads ≤ (s.bytes ++ data.take n).length
      have hle := hholds.heads_le
      rw [List.length_append]
      omega
  | mwrite_head data len =>
    obtain ⟨hpos, hfits, hdata, htotal⟩ := hallowed
    obtain ⟨n, rfl⟩ := Int.eq_ofNat_of_zero_le (by omega : 0 ≤ len)
    obtain ⟨h', block, hwrite, hlayout, hhead, hwritten, htotal', hheads, hsame⟩ :=
      mwrite_head_spec halloc hholds.layout (by omega : 0 < n) (by omega) (by omega : n ≤ data.length)
    have hbytes : (data.take n).length = n := by
      rw [List.length_take]
      omega
    refine ⟨h', .wrote 1, ?_, rfl, hlayout, hsame.trans hblock, ?_, ?_, ?_, ?_⟩
    · simp only [exec, hwrite, ok_bind]
    · show contents h'.head = data.take n ++ s.bytes
      rw [hhead, contents_cons, hwritten, ← hholds.bytes]
      rfl
    · show h'.total_size = ((data.take n ++ s.bytes).length : Int)
      have hold := hholds.total_size
      rw [htotal', List.length_append, hbytes]
      omega
    · show h'.new_header_size = s.heads + n
      have hle := hholds.heads_le
      rw [hheads, hholds.heads]
      omega
    · show s.heads + n ≤ (data.take n ++ s.bytes).length
      have hle := hholds.heads_le
      rw [List.length_append, hbytes]
      omega
  | mread len =>
    obtain ⟨h', rc, bytes, hread, hsame, hsound⟩ := mread_same hholds.layout.sound len
    refine ⟨h', .read rc bytes, ?_, rfl, hholds.of_same hsame hsound⟩
    simp only [exec, hread, ok_bind]
  | mgetc beyond =>
    obtain ⟨h', c, hread, hsame, hsound⟩ := mgetc_same hholds.layout.sound beyond
    refine ⟨h', .got c, ?_, rfl, hholds.of_same hsame hsound⟩
    simp only [exec, hread, ok_bind]
  | mseek =>
    obtain ⟨hsame, hsound⟩ := mseek_same hholds.layout.sound
    exact ⟨mseek h, .sought, rfl, rfl, hholds.of_same hsame hsound⟩
  | mseek_pos pos =>
    obtain ⟨hsame, hsound⟩ := mseek_pos_same hholds.layout.sound pos
    exact ⟨mseek_pos h pos, .sought, rfl, rfl, hholds.of_same hsame hsound⟩

/-- A new handle is empty. -/
theorem holds_of_open {alloc : Alloc} {size : Nat} (hsize : 1 ≤ size) {af fe : Bool} {h : MFile}
    (hopen : mopen alloc size af fe = .ok (some h)) : Holds size h Contents.empty := by
  rw [eq_new_handle_of_mopen hopen]
  refine ⟨⟨?_, ?_, rfl, ?_, fun _ => rfl, ?_, ?_⟩, if_neg (by omega), rfl, rfl, rfl, Nat.le_refl _⟩
  · exact List.nodup_nil
  · simp [new_handle, Tailq.addresses]
  · simp [new_handle]
  · simp [new_handle]
  · simp [new_handle]

/-- A handle opened with block size 0 is one opened with the default size. -/
theorem open_sized {alloc : Alloc} {size : Nat} {af fe : Bool} {h : MFile}
    (hopen : mopen alloc size af fe = .ok (some h)) :
    ∃ size', 1 ≤ size' ∧ mopen alloc size' af fe = .ok (some h) := by
  cases size with
  | zero => exact ⟨DEFAULT_DATA_BLOCK_SIZE, by decide, hopen⟩
  | succ n => exact ⟨n + 1, Nat.succ_pos n, hopen⟩

/-- No allowed call makes the bytes 2^31 or more. -/
theorem Contents.step_bounded {size : Nat} {s : Contents} {op : Op} (hbounded : s.bytes.length < 2 ^ 31)
    (hallowed : s.Allowed size op) : (s.step op).1.bytes.length < 2 ^ 31 := by
  cases op with
  | mwrite data len =>
    obtain ⟨hnonneg, hdata, htotal⟩ := hallowed
    show (s.bytes ++ data.take len.toNat).length < 2 ^ 31
    rw [List.length_append, List.length_take]
    omega
  | mwrite_head data len =>
    obtain ⟨hpos, _, hdata, htotal⟩ := hallowed
    show (data.take len.toNat ++ s.bytes).length < 2 ^ 31
    rw [List.length_append, List.length_take]
    omega
  | mread len => exact hbounded
  | mgetc beyond => exact hbounded
  | mseek => exact hbounded
  | mseek_pos pos => exact hbounded

theorem holds_along_run {alloc : Alloc} (halloc : ∀ n, (alloc n).isSome) {size : Nat} (hsize : 1 ≤ size)
    {af fe : Bool} {h : MFile} (hopen : mopen alloc size af fe = .ok (some h)) {ops : List Op}
    (hallowed : Legal Contents.step (Contents.Allowed size) Contents.empty ops) :
    ∃ h' outs, run (exec alloc) h ops = .ok (h', outs) ∧
      outs.map Outcome.rc = (runTotal Contents.step Contents.empty ops).2 ∧
      Holds size h' (runTotal Contents.step Contents.empty ops).1 ∧
      (runTotal Contents.step Contents.empty ops).1.bytes.length < 2 ^ 31 := by
  have hstep : ∀ h s op, (Holds size h s ∧ s.bytes.length < 2 ^ 31) → True → Contents.Allowed size s op →
      ∃ h' out, exec alloc h op = .ok (h', out) ∧ out.rc = (s.step op).2 ∧
        Holds size h' (s.step op).1 ∧ (s.step op).1.bytes.length < 2 ^ 31 := by
    rintro h s op ⟨hholds, hbounded⟩ _ hallowed
    obtain ⟨h', out, hexec, hrc, hholds'⟩ := exec_holds halloc hsize hholds hallowed
    exact ⟨h', out, hexec, hrc, hholds', Contents.step_bounded hbounded hallowed⟩
  exact run_simulates Outcome.rc (fun h s => Holds size h s ∧ s.bytes.length < 2 ^ 31) hstep
    ⟨holds_of_open hsize hopen, by decide⟩ (guarded_of_forall fun _ _ => trivial) hallowed

/-- In every run of writes, reads and seeks on a new handle, with any block size
    and any order of calls, every call succeeds within its buffers and every
    write returns 1; the bytes held are those of the specification, and the
    counters, the writer's block and its flag agree with them. -/
theorem content_along_run {alloc : Alloc} (halloc : ∀ n, (alloc n).isSome) {size : Nat} (hsize : 1 ≤ size)
    {af fe : Bool} {h : MFile} (hopen : mopen alloc size af fe = .ok (some h)) {ops : List Op}
    (hallowed : Legal Contents.step (Contents.Allowed size) Contents.empty ops) :
    ∃ h' outs, run (exec alloc) h ops = .ok (h', outs) ∧
      outs.map Outcome.rc = (runTotal Contents.step Contents.empty ops).2 ∧
      content h' = (runTotal Contents.step Contents.empty ops).1.bytes ∧ WellKept h' ∧
      mfile_new_header_size h' = (runTotal Contents.step Contents.empty ops).1.heads := by
  obtain ⟨h', outs, hrun, hrcs, hholds, _⟩ := holds_along_run halloc hsize hopen hallowed
  refine ⟨h', outs, hrun, hrcs, hholds.bytes, hholds.layout.wellKept ?_, hholds.heads⟩
  rw [hholds.total_size, hholds.bytes]

instance (size : Nat) (s : Contents) : ∀ op, Decidable (s.Allowed size op)
  | .mwrite data len =>
    inferInstanceAs (Decidable (0 ≤ len ∧ len ≤ data.length ∧ s.bytes.length + len < 2 ^ 31))
  | .mwrite_head data len => inferInstanceAs
    (Decidable (1 ≤ len ∧ len ≤ size ∧ len ≤ data.length ∧ s.bytes.length + len < 2 ^ 31))
  | .mread _ => .isTrue trivial
  | .mgetc _ => .isTrue trivial
  | .mseek => .isTrue trivial
  | .mseek_pos _ => .isTrue trivial

/-- Blocks of two bytes: a write over two blocks, a head write and a read. -/
theorem content_along_run_two :
    ∃ h h' outs, mopen (fun _ => some fun _ => 0) 2 true true = .ok (some h) ∧
      run (exec fun _ => some fun _ => 0) h
        [.mwrite [1, 2, 3] 3, .mwrite_head [9] 1, .mread 2, .mwrite [4, 5] 2] = .ok (h', outs) ∧
      content h' = [9, 1, 2, 3, 4, 5] ∧ WellKept h' ∧ mfile_new_header_size h' = 1 := by
  have hopen : mopen (fun _ => some fun _ => 0) 2 true true = .ok (some (new_handle 2 true)) := rfl
  obtain ⟨h', outs, hrun, _, hbytes, hkept, hheads⟩ := content_along_run (by simp) (by decide) hopen
    (by decide : Legal Contents.step (Contents.Allowed 2) Contents.empty
      [.mwrite [1, 2, 3] 3, .mwrite_head [9] 1, .mread 2, .mwrite [4, 5] 2])
  exact ⟨_, h', outs, hopen, hrun, hbytes, hkept, hheads⟩

end code_tools.mfile
