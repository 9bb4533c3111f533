import CodeTools.Lib.Heap
import CodeTools.Lib.Syscall

/-!
# `safe_write` of `ctio.c`

A call of `safe_write` is a frame that goes on with each answer of `write` and
`select`. An answer tells the time at which it came, since `time` is asked right
after.
-/

namespace code_tools.ctproxy

open syscall

inductive Standing where
  | first_write
  | select
  | write
deriving DecidableEq, Repr

/-- `buf` is what the pointer still has before it. -/
structure SafeWrite where
  buf : List UInt8
  len : Nat
  timeout_seconds : Int
  standing : Standing
deriving DecidableEq, Repr

def SafeWrite.call (buf : List UInt8) (len : Nat) (timeout_seconds : Int) : SafeWrite :=
  { buf := buf, len := len, timeout_seconds := timeout_seconds, standing := .first_write }

inductive Progress where
  | calling (frame : SafeWrite)
  | returned (rc : Nat)
  /-- The end of the function was reached without a `return`. -/
  | left_loop
deriving DecidableEq, Repr

inductive IoAnswer where
  | wrote (result : WriteResult) (now : Int)
  | selected (cnt : Int) (errno : Errno) (now : Int) (isset : Bool)
deriving DecidableEq, Repr

/-- What one answer leads to: the bytes that the descriptor accepted, and the
    static `last_write_time`. -/
structure IoStep where
  progress : Progress
  accepted : List UInt8
  last_write_time : Int
deriving DecidableEq, Repr

/-- -1 and -2 as a `size_t`. -/
def write_failed : Nat := 2 ^ 64 - 1

def write_timeout : Nat := 2 ^ 64 - 2

/-- A `size_t` that is stored in an `int`. -/
@[irreducible] def int_of_size_t (v : Nat) : Int := ((v : Int) + 2 ^ 31) % 2 ^ 32 - 2 ^ 31

/-- The test of `while (len)`. -/
def safe_write_loop (frame : SafeWrite) : Progress :=
  if frame.len ≠ 0 then .calling { frame with standing := .select } else .left_loop

/-- `write` accepts at most `len` bytes, and no more at once than an `int` holds. -/
def safe_write (last_write_time : Int) (frame : SafeWrite) (answer : IoAnswer) : Except Stuck IoStep :=
  match frame.standing, answer with
  | .first_write, .wrote (.accepted n) now =>
    if frame.len < n ∨ 2 ^ 31 ≤ n then .error .answer
    else if frame.buf.length < n then .error .pointer
    else if n = frame.len then
      .ok { progress := .returned n, accepted := frame.buf.take n, last_write_time := now }
    else
      .ok { progress := safe_write_loop { frame with buf := frame.buf.drop n, len := frame.len - n },
            accepted := frame.buf.take n, last_write_time := now }
  | .first_write, .wrote (.failed errno) now =>
    if errno ≠ .EINTR ∧ errno ≠ .EAGAIN then
      .ok { progress := .returned write_failed, accepted := [], last_write_time := now }
    else .ok { progress := safe_write_loop frame, accepted := [], last_write_time := now }
  | .select, .selected cnt errno now isset =>
    if cnt ≤ 0 then
      if cnt < 0 ∧ errno = .EBADF then
        .ok { progress := .returned write_failed, accepted := [], last_write_time := last_write_time }
      else if now - last_write_time > frame.timeout_seconds then
        .ok { progress := .returned write_timeout, accepted := [], last_write_time := last_write_time }
      else .ok { progress := safe_write_loop frame, accepted := [], last_write_time := last_write_time }
    else if isset then
      .ok { progress := .calling { frame with standing := .write }, accepted := [],
            last_write_time := last_write_time }
    else .ok { progress := safe_write_loop frame, accepted := [], last_write_time := last_write_time }
  | .write, .wrote (.accepted n) now =>
    if frame.len < n ∨ 2 ^ 31 ≤ n then .error .answer
    else if frame.buf.length < n then .error .pointer
    else
      .ok { progress := safe_write_loop { frame with buf := frame.buf.drop n, len := frame.len - n },
            accepted := frame.buf.take n, last_write_time := now }
  | .write, .wrote (.failed errno) now =>
    if errno = .EINTR then
      .ok { progress := safe_write_loop frame, accepted := [], last_write_time := now }
    else .ok { progress := .returned write_failed, accepted := [], last_write_time := now }
  | _, _ => .error .answer

/-- The length of a frame is that of what is left of its buffer. -/
def SafeWrite.Exact (frame : SafeWrite) : Prop := frame.len = frame.buf.length

/-- What a step accepts and where it leads: the frame that goes on has the rest
    left, a call that left its loop has nothing left, and one that returned has
    nothing left either or reports a failure. -/
structure IoStep.Follows (r : IoStep) (frame : SafeWrite) (n : Nat) : Prop where
  accepted : r.accepted = frame.buf.take n
  calling : ∀ frame', r.progress = .calling frame' → frame'.buf = frame.buf.drop n ∧ frame'.Exact
  left_loop : r.progress = .left_loop → frame.buf.length ≤ n
  returned : ∀ rc, r.progress = .returned rc → frame.buf.length ≤ n ∨ int_of_size_t rc < 0

/-- The loop test after `n` more bytes. -/
theorem follows_loop {frame : SafeWrite} (hexact : frame.Exact) (n : Nat) (last_write_time : Int) :
    IoStep.Follows
      { progress := safe_write_loop { frame with buf := frame.buf.drop n, len := frame.len - n },
        accepted := frame.buf.take n, last_write_time := last_write_time } frame n := by
  unfold SafeWrite.Exact at hexact
  unfold safe_write_loop
  by_cases hmore : frame.len - n ≠ 0
  · rw [if_pos hmore]
    refine ⟨rfl, ?_, nofun, nofun⟩
    intro frame' hcalling
    cases hcalling
    refine ⟨rfl, ?_⟩
    unfold SafeWrite.Exact
    rw [List.length_drop, hexact]
  · rw [if_neg hmore]
    exact ⟨rfl, nofun, fun _ => by omega, nofun⟩

theorem follows_retry {frame : SafeWrite} (hexact : frame.Exact) (last_write_time : Int) :
    IoStep.Follows
      { progress := safe_write_loop frame, accepted := [], last_write_time := last_write_time } frame 0 :=
  follows_loop hexact 0 last_write_time

theorem follows_failed (frame : SafeWrite) {rc : Nat} (hrc : int_of_size_t rc < 0) (last_write_time : Int) :
    IoStep.Follows
      { progress := .returned rc, accepted := [], last_write_time := last_write_time } frame 0 := by
  refine ⟨rfl, nofun, nofun, ?_⟩
  intro rc' hreturned
  cases hreturned
  exact Or.inr hrc

theorem int_of_write_failed : int_of_size_t write_failed < 0 := by
  unfold int_of_size_t write_failed
  decide

theorem int_of_write_timeout : int_of_size_t write_timeout < 0 := by
  unfold int_of_size_t write_timeout
  decide

/-- Each answer takes a call of `safe_write` on by the bytes that it accepted. -/
theorem safe_write_follows {last_write_time : Int} {frame : SafeWrite} (hexact : frame.Exact)
    {answer : IoAnswer} {r : IoStep} (hstep : safe_write last_write_time frame answer = .ok r) :
    ∃ n, r.Follows frame n := by
  unfold safe_write at hstep
  split at hstep
  · rename_i n now _
    split at hstep
    · cases hstep
    split at hstep
    · cases hstep
    split at hstep
    · rename_i hall
      cases hstep
      refine ⟨n, rfl, nofun, nofun, fun _ _ => Or.inl ?_⟩
      unfold SafeWrite.Exact at hexact
      omega
    · cases hstep
      exact ⟨n, follows_loop hexact n now⟩
  · rename_i errno now _
    split at hstep
    · cases hstep
      exact ⟨0, follows_failed frame int_of_write_failed now⟩
    · cases hstep
      exact ⟨0, follows_retry hexact now⟩
  · rename_i cnt errno now isset _
    split at hstep
    · split at hstep
      · cases hstep
        exact ⟨0, follows_failed frame int_of_write_failed last_write_time⟩
      split at hstep
      · cases hstep
        exact ⟨0, follows_failed frame int_of_write_timeout last_write_time⟩
      · cases hstep
        exact ⟨0, follows_retry hexact last_write_time⟩
    · split at hstep
      · cases hstep
        refine ⟨0, rfl, ?_, nofun, nofun⟩
        intro frame' hcalling
        cases hcalling
        exact ⟨rfl, hexact⟩
      · cases hstep
        exact ⟨0, follows_retry hexact last_write_time⟩
  · rename_i n now _
    split at hstep
    · cases hstep
    split at hstep
    · cases hstep
    · cases hstep
      exact ⟨n, follows_loop hexact n now⟩
  · rename_i errno now _
    split at hstep
    · cases hstep
      exact ⟨0, follows_retry hexact now⟩
    · cases hstep
      exact ⟨0, follows_failed frame int_of_write_failed now⟩
  · cases hstep

end code_tools.ctproxy
