import CodeTools.Lib.Heap
import CodeTools.Lib.Machine
import CodeTools.Lib.Syscall

/-!
# `write_fd_timeout` of `utils.c`

A call goes on with each answer of `fcntl`, `select` and `write`. It makes the
descriptor nonblocking at its start and has to undo this on each way out.
-/

namespace code_tools.server_epoll.fd_timeout

open cmem machine syscall

/-- The bytes behind `buf`, as many as `len` says. -/
structure Buffer where
  bytes : List UInt8
  fits : bytes.length < 2 ^ 31

inductive Standing where
  | ndelay_on
  | select
  | write
deriving DecidableEq, Repr

inductive Progress where
  | calling (standing : Standing)
  | returned (rc : Int)
deriving DecidableEq, Repr

/-- The variables of a call, the `O_NONBLOCK` of its descriptor, and what the
    descriptor has accepted. -/
structure FdWrite where
  buf : List UInt8
  wrote_len : Int
  n : Int
  nonblock : Bool
  accepted : List UInt8
  progress : Progress
deriving DecidableEq, Repr

inductive Answer where
  | ndelay_on (success : Bool)
  | selected (ret : Int) (isset : Bool)
  | wrote (result : WriteResult)
deriving DecidableEq, Repr

def call (buf : Buffer) (nonblock : Bool) : FdWrite :=
  { buf := buf.bytes, wrote_len := 0, n := buf.bytes.length, nonblock := nonblock, accepted := [],
    progress := .calling .ndelay_on }

def ndelay_off (c : FdWrite) : FdWrite := { c with nonblock := false }

def returns (c : FdWrite) (rc : Int) : FdWrite := { c with progress := .returned rc }

/-- The test of `while (n > 0)`, and what stands behind the loop. -/
def write_loop (c : FdWrite) : FdWrite :=
  if 0 < c.n then { c with progress := .calling .select } else returns (ndelay_off c) c.wrote_len

/-- `write` has accepted `nw` bytes, or none where it is negative. -/
def advance (c : FdWrite) (nw : Int) : FdWrite :=
  { c with
    wrote_len := c.wrote_len + nw
    n := c.n - nw
    accepted := c.accepted ++ (c.buf.drop c.wrote_len.toNat).take nw.toNat }

def write_fd_timeout (c : FdWrite) (answer : Answer) : Except Stuck FdWrite :=
  match c.progress, answer with
  | .calling .ndelay_on, .ndelay_on success =>
    if success then .ok (write_loop { c with nonblock := true }) else .ok (returns c (-1))
  | .calling .select, .selected ret isset =>
    if ret = -1 then .ok (returns (ndelay_off c) (-1))
    else if ret = 0 then .ok (returns (ndelay_off c) (-2))
    else if isset then .ok { c with progress := .calling .write }
    else .ok (write_loop c)
  | .calling .write, .wrote result =>
    -- `write(fd, pbuf + wrote_len, n)`
    if c.wrote_len < 0 ∨ c.buf.length < c.wrote_len + c.n then .error .pointer
    else
      match result with
      | .failed errno =>
        -- no `errno` has both values
        if errno ≠ .EAGAIN ∨ errno ≠ .EINTR then .ok (returns (ndelay_off c) (-1))
        else .ok (write_loop (advance c (-1)))
      | .accepted nw =>
        if c.n < nw then .error .answer
        else if nw = 0 then .ok (returns c (-1))
        else .ok (write_loop (advance c nw))
  | _, _ => .error .answer

def step (c : FdWrite) (answer : Answer) : Except Stuck (FdWrite × Unit) := do
  let c ← write_fd_timeout c answer
  .ok (c, ())

def FdWrite.Finished (c : FdWrite) : Prop := ∃ rc, c.progress = .returned rc

/-! ## What the answers say -/

namespace Answer

/-- No descriptor became writable in time. -/
def TimedOut : Answer → Prop
  | .selected ret _ => ret = 0
  | _ => False

/-- A `write` that is worth another try. -/
def Transient : Answer → Prop
  | .wrote (.failed errno) => errno = .EAGAIN ∨ errno = .EINTR
  | _ => False

def ZeroLength : Answer → Prop
  | .wrote (.accepted nw) => nw = 0
  | _ => False

/-- What -1 reports. -/
def Fails : Answer → Prop
  | .selected ret _ => ret = -1
  | .wrote (.accepted nw) => nw = 0
  | .wrote (.failed errno) => errno ≠ .EAGAIN ∧ errno ≠ .EINTR
  | _ => False

end Answer

/-- The value of a finished call tells what became of the bytes, and the descriptor
    is blocking again. -/
structure Contract (buf : Buffer) (answers : List Answer) (c : FdWrite) : Prop where
  in_order : c.accepted <+: buf.bytes
  value : ∃ rc, c.progress = .returned rc ∧ (rc = buf.bytes.length ∨ rc = -2 ∨ rc = -1) ∧
    (rc = buf.bytes.length ↔ c.accepted = buf.bytes) ∧
    (rc = -2 ↔ ∃ last, answers.getLast? = some last ∧ last.TimedOut) ∧
    (rc = -1 → ∃ last, answers.getLast? = some last ∧ last.Fails)
  blocking : c.nonblock = false

/-! ## One answer -/

/-- A call in its loop: some bytes are left, and those before them are written. -/
structure InLoop (buf : List UInt8) (c : FdWrite) : Prop where
  same : c.buf = buf
  standing : c.progress = .calling .select ∨ c.progress = .calling .write
  accepted : c.accepted = buf.take c.wrote_len.toNat
  wrote_len : 0 ≤ c.wrote_len
  n : c.n = buf.length - c.wrote_len
  more : 0 < c.n
  nonblock : c.nonblock = true

/-- A part of the bytes, in their order. -/
def Short (buf : List UInt8) (c : FdWrite) : Prop :=
  c.accepted <+: buf ∧ c.accepted.length < buf.length

theorem InLoop.short {buf : List UInt8} {c : FdWrite} (hloop : InLoop buf c) : Short buf c := by
  have hn := hloop.n
  have hmore := hloop.more
  have hwrote := hloop.wrote_len
  unfold Short
  rw [hloop.accepted]
  refine ⟨List.take_prefix _ _, ?_⟩
  simp only [List.length_take]
  omega

theorem InLoop.not_finished {buf : List UInt8} {c : FdWrite} (hloop : InLoop buf c) : ¬c.Finished := by
  rintro ⟨rc, hreturned⟩
  obtain hselect | hwrite := hloop.standing
  · simp [hreturned] at hselect
  · simp [hreturned] at hwrite

/-- Where an answer leads a call in its loop. -/
inductive Turn (buf : List UInt8) (answer : Answer) (c : FdWrite) : Prop where
  | goes_on (hloop : InLoop buf c) (hretry : ¬answer.Transient) (hsome : ¬answer.ZeroLength)
  | all (hprogress : c.progress = .returned buf.length) (haccepted : c.accepted = buf)
      (hblocking : c.nonblock = false) (htime : ¬answer.TimedOut) (hretry : ¬answer.Transient)
      (hsome : ¬answer.ZeroLength)
  | timed_out (hprogress : c.progress = .returned (-2)) (hshort : Short buf c)
      (hblocking : c.nonblock = false) (hanswer : answer.TimedOut)
  | failed (hprogress : c.progress = .returned (-1)) (hshort : Short buf c)
      (hnonblock : c.nonblock = true ↔ answer.ZeroLength) (hanswer : answer.Fails ∨ answer.Transient)
      (htime : ¬answer.TimedOut)

/-- The loop test once the bytes of an answer are counted. -/
theorem write_loop_turn {buf : List UInt8} {answer : Answer} {c : FdWrite} (hsame : c.buf = buf)
    (haccepted : c.accepted = buf.take c.wrote_len.toNat) (hwrote : 0 ≤ c.wrote_len)
    (hle : c.wrote_len ≤ buf.length) (hn : c.n = buf.length - c.wrote_len) (hnonblock : c.nonblock = true)
    (htime : ¬answer.TimedOut) (hretry : ¬answer.Transient) (hsome : ¬answer.ZeroLength) :
    Turn buf answer (write_loop c) := by
  unfold write_loop
  by_cases hmore : 0 < c.n
  · rw [if_pos hmore]
    exact .goes_on ⟨hsame, Or.inl rfl, haccepted, hwrote, hn, hmore, hnonblock⟩ hretry hsome
  · rw [if_neg hmore]
    have hall : c.wrote_len = buf.length := by omega
    refine .all ?_ ?_ rfl htime hretry hsome
    · simp [returns, hall]
    · simp [returns, ndelay_off, haccepted, hall]

/-- A `write` that accepts some of the bytes. -/
theorem InLoop.advance_turn {buf : List UInt8} {c : FdWrite} (hloop : InLoop buf c) {nw : Nat}
    (hfits : ¬c.n < nw) (hsome : nw ≠ 0) :
    Turn buf (.wrote (.accepted nw)) (write_loop (advance c nw)) := by
  have hn := hloop.n
  have hwrote := hloop.wrote_len
  have hcount : (c.wrote_len + nw).toNat = c.wrote_len.toNat + nw := by omega
  apply write_loop_turn
  case hsame => exact hloop.same
  case haccepted => simp [advance, hloop.accepted, hloop.same, hcount, List.take_add]
  case hnonblock => exact hloop.nonblock
  case htime => exact id
  case hretry => exact id
  case hsome => exact hsome
  all_goals
    dsimp only [advance]
    omega

/-- Each answer leads a call in its loop on in one of the four ways. -/
theorem write_fd_timeout_turn {buf : List UInt8} {c c' : FdWrite} (hloop : InLoop buf c) {answer : Answer}
    (hstep : write_fd_timeout c answer = .ok c') : Turn buf answer c' := by
  have hshort := hloop.short
  unfold write_fd_timeout at hstep
  split at hstep
  case h_1 hstanding =>
    obtain hselect | hwrite := hloop.standing
    · simp [hstanding] at hselect
    · simp [hstanding] at hwrite
  case h_2 ret isset hstanding =>
    split at hstep
    case isTrue hfailed =>
      cases hstep
      exact .failed rfl hshort (by simp [returns, ndelay_off, Answer.ZeroLength]) (Or.inl hfailed)
        (by simp [Answer.TimedOut, hfailed])
    split at hstep
    case isTrue htimeout =>
      cases hstep
      exact .timed_out rfl hshort rfl htimeout
    split at hstep
    case isTrue =>
      cases hstep
      exact .goes_on { hloop with standing := Or.inr rfl } id id
    case isFalse hready _ =>
      cases hstep
      have hn := hloop.n
      have hmore := hloop.more
      exact write_loop_turn hloop.same hloop.accepted hloop.wrote_len (by omega) hn hloop.nonblock hready id id
  case h_3 result hstanding =>
    split at hstep
    case isTrue => cases hstep
    split at hstep
    case h_1 errno =>
      -- the test lets no value of `errno` through
      have hreturns : errno ≠ .EAGAIN ∨ errno ≠ .EINTR := by
        by_cases hagain : errno = .EAGAIN
        · simp [hagain]
        · exact Or.inl hagain
      rw [if_pos hreturns] at hstep
      cases hstep
      refine .failed rfl hshort (by simp [returns, ndelay_off, Answer.ZeroLength]) ?_ id
      by_cases hretry : errno = .EAGAIN ∨ errno = .EINTR
      · exact Or.inr hretry
      · exact Or.inl (not_or.mp hretry)
    case h_2 nw =>
      split at hstep
      case isTrue => cases hstep
      split at hstep
      case isTrue hzero =>
        cases hstep
        exact .failed rfl hshort (by simp [returns, Answer.ZeroLength, hzero, hloop.nonblock])
          (Or.inl hzero) id
      case isFalse hfits hsome =>
        cases hstep
        exact hloop.advance_turn hfits hsome
  case h_4 => cases hstep

/-- In its loop a call stays within its buffer. -/
theorem write_fd_timeout_pointer {buf : List UInt8} {c : FdWrite} (hloop : InLoop buf c) (answer : Answer) :
    write_fd_timeout c answer ≠ .error .pointer := by
  have hn := hloop.n
  have hwrote := hloop.wrote_len
  have hsame := congrArg List.length hloop.same
  have hinside : ¬(c.wrote_len < 0 ∨ (c.buf.length : Int) < c.wrote_len + c.n) := by omega
  unfold write_fd_timeout
  split
  case h_1 success _ => cases success <;> simp
  case h_2 ret isset _ =>
    split
    case isTrue => nofun
    split
    case isTrue => nofun
    cases isset <;> simp
  case h_3 result _ =>
    rw [if_neg hinside]
    cases result with
    | failed errno =>
      dsimp only
      split <;> simp
    | accepted nw =>
      dsimp only
      split
      case isTrue => nofun
      split <;> simp
  case h_4 => nofun

/-! ## The answers of a call -/

/-- A call that has returned takes no more answers. -/
theorem run_finished {c c' : FdWrite} (hfinished : c.Finished) {answers : List Answer} {outs : List Unit}
    (hrun : run step c answers = .ok (c', outs)) : answers = [] ∧ c' = c := by
  obtain ⟨rc, hreturned⟩ := hfinished
  refine run_stopped (fun answer r hstep => ?_) hrun
  obtain ⟨c₁, hwrite, _⟩ := bind_eq_ok_iff.mp hstep
  simp [write_fd_timeout, hreturned] at hwrite

/-- A call ends with its last answer, and each answer before it was worth a loop. -/
theorem run_turn {buf : List UInt8} {c c' : FdWrite} (hloop : InLoop buf c) {answers : List Answer}
    {outs : List Unit} (hrun : run step c answers = .ok (c', outs)) (hfinished : c'.Finished) :
    ∃ before last, answers = before ++ [last] ∧
      (∀ answer ∈ before, ¬answer.Transient ∧ ¬answer.ZeroLength) ∧ Turn buf last c' := by
  induction answers generalizing c outs with
  | nil =>
    obtain ⟨rfl, _⟩ := by simpa using hrun
    exact absurd hfinished hloop.not_finished
  | cons answer answers ih =>
    obtain ⟨c₁, u, outs', hstep, hrest, _⟩ := run_cons_eq_ok_iff.mp hrun
    obtain ⟨c₂, hwrite, heq⟩ := bind_eq_ok_iff.mp hstep
    cases heq
    have hturn := write_fd_timeout_turn hloop hwrite
    have hends : c₁.Finished → ∃ before last, answer :: answers = before ++ [last] ∧
        (∀ answer ∈ before, ¬answer.Transient ∧ ¬answer.ZeroLength) ∧ Turn buf last c' := by
      intro hreturned
      obtain ⟨rfl, rfl⟩ := run_finished hreturned hrest
      exact ⟨[], answer, rfl, by simp, hturn⟩
    cases hturn with
    | goes_on hloop' hretry hsome =>
      obtain ⟨before, last, rfl, hclean, hlast⟩ := ih hloop' hrest
      refine ⟨answer :: before, last, rfl, ?_, hlast⟩
      simpa using ⟨⟨hretry, hsome⟩, hclean⟩
    | all hprogress => exact hends ⟨_, hprogress⟩
    | timed_out hprogress => exact hends ⟨_, hprogress⟩
    | failed hprogress => exact hends ⟨_, hprogress⟩

theorem Short.ne {buf : List UInt8} {c : FdWrite} (hshort : Short buf c) : c.accepted ≠ buf := by
  intro hall
  have hless := hshort.2
  rw [hall] at hless
  exact Nat.lt_irrefl _ hless

/-- What the last answer decides about the contract. -/
theorem contract_iff_last {buf : Buffer} {answers : List Answer} {last : Answer} {c : FdWrite}
    (hlast : answers.getLast? = some last) (hturn : Turn buf.bytes last c) (hfinished : c.Finished) :
    Contract buf answers c ↔ ¬last.Transient ∧ ¬last.ZeroLength := by
  have hnonneg : (0 : Int) ≤ buf.bytes.length := Int.natCast_nonneg _
  cases hturn with
  | goes_on hloop => exact absurd hfinished hloop.not_finished
  | all hprogress haccepted hblocking htime hretry hsome =>
    refine iff_of_true ⟨by simp [haccepted], ⟨_, hprogress, Or.inl rfl, ?_, ?_, ?_⟩, hblocking⟩ ⟨hretry, hsome⟩
    · simpa using haccepted
    · refine iff_of_false (by omega) ?_
      simpa [hlast] using htime
    · omega
  | timed_out hprogress hshort hblocking hanswer =>
    refine iff_of_true ⟨hshort.1, ⟨-2, hprogress, by simp, ?_, ?_, by simp⟩, hblocking⟩ ?_
    · exact iff_of_false (by omega) hshort.ne
    · simpa [hlast] using hanswer
    · cases last with
      | selected ret isset => exact ⟨id, id⟩
      | ndelay_on success => exact absurd hanswer id
      | wrote result => exact absurd hanswer id
  | failed hprogress hshort hnonblock hanswer htime =>
    constructor
    · intro hcontract
      obtain ⟨rc, hrc, _, _, _, hfails⟩ := hcontract.value
      cases hprogress.symm.trans hrc
      have hfails : last.Fails := by simpa [hlast] using hfails rfl
      constructor
      · intro hretry
        cases last with
        | wrote result =>
          cases result with
          | failed errno => exact hretry.elim hfails.1 hfails.2
          | accepted nw => exact hretry
        | selected ret isset => exact hretry
        | ndelay_on success => exact hretry
      · intro hzero
        simp [hcontract.blocking, hzero] at hnonblock
    · rintro ⟨hretry, hsome⟩
      have hfails := hanswer.resolve_right hretry
      refine ⟨hshort.1, ⟨-1, hprogress, by simp, ?_, ?_, ?_⟩, ?_⟩
      · exact iff_of_false (by omega) hshort.ne
      · simpa [hlast] using htime
      · simpa [hlast] using hfails
      · simpa [hsome] using hnonblock

/-- Where `ndelay_on` succeeds the call enters its loop, unless there is nothing to
    write. -/
theorem ndelay_on_cases (buf : Buffer) (nonblock : Bool) {c : FdWrite}
    (hstep : write_fd_timeout (call buf nonblock) (.ndelay_on true) = .ok c) :
    InLoop buf.bytes c ∨
      (buf.bytes = [] ∧ c.progress = .returned 0 ∧ c.accepted = [] ∧ c.nonblock = false) := by
  cases hstep
  unfold write_loop
  by_cases hmore : (0 : Int) < buf.bytes.length
  · rw [if_pos (show 0 < (call buf nonblock).n from hmore)]
    refine Or.inl ⟨rfl, Or.inl rfl, rfl, Int.le_refl 0, ?_, hmore, rfl⟩
    simp [call]
  · rw [if_neg (show ¬0 < (call buf nonblock).n from hmore)]
    exact Or.inr ⟨List.length_eq_zero_iff.mp (by omega), rfl, rfl, rfl⟩

/-- A call is about to begin, in its loop, or over. -/
def Underway (buf : Buffer) (nonblock : Bool) (c : FdWrite) : Prop :=
  c = call buf nonblock ∨ InLoop buf.bytes c ∨ c.Finished

theorem Underway.step {buf : Buffer} {nonblock : Bool} {c : FdWrite} (hunderway : Underway buf nonblock c)
    (answer : Answer) : write_fd_timeout c answer ≠ .error .pointer ∧
      ∀ c', write_fd_timeout c answer = .ok c' → Underway buf nonblock c' := by
  obtain rfl | hloop | ⟨rc, hreturned⟩ := hunderway
  · cases answer with
    | ndelay_on success =>
      cases success with
      | false =>
        refine ⟨nofun, fun c' hstep => ?_⟩
        cases hstep
        exact Or.inr (Or.inr ⟨-1, rfl⟩)
      | true =>
        refine ⟨nofun, fun c' hstep => ?_⟩
        obtain hloop | ⟨_, hreturned, _⟩ := ndelay_on_cases buf nonblock hstep
        · exact Or.inr (Or.inl hloop)
        · exact Or.inr (Or.inr ⟨0, hreturned⟩)
    | selected ret isset => exact ⟨nofun, nofun⟩
    | wrote result => exact ⟨nofun, nofun⟩
  · refine ⟨write_fd_timeout_pointer hloop answer, fun c' hstep => ?_⟩
    cases write_fd_timeout_turn hloop hstep with
    | goes_on hloop' => exact Or.inr (Or.inl hloop')
    | all hprogress => exact Or.inr (Or.inr ⟨_, hprogress⟩)
    | timed_out hprogress => exact Or.inr (Or.inr ⟨_, hprogress⟩)
    | failed hprogress => exact Or.inr (Or.inr ⟨_, hprogress⟩)
  · simp [write_fd_timeout, hreturned]

/-- Whatever is answered, no byte outside the buffer is looked at. -/
theorem run_pointer (buf : Buffer) (nonblock : Bool) (answers : List Answer) :
    run step (call buf nonblock) answers ≠ .error .pointer := by
  intro hrun
  have hkeeps : ∀ c answer c' u, Underway buf nonblock c → True → step c answer = .ok (c', u) →
      Underway buf nonblock c' := by
    intro c answer c' u hunderway _ hstep
    obtain ⟨c₁, hwrite, heq⟩ := bind_eq_ok_iff.mp hstep
    cases heq
    exact (hunderway.step answer).2 c' hwrite
  obtain ⟨c, answer, hunderway, _, hfault⟩ := run_fault (Underway buf nonblock) hkeeps (Or.inl rfl)
    (guarded_of_forall (G := fun _ _ => True) fun _ _ => trivial) hrun
  have hinside := (hunderway.step answer).1
  unfold step at hfault
  cases hwrite : write_fd_timeout c answer with
  | error e =>
    rw [hwrite] at hfault
    cases hfault
    exact hinside hwrite
  | ok c' => simp [hwrite, ok_bind] at hfault

/-- For every buffer and all answers of `select` and `write`, a call that made its
    descriptor nonblocking and has returned meets the contract exactly when no
    `write` failed with `EAGAIN` or `EINTR` and none accepted zero bytes. -/
theorem write_fd_timeout_contract_iff (buf : Buffer) (nonblock : Bool) {answers : List Answer} {c : FdWrite}
    {outs : List Unit} (hrun : run step (call buf nonblock) (.ndelay_on true :: answers) = .ok (c, outs))
    (hfinished : c.Finished) :
    Contract buf (.ndelay_on true :: answers) c ↔
      ∀ answer ∈ answers, ¬answer.Transient ∧ ¬answer.ZeroLength := by
  obtain ⟨c₁, u, outs', hstep, hrest, _⟩ := run_cons_eq_ok_iff.mp hrun
  obtain ⟨c₂, hwrite, heq⟩ := bind_eq_ok_iff.mp hstep
  cases heq
  obtain hloop | ⟨hempty, hreturned, haccepted, hblocking⟩ := ndelay_on_cases buf nonblock hwrite
  · obtain ⟨before, last, rfl, hclean, hturn⟩ := run_turn hloop hrest hfinished
    have hlast : (Answer.ndelay_on true :: (before ++ [last])).getLast? = some last := by
      rw [← List.cons_append, List.getLast?_concat]
    rw [contract_iff_last hlast hturn hfinished]
    simp only [List.forall_mem_append, List.forall_mem_singleton]
    exact ⟨fun h => ⟨hclean, h⟩, And.right⟩
  · -- nothing to write
    obtain ⟨rfl, rfl⟩ := run_finished ⟨0, hreturned⟩ hrest
    refine iff_of_true ⟨by simp [haccepted], ⟨0, hreturned, ?_, ?_, ?_, ?_⟩, hblocking⟩ (by simp)
    · simp [hempty]
    · simp [hempty, haccepted]
    · simp [Answer.TimedOut]
    · simp

def three_bytes : Buffer := { bytes := [97, 98, 99], fits := by decide }

/-- One byte is accepted, and nothing more in time. -/
def one_byte : List Answer :=
  [.ndelay_on true, .selected 1 true, .wrote (.accepted 1), .selected 0 false]

/-- The descriptor takes no more for now. -/
def would_block : List Answer := [.ndelay_on true, .selected 1 true, .wrote (.failed .EAGAIN)]

theorem write_fd_timeout_contract_iff_one_byte :
    ∃ c outs, run step (call three_bytes false) one_byte = .ok (c, outs) ∧ c.progress = .returned (-2) ∧
      c.accepted = [97] ∧ Contract three_bytes one_byte c := by
  obtain ⟨c, outs, hrun, hview⟩ := run_of_view (fun c : FdWrite => (c.progress, c.accepted))
    (by decide +kernel : (run step (call three_bytes false) one_byte).toOption.map
      (fun r => (r.1.progress, r.1.accepted)) = some (.returned (-2), [97]))
  obtain ⟨hprogress, haccepted⟩ := Prod.mk.inj hview
  refine ⟨c, outs, hrun, hprogress, haccepted, ?_⟩
  apply (write_fd_timeout_contract_iff three_bytes false hrun ⟨-2, hprogress⟩).mpr
  simp [Answer.Transient, Answer.ZeroLength]

/-- `EAGAIN` is not retried, although no `select` and no `write` failed. -/
theorem transient_error_returned :
    ∃ c outs, run step (call three_bytes false) would_block = .ok (c, outs) ∧ c.progress = .returned (-1) ∧
      ¬Contract three_bytes would_block c := by
  obtain ⟨c, outs, hrun, hprogress⟩ := run_of_view FdWrite.progress
    (by decide +kernel : (run step (call three_bytes false) would_block).toOption.map
      (fun r => r.1.progress) = some (.returned (-1)))
  refine ⟨c, outs, hrun, hprogress, fun hcontract => ?_⟩
  obtain ⟨rc, hrc, _, _, _, hfails⟩ := hcontract.value
  cases hprogress.symm.trans hrc
  simp [would_block, Answer.Fails] at hfails

end code_tools.server_epoll.fd_timeout
