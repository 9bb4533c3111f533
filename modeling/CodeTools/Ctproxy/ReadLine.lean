import CodeTools.Ctproxy.Ctio
import CodeTools.Lib.CString
import CodeTools.Lib.Machine

/-!
# `safe_read` and `read_line` of `ctio.c`

`read_line` asks `safe_read` for one byte at a time and looks for the value 0
only. After an error or a timeout it goes on with whatever the buffer holds.
-/

namespace code_tools.ctproxy

open cmem cstring machine syscall

/-! ## Reading a number of bytes -/

inductive ReadStanding where
  | select
  | read
deriving DecidableEq, Repr

/-- `buf` is what has been stored. -/
structure SafeRead where
  buf : List UInt8
  len : Nat
  timeout_seconds : Int
  standing : ReadStanding
deriving DecidableEq, Repr

def SafeRead.call (len : Nat) (timeout_seconds : Int) : SafeRead :=
  { buf := [], len := len, timeout_seconds := timeout_seconds, standing := .select }

inductive ReadAnswer where
  | selected (cnt : Int) (errno : Errno) (now : Int) (isset : Bool)
  | read (result : ReadResult) (now : Int)
deriving DecidableEq, Repr

/-- A call of `safe_read` that goes on, or the value and the bytes that it
    returned. -/
inductive Reading where
  | calling (frame : SafeRead) (last_read_time : Int)
  | returned (rc : Nat) (buf : List UInt8)
deriving DecidableEq, Repr

/-- -1 and -2 as a `size_t`. -/
def read_failed : Nat := 2 ^ 64 - 1

def read_timeout : Nat := 2 ^ 64 - 2

/-- `read` delivers no more at once than an `int` holds. -/
def safe_read (last_read_time : Int) (frame : SafeRead) (answer : ReadAnswer) : Except Stuck Reading :=
  match frame.standing, answer with
  | .select, .selected cnt errno now isset =>
    if cnt ≤ 0 then
      if cnt < 0 ∧ errno = .EBADF then .ok (.returned read_failed frame.buf)
      else if now - last_read_time > frame.timeout_seconds then .ok (.returned read_timeout frame.buf)
      else .ok (.calling frame last_read_time)
    else if isset then .ok (.calling { frame with standing := .read } last_read_time)
    else .ok (.calling frame last_read_time)
  | .read, .read (.data bytes) now =>
    if frame.len - frame.buf.length < bytes.length ∨ 2 ^ 31 ≤ bytes.length then .error .answer
    else if bytes = [] then .ok (.returned frame.buf.length frame.buf)
    else
      let buf := frame.buf ++ bytes
      if buf.length = frame.len then .ok (.returned buf.length buf)
      else .ok (.calling { frame with buf := buf, standing := .select } now)
  | .read, .read (.failed errno) now =>
    if errno = .EINTR then .ok (.calling { frame with standing := .select } now)
    else .ok (.returned read_failed frame.buf)
  | _, _ => .error .answer

def Reading.step (c : Reading) (answer : ReadAnswer) : Except Stuck (Reading × Unit) :=
  match c with
  | .calling frame last_read_time => do
    let c ← safe_read last_read_time frame answer
    .ok (c, ())
  | .returned _ _ => .error .answer

/-! ## Reading a line -/

/-- What a call of `safe_read` for one byte comes to. -/
inductive Report where
  | byte (c : UInt8)
  | end_of_file
  | failed
  | timeout
deriving DecidableEq, Repr

def Report.rc : Report → Nat
  | .byte _ => 1
  | .end_of_file => 0
  | .failed => read_failed
  | .timeout => read_timeout

/-- What is stored. -/
def Report.buf : Report → List UInt8
  | .byte c => [c]
  | _ => []

/-- The reports of one call after the other. -/
abbrev Reports := Nat → Report

def Reports.tail (reports : Reports) : Reports := fun i => reports (i + 1)

/-- The value, the buffer and the number of calls of `safe_read`. -/
structure LineRead where
  rc : Nat
  buf : List UInt8
  calls : Nat
deriving DecidableEq, Repr

/-- What stands behind the loop. -/
def end_line (stored buf : List UInt8) (bufsiz calls : Nat) : Except Fault LineRead :=
  match buf with
  | [] => .error .outOfBounds
  | _ :: rest => .ok { rc := if 0 < bufsiz then 1 else 0, buf := stored ++ 0 :: rest, calls := calls }

/-- The loop of `read_line`: `stored` lies before the pointer and `buf` from it on.
    A report without a byte leaves the pointer's byte as it was. -/
def read_line_loop : Nat → Reports → List UInt8 → List UInt8 → Nat → Nat → Except Fault LineRead
  | fuel, reports, stored, buf, bufsiz, calls =>
    if 0 < bufsiz then
      match fuel, buf with
      | 0, _ => .error .outOfFuel
      | _ + 1, [] => .error .outOfBounds
      | fuel + 1, held :: rest =>
        let c := (reports 0).buf.headD held
        if (reports 0).rc = 0 then .ok { rc := 0, buf := stored ++ c :: rest, calls := calls + 1 }
        else if c = 0 then .ok { rc := 0, buf := stored ++ c :: rest, calls := calls + 1 }
        else if c = LF then end_line stored (c :: rest) bufsiz (calls + 1)
        else if c ≠ CR then read_line_loop fuel reports.tail (stored ++ [c]) rest (bufsiz - 1) (calls + 1)
        else read_line_loop fuel reports.tail stored (c :: rest) bufsiz (calls + 1)
    else end_line stored buf bufsiz calls

def read_line (fuel : Nat) (reports : Reports) (buf : List UInt8) (bufsiz : UInt64) : Except Fault LineRead :=
  read_line_loop fuel reports [] buf (bufsiz - 1).toNat 0

/-! ## What `safe_read` reports for one byte -/

/-- A call for one byte has stored nothing while it goes on, and comes to a
    report. -/
def ForOne : Reading → Prop
  | .calling frame _ => frame.buf = [] ∧ frame.len = 1
  | .returned rc buf => ∃ report : Report, rc = report.rc ∧ buf = report.buf

theorem forOne_step {c c' : Reading} {answer : ReadAnswer} {u : Unit} (hone : ForOne c)
    (hstep : c.step answer = .ok (c', u)) : ForOne c' := by
  cases c with
  | returned rc buf => cases hstep
  | calling frame last_read_time =>
    obtain ⟨hbuf, hlen⟩ := hone
    obtain ⟨c₁, hread, heq⟩ := bind_eq_ok_iff.mp hstep
    cases heq
    unfold safe_read at hread
    split at hread
    · split at hread
      · split at hread
        · cases hread
          exact ⟨.failed, rfl, hbuf⟩
        split at hread
        · cases hread
          exact ⟨.timeout, rfl, hbuf⟩
        · cases hread
          exact ⟨hbuf, hlen⟩
      · split at hread
        · cases hread
          exact ⟨hbuf, hlen⟩
        · cases hread
          exact ⟨hbuf, hlen⟩
    · rename_i bytes now _
      rw [hbuf, hlen] at hread
      split at hread
      · cases hread
      split at hread
      · cases hread
        exact ⟨.end_of_file, rfl, rfl⟩
      · rename_i hfits hdata
        match bytes, hfits, hdata with
        | [c], _, _ =>
          cases hread
          exact ⟨.byte c, rfl, rfl⟩
        | [], _, hdata => exact absurd rfl hdata
        | _ :: _ :: _, hfits, _ => exact absurd (Or.inl (by simp)) hfits
    · split at hread
      · cases hread
        exact ⟨hbuf, hlen⟩
      · cases hread
        exact ⟨.failed, rfl, hbuf⟩
    · cases hread

/-- With any answers, a call of `safe_read` for one byte that returns does so in
    one of the four ways that `read_line` has to tell apart. -/
theorem safe_read_reports {last_read_time timeout_seconds : Int} {answers : List ReadAnswer} {rc : Nat}
    {buf : List UInt8} {outs : List Unit}
    (hrun : run Reading.step (.calling (SafeRead.call 1 timeout_seconds) last_read_time) answers =
      .ok (.returned rc buf, outs)) :
    ∃ report : Report, rc = report.rc ∧ buf = report.buf := by
  have hone : ForOne (.calling (SafeRead.call 1 timeout_seconds) last_read_time) := ⟨rfl, rfl⟩
  exact run_invariant ForOne (fun _ _ _ _ hone hstep => forOne_step hone hstep) hone hrun

/-! ## What a stream delivers -/

/-- The reports begin with the bytes of `line`, none of which ends a line. -/
def Passes : Reports → List UInt8 → Prop
  | _, [] => True
  | reports, c :: line => reports 0 = .byte c ∧ c ≠ 0 ∧ c ≠ LF ∧ Passes reports.tail line

/-- A line and its newline are delivered before anything else is reported. -/
def Delivers (reports : Reports) (line : List UInt8) : Prop :=
  Passes reports line ∧ reports line.length = .byte LF

/-- A line as `read_line` stores it. -/
def stripped (line : List UInt8) : List UInt8 := line.filter (· ≠ CR)

/-- `read_line` returns, whatever it finds, and as its comment says. -/
def MeetsContract (reports : Reports) (buf : List UInt8) (bufsiz : UInt64) : Prop :=
  ∃ result enough, (∀ fuel, enough ≤ fuel → read_line fuel reports buf bufsiz = .ok result) ∧
    (result.rc = 1 ∨ result.rc = 0) ∧
    (result.rc = 1 ↔ ∃ line, Delivers reports line ∧ (stripped line).length ≤ (bufsiz - 1).toNat) ∧
    ∀ line, Delivers reports line → (stripped line).length ≤ (bufsiz - 1).toNat →
      stripped line ++ [0] <+: result.buf ∧ result.calls = line.length + 1

/-! ## Reports without a byte -/

/-- A report that is no end of file, taken for the byte that the buffer holds. -/
def Report.patched (held : UInt8) : Report → Report
  | .byte c => .byte c
  | .end_of_file => .end_of_file
  | _ => .byte held

/-- The buffer from the pointer on, behind a byte. -/
def after_byte (buf : List UInt8) : Report → List UInt8
  | .byte c => if c ≠ CR then buf.tail else c :: buf.tail
  | _ => buf

/-- The reports as `read_line` takes them: an error or a timeout counts as the
    byte that the buffer happens to hold where the next one is stored. -/
def patched (buf : List UInt8) (reports : Reports) : Reports
  | 0 => (reports 0).patched (buf.headD 0)
  | i + 1 => patched (after_byte buf ((reports 0).patched (buf.headD 0))) reports.tail i

/-- The three ways in which the contract is missed: a line that fills the buffer,
    a line made up from errors, and no end. -/
def Brimming (reports : Reports) (n : Nat) : Prop :=
  ∃ line, Delivers reports line ∧ (stripped line).length = n

def MadeUp (reports : Reports) (buf : List UInt8) (n : Nat) : Prop :=
  ∃ line, Delivers (patched buf reports) line ∧ (stripped line).length < n ∧ ¬Delivers reports line

/-- Nothing but CR comes after a line that does not fill the buffer. -/
def Endless (reports : Reports) (n : Nat) : Prop :=
  ∃ line, Passes reports line ∧ (stripped line).length < n ∧
    ∀ i, reports (line.length + i) = .byte CR

/-! ## One turn of the loop -/

theorem loop_full (fuel : Nat) (reports : Reports) (stored buf : List UInt8) (calls : Nat) :
    read_line_loop fuel reports stored buf 0 calls = end_line stored buf 0 calls := by
  rw [read_line_loop.eq_def]
  exact if_neg (Nat.lt_irrefl 0)

theorem loop_out_of_fuel (reports : Reports) (stored buf : List UInt8) {n : Nat} (hn : 0 < n) (calls : Nat) :
    read_line_loop 0 reports stored buf n calls = .error .outOfFuel := by
  rw [read_line_loop, if_pos hn]

theorem loop_turn (fuel : Nat) (reports : Reports) (stored : List UInt8) (held : UInt8) (rest : List UInt8)
    {n : Nat} (hn : 0 < n) (calls : Nat) :
    read_line_loop (fuel + 1) reports stored (held :: rest) n calls =
      let c := (reports 0).buf.headD held
      if (reports 0).rc = 0 then .ok { rc := 0, buf := stored ++ c :: rest, calls := calls + 1 }
      else if c = 0 then .ok { rc := 0, buf := stored ++ c :: rest, calls := calls + 1 }
      else if c = LF then end_line stored (c :: rest) n (calls + 1)
      else if c ≠ CR then read_line_loop fuel reports.tail (stored ++ [c]) rest (n - 1) (calls + 1)
      else read_line_loop fuel reports.tail stored (c :: rest) n (calls + 1) := by
  rw [read_line_loop, if_pos hn]

/-- A byte that neither ends the line nor is left out. -/
theorem loop_char {reports : Reports} {c : UInt8} (hbyte : reports 0 = .byte c) (h0 : c ≠ 0) (hLF : c ≠ LF)
    (hCR : c ≠ CR) (fuel : Nat) (stored : List UInt8) (held : UInt8) (rest : List UInt8) (n calls : Nat) :
    read_line_loop (fuel + 1) reports stored (held :: rest) (n + 1) calls =
      read_line_loop fuel reports.tail (stored ++ [c]) rest n (calls + 1) := by
  rw [loop_turn _ _ _ _ _ (Nat.succ_pos n), hbyte]
  exact (if_neg nofun).trans ((if_neg h0).trans ((if_neg hLF).trans (if_pos hCR)))

theorem loop_CR {reports : Reports} (hbyte : reports 0 = .byte CR) (fuel : Nat) (stored : List UInt8)
    (held : UInt8) (rest : List UInt8) {n : Nat} (hn : 0 < n) (calls : Nat) :
    read_line_loop (fuel + 1) reports stored (held :: rest) n calls =
      read_line_loop fuel reports.tail stored (CR :: rest) n (calls + 1) := by
  rw [loop_turn _ _ _ _ _ hn, hbyte]
  have hnul : ¬CR = 0 := by decide
  have hnewline : ¬CR = LF := by decide
  exact (if_neg nofun).trans ((if_neg hnul).trans ((if_neg hnewline).trans (if_neg (not_not_intro rfl))))

theorem loop_LF {reports : Reports} (hbyte : reports 0 = .byte LF) (fuel : Nat) (stored : List UInt8)
    (held : UInt8) (rest : List UInt8) {n : Nat} (hn : 0 < n) (calls : Nat) :
    read_line_loop (fuel + 1) reports stored (held :: rest) n calls =
      .ok { rc := 1, buf := stored ++ 0 :: rest, calls := calls + 1 } := by
  rw [loop_turn _ _ _ _ _ hn, hbyte]
  have hnul : ¬LF = 0 := by decide
  refine (if_neg nofun).trans ((if_neg hnul).trans ((if_pos rfl).trans ?_))
  unfold end_line
  rw [if_pos hn]

/-- An end of file and a NUL byte both return 0. -/
theorem loop_stop {reports : Reports} (hstop : reports 0 = .end_of_file ∨ reports 0 = .byte 0)
    (stored : List UInt8) (held : UInt8) (rest : List UInt8) {n : Nat} (hn : 0 < n) (calls : Nat) :
    ∃ result, result.rc = 0 ∧
      ∀ fuel, read_line_loop (fuel + 1) reports stored (held :: rest) n calls = .ok result := by
  rcases hstop with heof | hnul
  · refine ⟨{ rc := 0, buf := stored ++ held :: rest, calls := calls + 1 }, rfl, fun fuel => ?_⟩
    rw [loop_turn _ _ _ _ _ hn, heof]
    exact if_pos rfl
  · refine ⟨{ rc := 0, buf := stored ++ 0 :: rest, calls := calls + 1 }, rfl, fun fuel => ?_⟩
    rw [loop_turn _ _ _ _ _ hn, hnul]
    exact (if_neg nofun).trans (if_pos rfl)

/-- The loop cannot tell a report without a byte from the byte that is held. -/
theorem loop_patched (fuel : Nat) (reports : Reports) (stored buf : List UInt8) (n calls : Nat) :
    read_line_loop fuel reports stored buf n calls =
      read_line_loop fuel (patched buf reports) stored buf n calls := by
  induction fuel generalizing reports stored buf n calls with
  | zero => rw [read_line_loop, read_line_loop]
  | succ fuel ih =>
    rcases Nat.eq_zero_or_pos n with rfl | hn
    · rw [loop_full, loop_full]
    cases buf with
    | nil => rw [read_line_loop, read_line_loop]
    | cons held rest =>
      have hc : ((reports 0).patched held).buf.headD held = (reports 0).buf.headD held := by
        cases reports 0 <;> rfl
      have hrc : ((reports 0).patched held).rc = 0 ↔ (reports 0).rc = 0 := by
        cases reports 0 with
        | byte c | end_of_file => exact Iff.rfl
        | failed =>
          have hfailed : read_failed ≠ 0 := by unfold read_failed; omega
          exact iff_of_false nofun hfailed
        | timeout =>
          have htimeout : read_timeout ≠ 0 := by unfold read_timeout; omega
          exact iff_of_false nofun htimeout
      have hhead : patched (held :: rest) reports 0 = (reports 0).patched held := rfl
      have htail : (patched (held :: rest) reports).tail =
          patched (after_byte (held :: rest) ((reports 0).patched held)) reports.tail := rfl
      rw [loop_turn _ _ _ _ _ hn, loop_turn _ _ _ _ _ hn, hhead, hc, htail]
      simp only [hrc]
      by_cases hend : (reports 0).rc = 0
      · rw [if_pos hend, if_pos hend]
      rw [if_neg hend, if_neg hend]
      have hbyte : (reports 0).patched held = .byte ((reports 0).buf.headD held) := by
        cases hreport : reports 0 with
        | end_of_file => exact absurd (by rw [hreport]; rfl) hend
        | byte c | failed | timeout => rfl
      rw [hbyte]
      generalize (reports 0).buf.headD held = c
      by_cases hCR : c = CR
      · rw [if_neg (not_not_intro hCR), if_neg (not_not_intro hCR), ih, after_byte,
          if_neg (not_not_intro hCR)]
        rfl
      · rw [if_pos hCR, if_pos hCR, ih, after_byte, if_pos hCR]
        rfl

/-! ## The whole loop -/

@[simp] theorem stripped_CR (line : List UInt8) : stripped (CR :: line) = stripped line := rfl

theorem stripped_char {c : UInt8} (hCR : c ≠ CR) (line : List UInt8) : stripped (c :: line) = c :: stripped line :=
  List.filter_cons_of_pos (by simpa using hCR)

theorem Delivers.cons {reports : Reports} {c : UInt8} {line : List UInt8} (hbyte : reports 0 = .byte c)
    (h0 : c ≠ 0) (hLF : c ≠ LF) (hline : Delivers reports.tail line) : Delivers reports (c :: line) :=
  ⟨⟨hbyte, h0, hLF, hline.1⟩, hline.2⟩

theorem Delivers.tail {reports : Reports} {c : UInt8} {line : List UInt8} (hline : Delivers reports (c :: line)) :
    Delivers reports.tail line :=
  ⟨hline.1.2.2.2, hline.2⟩

/-- A stream delivers one line at most. -/
theorem Delivers.unique {reports : Reports} {line line' : List UInt8} (hline : Delivers reports line)
    (hline' : Delivers reports line') : line = line' := by
  induction line generalizing reports line' with
  | nil =>
    cases line' with
    | nil => rfl
    | cons c line' =>
      have hc : Report.byte LF = .byte c := hline.2.symm.trans hline'.1.1
      exact absurd (Report.byte.inj hc).symm hline'.1.2.2.1
  | cons c line ih =>
    cases line' with
    | nil =>
      have hc : Report.byte LF = .byte c := hline'.2.symm.trans hline.1.1
      exact absurd (Report.byte.inj hc).symm hline.1.2.2.1
    | cons c' line' =>
      have hc : Report.byte c = .byte c' := hline.1.1.symm.trans hline'.1.1
      rw [Report.byte.inj hc, ih hline.tail hline'.tail]

/-- A line that leaves room is read to its newline. -/
theorem loop_delivers {reports : Reports} {line : List UInt8} (hline : Delivers reports line)
    (stored buf : List UInt8) {n : Nat} (hn : (stripped line).length < n) (hroom : n < buf.length)
    (calls : Nat) :
    ∃ result : LineRead, result.rc = 1 ∧ stored ++ (stripped line ++ [0]) <+: result.buf ∧
      result.calls = calls + (line.length + 1) ∧
      ∀ fuel, line.length < fuel → read_line_loop fuel reports stored buf n calls = .ok result := by
  induction line generalizing reports stored buf n calls with
  | nil =>
    obtain ⟨held, rest, rfl⟩ := List.exists_cons_of_length_pos (by omega : 0 < buf.length)
    refine ⟨{ rc := 1, buf := stored ++ 0 :: rest, calls := calls + 1 }, rfl, ?_, rfl, ?_⟩
    · exact ⟨rest, by simp [stripped]⟩
    · intro fuel hfuel
      obtain ⟨fuel, rfl⟩ := Nat.exists_eq_add_of_le' hfuel
      exact loop_LF hline.2 fuel stored held rest (by omega) calls
  | cons c line ih =>
    obtain ⟨held, rest, rfl⟩ := List.exists_cons_of_length_pos (by omega : 0 < buf.length)
    rw [List.length_cons] at hroom
    obtain ⟨hbyte, h0, hLF, _⟩ := hline.1
    by_cases hCR : c = CR
    · subst hCR
      rw [stripped_CR] at hn ⊢
      obtain ⟨result, hrc, hbuf, hcalls, hloop⟩ := ih hline.tail stored (CR :: rest) hn
        (by rw [List.length_cons]; exact hroom) (calls + 1)
      refine ⟨result, hrc, hbuf, by rw [hcalls, List.length_cons]; omega, ?_⟩
      intro fuel hfuel
      rw [List.length_cons] at hfuel
      obtain ⟨fuel, rfl⟩ := Nat.exists_eq_add_of_le' (by omega : 1 ≤ fuel)
      rw [loop_CR hbyte _ _ _ _ (by omega)]
      exact hloop fuel (by omega)
    · rw [stripped_char hCR] at hn ⊢
      rw [List.length_cons] at hn
      obtain ⟨m, rfl⟩ := Nat.exists_eq_add_of_le' (by omega : 1 ≤ n)
      obtain ⟨result, hrc, hbuf, hcalls, hloop⟩ := ih hline.tail (stored ++ [c]) rest (n := m) (by omega)
        (by omega) (calls + 1)
      rw [List.append_assoc] at hbuf
      refine ⟨result, hrc, hbuf, by rw [hcalls, List.length_cons]; omega, ?_⟩
      intro fuel hfuel
      rw [List.length_cons] at hfuel
      obtain ⟨fuel, rfl⟩ := Nat.exists_eq_add_of_le' (by omega : 1 ≤ fuel)
      rw [loop_char hbyte h0 hLF hCR]
      exact hloop fuel (by omega)

theorem Endless.pos {reports : Reports} {n : Nat} (hendless : Endless reports n) : 0 < n := by
  obtain ⟨line, _, hn, _⟩ := hendless
  omega

theorem Endless.cons_CR {reports : Reports} {n : Nat} (hbyte : reports 0 = .byte CR)
    (hendless : Endless reports.tail n) : Endless reports n := by
  obtain ⟨line, hpasses, hn, hrest⟩ := hendless
  refine ⟨CR :: line, ⟨hbyte, by decide, by decide, hpasses⟩, hn, fun i => ?_⟩
  rw [List.length_cons, Nat.add_right_comm]
  exact hrest i

theorem Endless.cons_char {reports : Reports} {c : UInt8} {n : Nat} (hbyte : reports 0 = .byte c) (h0 : c ≠ 0)
    (hLF : c ≠ LF) (hCR : c ≠ CR) (hendless : Endless reports.tail n) : Endless reports (n + 1) := by
  obtain ⟨line, hpasses, hn, hrest⟩ := hendless
  refine ⟨c :: line, ⟨hbyte, h0, hLF, hpasses⟩, ?_, fun i => ?_⟩
  · rw [stripped_char hCR, List.length_cons]
    omega
  · rw [List.length_cons, Nat.add_right_comm]
    exact hrest i

/-- Where CR goes on and on, no number of turns is enough. -/
theorem loop_endless {reports : Reports} {n : Nat} (hendless : Endless reports n) (fuel : Nat)
    (stored buf : List UInt8) (hroom : n < buf.length) (calls : Nat) :
    read_line_loop fuel reports stored buf n calls = .error .outOfFuel := by
  induction fuel generalizing reports stored buf n calls with
  | zero => exact loop_out_of_fuel reports stored buf hendless.pos calls
  | succ fuel ih =>
    obtain ⟨held, rest, rfl⟩ := List.exists_cons_of_length_pos (by omega : 0 < buf.length)
    rw [List.length_cons] at hroom
    obtain ⟨line, hpasses, hn, hrest⟩ := hendless
    cases line with
    | nil =>
      have hCR : ∀ i, reports i = .byte CR := by simpa using hrest
      rw [loop_CR (hCR 0) _ _ _ _ (by omega)]
      have htail : Endless reports.tail n := ⟨[], trivial, hn, fun i => hCR _⟩
      exact ih htail stored (CR :: rest) hroom _
    | cons c line =>
      obtain ⟨hbyte, h0, hLF, hpasses⟩ := hpasses
      have hrest' : ∀ i, reports.tail (line.length + i) = .byte CR := by
        intro i
        have hi := hrest i
        rwa [List.length_cons, Nat.add_right_comm] at hi
      by_cases hCR : c = CR
      · subst hCR
        rw [loop_CR hbyte _ _ _ _ (by omega)]
        exact ih ⟨line, hpasses, hn, hrest'⟩ stored (CR :: rest) hroom _
      · rw [stripped_char hCR, List.length_cons] at hn
        obtain ⟨m, rfl⟩ := Nat.exists_eq_add_of_le' (by omega : 1 ≤ n)
        rw [loop_char hbyte h0 hLF hCR]
        exact ih ⟨line, hpasses, by omega, hrest'⟩ (stored ++ [c]) rest (by omega) _

/-- Reports that are bytes or ends of file, as `read_line` takes them. -/
def Report.Taken (report : Report) : Prop := report = .end_of_file ∨ ∃ c, report = .byte c

/-- From anywhere in a buffer with room, 0 is returned after enough turns. -/
def GivesUp (reports : Reports) (n : Nat) : Prop :=
  ∀ (stored buf : List UInt8) (calls : Nat), n < buf.length →
    ∃ (result : LineRead) (enough : Nat), result.rc = 0 ∧
      ∀ fuel, enough ≤ fuel → read_line_loop fuel reports stored buf n calls = .ok result

theorem givesUp_full (reports : Reports) : GivesUp reports 0 := by
  intro stored buf calls hroom
  obtain ⟨held, rest, rfl⟩ := List.exists_cons_of_length_pos hroom
  exact ⟨{ rc := 0, buf := stored ++ 0 :: rest, calls := calls }, 0, rfl, fun fuel _ => loop_full _ _ _ _ _⟩

theorem givesUp_stop {reports : Reports} (hstop : reports 0 = .end_of_file ∨ reports 0 = .byte 0) {n : Nat}
    (hn : 0 < n) : GivesUp reports n := by
  intro stored buf calls hroom
  obtain ⟨held, rest, rfl⟩ := List.exists_cons_of_length_pos (by omega : 0 < buf.length)
  obtain ⟨result, hrc, hloop⟩ := loop_stop hstop stored held rest hn calls
  refine ⟨result, 1, hrc, fun fuel hfuel => ?_⟩
  obtain ⟨fuel, rfl⟩ := Nat.exists_eq_add_of_le' hfuel
  exact hloop fuel

theorem GivesUp.cons_CR {reports : Reports} (hbyte : reports 0 = .byte CR) {n : Nat} (hn : 0 < n)
    (htail : GivesUp reports.tail n) : GivesUp reports n := by
  intro stored buf calls hroom
  obtain ⟨held, rest, rfl⟩ := List.exists_cons_of_length_pos (by omega : 0 < buf.length)
  obtain ⟨result, enough, hrc, hloop⟩ := htail stored (CR :: rest) (calls + 1) hroom
  refine ⟨result, enough + 1, hrc, fun fuel hfuel => ?_⟩
  obtain ⟨fuel, rfl⟩ := Nat.exists_eq_add_of_le' (by omega : 1 ≤ fuel)
  rw [loop_CR hbyte _ _ _ _ hn]
  exact hloop fuel (by omega)

theorem GivesUp.cons_char {reports : Reports} {c : UInt8} (hbyte : reports 0 = .byte c) (h0 : c ≠ 0)
    (hLF : c ≠ LF) (hCR : c ≠ CR) {n : Nat} (htail : GivesUp reports.tail n) : GivesUp reports (n + 1) := by
  intro stored buf calls hroom
  obtain ⟨held, rest, rfl⟩ := List.exists_cons_of_length_pos (by omega : 0 < buf.length)
  rw [List.length_cons] at hroom
  obtain ⟨result, enough, hrc, hloop⟩ := htail (stored ++ [c]) rest (calls + 1) (by omega)
  refine ⟨result, enough + 1, hrc, fun fuel hfuel => ?_⟩
  obtain ⟨fuel, rfl⟩ := Nat.exists_eq_add_of_le' (by omega : 1 ≤ fuel)
  rw [loop_char hbyte h0 hLF hCR]
  exact hloop fuel (by omega)

/-- A line with less than `n` characters is delivered. -/
def Short (reports : Reports) (n : Nat) : Prop := ∃ line, Delivers reports line ∧ (stripped line).length < n

theorem Short.cons_CR {reports : Reports} (hbyte : reports 0 = .byte CR) {n : Nat}
    (hshort : Short reports.tail n) : Short reports n := by
  obtain ⟨line, hline, hn⟩ := hshort
  exact ⟨CR :: line, hline.cons hbyte (by decide) (by decide), hn⟩

theorem Short.cons_char {reports : Reports} {c : UInt8} (hbyte : reports 0 = .byte c) (h0 : c ≠ 0)
    (hLF : c ≠ LF) (hCR : c ≠ CR) {n : Nat} (hshort : Short reports.tail n) : Short reports (n + 1) := by
  obtain ⟨line, hline, hn⟩ := hshort
  refine ⟨c :: line, hline.cons hbyte h0 hLF, ?_⟩
  rw [stripped_char hCR, List.length_cons]
  omega

/-- The first report is no CR: nothing more is read, or there is less room. -/
theorem givesUp_turn {reports : Reports} (htaken : ∀ i, (reports i).Taken) {n : Nat}
    (hends : ¬Endless reports (n + 1)) (hnone : ¬Short reports (n + 1)) (hCR : reports 0 ≠ .byte CR)
    (hnext : (∀ i, (reports.tail i).Taken) → ¬Endless reports.tail n → ¬Short reports.tail n →
      GivesUp reports.tail n) : GivesUp reports (n + 1) := by
  rcases htaken 0 with heof | ⟨c, hbyte⟩
  · exact givesUp_stop (Or.inl heof) (Nat.succ_pos n)
  have hne : c ≠ CR := by
    rintro rfl
    exact hCR hbyte
  by_cases h0 : c = 0
  · exact givesUp_stop (Or.inr (h0 ▸ hbyte)) (Nat.succ_pos n)
  by_cases hLF : c = LF
  · exact absurd ⟨[], ⟨trivial, hLF ▸ hbyte⟩, Nat.succ_pos n⟩ hnone
  · exact (hnext (fun i => htaken (i + 1)) (fun h => hends (h.cons_char hbyte h0 hLF hne))
      fun h => hnone (h.cons_char hbyte h0 hLF hne)).cons_char hbyte h0 hLF hne

/-- Where neither a line that leaves room nor an endless CR is delivered, 0 is
    returned: after the CRs in front the stream ends, a NUL byte comes, or the
    room gets less. -/
theorem givesUp_of_neither {reports : Reports} (htaken : ∀ i, (reports i).Taken) {n : Nat}
    (hends : ¬Endless reports n) (hnone : ¬Short reports n) : GivesUp reports n := by
  induction n generalizing reports with
  | zero => exact givesUp_full reports
  | succ n ih =>
    have hfirst : ∃ j, reports j ≠ .byte CR := by
      by_contra hall
      refine hends ⟨[], trivial, Nat.succ_pos n, fun i => ?_⟩
      by_contra hi
      exact hall ⟨_, hi⟩
    obtain ⟨j, hj⟩ := hfirst
    -- `j` bounds the number of CRs in front
    induction j generalizing reports with
    | zero => exact givesUp_turn htaken hends hnone hj fun h₁ h₂ h₃ => ih h₁ h₂ h₃
    | succ j ihj =>
      by_cases hCR : reports 0 = .byte CR
      · exact (ihj (fun i => htaken (i + 1)) (fun h => hends (h.cons_CR hCR)) (fun h => hnone (h.cons_CR hCR))
          hj).cons_CR hCR (Nat.succ_pos n)
      · exact givesUp_turn htaken hends hnone hCR fun h₁ h₂ h₃ => ih h₁ h₂ h₃

/-! ## The contract -/

theorem patched_taken (buf : List UInt8) (reports : Reports) (i : Nat) : (patched buf reports i).Taken := by
  induction i generalizing buf reports with
  | zero =>
    unfold patched
    cases reports 0 with
    | end_of_file => exact Or.inl rfl
    | byte c | failed | timeout => exact Or.inr ⟨_, rfl⟩
  | succ i ih => exact ih _ _

/-- What is delivered is taken as it is. -/
theorem Delivers.patched {reports : Reports} {line : List UInt8} (hline : Delivers reports line)
    (buf : List UInt8) : Delivers (patched buf reports) line := by
  induction line generalizing reports buf with
  | nil =>
    refine ⟨trivial, ?_⟩
    show (reports 0).patched _ = .byte LF
    rw [show reports 0 = .byte LF from hline.2]
    rfl
  | cons c line ih =>
    obtain ⟨hbyte, h0, hLF, _⟩ := hline.1
    have htail : Delivers (ctproxy.patched buf reports).tail line := ih hline.tail _
    refine htail.cons ?_ h0 hLF
    show (reports 0).patched _ = .byte c
    rw [hbyte]
    rfl

/-- What a call does with any reports: it takes a line that leaves room, it does
    not end, or it gives up. -/
theorem read_line_cases (reports : Reports) {buf : List UInt8} {bufsiz : UInt64}
    (hroom : (bufsiz - 1).toNat < buf.length) :
    (∃ line, Delivers (patched buf reports) line ∧ (stripped line).length < (bufsiz - 1).toNat ∧
      ∃ result : LineRead, result.rc = 1 ∧ stripped line ++ [0] <+: result.buf ∧
        result.calls = line.length + 1 ∧
        ∀ fuel, line.length < fuel → read_line fuel reports buf bufsiz = .ok result) ∨
    (Endless (patched buf reports) (bufsiz - 1).toNat ∧
      ∀ fuel, read_line fuel reports buf bufsiz = .error .outOfFuel) ∨
    (¬Short (patched buf reports) (bufsiz - 1).toNat ∧ ¬Endless (patched buf reports) (bufsiz - 1).toNat ∧
      ∃ (result : LineRead) (enough : Nat), result.rc = 0 ∧
        ∀ fuel, enough ≤ fuel → read_line fuel reports buf bufsiz = .ok result) := by
  have hread : ∀ fuel, read_line fuel reports buf bufsiz =
      read_line_loop fuel (patched buf reports) [] buf (bufsiz - 1).toNat 0 := fun fuel => loop_patched _ _ _ _ _ _
  simp only [hread]
  by_cases hshort : Short (patched buf reports) (bufsiz - 1).toNat
  · obtain ⟨line, hline, hn⟩ := hshort
    obtain ⟨result, hrc, hbuf, hcalls, hloop⟩ := loop_delivers hline [] buf hn hroom 0
    exact Or.inl ⟨line, hline, hn, result, hrc, hbuf, by rw [hcalls, Nat.zero_add], hloop⟩
  by_cases hends : Endless (patched buf reports) (bufsiz - 1).toNat
  · exact Or.inr (Or.inl ⟨hends, fun fuel => loop_endless hends fuel [] buf hroom 0⟩)
  · exact Or.inr (Or.inr ⟨hshort, hends,
      givesUp_of_neither (patched_taken buf reports) hends hshort [] buf 0 hroom⟩)

/-- With any turns that are enough the result is the same. -/
theorem read_line_unique {reports : Reports} {buf : List UInt8} {bufsiz : UInt64} {result result' : LineRead}
    {enough enough' : Nat} (hreturns : ∀ fuel, enough ≤ fuel → read_line fuel reports buf bufsiz = .ok result)
    (hreturns' : ∀ fuel, enough' ≤ fuel → read_line fuel reports buf bufsiz = .ok result') : result = result' := by
  have hleft := hreturns (max enough enough') (Nat.le_max_left _ _)
  have hright := hreturns' (max enough enough') (Nat.le_max_right _ _)
  exact Except.ok.inj (hleft.symm.trans hright)

/-- A line that is taken has to be one that is delivered. -/
theorem meetsContract_iff_of_line {reports : Reports} {buf : List UInt8} {bufsiz : UInt64} {line : List UInt8}
    (hline : Delivers (patched buf reports) line) (hless : (stripped line).length < (bufsiz - 1).toNat)
    {result : LineRead} (hrc : result.rc = 1) (hbuf : stripped line ++ [0] <+: result.buf)
    (hcalls : result.calls = line.length + 1)
    (hreturns : ∀ fuel, line.length < fuel → read_line fuel reports buf bufsiz = .ok result) :
    MeetsContract reports buf bufsiz ↔ Delivers reports line := by
  constructor
  · rintro ⟨result', enough, hreturns', _, hvalue, _⟩
    obtain rfl := read_line_unique hreturns hreturns'
    obtain ⟨line', hline', _⟩ := hvalue.mp hrc
    exact (hline'.patched buf).unique hline ▸ hline'
  · intro hreal
    refine ⟨result, line.length + 1, hreturns, Or.inl hrc,
      iff_of_true hrc ⟨line, hreal, Nat.le_of_lt hless⟩, ?_⟩
    intro line' hline' _
    rw [hline'.unique hreal]
    exact ⟨hbuf, hcalls⟩

/-- Where 0 is returned no line may be delivered that fits, so none that fills the
    buffer. -/
theorem meetsContract_iff_of_none {reports : Reports} {buf : List UInt8} {bufsiz : UInt64}
    (hshort : ¬Short (patched buf reports) (bufsiz - 1).toNat) {result : LineRead} {enough : Nat} (hrc : result.rc = 0)
    (hreturns : ∀ fuel, enough ≤ fuel → read_line fuel reports buf bufsiz = .ok result) :
    MeetsContract reports buf bufsiz ↔ ¬Brimming reports (bufsiz - 1).toNat := by
  have hfits : ∀ line, Delivers reports line → (stripped line).length ≤ (bufsiz - 1).toNat →
      Brimming reports (bufsiz - 1).toNat := by
    intro line hline hle
    refine ⟨line, hline, Nat.le_antisymm hle ?_⟩
    by_contra hlt
    exact hshort ⟨line, hline.patched buf, Nat.not_le.mp hlt⟩
  constructor
  · rintro ⟨result', enough', hreturns', _, hvalue, _⟩ ⟨line, hline, hfull⟩
    obtain rfl := read_line_unique hreturns hreturns'
    have hone := hvalue.mpr ⟨line, hline, Nat.le_of_eq hfull⟩
    rw [hrc] at hone
    cases hone
  · intro hbrim
    refine ⟨result, enough, hreturns, Or.inr hrc, iff_of_false (by rw [hrc]; nofun) ?_, ?_⟩
    · rintro ⟨line, hline, hle⟩
      exact hbrim (hfits line hline hle)
    · intro line hline hle
      exact absurd (hfits line hline hle) hbrim

/-- For every buffer and every sequence of reports of `safe_read`, `read_line`
    keeps to its contract unless the line has just as many characters as the
    buffer has room for, or errors and timeouts make up a line, or it reads CRs
    without end. -/
theorem read_line_meets_iff (reports : Reports) {buf : List UInt8} {bufsiz : UInt64} (hbufsiz : 1 ≤ bufsiz)
    (hroom : bufsiz.toNat ≤ buf.length) :
    MeetsContract reports buf bufsiz ↔
      ¬Brimming reports (bufsiz - 1).toNat ∧ ¬MadeUp reports buf (bufsiz - 1).toNat ∧
        ¬Endless (patched buf reports) (bufsiz - 1).toNat := by
  have hpos : 1 ≤ bufsiz.toNat := UInt64.le_iff_toNat_le.mp hbufsiz
  have hn : (bufsiz - 1).toNat = bufsiz.toNat - 1 := UInt64.toNat_sub_of_le _ _ hbufsiz
  rcases read_line_cases reports (by omega : (bufsiz - 1).toNat < buf.length) with
    ⟨line, hline, hless, result, hrc, hbuf, hcalls, hreturns⟩ | ⟨hends, hfuel⟩ |
    ⟨hshort, hends, result, enough, hrc, hreturns⟩
  · rw [meetsContract_iff_of_line hline hless hrc hbuf hcalls hreturns]
    constructor
    · intro hreal
      refine ⟨?_, ?_, ?_⟩
      · rintro ⟨line', hline', hfull⟩
        rw [hline'.unique hreal] at hfull
        omega
      · rintro ⟨line', hline', _, hnot⟩
        exact hnot (hline'.unique hline ▸ hreal)
      · intro hends
        have hnever := loop_endless hends (line.length + 1) [] buf (by omega) 0
        rw [← loop_patched] at hnever
        cases hnever.symm.trans (hreturns _ (Nat.lt_succ_self _))
    · rintro ⟨_, hmade, _⟩
      by_contra hnot
      exact hmade ⟨line, hline, hless, hnot⟩
  · refine iff_of_false ?_ fun h => h.2.2 hends
    rintro ⟨result', enough, hreturns', _⟩
    cases (hfuel enough).symm.trans (hreturns' enough (Nat.le_refl _))
  · rw [meetsContract_iff_of_none hshort hrc hreturns]
    refine ⟨fun hbrim => ⟨hbrim, ?_, hends⟩, And.left⟩
    rintro ⟨line, hline, hless, _⟩
    exact hshort ⟨line, hline, hless⟩

theorem patched_end_of_file {buf : List UInt8} {reports : Reports} {i : Nat} (heof : reports i = .end_of_file) :
    patched buf reports i = .end_of_file := by
  induction i generalizing buf reports with
  | zero =>
    unfold patched
    rw [heof]
    rfl
  | succ i ih => exact ih heof

/-- The line `hi`, ended by CR and a newline, and then the end of the file. -/
def greeting : Reports
  | 0 => .byte 104
  | 1 => .byte 105
  | 2 => .byte CR
  | 3 => .byte LF
  | _ => .end_of_file

theorem greeting_delivers : Delivers greeting [104, 105, CR] :=
  ⟨⟨rfl, by decide, by decide, rfl, by decide, by decide, rfl, by decide, by decide, trivial⟩, rfl⟩

theorem read_line_meets_iff_greeting : MeetsContract greeting (List.replicate 8 0) 8 := by
  refine (read_line_meets_iff greeting (by decide) (by decide)).mpr ⟨?_, ?_, ?_⟩
  · rintro ⟨line, hline, hfull⟩
    rw [hline.unique greeting_delivers] at hfull
    exact absurd hfull (by decide)
  · rintro ⟨line, hline, _, hnot⟩
    exact hnot (hline.unique (greeting_delivers.patched _) ▸ greeting_delivers)
  · rintro ⟨line, _, _, hrest⟩
    have hCR := hrest 4
    rw [patched_end_of_file rfl] at hCR
    cases hCR

/-- An error in front of a newline left in the buffer is taken for an empty line,
    and a line of one character is refused by a buffer for one character. -/
theorem line_from_error_and_full_line :
    ¬MeetsContract (fun _ => .failed) [LF, 0] 2 ∧
      ¬MeetsContract (fun i => if i = 0 then .byte 97 else .byte LF) [0, 0] 2 := by
  constructor
  · rintro ⟨result, enough, hreturns, _, hvalue, _⟩
    have hline : read_line (enough + 1) (fun _ => .failed) [LF, 0] 2 =
        .ok { rc := 1, buf := [0, 0], calls := 1 } := rfl
    have hsame := Except.ok.inj (hline.symm.trans (hreturns _ (Nat.le_succ _)))
    obtain ⟨line, ⟨hpasses, hended⟩, _⟩ := hvalue.mp (hsame ▸ rfl)
    cases hended
  · rintro ⟨result, enough, hreturns, _, hvalue, _⟩
    have hline : read_line (enough + 1) (fun i => if i = 0 then .byte 97 else .byte LF) [0, 0] 2 =
        .ok { rc := 0, buf := [97, 0], calls := 1 } := by
      cases enough with
      | zero => rfl
      | succ enough => rfl
    have hsame := Except.ok.inj (hline.symm.trans (hreturns _ (Nat.le_succ _)))
    have hone := hvalue.mpr ⟨[97], ⟨⟨rfl, by decide, by decide, trivial⟩, rfl⟩, by decide⟩
    rw [← hsame] at hone
    cases hone

end code_tools.ctproxy
