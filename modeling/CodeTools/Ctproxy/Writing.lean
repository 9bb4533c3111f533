import CodeTools.Ctproxy.Ctio
import CodeTools.Lib.Machine

/-!
# Whole calls of `safe_write`

A call goes on from answer to answer until it returns or leaves its loop. Only
the first `write` has a `return` for a buffer that was accepted as a whole: the
loop ends the function without one.
-/

namespace code_tools.ctproxy

open cmem machine syscall

/-- The bytes of an object. Its size is a `ptrdiff_t`. -/
structure Object where
  bytes : List UInt8
  fits : bytes.length < 2 ^ 63

/-- A call with all that the descriptor has accepted from it. -/
structure Writing where
  progress : Progress
  accepted : List UInt8
  last_write_time : Int
deriving DecidableEq, Repr

namespace Writing

def call (last_write_time : Int) (buf : Object) (timeout_seconds : Int) : Writing :=
  { progress := .calling (SafeWrite.call buf.bytes buf.bytes.length timeout_seconds), accepted := [],
    last_write_time := last_write_time }

/-- The call at its next answer. -/
def step (c : Writing) (answer : IoAnswer) : Except Stuck (Writing × Unit) :=
  match c.progress with
  | .calling frame => do
    let r ← safe_write c.last_write_time frame answer
    .ok ({ progress := r.progress, accepted := c.accepted ++ r.accepted,
           last_write_time := r.last_write_time }, ())
  | _ => .error .answer

/-- The end of the function was reached, with a `return` or without. -/
def Finished (c : Writing) : Prop := ∀ frame, c.progress ≠ .calling frame

/-- A value is returned, and it tells whether all was written. -/
structure Reflects (buf : Object) (c : Writing) : Prop where
  in_order : c.accepted <+: buf.bytes
  value : ∃ rc, c.progress = .returned rc ∧ (rc = buf.bytes.length ↔ c.accepted = buf.bytes) ∧
    (rc ≠ buf.bytes.length → rc = write_failed ∨ rc = write_timeout)

end Writing

/-- How many bytes an answer accepts. -/
def IoAnswer.count : IoAnswer → Nat
  | .wrote (.accepted n) _ => n
  | _ => 0

theorem count_eq_zero {answer : IoAnswer} (hnone : ∀ n now, answer ≠ .wrote (.accepted n) now) :
    answer.count = 0 := by
  unfold IoAnswer.count
  split
  · rename_i n now
    exact absurd rfl (hnone n now)
  · rfl

/-- How many bytes the answers accept together. -/
def written : List IoAnswer → Nat
  | [] => 0
  | answer :: answers => answer.count + written answers

/-- The first `write` accepts all `len` bytes. -/
def AtOnce (len : Nat) (answers : List IoAnswer) : Prop :=
  ∃ now rest, answers = .wrote (.accepted len) now :: rest

/-! ## One answer -/

/-- What an answer makes of a frame, with the bytes that it accepts. -/
inductive Turn (frame : SafeWrite) (answer : IoAnswer) : Progress → Prop where
  | goes_on (frame' : SafeWrite) (hmore : answer.count < frame.len)
      (hbuf : frame'.buf = frame.buf.drop answer.count) (hlen : frame'.len = frame.len - answer.count)
      (hstanding : frame'.standing ≠ .first_write) : Turn frame answer (.calling frame')
  | at_once (now : Int) (hstanding : frame.standing = .first_write)
      (hanswer : answer = .wrote (.accepted frame.len) now) : Turn frame answer (.returned frame.len)
  | failed (rc : Nat) (hnone : ∀ n now, answer ≠ .wrote (.accepted n) now)
      (hrc : rc = write_failed ∨ rc = write_timeout) : Turn frame answer (.returned rc)
  | falls_off (hall : answer.count = frame.len)
      (hlater : ¬(frame.standing = .first_write ∧ ∃ now, answer = .wrote (.accepted frame.len) now)) :
      Turn frame answer .left_loop

/-- The loop test after the bytes of an answer. -/
theorem turn_loop {frame : SafeWrite} {answer : IoAnswer} (hle : answer.count ≤ frame.len)
    (hlater : ¬(frame.standing = .first_write ∧ ∃ now, answer = .wrote (.accepted frame.len) now)) :
    Turn frame answer
      (safe_write_loop { frame with buf := frame.buf.drop answer.count, len := frame.len - answer.count }) := by
  unfold safe_write_loop
  by_cases hmore : frame.len - answer.count ≠ 0
  · rw [if_pos hmore]
    exact .goes_on _ (by omega) rfl rfl nofun
  · rw [if_neg hmore]
    exact .falls_off (by omega) hlater

theorem turn_retry {frame : SafeWrite} {answer : IoAnswer} (hcount : answer.count = 0)
    (hlater : ¬(frame.standing = .first_write ∧ ∃ now, answer = .wrote (.accepted frame.len) now)) :
    Turn frame answer (safe_write_loop frame) := by
  have hloop := turn_loop (by omega) hlater
  rwa [hcount] at hloop

/-- One answer accepts bytes from the front of the frame's buffer and leads on in
    one of the four ways. -/
theorem safe_write_turn {last_write_time : Int} {frame : SafeWrite}
    (hmore : frame.standing ≠ .first_write → 0 < frame.len) {answer : IoAnswer} {r : IoStep}
    (hstep : safe_write last_write_time frame answer = .ok r) :
    r.accepted = frame.buf.take answer.count ∧ answer.count ≤ frame.len ∧
      Turn frame answer r.progress := by
  unfold safe_write at hstep
  split at hstep
  · rename_i n now hstanding
    split at hstep
    · cases hstep
    rename_i hfits
    split at hstep
    · cases hstep
    split at hstep
    · rename_i hall
      cases hstep
      subst hall
      exact ⟨rfl, Nat.le_refl _, .at_once now hstanding rfl⟩
    · rename_i hshort
      cases hstep
      have hle : n ≤ frame.len := by omega
      refine ⟨rfl, hle, turn_loop hle ?_⟩
      rintro ⟨-, now', hanswer⟩
      cases hanswer
      exact hshort rfl
  · rename_i errno now hstanding
    split at hstep
    · cases hstep
      exact ⟨rfl, Nat.zero_le _, .failed _ nofun (Or.inl rfl)⟩
    · cases hstep
      exact ⟨rfl, Nat.zero_le _, turn_retry rfl fun h => by obtain ⟨_, _, hanswer⟩ := h; cases hanswer⟩
  · rename_i cnt errno now isset hstanding
    have hlater : ¬(frame.standing = .first_write ∧
        ∃ now', IoAnswer.selected cnt errno now isset = .wrote (.accepted frame.len) now') :=
      fun h => by obtain ⟨_, _, hanswer⟩ := h; cases hanswer
    split at hstep
    · split at hstep
      · cases hstep
        exact ⟨rfl, Nat.zero_le _, .failed _ nofun (Or.inl rfl)⟩
      split at hstep
      · cases hstep
        exact ⟨rfl, Nat.zero_le _, .failed _ nofun (Or.inr rfl)⟩
      · cases hstep
        exact ⟨rfl, Nat.zero_le _, turn_retry rfl hlater⟩
    · split at hstep
      · cases hstep
        exact ⟨rfl, Nat.zero_le _, .goes_on _ (hmore (by rw [hstanding]; nofun)) rfl rfl nofun⟩
      · cases hstep
        exact ⟨rfl, Nat.zero_le _, turn_retry rfl hlater⟩
  · rename_i n now hstanding
    split at hstep
    · cases hstep
    rename_i hfits
    split at hstep
    · cases hstep
    · cases hstep
      have hle : n ≤ frame.len := by omega
      refine ⟨rfl, hle, turn_loop hle ?_⟩
      rw [hstanding]
      nofun
  · rename_i errno now hstanding
    split at hstep
    · cases hstep
      exact ⟨rfl, Nat.zero_le _, turn_retry rfl fun h => by obtain ⟨_, _, hanswer⟩ := h; cases hanswer⟩
    · cases hstep
      exact ⟨rfl, Nat.zero_le _, .failed _ nofun (Or.inl rfl)⟩
  · cases hstep

/-! ## The answers of a call -/

namespace Writing

/-- Where the answers so far have led a call whose frame had `buf` left, once its
    first `write` is over. -/
def Reached (buf : List UInt8) (n : Nat) : Progress → Prop
  | .calling frame => n < buf.length ∧ frame.buf = buf.drop n ∧ frame.Exact ∧ frame.standing ≠ .first_write
  | .returned rc => n < buf.length ∧ (rc = write_failed ∨ rc = write_timeout)
  | .left_loop => n = buf.length

theorem Reached.drop {buf : List UInt8} {k n : Nat} (hk : k ≤ buf.length) {progress : Progress}
    (hreached : Reached (buf.drop k) n progress) : Reached buf (k + n) progress := by
  cases progress with
  | calling frame =>
    obtain ⟨hless, hbuf, hexact, hstanding⟩ := hreached
    rw [List.length_drop] at hless
    exact ⟨by omega, by rw [hbuf, List.drop_drop], hexact, hstanding⟩
  | returned rc =>
    obtain ⟨hless, hrc⟩ := hreached
    rw [List.length_drop] at hless
    exact ⟨by omega, hrc⟩
  | left_loop =>
    unfold Reached at hreached ⊢
    rw [List.length_drop] at hreached
    omega

/-- A finished call takes no more answers. -/
theorem run_finished {c c' : Writing} (hfinished : c.Finished) {answers : List IoAnswer} {outs : List Unit}
    (hrun : run step c answers = .ok (c', outs)) : answers = [] ∧ c' = c := by
  refine run_stopped (fun answer r hstep => ?_) hrun
  unfold step at hstep
  split at hstep
  · rename_i frame hcalling
    exact hfinished frame hcalling
  · cases hstep

/-- A call in its loop: a frame that goes on has bytes left, and only a failure
    returns before all are written. -/
theorem reached_of_run {frame : SafeWrite} (hexact : frame.Exact) (hlater : frame.standing ≠ .first_write)
    (hmore : 0 < frame.len) {accepted : List UInt8} {last_write_time : Int} {answers : List IoAnswer}
    {c : Writing} {outs : List Unit}
    (hrun : run step { progress := .calling frame, accepted := accepted, last_write_time := last_write_time }
      answers = .ok (c, outs)) :
    c.accepted = accepted ++ frame.buf.take (written answers) ∧ Reached frame.buf (written answers) c.progress := by
  induction answers generalizing frame accepted last_write_time outs with
  | nil =>
    obtain ⟨rfl, _⟩ := Prod.mk.inj (Except.ok.inj hrun)
    refine ⟨(List.append_nil accepted).symm, ?_, rfl, hexact, hlater⟩
    rwa [← hexact]
  | cons answer answers ih =>
    obtain ⟨c₁, u, outs', hstep, hrest, _⟩ := run_cons_eq_ok_iff.mp hrun
    obtain ⟨r, hwrite, heq⟩ := bind_eq_ok_iff.mp hstep
    cases heq
    obtain ⟨haccepted, hle, hturn⟩ := safe_write_turn (fun _ => hmore) hwrite
    have hlen : frame.len = frame.buf.length := hexact
    generalize r.progress = progress at hturn hrest
    cases hturn with
    | goes_on frame' hless hbuf hlen' hstanding =>
      have hexact' : frame'.Exact := by
        unfold SafeWrite.Exact
        rw [hlen', hbuf, List.length_drop, hlen]
      obtain ⟨hbytes, hreached⟩ := ih hexact' hstanding (by omega) hrest
      rw [hbuf] at hbytes hreached
      refine ⟨?_, hreached.drop (by omega)⟩
      rw [hbytes, haccepted, List.append_assoc, written, List.take_add]
    | at_once now hstanding hanswer => exact absurd hstanding hlater
    | failed rc hnone hrc =>
      obtain ⟨rfl, rfl⟩ := run_finished (fun _ h => by cases h) hrest
      refine ⟨by rw [haccepted, written, written, Nat.add_zero], ?_, hrc⟩
      rw [written, written, count_eq_zero hnone]
      omega
    | falls_off hall _ =>
      obtain ⟨rfl, rfl⟩ := run_finished (fun _ h => by cases h) hrest
      refine ⟨by rw [haccepted, written, written, Nat.add_zero], ?_⟩
      show written [answer] = frame.buf.length
      rw [written, written, hall, hlen, Nat.add_zero]

/-- The values of a failure are no sizes of objects. -/
theorem failure_ne_length (buf : Object) {rc : Nat} (hrc : rc = write_failed ∨ rc = write_timeout) :
    rc ≠ buf.bytes.length := by
  have hfits := buf.fits
  unfold write_failed write_timeout at hrc
  omega

/-- A failure is reported truly when bytes are left. -/
theorem reflects_of_failure {buf : Object} {c : Writing} {n : Nat} (hless : n < buf.bytes.length)
    (haccepted : c.accepted = buf.bytes.take n) {rc : Nat} (hprogress : c.progress = .returned rc)
    (hrc : rc = write_failed ∨ rc = write_timeout) : Reflects buf c := by
  refine ⟨haccepted ▸ List.take_prefix n buf.bytes, rc, hprogress, ?_, fun _ => hrc⟩
  refine iff_of_false (failure_ne_length buf hrc) fun hall => ?_
  have hlen := congrArg List.length hall
  rw [haccepted, List.length_take] at hlen
  omega

theorem not_reflects_of_left_loop {buf : Object} {c : Writing} (hleft : c.progress = .left_loop) :
    ¬Reflects buf c := by
  rintro ⟨_, rc, hreturned, _⟩
  rw [hleft] at hreturned
  cases hreturned

/-- A call that reached its end past the first `write`. -/
theorem reflects_iff_of_reached {buf : Object} {c : Writing} {n : Nat} (haccepted : c.accepted = buf.bytes.take n)
    (hreached : Reached buf.bytes n c.progress) (hfinished : c.Finished) :
    Reflects buf c ↔ n < buf.bytes.length := by
  generalize hprogress : c.progress = progress at hreached
  cases progress with
  | calling frame => exact absurd hprogress (hfinished frame)
  | returned rc =>
    obtain ⟨hless, hrc⟩ := hreached
    exact iff_of_true (reflects_of_failure hless haccepted hprogress hrc) hless
  | left_loop => exact iff_of_false (not_reflects_of_left_loop hprogress) (Nat.not_lt.mpr (Nat.le_of_eq hreached.symm))

/-- For every buffer and all answers of `write` and `select`, what the descriptor
    accepts is a prefix of the buffer, and a finished call returns a value that
    tells whether all was written exactly when its first `write` accepts
    everything or all its writes together do not. -/
theorem safe_write_reflects_iff (buf : Object) (last_write_time timeout_seconds : Int) {answers : List IoAnswer}
    {c : Writing} {outs : List Unit}
    (hrun : run step (call last_write_time buf timeout_seconds) answers = .ok (c, outs)) :
    c.accepted <+: buf.bytes ∧
      (c.Finished → (Reflects buf c ↔
        AtOnce buf.bytes.length answers ∨ written answers < buf.bytes.length)) := by
  cases answers with
  | nil =>
    obtain ⟨rfl, _⟩ := Prod.mk.inj (Except.ok.inj hrun)
    exact ⟨List.nil_prefix, fun hfinished => absurd rfl (hfinished _)⟩
  | cons answer answers =>
    obtain ⟨c₁, u, outs', hstep, hrest, _⟩ := run_cons_eq_ok_iff.mp hrun
    obtain ⟨r, hwrite, heq⟩ := bind_eq_ok_iff.mp hstep
    cases heq
    obtain ⟨haccepted, hle, hturn⟩ := safe_write_turn (fun h => absurd rfl h) hwrite
    have hone : written [answer] = answer.count := Nat.add_zero _
    generalize r.progress = progress at hturn hrest
    cases hturn with
    | goes_on frame hmore hbuf hlen hstanding =>
      have hexact : frame.Exact := by
        unfold SafeWrite.Exact
        rw [hlen, hbuf, List.length_drop]
        rfl
      obtain ⟨hbytes, hreached⟩ := reached_of_run hexact hstanding (by omega) hrest
      have hfront : c.accepted = buf.bytes.take (written (answer :: answers)) := by
        rw [hbytes, haccepted, hbuf, written, List.take_add]
        rfl
      rw [hbuf] at hreached
      have hwhole : Reached buf.bytes (written (answer :: answers)) c.progress := hreached.drop hle
      refine ⟨hfront ▸ List.take_prefix _ _, fun hfinished => ?_⟩
      rw [reflects_iff_of_reached hfront hwhole hfinished, or_iff_right]
      rintro ⟨now, rest, hcons⟩
      obtain rfl := (List.cons.inj hcons).1
      exact Nat.lt_irrefl _ hmore
    | at_once now _ hanswer =>
      obtain ⟨rfl, rfl⟩ := run_finished (fun _ h => by cases h) hrest
      subst hanswer
      have hall : r.accepted = buf.bytes := haccepted.trans List.take_length
      refine ⟨by rw [hall]; exact List.prefix_refl _, fun _ => iff_of_true ?_ (Or.inl ⟨now, [], rfl⟩)⟩
      exact ⟨by rw [hall]; exact List.prefix_refl _, _, rfl, iff_of_true rfl hall, fun hne => absurd rfl hne⟩
    | failed rc hnone hrc =>
      obtain ⟨rfl, rfl⟩ := run_finished (fun _ h => by cases h) hrest
      have hnil : r.accepted = [] := by rw [haccepted, count_eq_zero hnone, List.take_zero]
      refine ⟨by rw [hnil]; exact List.nil_prefix, fun _ => ?_⟩
      rw [hone, count_eq_zero hnone]
      by_cases hlen : 0 < buf.bytes.length
      · exact iff_of_true (reflects_of_failure hlen hnil rfl hrc) (Or.inr hlen)
      · refine iff_of_false ?_ ?_
        · rintro ⟨_, rc', hreturned, hvalue, _⟩
          cases hreturned
          have hempty : buf.bytes = [] := List.length_eq_zero_iff.mp (by omega)
          exact failure_ne_length buf hrc (hvalue.mpr (hnil.trans hempty.symm))
        · rintro (⟨now, rest, hcons⟩ | hless)
          · exact hnone _ _ (List.cons.inj hcons).1
          · exact hlen hless
    | falls_off hall hlater =>
      obtain ⟨rfl, rfl⟩ := run_finished (fun _ h => by cases h) hrest
      refine ⟨by rw [haccepted]; exact List.take_prefix _ _, fun _ => ?_⟩
      refine iff_of_false (not_reflects_of_left_loop rfl) ?_
      rw [hone, hall]
      rintro (⟨now, rest, hcons⟩ | hless)
      · exact hlater ⟨rfl, now, (List.cons.inj hcons).1⟩
      · exact Nat.lt_irrefl _ hless

def three_bytes : Object := { bytes := [97, 98, 99], fits := by decide }

/-- One byte is accepted, and nothing more within five seconds. -/
def timed_out : List IoAnswer :=
  [.wrote (.accepted 1) 0, .selected 1 (.other 0) 0 true, .wrote (.failed .EINTR) 1,
    .selected 0 (.other 0) 9 false]

/-- One byte is accepted, and the two others by the next write. -/
def in_two_writes : List IoAnswer :=
  [.wrote (.accepted 1) 0, .selected 1 (.other 0) 0 true, .wrote (.accepted 2) 1]

theorem safe_write_reflects_iff_timed_out :
    ∃ c outs, run step (call 0 three_bytes 5) timed_out = .ok (c, outs) ∧ c.accepted = [97] ∧
      Reflects three_bytes c := by
  obtain ⟨c, outs, hrun, hview⟩ := run_of_view (fun c : Writing => (c.progress, c.accepted))
    (by decide +kernel : (run step (call 0 three_bytes 5) timed_out).toOption.map
      (fun r => (r.1.progress, r.1.accepted)) = some (.returned write_timeout, [97]))
  obtain ⟨hprogress, haccepted⟩ := Prod.mk.inj hview
  refine ⟨c, outs, hrun, haccepted, ?_⟩
  refine ((safe_write_reflects_iff three_bytes 0 5 hrun).2 fun frame hcalling => ?_).mpr (Or.inr (by decide))
  rw [hprogress] at hcalling
  cases hcalling

/-- All bytes are written, and no value is returned. -/
theorem second_write_returns_nothing :
    ∃ c outs, run step (call 0 three_bytes 5) in_two_writes = .ok (c, outs) ∧ c.progress = .left_loop ∧
      c.accepted = three_bytes.bytes ∧ c.Finished ∧ ¬Reflects three_bytes c := by
  obtain ⟨c, outs, hrun, hview⟩ := run_of_view (fun c : Writing => (c.progress, c.accepted))
    (by decide +kernel : (run step (call 0 three_bytes 5) in_two_writes).toOption.map
      (fun r => (r.1.progress, r.1.accepted)) = some (.left_loop, three_bytes.bytes))
  obtain ⟨hprogress, haccepted⟩ := Prod.mk.inj hview
  refine ⟨c, outs, hrun, hprogress, haccepted, fun frame hcalling => ?_, not_reflects_of_left_loop hprogress⟩
  rw [hprogress] at hcalling
  cases hcalling

end Writing

end code_tools.ctproxy
