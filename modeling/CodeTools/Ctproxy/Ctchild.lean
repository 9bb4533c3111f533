import CodeTools.Ctproxy.Ctio
import CodeTools.Lib.Machine
import CodeTools.Lib.Relay

/-!
# The relay of `ctproxy`

`trans_data` serves both directions in turn out of one buffer. A chunk is read
only after `safe_write` came back from the one before.
-/

namespace code_tools.ctproxy

open cmem machine relay syscall

def MAXBUF : Nat := 4096

/-- The call that `trans_data` waits for. While it serves the back server it
    keeps whether the client is readable too. -/
inductive Control where
  | select
  | read_back (client_set : Bool)
  | write_client (frame : SafeWrite) (client_set : Bool)
  /-- `safe_write` came back without a value; `n` gets whatever is found. -/
  | unset_client (client_set : Bool)
  | read_client
  | write_back (frame : SafeWrite)
  | unset_back
  | returned (retval : Int)
deriving DecidableEq, Repr

structure Proxy where
  last_write_time : Int
  control : Control
  /-- Read from the back server, written to the client. -/
  back_link : Link UInt8
  /-- Read from the client, written to the back server. -/
  client_link : Link UInt8
deriving DecidableEq, Repr

/-- The proxy as it calls `trans_data`. -/
def enter (last_write_time : Int) : Proxy :=
  { last_write_time := last_write_time, control := .select, back_link := Link.empty,
    client_link := Link.empty }

inductive Answer where
  | selected (retval : Int) (back_set client_set : Bool)
  | read (result : ReadResult)
  | io (answer : IoAnswer)
  | unset (n : Nat)
deriving DecidableEq, Repr

/-- The test for the client at the end of a round. -/
def serve_client (s : Proxy) (client_set : Bool) : Proxy :=
  { s with control := if client_set then .read_client else .select }

def selected (s : Proxy) (retval : Int) (back_set client_set : Bool) : Proxy :=
  if retval = 0 then { s with control := .select }
  else if retval = -1 then { s with control := .returned (-1) }
  else if back_set then { s with control := .read_back client_set }
  else serve_client s client_set

/-! ## Back server to client -/

def read_back (crw_timeout : Int) (s : Proxy) (client_set : Bool) : ReadResult → Except Stuck Proxy
  | .failed _ => .ok { s with control := .returned (-1) }
  | .data [] => .ok { s with control := .returned 0 }
  | .data iobuf =>
    if MAXBUF < iobuf.length then .error .answer
    else
      .ok { s with
        back_link := s.back_link.take iobuf
        control := .write_client (.call iobuf iobuf.length crw_timeout) client_set }

def wrote_client (s : Proxy) (client_set : Bool) (rc : Nat) : Proxy :=
  if int_of_size_t rc < 0 then { s with control := .returned (-1) } else serve_client s client_set

def write_client (s : Proxy) (frame : SafeWrite) (client_set : Bool) (answer : IoAnswer) :
    Except Stuck Proxy := do
  let r ← safe_write s.last_write_time frame answer
  let s := { s with last_write_time := r.last_write_time, back_link := s.back_link.give r.accepted }
  match r.progress with
  | .calling frame => .ok { s with control := .write_client frame client_set }
  | .returned rc => .ok (wrote_client s client_set rc)
  | .left_loop => .ok { s with control := .unset_client client_set }

/-! ## Client to back server -/

def read_client (crw_timeout : Int) (s : Proxy) : ReadResult → Except Stuck Proxy
  | .failed _ => .ok { s with control := .returned (-1) }
  | .data [] => .ok { s with control := .returned 0 }
  | .data iobuf =>
    if MAXBUF < iobuf.length then .error .answer
    else
      .ok { s with
        client_link := s.client_link.take iobuf
        control := .write_back (.call iobuf iobuf.length crw_timeout) }

def wrote_back (s : Proxy) (rc : Nat) : Proxy :=
  { s with control := if int_of_size_t rc < 0 then .returned (-1) else .select }

def write_back (s : Proxy) (frame : SafeWrite) (answer : IoAnswer) : Except Stuck Proxy := do
  let r ← safe_write s.last_write_time frame answer
  let s := { s with last_write_time := r.last_write_time, client_link := s.client_link.give r.accepted }
  match r.progress with
  | .calling frame => .ok { s with control := .write_back frame }
  | .returned rc => .ok (wrote_back s rc)
  | .left_loop => .ok { s with control := .unset_back }

/-! ## The loop -/

def trans_data (crw_timeout : Int) (s : Proxy) (answer : Answer) : Except Stuck Proxy :=
  match s.control, answer with
  | .select, .selected retval back_set client_set => .ok (selected s retval back_set client_set)
  | .read_back client_set, .read result => read_back crw_timeout s client_set result
  | .write_client frame client_set, .io answer => write_client s frame client_set answer
  | .unset_client client_set, .unset n => .ok (wrote_client s client_set n)
  | .read_client, .read result => read_client crw_timeout s result
  | .write_back frame, .io answer => write_back s frame answer
  | .unset_back, .unset n => .ok (wrote_back s n)
  | _, _ => .error .answer

def step (crw_timeout : Int) (s : Proxy) (answer : Answer) : Except Stuck (Proxy × Unit) := do
  let s ← trans_data crw_timeout s answer
  .ok (s, ())

/-! ## Both streams are kept -/

/-- What the proxy holds back at each of its calls. -/
def Held (s : Proxy) : Prop :=
  match s.control with
  | .write_client frame _ => s.back_link.Owes frame.buf ∧ frame.Exact ∧ s.client_link.Settled
  | .write_back frame => s.back_link.Settled ∧ s.client_link.Owes frame.buf ∧ frame.Exact
  | .returned retval => s.back_link.given <+: s.back_link.taken ∧
    s.client_link.given <+: s.client_link.taken ∧
    (retval = 0 → s.back_link.Settled ∧ s.client_link.Settled)
  | _ => s.back_link.Settled ∧ s.client_link.Settled

theorem Held.in_order {s : Proxy} (hheld : Held s) :
    s.back_link.given <+: s.back_link.taken ∧ s.client_link.given <+: s.client_link.taken := by
  unfold Held at hheld
  split at hheld
  · exact ⟨hheld.1.in_order, hheld.2.2.in_order⟩
  · exact ⟨hheld.1.in_order, hheld.2.1.in_order⟩
  · exact ⟨hheld.1, hheld.2.1⟩
  · exact ⟨hheld.1.in_order, hheld.2.in_order⟩

theorem held_serve_client {s : Proxy} (hback : s.back_link.Settled) (hclient : s.client_link.Settled)
    (client_set : Bool) : Held (serve_client s client_set) := by
  cases client_set
  · exact ⟨hback, hclient⟩
  · exact ⟨hback, hclient⟩

theorem held_selected {s : Proxy} (hback : s.back_link.Settled) (hclient : s.client_link.Settled)
    (retval : Int) (back_set client_set : Bool) : Held (selected s retval back_set client_set) := by
  unfold selected
  split
  · exact ⟨hback, hclient⟩
  split
  · exact ⟨hback.in_order, hclient.in_order, fun _ => ⟨hback, hclient⟩⟩
  split
  · exact ⟨hback, hclient⟩
  · exact held_serve_client hback hclient client_set

/-- Leaving the loop with both links settled. -/
theorem held_returned {s : Proxy} (hback : s.back_link.Settled) (hclient : s.client_link.Settled)
    (retval : Int) : Held { s with control := .returned retval } :=
  ⟨hback.in_order, hclient.in_order, fun _ => ⟨hback, hclient⟩⟩

/-- Leaving the loop with an error. -/
theorem held_failed {s : Proxy} (hback : s.back_link.given <+: s.back_link.taken)
    (hclient : s.client_link.given <+: s.client_link.taken) :
    Held { s with control := .returned (-1) } :=
  ⟨hback, hclient, nofun⟩

theorem held_read_back {crw_timeout : Int} {s s' : Proxy} {client_set : Bool} {result : ReadResult}
    (hback : s.back_link.Settled) (hclient : s.client_link.Settled)
    (hread : read_back crw_timeout s client_set result = .ok s') : Held s' := by
  unfold read_back at hread
  split at hread
  · cases hread
    exact held_returned hback hclient (-1)
  · cases hread
    exact held_returned hback hclient 0
  · split at hread
    · cases hread
    · cases hread
      exact ⟨hback.take _, rfl, hclient⟩

theorem held_read_client {crw_timeout : Int} {s s' : Proxy} {result : ReadResult}
    (hback : s.back_link.Settled) (hclient : s.client_link.Settled)
    (hread : read_client crw_timeout s result = .ok s') : Held s' := by
  unfold read_client at hread
  split at hread
  · cases hread
    exact held_returned hback hclient (-1)
  · cases hread
    exact held_returned hback hclient 0
  · split at hread
    · cases hread
    · cases hread
      exact ⟨hback, hclient.take _, rfl⟩

/-- A value that is not negative comes only after the whole chunk, so the test
    of it may go either way once nothing is owed. -/
theorem held_wrote_client {s : Proxy} (hclient : s.client_link.Settled) {client_set : Bool} {rc : Nat}
    (hback : s.back_link.Settled ∨
      s.back_link.given <+: s.back_link.taken ∧ int_of_size_t rc < 0) :
    Held (wrote_client s client_set rc) := by
  unfold wrote_client
  rcases hback with hback | ⟨horder, hnegative⟩
  · split
    · exact held_returned hback hclient (-1)
    · exact held_serve_client hback hclient client_set
  · rw [if_pos hnegative]
    exact held_failed horder hclient.in_order

theorem held_wrote_back {s : Proxy} (hback : s.back_link.Settled) {rc : Nat}
    (hclient : s.client_link.Settled ∨
      s.client_link.given <+: s.client_link.taken ∧ int_of_size_t rc < 0) :
    Held (wrote_back s rc) := by
  unfold wrote_back
  rcases hclient with hclient | ⟨horder, hnegative⟩
  · split
    · exact held_returned hback hclient (-1)
    · exact ⟨hback, hclient⟩
  · rw [if_pos hnegative]
    exact held_failed hback.in_order horder

theorem held_write_client {s s' : Proxy} {frame : SafeWrite} {client_set : Bool} {answer : IoAnswer}
    (hback : s.back_link.Owes frame.buf) (hexact : frame.Exact) (hclient : s.client_link.Settled)
    (hwrite : write_client s frame client_set answer = .ok s') : Held s' := by
  obtain ⟨r, hstep, hnext⟩ := bind_eq_ok_iff.mp hwrite
  obtain ⟨n, haccepted, hcalling, hleft, hreturned⟩ := safe_write_follows hexact hstep
  have hgive := hback.give n
  rw [← haccepted] at hgive
  have hall : frame.buf.length ≤ n → (s.back_link.give r.accepted).Settled := by
    intro hn
    rw [haccepted]
    exact hback.give_all hn
  cases hprogress : r.progress with
  | calling frame' =>
    rw [hprogress] at hnext
    cases hnext
    obtain ⟨hbuf, hexact'⟩ := hcalling frame' hprogress
    rw [← hbuf] at hgive
    exact ⟨hgive, hexact', hclient⟩
  | returned rc =>
    rw [hprogress] at hnext
    cases hnext
    apply held_wrote_client (by exact hclient)
    rcases hreturned rc hprogress with hn | hnegative
    · exact Or.inl (hall hn)
    · exact Or.inr ⟨hgive.in_order, hnegative⟩
  | left_loop =>
    rw [hprogress] at hnext
    cases hnext
    exact ⟨hall (hleft hprogress), hclient⟩

theorem held_write_back {s s' : Proxy} {frame : SafeWrite} {answer : IoAnswer}
    (hback : s.back_link.Settled) (hclient : s.client_link.Owes frame.buf) (hexact : frame.Exact)
    (hwrite : write_back s frame answer = .ok s') : Held s' := by
  obtain ⟨r, hstep, hnext⟩ := bind_eq_ok_iff.mp hwrite
  obtain ⟨n, haccepted, hcalling, hleft, hreturned⟩ := safe_write_follows hexact hstep
  have hgive := hclient.give n
  rw [← haccepted] at hgive
  have hall : frame.buf.length ≤ n → (s.client_link.give r.accepted).Settled := by
    intro hn
    rw [haccepted]
    exact hclient.give_all hn
  cases hprogress : r.progress with
  | calling frame' =>
    rw [hprogress] at hnext
    cases hnext
    obtain ⟨hbuf, hexact'⟩ := hcalling frame' hprogress
    rw [← hbuf] at hgive
    exact ⟨hback, hgive, hexact'⟩
  | returned rc =>
    rw [hprogress] at hnext
    cases hnext
    apply held_wrote_back (by exact hback)
    rcases hreturned rc hprogress with hn | hnegative
    · exact Or.inl (hall hn)
    · exact Or.inr ⟨hgive.in_order, hnegative⟩
  | left_loop =>
    rw [hprogress] at hnext
    cases hnext
    exact ⟨hback, hall (hleft hprogress)⟩

theorem trans_data_held {crw_timeout : Int} {s s' : Proxy} {answer : Answer} (hheld : Held s)
    (hstep : trans_data crw_timeout s answer = .ok s') : Held s' := by
  unfold Held at hheld
  unfold trans_data at hstep
  split at hstep
  · rename_i retval back_set client_set hcontrol
    rw [hcontrol] at hheld
    cases hstep
    exact held_selected hheld.1 hheld.2 retval back_set client_set
  · rename_i client_set result hcontrol
    rw [hcontrol] at hheld
    exact held_read_back hheld.1 hheld.2 hstep
  · rename_i frame client_set answer hcontrol
    rw [hcontrol] at hheld
    exact held_write_client hheld.1 hheld.2.1 hheld.2.2 hstep
  · rename_i client_set n hcontrol
    rw [hcontrol] at hheld
    cases hstep
    exact held_wrote_client hheld.2 (Or.inl hheld.1)
  · rename_i result hcontrol
    rw [hcontrol] at hheld
    exact held_read_client hheld.1 hheld.2 hstep
  · rename_i frame answer hcontrol
    rw [hcontrol] at hheld
    exact held_write_back hheld.1 hheld.2.1 hheld.2.2 hstep
  · rename_i n hcontrol
    rw [hcontrol] at hheld
    cases hstep
    exact held_wrote_back hheld.1 (Or.inl hheld.2)
  · cases hstep

/-- After any answers in any order, what each side accepted is a prefix of what
    was read from the other, and once `trans_data` returned 0 it is all of it.
    Nothing is asked of the value that `safe_write` leaves unset. -/
theorem streams_along_run {crw_timeout last_write_time : Int} {answers : List Answer} {s : Proxy}
    {outs : List Unit} (hrun : run (step crw_timeout) (enter last_write_time) answers = .ok (s, outs)) :
    s.back_link.given <+: s.back_link.taken ∧ s.client_link.given <+: s.client_link.taken ∧
      (s.control = .returned 0 →
        s.back_link.given = s.back_link.taken ∧ s.client_link.given = s.client_link.taken) := by
  have hstep : ∀ s answer s' u, Held s → step crw_timeout s answer = .ok (s', u) → Held s' := by
    intro s answer s' u hheld hnext
    obtain ⟨t, htrans, heq⟩ := bind_eq_ok_iff.mp hnext
    cases heq
    exact trans_data_held hheld htrans
  have hstart : Held (enter last_write_time) := ⟨Link.settled_empty, Link.settled_empty⟩
  have hheld := run_invariant Held hstep hstart hrun
  refine ⟨hheld.in_order.1, hheld.in_order.2, fun hreturned => ?_⟩
  unfold Held at hheld
  rw [hreturned] at hheld
  exact hheld.2.2 rfl

/-- Both sides readable in one round, a short write that would block, and a call
    of `safe_write` that comes back without a value. -/
def two_chunks : List Answer :=
  [.selected 2 true true, .read (.data [97, 98, 99]), .io (.wrote (.accepted 3) 0), .read (.data [100, 101]),
    .io (.wrote (.failed .EAGAIN) 0), .io (.selected 1 .EINTR 1 true), .io (.wrote (.accepted 1) 1),
    .io (.selected 0 .EINTR 2 false), .io (.selected 1 .EINTR 3 true), .io (.wrote (.accepted 1) 3), .unset 7,
    .selected 1 true false, .read (.data [])]

theorem streams_along_run_two :
    ∃ s outs, run (step 5) (enter 0) two_chunks = .ok (s, outs) ∧
      s.back_link.given <+: s.back_link.taken ∧ s.client_link.given <+: s.client_link.taken ∧
      (s.control = .returned 0 →
        s.back_link.given = s.back_link.taken ∧ s.client_link.given = s.client_link.taken) ∧
      s.control = .returned 0 ∧ s.client_link.taken = [100, 101] := by
  obtain ⟨s, outs, hrun, hview⟩ := run_of_view (fun s : Proxy => (s.control, s.client_link.taken))
    (by decide +kernel : (run (step 5) (enter 0) two_chunks).toOption.map
      (fun r => (r.1.control, r.1.client_link.taken)) = some (.returned 0, [100, 101]))
  obtain ⟨hback, hclient, hall⟩ := streams_along_run hrun
  obtain ⟨hcontrol, htaken⟩ := Prod.mk.inj hview
  exact ⟨s, outs, hrun, hback, hclient, hall, hcontrol, htaken⟩

end code_tools.ctproxy
