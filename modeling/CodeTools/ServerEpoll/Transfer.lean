import CodeTools.ServerEpoll.Child

/-!
# The child relays what it reads

Both write loops keep a pointer by counting down what is unwritten. The loop
towards the client also counts the -1 of a write that would block.
-/

namespace code_tools.server_epoll.child

open cmem machine relay syscall

/-- The chunk of a pending write. -/
def Control.writing : Control → Option Chunk
  | .write_back _ chunk => some chunk
  | .write_client _ chunk => some chunk
  | _ => none

def Control.hasExited : Control → Bool
  | .exited _ => true
  | _ => false

/-- What each side accepted is a prefix of what was read from the other, all of
    it outside the write loops, and a pending write points into its chunk. -/
structure Relays (s : Child) : Prop where
  to_back : s.client_link.given <+: s.client_link.taken
  to_client : s.back_link.given <+: s.back_link.taken
  finished : s.control.writing = none → s.control.hasExited = false →
    s.client_link.Settled ∧ s.back_link.Settled
  pointer : ∀ chunk, s.control.writing = some chunk → 0 ≤ chunk.offset ∧ chunk.offset < chunk.nr

/-- The link owes what a chunk has left, and there is something left. -/
structure Chunk.Pending (chunk : Chunk) (link : Link UInt8) : Prop where
  pos : 0 < chunk.nw_tmp
  le : chunk.nw_tmp ≤ chunk.nr
  owes : link.Owes (chunk.buf.drop chunk.offset.toNat)

/-- What the child holds back at each of its calls. -/
def Held (s : Child) : Prop :=
  match s.control with
  | .write_back _ chunk => chunk.Pending s.client_link ∧ s.back_link.Settled
  | .write_client _ chunk => s.client_link.Settled ∧ chunk.Pending s.back_link
  | .exited _ => s.client_link.given <+: s.client_link.taken ∧ s.back_link.given <+: s.back_link.taken
  | _ => s.client_link.Settled ∧ s.back_link.Settled

theorem Chunk.Pending.pointer {chunk : Chunk} {link : Link UInt8} (hpending : chunk.Pending link) :
    0 ≤ chunk.offset ∧ chunk.offset < chunk.nr := by
  have hpos := hpending.pos
  have hle := hpending.le
  unfold offset
  omega

theorem Held.relays {s : Child} (hheld : Held s) : Relays s := by
  unfold Held at hheld
  cases hcontrol : s.control with
  | write_back events chunk =>
    rw [hcontrol] at hheld
    obtain ⟨hpending, hback⟩ := hheld
    refine ⟨hpending.owes.in_order, hback.in_order, ?_, ?_⟩
    · intro hnone
      rw [hcontrol] at hnone
      cases hnone
    · intro chunk' hwriting
      rw [hcontrol] at hwriting
      cases hwriting
      exact hpending.pointer
  | write_client events chunk =>
    rw [hcontrol] at hheld
    obtain ⟨hclient, hpending⟩ := hheld
    refine ⟨hclient.in_order, hpending.owes.in_order, ?_, ?_⟩
    · intro hnone
      rw [hcontrol] at hnone
      cases hnone
    · intro chunk' hwriting
      rw [hcontrol] at hwriting
      cases hwriting
      exact hpending.pointer
  | exited errnum =>
    rw [hcontrol] at hheld
    refine ⟨hheld.1, hheld.2, ?_, ?_⟩
    · intro _ hstays
      rw [hcontrol] at hstays
      cases hstays
    · intro chunk hwriting
      rw [hcontrol] at hwriting
      cases hwriting
  | epoll_wait | read_client events | connect_to_back_server events | refuse wbuf errnum
  | read_back events =>
    rw [hcontrol] at hheld
    refine ⟨hheld.1.in_order, hheld.2.in_order, fun _ _ => hheld, ?_⟩
    intro chunk hwriting
    rw [hcontrol] at hwriting
    cases hwriting

/-! ## One step -/

/-- What one write to the back server leaves. -/
theorem write_back_inv {s s' : Child} {events : List Event} {chunk : Chunk} {result : WriteResult}
    (hwrite : write_back s events chunk result = .ok s') :
    s' = s ∨ s' = exit_cleanup s 21 ∨ ∃ nw : Nat, nw ≤ chunk.nw_tmp ∧
      s' = write_back_loop { s with
        back_buf_write_len := counted s.back_buf_write_len nw
        client_link := s.client_link.give ((chunk.buf.drop chunk.offset.toNat).take nw) }
        events { chunk with nw_tmp := chunk.nw_tmp - nw } := by
  unfold write_back at hwrite
  split at hwrite
  · cases hwrite
  split at hwrite
  · cases hwrite
    exact .inl rfl
  · cases hwrite
    exact .inr (.inl rfl)
  · split at hwrite
    · cases hwrite
    · rename_i nw hnw
      cases hwrite
      exact .inr (.inr ⟨nw, by omega, rfl⟩)

/-- What one write to the client leaves. -/
theorem write_client_inv {s s' : Child} {events : List Event} {chunk : Chunk} {result : WriteResult}
    (hwrite : write_client s events chunk result = .ok s') :
    (result = .failed .EAGAIN ∧ s' = write_client_loop { s with
        client_buf_write_len := counted s.client_buf_write_len (-1) }
        events { chunk with nw_tmp := chunk.nw_tmp - -1 }) ∨
      s' = exit_cleanup s 21 ∨ ∃ nw : Nat, nw ≤ chunk.nw_tmp ∧
      s' = write_client_loop { s with
        client_buf_write_len := counted s.client_buf_write_len nw
        back_link := s.back_link.give ((chunk.buf.drop chunk.offset.toNat).take nw) }
        events { chunk with nw_tmp := chunk.nw_tmp - nw } := by
  unfold write_client at hwrite
  split at hwrite
  · cases hwrite
  split at hwrite
  · cases hwrite
    exact .inl ⟨rfl, rfl⟩
  · cases hwrite
    exact .inr (.inl rfl)
  · split at hwrite
    · cases hwrite
    · rename_i nw hnw
      cases hwrite
      exact .inr (.inr ⟨nw, by omega, rfl⟩)

/-- What one read from the back server leaves. -/
theorem read_back_inv {s s' : Child} {events : List Event} {result : ReadResult}
    (hread : read_back s events result = .ok s') :
    s' = next_event s events ∨ s' = s ∨ (∃ errnum, s' = exit_cleanup s errnum) ∨
      ∃ buf, buf ≠ [] ∧
        ((s.back_state = .TRANS ∧ s' = write_client_loop { s with
            back_buf_read_len := counted s.back_buf_read_len buf.length
            back_link := s.back_link.take buf } events { buf := buf, nw_tmp := buf.length }) ∨
          (s.back_state ≠ .TRANS ∧ s' = { s with
            back_buf_read_len := counted s.back_buf_read_len buf.length, control := .read_back events })) := by
  unfold read_back at hread
  split at hread
  · cases hread
    exact .inl rfl
  · cases hread
    exact .inr (.inl rfl)
  · cases hread
    exact .inr (.inr (.inl ⟨51, rfl⟩))
  · cases hread
    exact .inr (.inr (.inl ⟨10, rfl⟩))
  · rename_i buf hbuf
    refine .inr (.inr (.inr ⟨buf, fun hnil => hbuf hnil, ?_⟩))
    split at hread
    · cases hread
    dsimp only at hread
    split at hread
    · rename_i htrans
      cases hread
      exact .inl ⟨htrans, rfl⟩
    · rename_i hother
      cases hread
      exact .inr ⟨hother, rfl⟩

theorem next_event_same (s : Child) (events : List Event) :
    (next_event s events).client_link = s.client_link ∧ (next_event s events).back_link = s.back_link ∧
      (next_event s events).control.writing = none ∧
      (next_event s events).client_state = s.client_state ∧ (next_event s events).back_fd = s.back_fd ∧
      ∀ rest, (next_event s events).control ≠ .connect_to_back_server rest := by
  induction events with
  | nil => exact ⟨rfl, rfl, rfl, rfl, rfl, nofun⟩
  | cons evt events ih =>
    unfold next_event
    by_cases hclient : (evt.epollin && evt.fd = client_fd) = true
    · rw [if_pos hclient]
      exact ⟨rfl, rfl, rfl, rfl, rfl, nofun⟩
    rw [if_neg hclient]
    by_cases hback : (evt.epollin && evt.fd = s.back_fd) = true
    · rw [if_pos hback]
      exact ⟨rfl, rfl, rfl, rfl, rfl, nofun⟩
    rw [if_neg hback]
    by_cases hparent : (evt.epollin && evt.fd = pfd_r) = true
    · rw [if_pos hparent]
      exact ih
    rw [if_neg hparent]
    by_cases hhup : evt.epollhup = true
    · rw [if_pos hhup]
      exact ⟨rfl, rfl, rfl, rfl, rfl, nofun⟩
    · rw [if_neg hhup]
      exact ih

/-- Outside the write loops settled links are all that is asked. -/
theorem held_of_settled {s : Child} (hwriting : s.control.writing = none) (hclient : s.client_link.Settled)
    (hback : s.back_link.Settled) : Held s := by
  unfold Held
  cases hcontrol : s.control with
  | write_back events chunk | write_client events chunk =>
    rw [hcontrol] at hwriting
    cases hwriting
  | exited errnum => exact ⟨hclient.in_order, hback.in_order⟩
  | epoll_wait | read_client events | connect_to_back_server events | refuse wbuf errnum
  | read_back events => exact ⟨hclient, hback⟩

theorem held_next_event {s : Child} (hclient : s.client_link.Settled) (hback : s.back_link.Settled)
    (events : List Event) : Held (next_event s events) := by
  obtain ⟨hclient', hback', hwriting, _⟩ := next_event_same s events
  apply held_of_settled hwriting
  · rwa [hclient']
  · rwa [hback']

/-- A chunk at the start of its write loop. -/
theorem pending_of_take {link : Link UInt8} (hsettled : link.Settled) {buf : List UInt8} (hbuf : buf ≠ []) :
    ({ buf := buf, nw_tmp := buf.length } : Chunk).Pending (link.take buf) := by
  have hpos := List.length_pos_iff.mpr hbuf
  refine ⟨by dsimp only; omega, by simp [Chunk.nr], ?_⟩
  have howes := hsettled.take buf
  simpa [Chunk.offset, Chunk.nr] using howes

/-- A chunk after a write that accepted `nw` bytes: done, or still pending. -/
theorem Chunk.Pending.accepted {chunk : Chunk} {link : Link UInt8} (hpending : chunk.Pending link) {nw : Nat}
    (hnw : (nw : Int) ≤ chunk.nw_tmp) :
    (0 < chunk.nw_tmp - nw → ({ chunk with nw_tmp := chunk.nw_tmp - nw } : Chunk).Pending
      (link.give ((chunk.buf.drop chunk.offset.toNat).take nw))) ∧
    (chunk.nw_tmp - nw ≤ 0 → (link.give ((chunk.buf.drop chunk.offset.toNat).take nw)).Settled) := by
  obtain ⟨hpos, hle, howes⟩ := hpending
  constructor
  · intro hmore
    refine ⟨hmore, by dsimp only [nr] at hle ⊢; omega, ?_⟩
    have hgive := howes.give nw
    rw [List.drop_drop] at hgive
    have hoffset : ({ chunk with nw_tmp := chunk.nw_tmp - nw } : Chunk).offset.toNat =
        chunk.offset.toNat + nw := by
      simp only [offset, nr] at hle ⊢
      omega
    rw [hoffset]
    exact hgive
  · intro hdone
    apply howes.give_all
    rw [List.length_drop]
    simp only [offset, nr] at hle ⊢
    omega

/-- The transfer needs a back server, and only the first command looks for one. -/
structure Kept (s : Child) : Prop where
  held : Held s
  connected : s.client_state = .TRANS → s.back_fd ≠ -1
  connecting : ∀ events, s.control = .connect_to_back_server events → s.client_state = .CONNECT

theorem Kept.settled {s : Child} (hkept : Kept s) (hwriting : s.control.writing = none)
    (hstays : s.control.hasExited = false) : s.client_link.Settled ∧ s.back_link.Settled :=
  hkept.held.relays.finished hwriting hstays

/-- A step that holds on to the back server. -/
theorem Kept.of_held {s s' : Child} (hkept : Kept s) (hheld : Held s')
    (hstate : s'.client_state = s.client_state) (hfd : s'.back_fd = s.back_fd)
    (hcontrol : ∀ events, s'.control ≠ .connect_to_back_server events) : Kept s' := by
  refine ⟨hheld, ?_, fun events hconnect => absurd hconnect (hcontrol events)⟩
  rw [hstate, hfd]
  exact hkept.connected

theorem Kept.next_event {s : Child} (hkept : Kept s) (hclient : s.client_link.Settled)
    (hback : s.back_link.Settled) (events : List Event) : Kept (next_event s events) := by
  obtain ⟨_, _, _, hstate, hfd, hcontrol⟩ := next_event_same s events
  exact hkept.of_held (held_next_event hclient hback events) hstate hfd hcontrol

theorem Kept.exit {s : Child} (hkept : Kept s) (hclient : s.client_link.given <+: s.client_link.taken)
    (hback : s.back_link.given <+: s.back_link.taken) (errnum : Int) : Kept (exit_cleanup s errnum) :=
  hkept.of_held ⟨hclient, hback⟩ rfl rfl fun _ h => by cases h

theorem Kept.read_client {cfg : Config} {s s' : Child} {events : List Event} {result : ReadResult}
    (hkept : Kept s) (hcontrol : s.control = .read_client events)
    (hread : read_client cfg s events result = .ok s') : Kept s' := by
  obtain ⟨hclient, hback⟩ := hkept.settled (by rw [hcontrol]; rfl) (by rw [hcontrol]; rfl)
  unfold child.read_client at hread
  split at hread
  · cases hread
    exact hkept.next_event hclient hback events
  · cases hread
    exact hkept
  · cases hread
    exact hkept.exit hclient.in_order hback.in_order 51
  · cases hread
    exact hkept.exit hclient.in_order hback.in_order 10
  · rename_i buf hbuf
    split at hread
    · cases hread
    dsimp only at hread
    split at hread
    · rename_i htrans
      rw [if_pos (hkept.connected htrans)] at hread
      cases hread
      have hpending := pending_of_take hclient (fun hnil => hbuf hnil)
      have hmore : (0 : Int) < buf.length := hpending.pos
      unfold write_back_loop
      rw [if_pos hmore]
      exact hkept.of_held ⟨hpending, hback⟩ rfl rfl fun _ h => by cases h
    · cases hread
      unfold process_client_cmd
      split
      · rename_i hcommand
        exact ⟨⟨hclient, hback⟩, hkept.connected, fun _ _ => hcommand.1⟩
      · exact hkept.of_held ⟨hclient, hback⟩ rfl rfl fun _ h => by cases h

theorem Kept.connected_step {s : Child} {events : List Event} (hkept : Kept s)
    (hcontrol : s.control = .connect_to_back_server events) (fd : Int) (ndelay_on epoll_ctl : Bool) :
    Kept (child.connected s events fd ndelay_on epoll_ctl) := by
  obtain ⟨hclient, hback⟩ := hkept.settled (by rw [hcontrol]; rfl) (by rw [hcontrol]; rfl)
  have hstate := hkept.connecting events hcontrol
  have hrefuse : ∀ wbuf errnum, Kept { s with back_fd := fd, control := .refuse wbuf errnum } := by
    intro wbuf errnum
    refine ⟨⟨hclient, hback⟩, fun htrans => ?_, fun _ h => by cases h⟩
    have hconnect : s.client_state = .TRANS := htrans
    rw [hstate] at hconnect
    cases hconnect
  unfold child.connected
  split
  · exact hrefuse _ _
  split
  · exact hrefuse _ _
  split
  · exact hrefuse _ _
  · exact ⟨⟨hclient, hback⟩, fun _ => by dsimp only; omega, fun _ h => by cases h⟩

theorem Kept.write_back {s s' : Child} {events : List Event} {chunk : Chunk} {result : WriteResult}
    (hkept : Kept s) (hcontrol : s.control = .write_back events chunk)
    (hwrite : write_back s events chunk result = .ok s') : Kept s' := by
  obtain ⟨hpending, hback⟩ : chunk.Pending s.client_link ∧ s.back_link.Settled := by
    have hheld := hkept.held
    unfold Held at hheld
    rwa [hcontrol] at hheld
  obtain rfl | rfl | ⟨nw, hnw, rfl⟩ := write_back_inv hwrite
  · exact hkept
  · exact hkept.exit hpending.owes.in_order hback.in_order 21
  · obtain ⟨hmore, hdone⟩ := hpending.accepted hnw
    unfold write_back_loop
    by_cases hleft : 0 < chunk.nw_tmp - nw
    · rw [if_pos hleft]
      exact hkept.of_held ⟨hmore hleft, hback⟩ rfl rfl fun _ h => by cases h
    · rw [if_neg hleft]
      exact hkept.of_held ⟨hdone (by omega), hback⟩ rfl rfl fun _ h => by cases h

theorem Kept.read_back {s s' : Child} {events : List Event} {result : ReadResult} (hkept : Kept s)
    (hcontrol : s.control = .read_back events) (hread : read_back s events result = .ok s') : Kept s' := by
  obtain ⟨hclient, hback⟩ := hkept.settled (by rw [hcontrol]; rfl) (by rw [hcontrol]; rfl)
  obtain rfl | rfl | ⟨errnum, rfl⟩ | ⟨buf, hbuf, ⟨_, rfl⟩ | ⟨_, rfl⟩⟩ := read_back_inv hread
  · exact hkept.next_event hclient hback events
  · exact hkept
  · exact hkept.exit hclient.in_order hback.in_order errnum
  · have hpending := pending_of_take hback hbuf
    have hmore : (0 : Int) < buf.length := hpending.pos
    unfold write_client_loop
    rw [if_pos hmore]
    exact hkept.of_held ⟨hclient, hpending⟩ rfl rfl fun _ h => by cases h
  · exact hkept.of_held ⟨hclient, hback⟩ rfl rfl fun _ h => by cases h

/-- Without `EAGAIN` the loop towards the client keeps its books. -/
theorem Kept.write_client {s s' : Child} {events : List Event} {chunk : Chunk} {result : WriteResult}
    (hkept : Kept s) (hcontrol : s.control = .write_client events chunk)
    (hready : result ≠ .failed .EAGAIN) (hwrite : write_client s events chunk result = .ok s') : Kept s' := by
  obtain ⟨hclient, hpending⟩ : s.client_link.Settled ∧ chunk.Pending s.back_link := by
    have hheld := hkept.held
    unfold Held at hheld
    rwa [hcontrol] at hheld
  obtain ⟨hagain, _⟩ | rfl | ⟨nw, hnw, rfl⟩ := write_client_inv hwrite
  · exact absurd hagain hready
  · exact hkept.exit hclient.in_order hpending.owes.in_order 21
  · obtain ⟨hmore, hdone⟩ := hpending.accepted hnw
    unfold write_client_loop
    by_cases hleft : 0 < chunk.nw_tmp - nw
    · rw [if_pos hleft]
      exact hkept.of_held ⟨hclient, hmore hleft⟩ rfl rfl fun _ h => by cases h
    · rw [if_neg hleft]
      exact hkept.of_held ⟨hclient, hdone (by omega)⟩ rfl rfl fun _ h => by cases h

/-! ## Whole runs -/

def Control.towardsClient : Control → Bool
  | .write_client _ _ => true
  | _ => false

/-- The answer is not that a write to the client would block. -/
def Calm (s : Child) (answer : Answer) : Prop :=
  ¬(s.control.towardsClient = true ∧ answer = .wrote (.failed .EAGAIN))

theorem answered_kept {cfg : Config} {s s' : Child} {answer : Answer} (hkept : Kept s)
    (hcalm : Calm s answer) (hanswered : answered cfg s answer = .ok s') : Kept s' := by
  have hheld := hkept.held
  unfold Held at hheld
  unfold answered at hanswered
  split at hanswered
  · rename_i events hcontrol
    rw [hcontrol] at hheld
    cases hanswered
    exact hkept.next_event hheld.1 hheld.2 events
  · rename_i events result hcontrol
    exact hkept.read_client hcontrol hanswered
  · rename_i events fd ndelay_on epoll_ctl hcontrol
    cases hanswered
    exact hkept.connected_step hcontrol fd ndelay_on epoll_ctl
  · rename_i wbuf errnum result hcontrol
    rw [hcontrol] at hheld
    cases hanswered
    exact hkept.exit hheld.1.in_order hheld.2.in_order errnum
  · rename_i events chunk result hcontrol
    exact hkept.write_back hcontrol hanswered
  · rename_i events result hcontrol
    exact hkept.read_back hcontrol hanswered
  · rename_i events chunk result hcontrol
    refine hkept.write_client hcontrol (fun hagain => hcalm ⟨?_, by rw [hagain]⟩) hanswered
    rw [hcontrol]
    rfl
  · cases hanswered

/-- The pointer of a pending write is good. -/
theorem answered_pointer {cfg : Config} {s : Child} (hkept : Kept s) (answer : Answer) :
    answered cfg s answer ≠ .error .pointer := by
  have hgood : ∀ chunk, s.control.writing = some chunk → ¬chunk.offset < 0 := by
    intro chunk hwriting
    have hinside := hkept.held.relays.pointer chunk hwriting
    omega
  unfold answered
  split
  case h_1 | h_3 | h_4 | h_8 => nofun
  case h_2 events result hcontrol =>
    unfold read_client
    split
    case h_5 =>
      split
      · nofun
      dsimp only
      split
      · split <;> nofun
      · nofun
    all_goals nofun
  case h_5 events chunk result hcontrol =>
    unfold write_back
    rw [if_neg (hgood chunk (by rw [hcontrol]; rfl))]
    split
    case h_3 => split <;> nofun
    all_goals nofun
  case h_6 events result hcontrol =>
    unfold read_back
    split
    case h_5 =>
      split
      · nofun
      dsimp only
      split <;> nofun
    all_goals nofun
  case h_7 events chunk result hcontrol =>
    unfold write_client
    rw [if_neg (hgood chunk (by rw [hcontrol]; rfl))]
    split
    case h_3 => split <;> nofun
    all_goals nofun

theorem step_kept {cfg : Config} {s s' : Child} {answer : Answer} {u : Unit} (hkept : Kept s)
    (hcalm : Calm s answer) (hstep : step cfg s answer = .ok (s', u)) : Kept s' := by
  obtain ⟨t, hanswered, heq⟩ := bind_eq_ok_iff.mp hstep
  cases heq
  exact answered_kept hkept hcalm hanswered

theorem step_pointer {cfg : Config} {s : Child} (hkept : Kept s) (answer : Answer) :
    step cfg s answer ≠ .error .pointer := by
  intro hfault
  have hgood : answered cfg s answer ≠ .error .pointer := answered_pointer hkept answer
  apply hgood
  unfold step at hfault
  cases hanswered : answered cfg s answer with
  | ok t =>
    rw [hanswered] at hfault
    cases hfault
  | error e =>
    rw [hanswered] at hfault
    rw [show e = .pointer from Except.error.inj hfault]

theorem kept_start : Kept start :=
  ⟨⟨Link.settled_empty, Link.settled_empty⟩, nofun, nofun⟩

/-- In every run in which no write to the client comes back with `EAGAIN`, with
    any other answers in any order, the child relays both streams exactly once
    and never points a write outside what it just read. Writes to the back
    server may block as they like. -/
theorem relays_along_run (cfg : Config) {answers : List Answer}
    (hcalm : Guarded (step cfg) Calm start answers) :
    run (step cfg) start answers ≠ .error .pointer ∧
      ∀ s outs, run (step cfg) start answers = .ok (s, outs) → Relays s := by
  have hstep : ∀ s answer s' u, Kept s → Calm s answer → step cfg s answer = .ok (s', u) → Kept s' :=
    fun _ _ _ _ hkept hanswer hnext => step_kept hkept hanswer hnext
  constructor
  · intro hfault
    obtain ⟨s, answer, hkept, _, hpointer⟩ := run_fault Kept hstep kept_start hcalm hfault
    exact step_pointer hkept answer hpointer
  · intro s outs hrun
    exact (run_keeps Kept hstep kept_start hcalm hrun).held.relays

instance (s : Child) (answer : Answer) : Decidable (Calm s answer) :=
  inferInstanceAs (Decidable (¬(_ ∧ _)))

/-- A back server is configured. -/
def local_back : Config := { cback_ip := [49], cback_port := [50] }

/-- A command that makes the child connect, and its socket then drained. -/
def connecting : List Answer :=
  [.events [{ fd := 2, epollin := true, epollhup := false }], .read (.data [10]), .connected 7 true true,
    .read (.failed .EAGAIN)]

/-- A transfer both ways with short writes and a full socket towards the back
    server. -/
def short_writes : List Answer :=
  connecting ++ [.events [{ fd := 2, epollin := true, epollhup := false }], .read (.data [97, 98, 99]),
    .wrote (.accepted 1), .wrote (.failed .EAGAIN), .wrote (.accepted 2), .read (.failed .EAGAIN),
    .events [{ fd := 7, epollin := true, epollhup := true }], .read (.data [100, 101]),
    .wrote (.accepted 1), .wrote (.accepted 1), .read (.data [])]

/-- A write of two bytes to the client that accepts one and then would block. -/
def blocked_write : List Answer :=
  connecting ++ [.events [{ fd := 7, epollin := true, epollhup := false }], .read (.data [97, 98]),
    .wrote (.accepted 1), .wrote (.failed .EAGAIN), .wrote (.accepted 2)]

theorem relays_along_run_short :
    ∃ s outs, run (step local_back) start short_writes = .ok (s, outs) ∧
      s.back_link.given = [100, 101] ∧ Relays s := by
  obtain ⟨_, hrelays⟩ := relays_along_run local_back
    (by decide +kernel : Guarded (step local_back) Calm start short_writes)
  obtain ⟨s, outs, hrun, hgiven⟩ := run_of_view (fun s : Child => s.back_link.given)
    (by decide +kernel : (run (step local_back) start short_writes).toOption.map
      (fun r => r.1.back_link.given) = some [100, 101])
  exact ⟨s, outs, hrun, hgiven, hrelays s outs hrun⟩

/-- The rest is taken up one byte too early. -/
theorem blocked_write_repeats :
    ∃ s outs, run (step local_back) start blocked_write = .ok (s, outs) ∧
      s.back_link = { taken := [97, 98], given := [97, 97, 98] } ∧ ¬Relays s := by
  obtain ⟨s, outs, hrun, hlink⟩ := run_of_view (fun s : Child => s.back_link)
    (by decide +kernel : (run (step local_back) start blocked_write).toOption.map
      (fun r => r.1.back_link) = some { taken := [97, 98], given := [97, 97, 98] })
  refine ⟨s, outs, hrun, hlink, fun hrelays => ?_⟩
  have horder := hrelays.to_client
  rw [hlink] at horder
  exact absurd horder (by decide)

end code_tools.server_epoll.child
