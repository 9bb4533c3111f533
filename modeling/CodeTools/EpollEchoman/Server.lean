import CodeTools.Lib.Machine
import CodeTools.Lib.Syscall

/-!
# The echo server: `epoll_echoman.c`

The server answers what it reads when the connection can be written to. For that it
registers the connection anew, with an `event` in which `data.fd` is still that of
the connection accepted last.
-/

namespace code_tools.epoll_echoman

open machine syscall

def MAXEVENTS : Nat := 64

inductive Interest where
  | EPOLLIN
  | EPOLLOUT
deriving DecidableEq, Repr

/-- What a descriptor is registered with. -/
structure Registration where
  events : Interest
  data_fd : Nat
deriving DecidableEq, Repr

/-- What `epoll_wait` reports of a descriptor. `broken` is `EPOLLERR` or `EPOLLHUP`. -/
inductive Ready where
  | broken
  | readable
  | writable
deriving DecidableEq, Repr

/-- An entry of `events`. The descriptor that it is about is not part of it in the
    source, which looks at `data_fd` alone. -/
structure Event where
  fd : Nat
  ready : Ready
  data_fd : Nat
deriving DecidableEq, Repr

/-- The system call that the server is in, with the events left for later. -/
inductive Call where
  | epoll_wait
  | accept (later : List Event)
  | read (event : Event) (later : List Event)
  /-- What was read is written to the standard output. -/
  | print (event : Event) (later : List Event)
  | write (event : Event) (later : List Event)
  | close (event : Event) (later : List Event)
  | aborted
deriving DecidableEq, Repr

structure Server where
  sfd : Nat
  /-- `event.data.fd` -/
  event_fd : Nat
  /-- The registrations that the kernel keeps. -/
  registered : Nat → Option Registration
  call : Call

/-- What the kernel answers to a call. -/
inductive Answer where
  | ready (fired : List (Nat × Ready))
  /-- A new connection, and whether it was made non-blocking and registered. -/
  | accepted (infd : Nat) (nonblock added : Bool)
  | not_accepted
  | read (bytes : List UInt8)
  | not_read (errno : Errno)
  | printed (done : Bool)
  /-- What `write` to a connection returns is not looked at. -/
  | written
  | closed
deriving DecidableEq, Repr

/-- What a step does on a connection: the descriptor whose event it handles, and the
    one that it reads from or writes to. -/
structure Transfer where
  about : Nat
  used : Nat
deriving DecidableEq, Repr

/-- The listening socket is registered. -/
def start (sfd : Nat) : Server where
  sfd := sfd
  event_fd := sfd
  registered := Function.update (fun _ => none) sfd (some { events := .EPOLLIN, data_fd := sfd })
  call := .epoll_wait

/-- The next call that the loop over the events makes. -/
def next_call (sfd : Nat) : List Event → Call
  | [] => .epoll_wait
  | event :: later =>
    match event.ready with
    | .broken => .close event later
    | .readable => if sfd = event.data_fd then .accept later else .read event later
    | .writable => if event.data_fd ≠ sfd then .write event later else next_call sfd later

/-- `epoll_ctl` with `EPOLL_CTL_MOD` and the `event` that was filled in for another
    purpose. It fails for a descriptor that is not registered, which is not looked at. -/
def rearm (s : Server) (fd : Nat) (events : Interest) : Server :=
  if (s.registered fd).isSome then
    { s with registered := Function.update s.registered fd (some { events, data_fd := s.event_fd }) }
  else s

/-- The event that is reported, if the registration asks for it. -/
def reported (s : Server) : Nat × Ready → Option Event
  | (fd, ready) =>
    match s.registered fd with
    | none => none
    | some r =>
      if ready = .broken ∨ (ready = .readable ∧ r.events = .EPOLLIN) ∨ (ready = .writable ∧ r.events = .EPOLLOUT) then
        some { fd, ready, data_fd := r.data_fd }
      else none

def step (s : Server) (answer : Answer) : Except Stuck (Server × Option Transfer) :=
  match s.call, answer with
  | .epoll_wait, .ready fired =>
    if fired.length ≤ MAXEVENTS then
      match fired.mapM (reported s) with
      | none => .error .answer
      | some events => .ok ({ s with call := next_call s.sfd events }, none)
    else .error .answer
  | .accept later, .accepted infd nonblock added =>
    if (s.registered infd).isSome then .error .answer
    else if nonblock = false then .ok ({ s with call := .aborted }, none)
    else if added = false then .ok ({ s with event_fd := infd, call := .aborted }, none)
    else
      .ok ({ s with
        event_fd := infd
        registered := Function.update s.registered infd (some { events := .EPOLLIN, data_fd := infd })
        call := .accept later }, none)
  | .accept later, .not_accepted => .ok ({ s with call := next_call s.sfd later }, none)
  | .read event later, .read bytes =>
    let transfer := some { about := event.fd, used := event.data_fd }
    if bytes = [] then .ok ({ s with call := .close event later }, transfer)
    else .ok ({ s with call := .print event later }, transfer)
  | .read event later, .not_read errno =>
    if errno ≠ .EAGAIN then .ok ({ s with call := .close event later }, none)
    else .ok ({ s with call := next_call s.sfd later }, none)
  | .print event later, .printed done =>
    if done then .ok ({ rearm s event.data_fd .EPOLLOUT with call := .read event later }, none)
    else .ok ({ s with call := .aborted }, none)
  | .write event later, .written =>
    .ok ({ rearm s event.data_fd .EPOLLIN with call := next_call s.sfd later },
      some { about := event.fd, used := event.data_fd })
  | .close event later, .closed =>
    .ok ({ s with
      registered := Function.update s.registered event.data_fd none
      call := next_call s.sfd later }, none)
  | _, _ => .error .answer

/-! ## Whose registration it is -/

/-- The events that are being handled or left for later. -/
def Call.events : Call → List Event
  | .epoll_wait => []
  | .accept later => later
  | .read event later => event :: later
  | .print event later => event :: later
  | .write event later => event :: later
  | .close event later => event :: later
  | .aborted => []

/-- The event of a connection that is being handled. -/
def Call.client : Call → Option Event
  | .epoll_wait => none
  | .accept _ => none
  | .read event _ => some event
  | .print event _ => some event
  | .write event _ => some event
  | .close _ _ => none
  | .aborted => none

/-- Every registration, and every event to be handled, carries its own descriptor. -/
structure Own (s : Server) : Prop where
  registered : ∀ fd r, s.registered fd = some r → r.data_fd = fd
  call : ∀ event ∈ s.call.events, event.data_fd = event.fd

/-- A connection that is registered anew is the one accepted last. -/
def RearmsLast (s : Server) : Answer → Prop
  | .printed true => ∀ event later, s.call = .print event later →
      (s.registered event.data_fd).isSome → event.data_fd = s.event_fd
  | .written => ∀ event later, s.call = .write event later →
      (s.registered event.data_fd).isSome → event.data_fd = s.event_fd
  | _ => True

/-- The loop over the events goes on with some of them. -/
theorem next_call_events (sfd : Nat) (events : List Event) : ∀ e ∈ (next_call sfd events).events, e ∈ events := by
  induction events with
  | nil => nofun
  | cons first later ih =>
    intro e he
    rw [next_call] at he
    cases hready : first.ready with
    | broken =>
      rw [hready] at he
      exact he
    | readable =>
      rw [hready] at he
      dsimp only at he
      split at he
      · exact List.mem_cons_of_mem first he
      · exact he
    | writable =>
      rw [hready] at he
      dsimp only at he
      split at he
      · exact he
      · exact List.mem_cons_of_mem first (ih e he)

/-- It never reads from the listening socket or writes to it. -/
theorem next_call_client (sfd : Nat) (events : List Event) :
    ∀ e, (next_call sfd events).client = some e → e.data_fd ≠ sfd := by
  induction events with
  | nil => nofun
  | cons first later ih =>
    intro e he
    rw [next_call] at he
    cases hready : first.ready with
    | broken =>
      rw [hready] at he
      cases he
    | readable =>
      rw [hready] at he
      dsimp only at he
      split at he
      · cases he
      · next hne =>
        obtain rfl := Option.some.inj he
        exact Ne.symm hne
    | writable =>
      rw [hready] at he
      dsimp only at he
      split at he
      · next hne =>
        obtain rfl := Option.some.inj he
        exact hne
      · exact ih e he

theorem reported_of_mem {s : Server} {fired : List (Nat × Ready)} {events : List Event}
    (hreported : fired.mapM (reported s) = some events) : ∀ e ∈ events, ∃ x, reported s x = some e := by
  induction fired generalizing events with
  | nil =>
    obtain rfl := Option.some.inj hreported
    nofun
  | cons x fired ih =>
    rw [List.mapM_cons] at hreported
    obtain ⟨first, hfirst, hreported⟩ := Option.bind_eq_some_iff.mp hreported
    obtain ⟨later, hlater, hreported⟩ := Option.bind_eq_some_iff.mp hreported
    obtain rfl := Option.some.inj hreported
    intro e he
    rcases List.mem_cons.mp he with rfl | he
    · exact ⟨x, hfirst⟩
    · exact ih hlater e he

/-- What a step comes to. -/
inductive Did (s : Server) : Answer → Server → Prop
  /-- The registrations stay, and events that are handled were left for later or are
      reported now. -/
  | went_on {answer : Answer} {c : Call}
      (hevents : ∀ e ∈ c.events, e ∈ s.call.events ∨ ∃ x, reported s x = some e)
      (hclient : ∀ e, c.client = some e → s.call.client = some e ∨ e.data_fd ≠ s.sfd)
      (hnothing : RearmsLast s answer) : Did s answer { s with call := c }
  | gave_up {infd : Nat} : Did s (.accepted infd true false) { s with event_fd := infd, call := .aborted }
  | accepted {infd : Nat} {later : List Event} (hcall : s.call = .accept later) :
      Did s (.accepted infd true true) { s with
        event_fd := infd
        registered := Function.update s.registered infd (some { events := .EPOLLIN, data_fd := infd })
        call := .accept later }
  | rearmed {answer : Answer} {event : Event} {events : Interest} {c : Call} (hclient : s.call.client = some event)
      (hevents : ∀ e ∈ c.events, e ∈ s.call.events)
      (hnext : ∀ e, c.client = some e → e = event ∨ e.data_fd ≠ s.sfd)
      (hlast : RearmsLast s answer ↔ ((s.registered event.data_fd).isSome → event.data_fd = s.event_fd)) :
      Did s answer { rearm s event.data_fd events with call := c }
  | closed {event : Event} {later : List Event} (hcall : s.call = .close event later) :
      Did s .closed { s with
        registered := Function.update s.registered event.data_fd none
        call := next_call s.sfd later }

/-- A connection that is not handled any more leaves the events that come after it. -/
theorem Did.next {s : Server} {answer : Answer} {event : Event} {later : List Event}
    (hevents : s.call.events = event :: later) (hnothing : RearmsLast s answer) :
    Did s answer { s with call := next_call s.sfd later } := by
  refine .went_on (fun e he => Or.inl ?_) (fun e he => Or.inr (next_call_client s.sfd later e he)) hnothing
  rw [hevents]
  exact List.mem_cons_of_mem event (next_call_events s.sfd later e he)

theorem step_did {s s' : Server} {answer : Answer} {out : Option Transfer} (hstep : step s answer = .ok (s', out)) :
    Did s answer s' ∧ ∀ transfer, out = some transfer →
      ∃ event ∈ s.call.events, transfer = { about := event.fd, used := event.data_fd } := by
  unfold step at hstep
  split at hstep
  · next fired hcall =>
    split at hstep
    · split at hstep
      · cases hstep
      · next events hreported =>
        cases hstep
        exact ⟨.went_on (fun e he => Or.inr (reported_of_mem hreported e (next_call_events s.sfd events e he)))
          (fun e he => Or.inr (next_call_client s.sfd events e he)) trivial, nofun⟩
    · cases hstep
  · next later infd nonblock added hcall =>
    split at hstep
    · cases hstep
    · split at hstep
      · cases hstep
        exact ⟨.went_on nofun nofun trivial, nofun⟩
      · next hnonblock =>
        obtain rfl := eq_true_of_ne_false hnonblock
        split at hstep
        · next hadded =>
          obtain rfl := hadded
          cases hstep
          exact ⟨.gave_up, nofun⟩
        · next hadded =>
          obtain rfl := eq_true_of_ne_false hadded
          cases hstep
          exact ⟨.accepted hcall, nofun⟩
  · next later hcall =>
    cases hstep
    refine ⟨.went_on (fun e he => Or.inl ?_) (fun e he => Or.inr (next_call_client s.sfd later e he)) trivial, nofun⟩
    rw [hcall]
    exact next_call_events s.sfd later e he
  · next event later bytes hcall =>
    have hevents : s.call.events = event :: later := by rw [hcall]; rfl
    have htransfer : ∀ transfer, some ({ about := event.fd, used := event.data_fd } : Transfer) = some transfer →
        ∃ event ∈ s.call.events, transfer = { about := event.fd, used := event.data_fd } := by
      rintro _ ⟨⟩
      exact ⟨event, by rw [hevents]; exact List.mem_cons_self, rfl⟩
    dsimp only at hstep
    split at hstep
    · cases hstep
      exact ⟨.went_on (fun e he => Or.inl (by rw [hevents]; exact he)) nofun trivial, htransfer⟩
    · cases hstep
      exact ⟨.went_on (fun e he => Or.inl (by rw [hevents]; exact he)) (fun e he => Or.inl (by rw [hcall]; exact he))
        trivial, htransfer⟩
  · next event later errno hcall =>
    have hevents : s.call.events = event :: later := by rw [hcall]; rfl
    split at hstep
    · cases hstep
      exact ⟨.went_on (fun e he => Or.inl (by rw [hevents]; exact he)) nofun trivial, nofun⟩
    · cases hstep
      exact ⟨.next hevents trivial, nofun⟩
  · next event later done hcall =>
    have hevents : s.call.events = event :: later := by rw [hcall]; rfl
    cases done with
    | false =>
      cases hstep
      exact ⟨.went_on nofun nofun trivial, nofun⟩
    | true =>
      cases hstep
      refine ⟨.rearmed (by rw [hcall]; rfl) (fun e he => by rw [hevents]; exact he)
        (fun e he => Or.inl (Option.some.inj he).symm) ⟨fun hlast => hlast event later hcall, ?_⟩, nofun⟩
      intro hlast event' later' hcall'
      rw [hcall] at hcall'
      cases hcall'
      exact hlast
  · next event later hcall =>
    have hevents : s.call.events = event :: later := by rw [hcall]; rfl
    cases hstep
    refine ⟨.rearmed (by rw [hcall]; rfl) (fun e he => ?_) (fun e he => Or.inr (next_call_client s.sfd later e he))
      ⟨fun hlast => hlast event later hcall, ?_⟩, ?_⟩
    · rw [hevents]
      exact List.mem_cons_of_mem event (next_call_events s.sfd later e he)
    · intro hlast event' later' hcall'
      rw [hcall] at hcall'
      cases hcall'
      exact hlast
    · rintro _ ⟨⟩
      exact ⟨event, by rw [hevents]; exact List.mem_cons_self, rfl⟩
  · next event later hcall =>
    cases hstep
    exact ⟨.closed hcall, nofun⟩
  · cases hstep

/-! ## Own registrations -/

/-- A new registration leaves all of them as they should be exactly if it is that of
    the connection accepted last. -/
theorem own_rearm_iff {s : Server} (hown : Own s) (fd : Nat) (events : Interest) :
    (∀ fd' r, (rearm s fd events).registered fd' = some r → r.data_fd = fd') ↔
      ((s.registered fd).isSome → fd = s.event_fd) := by
  unfold rearm
  by_cases hsome : (s.registered fd).isSome
  · rw [if_pos hsome]
    constructor
    · intro hall _
      exact (hall fd _ (Function.update_self _ _ _)).symm
    · intro hlast fd' r hr
      dsimp only at hr
      by_cases hfd : fd' = fd
      · rw [hfd, Function.update_self] at hr
        cases hr
        rw [hfd, hlast hsome]
      · rw [Function.update_of_ne hfd] at hr
        exact hown.registered fd' r hr
  · rw [if_neg hsome]
    exact iff_of_true hown.registered fun h => absurd h hsome

theorem reported_data_fd {s : Server} (hown : Own s) {x : Nat × Ready} {e : Event}
    (hreported : reported s x = some e) : e.data_fd = e.fd := by
  obtain ⟨fd, ready⟩ := x
  unfold reported at hreported
  dsimp only at hreported
  cases hr : s.registered fd with
  | none =>
    rw [hr] at hreported
    cases hreported
  | some r =>
    rw [hr] at hreported
    obtain ⟨_, heq⟩ := Option.ite_none_right_eq_some.mp hreported
    obtain rfl := Option.some.inj heq
    exact hown.registered fd r hr

/-- One step: the registrations stay as they should be exactly if a connection that is
    registered anew is the one accepted last. -/
theorem step_own_iff {s s' : Server} {answer : Answer} {out : Option Transfer} (hown : Own s)
    (hstep : step s answer = .ok (s', out)) : Own s' ↔ RearmsLast s answer := by
  obtain ⟨hdid, _⟩ := step_did hstep
  cases hdid with
  | went_on hevents _ hnothing =>
    refine iff_of_true ⟨hown.registered, fun e he => ?_⟩ hnothing
    rcases hevents e he with hlater | ⟨x, hx⟩
    · exact hown.call e hlater
    · exact reported_data_fd hown hx
  | gave_up => exact iff_of_true ⟨hown.registered, nofun⟩ trivial
  | @accepted infd later hcall =>
    refine iff_of_true ⟨fun fd r hr => ?_, fun e he => hown.call e (by rw [hcall]; exact he)⟩ trivial
    dsimp only at hr
    by_cases hfd : fd = infd
    · rw [hfd, Function.update_self] at hr
      cases hr
      exact hfd.symm
    · rw [Function.update_of_ne hfd] at hr
      exact hown.registered fd r hr
  | @rearmed _ event events _ _ hevents _ hlast =>
    rw [hlast, ← own_rearm_iff hown event.data_fd events]
    exact ⟨Own.registered, fun hall => ⟨hall, fun e he => hown.call e (hevents e he)⟩⟩
  | @closed event later hcall =>
    refine iff_of_true ⟨fun fd r hr => ?_, fun e he => ?_⟩ trivial
    · dsimp only at hr
      by_cases hfd : fd = event.data_fd
      · rw [hfd, Function.update_self] at hr
        cases hr
      · rw [Function.update_of_ne hfd] at hr
        exact hown.registered fd r hr
    · refine hown.call e ?_
      rw [hcall]
      exact List.mem_cons_of_mem event (next_call_events s.sfd later e he)

/-! ## One connection at a time -/

/-- A connection is accepted when there is no other. -/
def Alone (s : Server) : Answer → Prop
  | .accepted _ _ _ => ∀ fd, (s.registered fd).isSome → fd = s.sfd
  | _ => True

/-- The connection accepted last is the only one. -/
structure Single (s : Server) : Prop where
  registered : ∀ fd, (s.registered fd).isSome → fd = s.sfd ∨ fd = s.event_fd
  client : ∀ e, s.call.client = some e → e.data_fd ≠ s.sfd

theorem Single.rearmsLast {s : Server} (hsingle : Single s) (answer : Answer) : RearmsLast s answer := by
  have hlast : ∀ event, s.call.client = some event → (s.registered event.data_fd).isSome →
      event.data_fd = s.event_fd :=
    fun event hclient hsome => (hsingle.registered _ hsome).resolve_left (hsingle.client event hclient)
  cases answer with
  | printed done =>
    cases done with
    | false => trivial
    | true => exact fun event later hcall => hlast event (by rw [hcall]; rfl)
  | written => exact fun event later hcall => hlast event (by rw [hcall]; rfl)
  | ready fired => trivial
  | accepted infd nonblock added => trivial
  | not_accepted => trivial
  | read bytes => trivial
  | not_read errno => trivial
  | closed => trivial

theorem rearm_eq (s : Server) (fd : Nat) (events : Interest) :
    (rearm s fd events).sfd = s.sfd ∧ (rearm s fd events).event_fd = s.event_fd ∧
      ∀ fd', ((rearm s fd events).registered fd').isSome = (s.registered fd').isSome := by
  unfold rearm
  by_cases hsome : (s.registered fd).isSome
  · rw [if_pos hsome]
    refine ⟨rfl, rfl, fun fd' => ?_⟩
    dsimp only
    by_cases hfd : fd' = fd
    · rw [hfd, Function.update_self, hsome, Option.isSome_some]
    · rw [Function.update_of_ne hfd]
  · rw [if_neg hsome]
    exact ⟨rfl, rfl, fun _ => rfl⟩

theorem step_single {s s' : Server} {answer : Answer} {out : Option Transfer} (hsingle : Single s)
    (halone : Alone s answer) (hstep : step s answer = .ok (s', out)) : Single s' := by
  obtain ⟨hdid, _⟩ := step_did hstep
  cases hdid with
  | went_on _ hclient _ =>
    refine ⟨hsingle.registered, fun e he => ?_⟩
    rcases hclient e he with hold | hne
    · exact hsingle.client e hold
    · exact hne
  | gave_up => exact ⟨fun fd hsome => Or.inl (halone fd hsome), nofun⟩
  | @accepted infd later hcall =>
    refine ⟨fun fd hsome => ?_, nofun⟩
    dsimp only at hsome
    by_cases hfd : fd = infd
    · exact Or.inr hfd
    · rw [Function.update_of_ne hfd] at hsome
      exact Or.inl (halone fd hsome)
  | @rearmed _ event events c hclient _ hnext _ =>
    obtain ⟨hsfd, hlast, hsame⟩ := rearm_eq s event.data_fd events
    refine ⟨fun fd hsome => ?_, fun e he => ?_⟩
    · dsimp only at hsome
      rw [hsame] at hsome
      show fd = (rearm s event.data_fd events).sfd ∨ fd = (rearm s event.data_fd events).event_fd
      rw [hsfd, hlast]
      exact hsingle.registered fd hsome
    · show e.data_fd ≠ (rearm s event.data_fd events).sfd
      rw [hsfd]
      rcases hnext e he with rfl | hne
      · exact hsingle.client e hclient
      · exact hne
  | @closed event later hcall =>
    refine ⟨fun fd hsome => ?_, next_call_client s.sfd later⟩
    dsimp only at hsome
    by_cases hfd : fd = event.data_fd
    · rw [hfd, Function.update_self] at hsome
      cases hsome
    · rw [Function.update_of_ne hfd] at hsome
      exact hsingle.registered fd hsome

/-! ## Runs -/

theorem registered_start {sfd fd : Nat} {r : Registration} (hr : (start sfd).registered fd = some r) :
    fd = sfd ∧ r.data_fd = sfd := by
  unfold start at hr
  dsimp only at hr
  by_cases hfd : fd = sfd
  · rw [hfd, Function.update_self] at hr
    cases hr
    exact ⟨hfd, rfl⟩
  · rw [Function.update_of_ne hfd] at hr
    cases hr

theorem own_start (sfd : Nat) : Own (start sfd) := by
  refine ⟨fun fd r hr => ?_, nofun⟩
  obtain ⟨rfl, hdata⟩ := registered_start hr
  exact hdata

theorem single_start (sfd : Nat) : Single (start sfd) := by
  refine ⟨fun fd hsome => ?_, nofun⟩
  obtain ⟨r, hr⟩ := Option.isSome_iff_exists.mp hsome
  exact Or.inl (registered_start hr).1

/-- In every run, all registrations carry their own descriptors all along exactly if no
    connection but the one accepted last is ever registered anew. Then the server reads
    from the connection that an event is about and answers on it. So it does where
    connections are accepted one at a time. -/
theorem echo_own_iff {sfd : Nat} {answers : List Answer} {s : Server} {outs : List (Option Transfer)}
    (hrun : run step (start sfd) answers = .ok (s, outs)) :
    (Guarded step RearmsLast (start sfd) answers ↔
        ∀ js, js <+: answers → ∀ t os, run step (start sfd) js = .ok (t, os) → Own t) ∧
      (Guarded step RearmsLast (start sfd) answers →
        ∀ transfer, some transfer ∈ outs → transfer.used = transfer.about) ∧
      (Guarded step Alone (start sfd) answers → Guarded step RearmsLast (start sfd) answers) := by
  refine ⟨run_guarded_iff Own (fun s i s' o => step_own_iff) (own_start sfd) hrun, fun hguarded => ?_, ?_⟩
  · have hemits : ∀ o ∈ outs, ∀ transfer, o = some transfer → transfer.used = transfer.about := by
      refine run_emits Own _ (fun s i s' o hown hlast hstep => ?_) (own_start sfd) hguarded hrun
      refine ⟨(step_own_iff hown hstep).mpr hlast, fun transfer htransfer => ?_⟩
      obtain ⟨event, hevent, rfl⟩ := (step_did hstep).2 transfer htransfer
      exact hown.call event hevent
    exact fun transfer hmem => hemits _ hmem transfer rfl
  · exact Guarded.imp Single (fun s i s' o => step_single) (fun s i hsingle _ => hsingle.rearmsLast i)
      (single_start sfd)

/-- Two connections are accepted, and then the first sends a byte: its registration is
    that of the second. -/
theorem echo_own_iff_two :
    ∃ s outs, run step (start 3) [.ready [(3, .readable)], .accepted 5 true true, .accepted 6 true true, .not_accepted,
        .ready [(5, .readable)], .read [104], .printed true] = .ok (s, outs) ∧
      s.registered 5 = some { events := .EPOLLOUT, data_fd := 6 } ∧
      ¬Guarded step RearmsLast (start 3) [.ready [(3, .readable)], .accepted 5 true true, .accepted 6 true true,
        .not_accepted, .ready [(5, .readable)], .read [104], .printed true] := by
  obtain ⟨s, outs, hrun, hview⟩ := run_of_view (fun s : Server => s.registered 5)
    (by decide +kernel : (run step (start 3) [.ready [(3, .readable)], .accepted 5 true true, .accepted 6 true true,
      .not_accepted, .ready [(5, .readable)], .read [104], .printed true]).toOption.map (fun r => r.1.registered 5) =
        some (some { events := .EPOLLOUT, data_fd := 6 }))
  refine ⟨s, outs, hrun, hview, fun hguarded => ?_⟩
  have hown : Own s := (echo_own_iff hrun).1.mp hguarded _ (List.prefix_refl _) s outs hrun
  have hfive := hown.registered 5 _ hview
  cases hfive

end code_tools.epoll_echoman
