import CodeTools.ServerEpoll.Ownership

/-!
# The listening socket and its edges

The socket is registered with `EPOLLET`: `epoll_wait` reports arrivals, and any
number of them once. The parent accepts one connection for each report, so a
connection whose edge was already raised stays behind.
-/

namespace code_tools.server_epoll.listening

open cmem descriptor machine syscall
open server (Server Event Answers AcceptResult Creation accept_loop)

structure Peer where
  ip : List UInt8
  port : List UInt8
deriving DecidableEq, Repr

/-- The parent beside its listening socket. -/
structure Listening where
  server : Server
  /-- The connections that wait to be accepted. -/
  queue : List Peer
  /-- There was an arrival that `epoll_wait` has not reported. -/
  edge : Bool
  /-- What `accept` failed with in the loop that goes on. -/
  failures : List Errno
deriving DecidableEq, Repr

inductive Command where
  | arrive (peer : Peer)
  | epoll_wait (events : List Event)
  | accept (result : AcceptResult) (scid : List UInt8) (creation : Creation)
  /-- Anything but the listening socket. -/
  | event (answers : Answers)
deriving DecidableEq, Repr

def listen_event (s : Server) : Event :=
  { fd := s.listen_fd, epollerr := false, epollin := true, epollhup := false }

/-- The loop calls `accept` again. -/
def again (accept_times : Nat) (errno : Errno) : Bool :=
  (errno = .EAGAIN || errno = .EINTR || errno = .EPROTO) && accept_times + 1 ≤ 5

/-- The loop ends with this result of `accept`. -/
def accept_ends (w : Listening) (result : AcceptResult) (scid : List UInt8) (creation : Creation)
    (queue : List Peer) : Except Stuck (Listening × Unit) := do
  let accepts := w.failures.map AcceptResult.failed ++ [result]
  let (s, _) ← server.step w.server (.event { scid := scid, accepts := accepts, creation := creation, reads := [] })
  .ok ({ w with server := s, queue := queue, failures := [] }, ())

/-- `accept` takes the first connection; `EAGAIN` says that there is none. -/
def accept (w : Listening) (result : AcceptResult) (scid : List UInt8) (creation : Creation) :
    Except Stuck (Listening × Unit) :=
  match result, w.queue with
  | .connection _ _, [] => .error .answer
  | .connection ip port, peer :: queue =>
    if peer = { ip := ip, port := port } then accept_ends w result scid creation queue else .error .answer
  | .failed errno, queue =>
    if errno = .EAGAIN ∧ queue ≠ [] then .error .answer
    else if again w.failures.length errno then .ok ({ w with failures := w.failures ++ [errno] }, ())
    else accept_ends w result scid creation queue

/-- The next event to be handled is that of the listening socket. -/
def accepting (s : Server) : Bool := s.epoll_evts.head?.any (·.fd = s.listen_fd)

def step (w : Listening) : Command → Except Stuck (Listening × Unit)
  | .arrive peer => .ok ({ w with queue := w.queue ++ [peer], edge := true }, ())
  | .epoll_wait events =>
    if ∀ evt ∈ events, evt.fd = w.server.listen_fd → w.edge = true ∧ evt = listen_event w.server then do
      let (s, _) ← server.step w.server (.epoll_wait events)
      .ok ({ w with server := s, edge := w.edge && w.server.listen_fd ∉ events.map Event.fd }, ())
    else .error .answer
  | .accept result scid creation =>
    if accepting w.server then accept w result scid creation else .error .answer
  | .event answers =>
    if accepting w.server then .error .answer
    else do
      let (s, _) ← server.step w.server (.event answers)
      .ok ({ w with server := s }, ())

def start (max_connect : Nat) (files : Table server.File) (listen_fd : Nat) : Listening :=
  { server := server.start max_connect files listen_fd, queue := [], edge := false, failures := [] }

/-- The next thing is `epoll_wait`, and it has no arrival to report. -/
def Blocking (w : Listening) : Prop := w.server.epoll_evts = [] ∧ w.edge = false

instance (w : Listening) : Decidable (Blocking w) :=
  inferInstanceAs (Decidable (w.server.epoll_evts = [] ∧ w.edge = false))

/-- The condition on a step: no arrival where an edge is raised already, and no
    accept loop that ends with an error. -/
def Alone (w : Listening) : Command → Prop
  | .arrive _ => w.edge = false
  | .accept (.failed errno) _ _ => again w.failures.length errno = true
  | _ => True

instance (w : Listening) : ∀ command, Decidable (Alone w command)
  | .arrive _ => inferInstanceAs (Decidable (w.edge = false))
  | .accept (.failed errno) _ _ => inferInstanceAs (Decidable (again w.failures.length errno = true))
  | .accept (.connection _ _) _ _ => inferInstanceAs (Decidable True)
  | .epoll_wait _ => inferInstanceAs (Decidable True)
  | .event _ => inferInstanceAs (Decidable True)

/-! ## What is owed to the queue -/

/-- The edge, and a report of one that is to be handled, each stand for a connection. -/
def owed (w : Listening) : Nat :=
  w.edge.toNat + (w.server.epoll_evts.map Event.fd).count w.server.listen_fd

/-- `n` connections wait for which nothing stands. -/
def Behind (w : Listening) (n : Nat) : Prop := w.queue.length = owed w + n

variable {w w' : Listening} {n : Nat}

theorem accepting_iff {s : Server} {evt : Event} {evts : List Event} (hevts : s.epoll_evts = evt :: evts) :
    accepting s = true ↔ evt.fd = s.listen_fd := by
  unfold accepting
  rw [hevts]
  simp

theorem owed_of_accepting (hedge : w'.edge = w.edge) {evt : Event}
    (hevts : w.server.epoll_evts = evt :: w'.server.epoll_evts)
    (hlisten : w'.server.listen_fd = w.server.listen_fd) (haccepting : accepting w.server = true) :
    owed w = owed w' + 1 := by
  unfold owed
  rw [hevts, hlisten, hedge, List.map_cons, (accepting_iff hevts).mp haccepting, List.count_cons_self]
  omega

theorem owed_of_not_accepting (hedge : w'.edge = w.edge) {evt : Event}
    (hevts : w.server.epoll_evts = evt :: w'.server.epoll_evts)
    (hlisten : w'.server.listen_fd = w.server.listen_fd) (haccepting : ¬accepting w.server = true) :
    owed w = owed w' := by
  have hne : evt.fd ≠ w.server.listen_fd := fun heq => haccepting ((accepting_iff hevts).mpr heq)
  unfold owed
  rw [hevts, hlisten, hedge, List.map_cons, List.count_cons_of_ne hne]

/-- A report of the edge takes its place. -/
theorem owed_of_epoll_wait {events : List Event} (hnone : w.server.epoll_evts = [])
    (hnodup : (events.map Event.fd).Nodup)
    (hreported : w.server.listen_fd ∈ events.map Event.fd → w.edge = true)
    (hedge : w'.edge = (w.edge && w.server.listen_fd ∉ events.map Event.fd))
    (hevts : w'.server.epoll_evts = events) (hlisten : w'.server.listen_fd = w.server.listen_fd) :
    owed w = owed w' := by
  unfold owed
  rw [hnone, hevts, hlisten, hedge, hnodup.count]
  by_cases hmem : w.server.listen_fd ∈ events.map Event.fd
  · rw [if_pos hmem, hreported hmem]
    simp [hmem]
  · rw [if_neg hmem]
    simp [hmem]

theorem accept_ends_spec {result : AcceptResult} {scid : List UInt8} {creation : Creation} {queue : List Peer}
    {u : Unit} (hends : accept_ends w result scid creation queue = .ok (w', u)) :
    (∃ evt, w.server.epoll_evts = evt :: w'.server.epoll_evts) ∧
      w'.server.listen_fd = w.server.listen_fd ∧ w'.queue = queue ∧ w'.edge = w.edge := by
  unfold accept_ends at hends
  obtain ⟨⟨s, v⟩, hstep, hdone⟩ := bind_eq_ok_iff.mp hends
  cases hdone
  obtain ⟨evt, hevts, hlisten⟩ := server.event_frame hstep
  exact ⟨⟨evt, hevts⟩, hlisten, rfl, rfl⟩

theorem accept_cases {result : AcceptResult} {scid : List UInt8} {creation : Creation} {u : Unit}
    (haccept : accept w result scid creation = .ok (w', u)) :
    (∃ ip port queue, result = .connection ip port ∧ w.queue = { ip := ip, port := port } :: queue ∧
      accept_ends w result scid creation queue = .ok (w', u)) ∨
    ∃ errno, result = .failed errno ∧ (errno = .EAGAIN → w.queue = []) ∧
      (again w.failures.length errno = true ∧ w' = { w with failures := w.failures ++ [errno] } ∨
        again w.failures.length errno = false ∧ accept_ends w result scid creation w.queue = .ok (w', u)) := by
  unfold accept at haccept
  cases result with
  | connection ip port =>
    left
    cases hqueue : w.queue with
    | nil =>
      rw [hqueue] at haccept
      cases haccept
    | cons peer queue =>
      rw [hqueue] at haccept
      dsimp only at haccept
      split at haccept
      · next hpeer => exact ⟨ip, port, queue, rfl, by rw [hpeer], haccept⟩
      · cases haccept
  | failed errno =>
    right
    dsimp only at haccept
    split at haccept
    · cases haccept
    · next hallowed =>
      refine ⟨errno, rfl, fun heagain => ?_, ?_⟩
      · by_contra hqueue
        exact hallowed ⟨heagain, hqueue⟩
      · split at haccept
        · next hagain =>
          cases haccept
          exact Or.inl ⟨hagain, rfl⟩
        · next hagain => exact Or.inr ⟨Bool.not_eq_true _ ▸ hagain, haccept⟩

/-- Each arrival without an edge of its own, and each report that takes no
    connection, leaves one more behind. -/
theorem step_behind {command : Command} {u : Unit} (hbehind : Behind w n) (hstep : step w command = .ok (w', u)) :
    (Alone w command → Behind w' n) ∧ (¬Alone w command → Behind w' (n + 1)) := by
  unfold Behind at hbehind ⊢
  cases command with
  | arrive peer =>
    cases hstep
    cases hedge : w.edge with
    | true =>
      refine ⟨fun halone => absurd (hedge.symm.trans halone) (by decide), fun _ => ?_⟩
      simp only [owed, hedge, List.length_append, List.length_singleton, Bool.toNat_true] at hbehind ⊢
      omega
    | false =>
      refine ⟨fun _ => ?_, fun halone => absurd hedge halone⟩
      simp only [owed, hedge, List.length_append, List.length_singleton, Bool.toNat_true, Bool.toNat_false]
        at hbehind ⊢
      omega
  | epoll_wait events =>
    refine ⟨fun _ => ?_, fun halone => absurd trivial halone⟩
    simp only [step] at hstep
    split at hstep
    · next hreported =>
      obtain ⟨⟨s, v⟩, hwait, hdone⟩ := bind_eq_ok_iff.mp hstep
      cases hdone
      obtain ⟨hnone, hnodup, rfl⟩ := server.epoll_wait_frame hwait
      rw [hbehind]
      refine congrArg (· + n) (owed_of_epoll_wait hnone hnodup ?_ rfl rfl rfl)
      intro hmem
      obtain ⟨evt, hevt, hfd⟩ := List.mem_map.mp hmem
      exact (hreported evt hevt hfd).1
    · cases hstep
  | accept result scid creation =>
    simp only [step] at hstep
    split at hstep
    · next haccepting =>
      rcases accept_cases hstep with ⟨ip, port, queue, rfl, hqueue, hends⟩ |
        ⟨errno, rfl, heagain, ⟨hagain, rfl⟩ | ⟨hagain, hends⟩⟩
      · obtain ⟨⟨evt, hevts⟩, hlisten, hrest, hedge⟩ := accept_ends_spec hends
        have howed := owed_of_accepting hedge hevts hlisten haccepting
        refine ⟨fun _ => ?_, fun halone => absurd trivial halone⟩
        rw [hqueue, howed, List.length_cons] at hbehind
        rw [hrest]
        omega
      · exact ⟨fun _ => hbehind, fun halone => absurd hagain halone⟩
      · obtain ⟨⟨evt, hevts⟩, hlisten, hrest, hedge⟩ := accept_ends_spec hends
        have howed := owed_of_accepting hedge hevts hlisten haccepting
        refine ⟨fun halone => absurd (hagain.symm.trans halone) (by decide), fun _ => ?_⟩
        rw [howed] at hbehind
        rw [hrest]
        omega
    · cases hstep
  | event answers =>
    refine ⟨fun _ => ?_, fun halone => absurd trivial halone⟩
    simp only [step] at hstep
    split at hstep
    · cases hstep
    · next haccepting =>
      obtain ⟨⟨s, v⟩, hevent, hdone⟩ := bind_eq_ok_iff.mp hstep
      cases hdone
      obtain ⟨evt, hevts, hlisten⟩ := server.event_frame hevent
      rw [hbehind]
      exact congrArg (· + n) (owed_of_not_accepting rfl hevts hlisten haccepting)

/-! ## The calls of one loop -/

/-- The loop goes on after each of its failures. -/
def Retried (failures : List Errno) : Prop :=
  ∀ (i : Nat) errno, failures[i]? = some errno → again i errno = true

theorem accept_loop_again {s : Server} {answers : Answers} {accept_times : Nat} {errno : Errno}
    (hagain : again accept_times errno = true) (accepts : List AcceptResult) :
    accept_loop s answers accept_times (.failed errno :: accepts) =
      accept_loop s answers (accept_times + 1) accepts := by
  obtain ⟨hretry, htimes⟩ := by simpa [again, or_assoc] using hagain
  conv_lhs => unfold accept_loop
  rw [if_pos hretry, if_neg (by omega)]

/-- What the loop makes of the failures that were collected for it. -/
theorem accept_loop_failures {s : Server} {answers : Answers} {accept_times : Nat} {failures : List Errno}
    (hretried : ∀ (i : Nat) errno, failures[i]? = some errno → again (accept_times + i) errno = true)
    (accepts : List AcceptResult) :
    accept_loop s answers accept_times (failures.map AcceptResult.failed ++ accepts) =
      accept_loop s answers (accept_times + failures.length) accepts := by
  induction failures generalizing accept_times with
  | nil => rfl
  | cons errno failures ih =>
    have hagain : again accept_times errno = true := hretried 0 errno rfl
    rw [List.map_cons, List.cons_append, accept_loop_again hagain, ih, List.length_cons]
    · congr 1
      omega
    · intro i errno' hi
      have hlater := hretried (i + 1) errno' (by simpa using hi)
      rwa [show accept_times + (i + 1) = accept_times + 1 + i by omega] at hlater

/-- The loop in progress goes on, and what is reported of the socket is an arrival. -/
structure Orderly (w : Listening) : Prop where
  retried : Retried w.failures
  reports : ∀ evt ∈ w.server.epoll_evts, evt.fd = w.server.listen_fd → evt = listen_event w.server

theorem Retried.concat {failures : List Errno} {errno : Errno} (hretried : Retried failures)
    (hagain : again failures.length errno = true) : Retried (failures ++ [errno]) := by
  intro i errno' hi
  rcases Nat.lt_or_ge i failures.length with hlt | hge
  · rw [List.getElem?_append_left hlt] at hi
    exact hretried i errno' hi
  · rw [List.getElem?_append_right hge] at hi
    obtain ⟨hlt, rfl⟩ := List.getElem?_eq_some_iff.mp hi
    have hlast : i = failures.length := by
      rw [List.length_singleton] at hlt
      omega
    subst hlast
    simpa using hagain

/-- Events that are left over are still what was reported. -/
theorem Orderly.rest {evt : Event} (horderly : Orderly w) (hevts : w.server.epoll_evts = evt :: w'.server.epoll_evts)
    (hlisten : w'.server.listen_fd = w.server.listen_fd) :
    ∀ other ∈ w'.server.epoll_evts, other.fd = w'.server.listen_fd → other = listen_event w'.server := by
  intro other hother hfd
  rw [hlisten] at hfd
  rw [horderly.reports other (by rw [hevts]; exact List.mem_cons_of_mem evt hother) hfd]
  unfold listen_event
  rw [hlisten]

theorem accept_ends_orderly {result : AcceptResult} {scid : List UInt8} {creation : Creation} {queue : List Peer}
    {u : Unit} (horderly : Orderly w) (hends : accept_ends w result scid creation queue = .ok (w', u)) :
    Orderly w' := by
  obtain ⟨⟨evt, hevts⟩, hlisten, _, _⟩ := accept_ends_spec hends
  refine ⟨?_, horderly.rest hevts hlisten⟩
  unfold accept_ends at hends
  obtain ⟨_, _, hdone⟩ := bind_eq_ok_iff.mp hends
  cases hdone
  exact nofun

theorem step_orderly {command : Command} {u : Unit} (horderly : Orderly w)
    (hstep : step w command = .ok (w', u)) : Orderly w' := by
  cases command with
  | arrive peer =>
    cases hstep
    exact ⟨horderly.retried, horderly.reports⟩
  | epoll_wait events =>
    simp only [step] at hstep
    split at hstep
    · next hreported =>
      obtain ⟨⟨s, v⟩, hwait, hdone⟩ := bind_eq_ok_iff.mp hstep
      cases hdone
      obtain ⟨_, _, rfl⟩ := server.epoll_wait_frame hwait
      exact ⟨horderly.retried, fun evt hevt hfd => (hreported evt hevt hfd).2⟩
    · cases hstep
  | accept result scid creation =>
    simp only [step] at hstep
    split at hstep
    · rcases accept_cases hstep with ⟨_, _, _, _, _, hends⟩ | ⟨errno, rfl, _, ⟨hagain, rfl⟩ | ⟨_, hends⟩⟩
      · exact accept_ends_orderly horderly hends
      · exact ⟨horderly.retried.concat hagain, horderly.reports⟩
      · exact accept_ends_orderly horderly hends
    · cases hstep
  | event answers =>
    simp only [step] at hstep
    split at hstep
    · cases hstep
    · obtain ⟨⟨s, v⟩, hevent, hdone⟩ := bind_eq_ok_iff.mp hstep
      cases hdone
      obtain ⟨evt, hevts, hlisten⟩ := server.event_frame hevent
      exact ⟨horderly.retried, horderly.rest hevts hlisten⟩

theorem handle_listen_event {s s₀ : Server} {answers : Answers} (hlisten : s₀.listen_fd = s.listen_fd) :
    server.handle_event s (listen_event s₀) answers =
      (accept_loop { s with sigchld_blocked := true } answers 0 answers.accepts >>= fun s =>
        .ok { s with sigchld_blocked := false }) := by
  unfold server.handle_event listen_event
  simp [hlisten]

/-- The parent accepts the connection that leaves the queue. -/
theorem accepts_head {ip port scid : List UInt8} {creation : Creation} {u : Unit} (horderly : Orderly w)
    (hstep : step w (.accept (.connection ip port) scid creation) = .ok (w', u)) :
    w.queue = { ip := ip, port := port } :: w'.queue ∧
      ∃ s : Server, s.clients_t = w.server.clients_t ∧ s.files = w.server.files ∧
        w'.server = { server.accepted s scid ip port creation with sigchld_blocked := false } := by
  simp only [step] at hstep
  split at hstep
  · next haccepting =>
    rcases accept_cases hstep with ⟨_, _, queue, heq, hqueue, hends⟩ | ⟨_, heq, _⟩
    · cases heq
      obtain ⟨⟨evt, hevts⟩, _, hrest, _⟩ := accept_ends_spec hends
      refine ⟨by rw [hqueue, hrest], ?_⟩
      have hevt : evt = listen_event w.server :=
        horderly.reports evt (by rw [hevts]; exact List.mem_cons_self) ((accepting_iff hevts).mp haccepting)
      unfold accept_ends at hends
      obtain ⟨⟨s, v⟩, hserver, hdone⟩ := bind_eq_ok_iff.mp hends
      cases hdone
      simp only [server.step, hevts, hevt] at hserver
      obtain ⟨t, hhandle, hdone⟩ := bind_eq_ok_iff.mp hserver
      cases hdone
      have hlisten : w.server.listen_fd = { w.server with epoll_evts := s.epoll_evts }.listen_fd := rfl
      rw [handle_listen_event hlisten] at hhandle
      obtain ⟨t', hloop, hdone⟩ := bind_eq_ok_iff.mp hhandle
      cases hdone
      refine ⟨{ w.server with epoll_evts := t'.epoll_evts, sigchld_blocked := true }, rfl, rfl, ?_⟩
      dsimp only at hloop
      rw [accept_loop_failures (fun i errno hi => by rw [Nat.zero_add]; exact horderly.retried i errno hi)] at hloop
      unfold accept_loop at hloop
      split at hloop
      · exact congrArg (fun s : Server => { s with sigchld_blocked := false }) (Except.ok.inj hloop).symm
      · cases hloop
    · cases heq
  · cases hstep

/-! ## Whole runs -/

theorem start_orderly (max_connect : Nat) (files : Table server.File) (listen_fd : Nat) :
    Orderly (start max_connect files listen_fd) := ⟨nofun, nofun⟩

/-- In every state that is reached the parent accepts from the head of the queue. -/
theorem accepts_head_along_run {max_connect : Nat} {files : Table server.File} {listen_fd : Nat}
    {commands : List Command} {outputs : List Unit}
    (hrun : run step (start max_connect files listen_fd) commands = .ok (w, outputs)) {ip port scid : List UInt8}
    {creation : Creation} {u : Unit} (hstep : step w (.accept (.connection ip port) scid creation) = .ok (w', u)) :
    w.queue = { ip := ip, port := port } :: w'.queue ∧
      ∃ s : Server, s.clients_t = w.server.clients_t ∧ s.files = w.server.files ∧
        w'.server = { server.accepted s scid ip port creation with sigchld_blocked := false } := by
  refine accepts_head ?_ hstep
  exact run_invariant Orderly (fun _ _ _ _ horderly hstep => step_orderly horderly hstep)
    (start_orderly max_connect files listen_fd) hrun

theorem start_behind (max_connect : Nat) (files : Table server.File) (listen_fd : Nat) :
    Behind (start max_connect files listen_fd) 0 := rfl

/-- When the parent is about to block and no edge is left, the queue is empty
    exactly if every arrival had an edge of its own and every report was used. -/
theorem queue_empty_iff_alone {max_connect : Nat} {files : Table server.File} {listen_fd : Nat}
    {commands : List Command} {outputs : List Unit}
    (hrun : run step (start max_connect files listen_fd) commands = .ok (w, outputs)) (hblocking : Blocking w) :
    w.queue = [] ↔ Guarded step Alone (start max_connect files listen_fd) commands := by
  obtain ⟨m, _, hbehind, hiff⟩ := run_counts (G := Alone) Behind
    (fun _ _ _ _ _ hbehind halone hstep => (step_behind hbehind hstep).1 halone)
    (fun _ _ _ _ _ hbehind halone hstep => (step_behind hbehind hstep).2 halone)
    (start_behind max_connect files listen_fd) hrun
  have howed : owed w = 0 := by
    unfold owed
    rw [hblocking.1, hblocking.2]
    rfl
  unfold Behind at hbehind
  rw [← hiff, ← List.length_eq_zero_iff]
  omega

/-- Arrivals that one `epoll_wait` reports, and the connection that is accepted for it. -/
def reported_once (peers : List Peer) (ip port : List UInt8) : List Command :=
  peers.map .arrive ++
    [.epoll_wait [listen_event (server.start 2 server.initial_files 3)], .accept (.failed .EINTR) [] .fork_failed,
      .accept (.connection ip port) [65] (.forked 100 true)]

theorem queue_empty_iff_alone_one :
    ∃ w outputs, run step (start 2 server.initial_files 3) (reported_once [⟨[49], [50]⟩] [49] [50]) =
        .ok (w, outputs) ∧
      Blocking w ∧ w.queue = [] := by
  obtain ⟨w, outputs, hrun, hblocking⟩ := run_of_view (fun w : Listening => decide (Blocking w))
    (by decide +kernel : (run step (start 2 server.initial_files 3)
      (reported_once [⟨[49], [50]⟩] [49] [50])).toOption.map (fun r => decide (Blocking r.1)) = some true)
  have hblocking := of_decide_eq_true hblocking
  exact ⟨w, outputs, hrun, hblocking, (queue_empty_iff_alone hrun hblocking).mpr (by decide +kernel)⟩

/-- Of two connections that arrive together one is accepted; the other waits with
    a slot idle and nothing to wake the parent. -/
theorem second_arrival_stranded :
    ∃ w outputs, run step (start 2 server.initial_files 3) (reported_once [⟨[49], [50]⟩, ⟨[51], [52]⟩] [49] [50]) =
        .ok (w, outputs) ∧
      Blocking w ∧ server.get_idle_idx_from_clients w.server = some 1 ∧ w.queue = [⟨[51], [52]⟩] := by
  obtain ⟨w, outputs, hrun, hview⟩ := run_of_view
    (fun w : Listening => (decide (Blocking w), server.get_idle_idx_from_clients w.server, w.queue))
    (by decide +kernel : (run step (start 2 server.initial_files 3)
      (reported_once [⟨[49], [50]⟩, ⟨[51], [52]⟩] [49] [50])).toOption.map
        (fun r => (decide (Blocking r.1), server.get_idle_idx_from_clients r.1.server, r.1.queue)) =
      some (true, some 1, [⟨[51], [52]⟩]))
  obtain ⟨hblocking, hidle, hqueue⟩ := by simpa only [Prod.mk.injEq] using hview
  exact ⟨w, outputs, hrun, of_decide_eq_true hblocking, hidle, hqueue⟩

end code_tools.server_epoll.listening
