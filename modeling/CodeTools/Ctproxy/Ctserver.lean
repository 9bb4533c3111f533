import CodeTools.Lib.Heap
import CodeTools.Lib.Machine
import CodeTools.Lib.Syscall

/-!
# The parent of `ctproxy`

The loop around `accept` only leaves a descriptor in `connfd`, which is -1 after
an error. What comes after the loop takes a slot for it and creates a child,
whatever it is. The numbers of descriptors are answers of the kernel, and
`epoll_wait` may report any of them.
-/

namespace code_tools.ctproxy.ctserver

open cmem machine syscall

/-- What is made of the address in `client_addr`. -/
structure ClientAddr where
  cip : List UInt8
  cport : List UInt8
  ip_hex : List UInt8
deriving DecidableEq, Repr

/-- A slot of `clients_t`. -/
structure Client where
  used : Bool
  pid : Int
  fd : Int
  ip : List UInt8
  port : List UInt8
  sid : List UInt8
  ip_hex : List UInt8
  pfd_r : Int
  pfd_w : Int
deriving DecidableEq, Repr

structure Event where
  fd : Nat
  epollerr : Bool
  epollin : Bool
  epollhup : Bool
deriving DecidableEq, Repr

structure Ctserver where
  /-- `atoi(cmax_connect)` -/
  max_connect : Nat
  clients_t : List Client
  epoll_num_running : Int
  listen_socks : List Nat
  /-- What the last `accept` that succeeded stored. -/
  client_addr : ClientAddr
  sigchld_blocked : Bool
  /-- The events of the last `epoll_wait` that are still to be handled. -/
  epoll_evts : List Event
  /-- The descriptors that `accept` returned. -/
  accepted : List Nat
  /-- The slots that were marked used, with the descriptor that went into each. -/
  taken : List (Nat × Int)
  /-- `i` and `connfd` of the calls that create a child. -/
  created : List (Nat × Int)
  /-- The numbers given to `close`. -/
  closes : List Int
deriving DecidableEq, Repr

def close_fd (s : Ctserver) (fd : Int) : Ctserver := { s with closes := s.closes ++ [fd] }

/-! ## Slots -/

/-- A slot as `init_client_with_idx` leaves it. -/
def idle_client : Client :=
  { used := false, pid := -1, fd := -1, ip := [], port := [], sid := [], ip_hex := [], pfd_r := -1, pfd_w := -1 }

/-- The descriptors of a slot that are not -1 are closed. -/
def clean_client_with_idx (s : Ctserver) (i : Nat) : Ctserver :=
  match s.clients_t[i]? with
  | none => s
  | some client =>
    let s := if client.fd ≠ -1 then close_fd s client.fd else s
    let s := if client.pfd_r ≠ -1 then close_fd s client.pfd_r else s
    let s := if client.pfd_w ≠ -1 then close_fd s client.pfd_w else s
    { s with clients_t := s.clients_t.set i idle_client }

/-- The first of the `max_connect` slots that a test accepts; `none` is -1. -/
def find_client (s : Ctserver) (test : Client → Bool) : Option Nat :=
  (s.clients_t.take s.max_connect).findIdx? test

def get_idle_idx_from_clients (s : Ctserver) : Option Nat := find_client s fun client => !client.used

def get_idx_with_sockfd (s : Ctserver) (sockfd : Int) : Option Nat :=
  find_client s fun client => client.pfd_r = sockfd && client.used

/-! ## Creating a child -/

/-- What the kernel says to the calls that create a child: the read end and the
    write end of each pipe, and the pid. -/
inductive Creation where
  | pipe1_failed
  | pipe2_failed (pfd1 : Nat × Nat)
  | fork_failed (pfd1 pfd2 : Nat × Nat)
  | forked (pfd1 pfd2 : Nat × Nat) (pid : Nat)
deriving DecidableEq, Repr

/-- The parent's side; -9 is a system error. `listen_fd` is for the child only. -/
def create_child_and_exec_with_idx_clientfd (s : Ctserver) (i : Nat) (connfd : Int) (creation : Creation) :
    Ctserver × Int :=
  let s := { s with created := s.created ++ [(i, connfd)] }
  match creation with
  | .pipe1_failed => (s, -9)
  | .pipe2_failed pfd1 => (close_fd (close_fd s pfd1.1) pfd1.2, -9)
  | .fork_failed pfd1 pfd2 => (close_fd (close_fd (close_fd (close_fd s pfd1.1) pfd1.2) pfd2.1) pfd2.2, -9)
  | .forked pfd1 pfd2 pid =>
    let s := close_fd (close_fd (close_fd s pfd1.1) pfd2.2) connfd
    let update := fun client : Client => { client with pid := pid, pfd_r := pfd2.1, pfd_w := pfd1.2 }
    ({ s with clients_t := s.clients_t.modify i update }, 0)

/-! ## The event loop -/

inductive AcceptResult where
  | connection (connfd : Nat) (client_addr : ClientAddr)
  | failed (errno : Errno)
deriving DecidableEq, Repr

/-- What the kernel answers while one event is handled. -/
structure Answers where
  scid : List UInt8
  accepts : List AcceptResult
  creation : Creation
deriving DecidableEq, Repr

/-- What is stored by `snprintf` in a field of the given size. -/
def snprintf (size : Nat) (text : List UInt8) : List UInt8 := text.take (size - 1)

/-- `EWOULDBLOCK` is `EAGAIN`. -/
def transient (errno : Errno) : Bool := errno = .EAGAIN || errno = .EINTR || errno = .EPROTO

/-- The loop around `accept`, with what is in `connfd` behind it. Five attempts
    are repeated. -/
def accept_loop (s : Ctserver) : Nat → List AcceptResult → Except Stuck (Ctserver × Int)
  | _, [] => .error .answer
  | _, .connection connfd client_addr :: _ =>
    .ok ({ s with client_addr := client_addr, accepted := s.accepted ++ [connfd] }, connfd)
  | accept_times, .failed errno :: accepts =>
    if transient errno then
      if accept_times + 1 > 5 then .ok (s, -1) else accept_loop s (accept_times + 1) accepts
    else .ok (s, -1)

/-- What comes after the loop, for any `connfd`. -/
def after_accept (s : Ctserver) (connfd : Int) (answers : Answers) : Ctserver :=
  match get_idle_idx_from_clients s with
  | none => close_fd s connfd
  | some i =>
    let update := fun client : Client =>
      { client with
        used := true, fd := connfd, sid := snprintf 512 answers.scid, ip := snprintf 92 s.client_addr.cip,
        port := snprintf 20 s.client_addr.cport, ip_hex := s.client_addr.ip_hex }
    let s := { s with clients_t := s.clients_t.modify i update, taken := s.taken ++ [(i, connfd)] }
    let (s, ret) := create_child_and_exec_with_idx_clientfd s i connfd answers.creation
    if ret ≠ 0 then close_fd s connfd
    else { s with epoll_num_running := s.epoll_num_running + 1 }

def hung_up (s : Ctserver) (evt_fd : Nat) : Ctserver :=
  let s := match get_idx_with_sockfd s evt_fd with
    | none => close_fd s evt_fd
    | some i => close_fd (clean_client_with_idx s i) evt_fd
  { s with epoll_num_running := s.epoll_num_running - 1 }

/-- `which_is_listen(evt_fd) != -1` -/
def is_listen (s : Ctserver) (evt_fd : Nat) : Bool := evt_fd ∈ s.listen_socks

/-- Nothing is read from a child; `continue` after `EPOLLERR` leaves out
    `sig_childunblock`. -/
def handle_event (s : Ctserver) (evt : Event) (answers : Answers) : Except Stuck Ctserver :=
  let s := { s with sigchld_blocked := true }
  if evt.epollerr then .ok (close_fd s evt.fd)
  else do
    let s ←
      if evt.epollin then
        if is_listen s evt.fd then do
          let (s, connfd) ← accept_loop s 0 answers.accepts
          .ok (after_accept s connfd answers)
        else .ok s
      else if evt.epollhup && !is_listen s evt.fd then .ok (hung_up s evt.fd)
      else .ok s
    .ok { s with sigchld_blocked := false }

inductive Command where
  | epoll_wait (events : List Event)
  | event (answers : Answers)
deriving DecidableEq, Repr

/-- The next event is handled while some are left. -/
def step (s : Ctserver) (command : Command) : Except Stuck (Ctserver × Unit) :=
  match s.epoll_evts, command with
  | [], .epoll_wait events => .ok ({ s with epoll_evts := events }, ())
  | evt :: evts, .event answers => do
    let s ← handle_event { s with epoll_evts := evts } evt answers
    .ok (s, ())
  | _, _ => .error .answer

/-- The parent as it enters its loop. Nothing was stored in `client_addr`. -/
def start (max_connect : Nat) (listen_socks : List Nat) (client_addr : ClientAddr) : Ctserver :=
  { max_connect := max_connect, clients_t := List.replicate (max_connect + 1) idle_client, epoll_num_running := 0,
    listen_socks := listen_socks, client_addr := client_addr, sigchld_blocked := false, epoll_evts := [],
    accepted := [], taken := [], created := [], closes := [] }

/-! ## What the parent did with its connections -/

/-- Slots are taken, and children created, for the connections that were accepted:
    once for each and for nothing else. -/
def Proper (s : Ctserver) : Prop :=
  s.taken.map Prod.snd = s.accepted.map Int.ofNat ∧ s.created.map Prod.snd = s.accepted.map Int.ofNat

/-- They are for connections that were accepted, at most once for each. -/
def Genuine (s : Ctserver) : Prop :=
  (s.taken.map Prod.snd).Sublist (s.accepted.map Int.ofNat) ∧
    (s.created.map Prod.snd).Sublist (s.accepted.map Int.ofNat)

/-- A child was created for no connection. -/
def Fictitious (s : Ctserver) : Prop := (-1 : Int) ∈ s.created.map Prod.snd

theorem Fictitious.not_genuine {s : Ctserver} (hfictitious : Fictitious s) : ¬Genuine s := by
  rintro ⟨_, hcreated⟩
  obtain ⟨fd, _, hfd⟩ := List.mem_map.mp (hcreated.subset hfictitious)
  cases hfd

theorem Proper.genuine {s : Ctserver} (hproper : Proper s) : Genuine s := by
  unfold Genuine
  rw [hproper.1, hproper.2]
  exact ⟨List.Sublist.refl _, List.Sublist.refl _⟩

/-- A child was created for no connection, or a connection got none. -/
def Improper (s : Ctserver) : Prop := Fictitious s ∨ s.created.length < s.accepted.length

theorem Improper.not_proper {s : Ctserver} (himproper : Improper s) : ¬Proper s := by
  intro hproper
  rcases himproper with hfictitious | hlt
  · exact hfictitious.not_genuine hproper.genuine
  · have hlen := congrArg List.length hproper.2
    rw [List.length_map, List.length_map] at hlen
    omega

/-- The connections `fds` are accepted, and slots taken and children created as in
    `calls`. -/
structure Adds (s s' : Ctserver) (fds : List Nat) (calls : List (Nat × Int)) : Prop where
  accepted : s'.accepted = s.accepted ++ fds
  taken : s'.taken = s.taken ++ calls
  created : s'.created = s.created ++ calls

variable {s s' : Ctserver} {fds : List Nat} {calls : List (Nat × Int)}

theorem Adds.nothing (haccepted : s'.accepted = s.accepted) (htaken : s'.taken = s.taken)
    (hcreated : s'.created = s.created) : Adds s s' [] [] := by
  constructor
  · rw [haccepted, List.append_nil]
  · rw [htaken, List.append_nil]
  · rw [hcreated, List.append_nil]

theorem Adds.proper (hadds : Adds s s' fds calls) (hproper : Proper s)
    (hcalls : calls.map Prod.snd = fds.map Int.ofNat) : Proper s' := by
  unfold Proper
  rw [hadds.accepted, hadds.taken, hadds.created, List.map_append, List.map_append, List.map_append, hproper.1,
    hproper.2, hcalls]
  exact ⟨rfl, rfl⟩

theorem Adds.genuine (hadds : Adds s s' fds calls) (hgenuine : Genuine s)
    (hcalls : (calls.map Prod.snd).Sublist (fds.map Int.ofNat)) : Genuine s' := by
  unfold Genuine
  rw [hadds.accepted, hadds.taken, hadds.created, List.map_append, List.map_append, List.map_append]
  exact ⟨hgenuine.1.append hcalls, hgenuine.2.append hcalls⟩

theorem Adds.fictitious (hadds : Adds s s' fds calls) (hfictitious : Fictitious s ∨ (-1 : Int) ∈ calls.map Prod.snd) :
    Fictitious s' := by
  unfold Fictitious
  rw [hadds.created, List.map_append]
  exact List.mem_append.mpr hfictitious

/-- Fewer children than connections stay fewer unless one is created for no
    connection. -/
theorem Adds.improper (hadds : Adds s s' fds calls) (himproper : Improper s)
    (hcalls : calls.length ≤ fds.length ∨ (-1 : Int) ∈ calls.map Prod.snd) : Improper s' := by
  rcases himproper with hfictitious | hlt
  · exact Or.inl (hadds.fictitious (Or.inl hfictitious))
  rcases hcalls with hle | hmem
  · right
    rw [hadds.accepted, hadds.created, List.length_append, List.length_append]
    omega
  · exact Or.inl (hadds.fictitious (Or.inr hmem))

/-! ## One event -/

/-- The event is that of a listening socket. -/
def listening (s : Ctserver) (evt : Event) : Bool := !evt.epollerr && evt.epollin && is_listen s evt.fd

/-- A connection comes within the attempts of the loop. -/
def connects : Nat → List AcceptResult → Bool
  | _, [] => false
  | _, .connection _ _ :: _ => true
  | accept_times, .failed errno :: accepts =>
    transient errno && accept_times + 1 ≤ 5 && connects (accept_times + 1) accepts

theorem accept_loop_cases {accept_times : Nat} {accepts : List AcceptResult} {connfd : Int}
    (hloop : accept_loop s accept_times accepts = .ok (s', connfd)) :
    (connects accept_times accepts = true ∧ ∃ fd client_addr, connfd = Int.ofNat fd ∧
      s' = { s with client_addr := client_addr, accepted := s.accepted ++ [fd] }) ∨
    connects accept_times accepts = false ∧ connfd = -1 ∧ s' = s := by
  induction accepts generalizing accept_times with
  | nil => cases hloop
  | cons result accepts ih =>
    cases result with
    | connection fd client_addr =>
      cases hloop
      exact Or.inl ⟨rfl, fd, client_addr, rfl, rfl⟩
    | failed errno =>
      simp only [accept_loop] at hloop
      simp only [connects]
      split at hloop
      · next htransient =>
        split at hloop
        · next htimes =>
          cases hloop
          exact Or.inr ⟨by simp only [decide_eq_false (by omega : ¬accept_times + 1 ≤ 5), Bool.and_false,
            Bool.false_and], rfl, rfl⟩
        · next htimes =>
          rw [htransient, decide_eq_true (by omega : accept_times + 1 ≤ 5), Bool.and_true, Bool.true_and]
          exact ih hloop
      · next htransient =>
        cases hloop
        rw [Bool.not_eq_true] at htransient
        exact Or.inr ⟨by rw [htransient, Bool.false_and, Bool.false_and], rfl, rfl⟩

theorem create_logs (s : Ctserver) (i : Nat) (connfd : Int) (creation : Creation) :
    (create_child_and_exec_with_idx_clientfd s i connfd creation).1.accepted = s.accepted ∧
      (create_child_and_exec_with_idx_clientfd s i connfd creation).1.taken = s.taken ∧
      (create_child_and_exec_with_idx_clientfd s i connfd creation).1.created = s.created ++ [(i, connfd)] := by
  cases creation <;> exact ⟨rfl, rfl, rfl⟩

theorem after_accept_full (hidle : get_idle_idx_from_clients s = none) (connfd : Int) (answers : Answers) :
    Adds s (after_accept s connfd answers) [] [] := by
  unfold after_accept
  rw [hidle]
  exact .nothing rfl rfl rfl

/-- A slot is taken for whatever the loop left, and a child is created for it. -/
theorem after_accept_slot {i : Nat} (hidle : get_idle_idx_from_clients s = some i) (connfd : Int)
    (answers : Answers) : Adds s (after_accept s connfd answers) [] [(i, connfd)] := by
  unfold after_accept
  rw [hidle]
  dsimp only
  generalize hs₁ : ({ s with clients_t := _, taken := _ } : Ctserver) = s₁
  obtain ⟨haccepted, htaken, hcreated⟩ := create_logs s₁ i connfd answers.creation
  generalize create_child_and_exec_with_idx_clientfd s₁ i connfd answers.creation = made at haccepted htaken hcreated
  obtain ⟨s₂, ret⟩ := made
  subst hs₁
  rw [← List.append_nil s.accepted] at haccepted
  split
  · exact ⟨haccepted, htaken, hcreated⟩
  · exact ⟨haccepted, htaken, hcreated⟩

theorem Adds.trans {t : Ctserver} {fds' : List Nat} {calls' : List (Nat × Int)} (hadds : Adds s t fds calls)
    (hadds' : Adds t s' fds' calls') : Adds s s' (fds ++ fds') (calls ++ calls') := by
  constructor
  · rw [hadds'.accepted, hadds.accepted, List.append_assoc]
  · rw [hadds'.taken, hadds.taken, List.append_assoc]
  · rw [hadds'.created, hadds.created, List.append_assoc]

theorem clean_client_adds (s : Ctserver) (i : Nat) : Adds s (clean_client_with_idx s i) [] [] := by
  have hunless : ∀ (t : Ctserver) (fd : Int), Adds t (if fd ≠ -1 then close_fd t fd else t) [] [] := by
    intro t fd
    split
    · exact .nothing rfl rfl rfl
    · exact .nothing rfl rfl rfl
  unfold clean_client_with_idx
  split
  · exact .nothing rfl rfl rfl
  · next client _ =>
    have hclosed := ((hunless s client.fd).trans (hunless _ client.pfd_r)).trans (hunless _ client.pfd_w)
    exact ⟨hclosed.accepted, hclosed.taken, hclosed.created⟩

theorem hung_up_adds (s : Ctserver) (evt_fd : Nat) : Adds s (hung_up s evt_fd) [] [] := by
  unfold hung_up
  cases get_idx_with_sockfd s evt_fd with
  | none => exact .nothing rfl rfl rfl
  | some i =>
    have hcleaned := clean_client_adds s i
    exact ⟨hcleaned.accepted, hcleaned.taken, hcleaned.created⟩

/-- What one event does: a connection gets a slot and a child, or is refused, or
    there is none and the slot and the child are for -1. -/
inductive Handled (s : Ctserver) (evt : Event) (answers : Answers) (s' : Ctserver) : Prop where
  | elsewhere (hlistening : listening s evt = false) (hadds : Adds s s' [] [])
  | placed (fd i : Nat) (hlistening : listening s evt = true) (hconnects : connects 0 answers.accepts = true)
      (hidle : get_idle_idx_from_clients s = some i) (hadds : Adds s s' [fd] [(i, Int.ofNat fd)])
  | refused (fd : Nat) (hlistening : listening s evt = true) (hconnects : connects 0 answers.accepts = true)
      (hidle : get_idle_idx_from_clients s = none) (hadds : Adds s s' [fd] [])
  | misplaced (i : Nat) (hlistening : listening s evt = true) (hconnects : connects 0 answers.accepts = false)
      (hidle : get_idle_idx_from_clients s = some i) (hadds : Adds s s' [] [(i, -1)])
  | nothing (hlistening : listening s evt = true) (hconnects : connects 0 answers.accepts = false)
      (hidle : get_idle_idx_from_clients s = none) (hadds : Adds s s' [] [])

theorem handle_event_handled {evt : Event} {answers : Answers} (hhandle : handle_event s evt answers = .ok s') :
    Handled s evt answers s' := by
  unfold handle_event at hhandle
  dsimp only at hhandle
  by_cases herr : evt.epollerr = true
  · rw [if_pos herr] at hhandle
    cases hhandle
    exact .elsewhere (by simp [listening, herr]) (.nothing rfl rfl rfl)
  rw [if_neg herr] at hhandle
  rw [Bool.not_eq_true] at herr
  by_cases hin : evt.epollin = true
  · rw [if_pos hin] at hhandle
    split at hhandle
    · next hlisten =>
      have hlistening : listening s evt = true := by
        unfold listening
        rw [herr, hin]
        exact hlisten
      obtain ⟨⟨s₁, connfd⟩, hloop, hdone⟩ := bind_eq_ok_iff.mp hhandle
      cases hdone
      have hfull := @after_accept_full s₁
      have hslot := @after_accept_slot s₁
      rcases accept_loop_cases hloop with ⟨hconnects, fd, client_addr, rfl, hs₁⟩ | ⟨hconnects, rfl, rfl⟩
      · have hloop : Adds s s₁ [fd] [] := by
          rw [hs₁]
          exact ⟨rfl, (List.append_nil _).symm, (List.append_nil _).symm⟩
        have hidle_eq : get_idle_idx_from_clients s₁ = get_idle_idx_from_clients s := by
          rw [hs₁]
          rfl
        cases hidle : get_idle_idx_from_clients s with
        | none =>
          have hadds := hloop.trans (hfull (hidle_eq.trans hidle) (Int.ofNat fd) answers)
          exact .refused fd hlistening hconnects hidle ⟨hadds.accepted, hadds.taken, hadds.created⟩
        | some i =>
          have hadds := hloop.trans (hslot (hidle_eq.trans hidle) (Int.ofNat fd) answers)
          exact .placed fd i hlistening hconnects hidle ⟨hadds.accepted, hadds.taken, hadds.created⟩
      · cases hidle : get_idle_idx_from_clients s with
        | none =>
          have hadds := hfull hidle (-1) answers
          exact .nothing hlistening hconnects hidle ⟨hadds.accepted, hadds.taken, hadds.created⟩
        | some i =>
          have hadds := hslot hidle (-1) answers
          exact .misplaced i hlistening hconnects hidle ⟨hadds.accepted, hadds.taken, hadds.created⟩
    · next hlisten =>
      cases hhandle
      have hlisten : is_listen s evt.fd = false := Bool.eq_false_iff.mpr hlisten
      refine .elsewhere ?_ (.nothing rfl rfl rfl)
      unfold listening
      rw [hlisten, Bool.and_false]
  · rw [if_neg hin] at hhandle
    rw [Bool.not_eq_true] at hin
    have helse : listening s evt = false := by
      unfold listening
      rw [hin, Bool.and_false, Bool.false_and]
    split at hhandle
    · cases hhandle
      have hadds := hung_up_adds { s with sigchld_blocked := true } evt.fd
      exact .elsewhere helse ⟨hadds.accepted, hadds.taken, hadds.created⟩
    · cases hhandle
      exact .elsewhere helse (.nothing rfl rfl rfl)

/-! ## Runs -/

/-- The condition on a step: an event of a listening socket brings a connection
    exactly when there is a slot. -/
def Matched (s : Ctserver) : Command → Prop
  | .epoll_wait _ => True
  | .event answers => ∀ evt ∈ s.epoll_evts.head?, listening s evt = true →
    (connects 0 answers.accepts = true ↔ get_idle_idx_from_clients s ≠ none)

/-- It brings one when there is a slot. -/
def Filled (s : Ctserver) : Command → Prop
  | .epoll_wait _ => True
  | .event answers => ∀ evt ∈ s.epoll_evts.head?, listening s evt = true →
    get_idle_idx_from_clients s ≠ none → connects 0 answers.accepts = true

instance (s : Ctserver) : ∀ command, Decidable (Matched s command)
  | .epoll_wait _ => inferInstanceAs (Decidable True)
  | .event answers => inferInstanceAs (Decidable (∀ evt ∈ s.epoll_evts.head?, listening s evt = true →
    (connects 0 answers.accepts = true ↔ get_idle_idx_from_clients s ≠ none)))

instance (s : Ctserver) : ∀ command, Decidable (Filled s command)
  | .epoll_wait _ => inferInstanceAs (Decidable True)
  | .event answers => inferInstanceAs (Decidable (∀ evt ∈ s.epoll_evts.head?, listening s evt = true →
    get_idle_idx_from_clients s ≠ none → connects 0 answers.accepts = true))

/-- What a step adds, and which of the conditions it meets: without a connection
    for a slot neither, without a slot for a connection the second. -/
theorem step_adds {command : Command} {u : Unit} (hstep : step s command = .ok (s', u)) :
    ∃ fds calls, Adds s s' fds calls ∧
      ((Matched s command ∧ Filled s command ∧ calls.map Prod.snd = fds.map Int.ofNat) ∨
        (¬Matched s command ∧ Filled s command ∧ calls = [] ∧ fds.length = 1) ∨
        (¬Matched s command ∧ ¬Filled s command ∧ (-1 : Int) ∈ calls.map Prod.snd)) := by
  cases hevts : s.epoll_evts with
  | nil =>
    cases command with
    | event answers =>
      simp only [step, hevts] at hstep
      cases hstep
    | epoll_wait events =>
      simp only [step, hevts] at hstep
      cases hstep
      exact ⟨[], [], .nothing rfl rfl rfl, Or.inl ⟨trivial, trivial, rfl⟩⟩
  | cons evt evts =>
    cases command with
    | epoll_wait events =>
      simp only [step, hevts] at hstep
      cases hstep
    | event answers =>
      simp only [step, hevts] at hstep
      obtain ⟨t, hhandle, hdone⟩ := bind_eq_ok_iff.mp hstep
      cases hdone
      have hmatched : Matched s (.event answers) ↔ (listening s evt = true →
          (connects 0 answers.accepts = true ↔ get_idle_idx_from_clients s ≠ none)) := by simp [Matched, hevts]
      have hfilled : Filled s (.event answers) ↔ (listening s evt = true →
          get_idle_idx_from_clients s ≠ none → connects 0 answers.accepts = true) := by simp [Filled, hevts]
      have hlistening_eq : listening { s with epoll_evts := evts } evt = listening s evt := rfl
      have hidle_eq : get_idle_idx_from_clients { s with epoll_evts := evts } = get_idle_idx_from_clients s := rfl
      rw [hmatched, hfilled, ← hlistening_eq, ← hidle_eq]
      cases handle_event_handled hhandle with
      | elsewhere hlistening hadds =>
        refine ⟨[], [], ⟨hadds.accepted, hadds.taken, hadds.created⟩, Or.inl ?_⟩
        simp [hlistening]
      | placed fd i hlistening hconnects hidle hadds =>
        refine ⟨_, _, ⟨hadds.accepted, hadds.taken, hadds.created⟩, Or.inl ?_⟩
        simp [hconnects, hidle]
      | refused fd hlistening hconnects hidle hadds =>
        refine ⟨_, _, ⟨hadds.accepted, hadds.taken, hadds.created⟩, Or.inr (Or.inl ?_)⟩
        simp [hlistening, hconnects, hidle]
      | misplaced i hlistening hconnects hidle hadds =>
        refine ⟨_, _, ⟨hadds.accepted, hadds.taken, hadds.created⟩, Or.inr (Or.inr ?_)⟩
        simp [hlistening, hconnects, hidle]
      | nothing hlistening hconnects hidle hadds =>
        refine ⟨_, _, ⟨hadds.accepted, hadds.taken, hadds.created⟩, Or.inl ?_⟩
        simp [hconnects, hidle]

theorem step_proper {command : Command} {u : Unit} (hproper : Proper s) (hmatched : Matched s command)
    (hstep : step s command = .ok (s', u)) : Proper s' := by
  obtain ⟨fds, calls, hadds, ⟨_, _, hcalls⟩ | ⟨hnot, _⟩ | ⟨hnot, _⟩⟩ := step_adds hstep
  · exact hadds.proper hproper hcalls
  · exact absurd hmatched hnot
  · exact absurd hmatched hnot

theorem step_improper {command : Command} {u : Unit} (hproper : Proper s) (hmatched : ¬Matched s command)
    (hstep : step s command = .ok (s', u)) : Improper s' := by
  obtain ⟨fds, calls, hadds, ⟨hmatched', _⟩ | ⟨_, _, rfl, hone⟩ | ⟨_, _, hmem⟩⟩ := step_adds hstep
  · exact absurd hmatched' hmatched
  · have hlen := congrArg List.length hproper.2
    rw [List.length_map, List.length_map] at hlen
    right
    rw [hadds.accepted, hadds.created, List.append_nil, List.length_append]
    omega
  · exact Or.inl (hadds.fictitious (Or.inr hmem))

theorem step_stays_improper {command : Command} {u : Unit} (himproper : Improper s)
    (hstep : step s command = .ok (s', u)) : Improper s' := by
  obtain ⟨fds, calls, hadds, ⟨_, _, hcalls⟩ | ⟨_, _, rfl, _⟩ | ⟨_, _, hmem⟩⟩ := step_adds hstep
  · have hlen := congrArg List.length hcalls
    rw [List.length_map, List.length_map] at hlen
    exact hadds.improper himproper (Or.inl (Nat.le_of_eq hlen))
  · exact hadds.improper himproper (Or.inl (Nat.zero_le _))
  · exact hadds.improper himproper (Or.inr hmem)

theorem step_genuine {command : Command} {u : Unit} (hgenuine : Genuine s) (hfilled : Filled s command)
    (hstep : step s command = .ok (s', u)) : Genuine s' := by
  obtain ⟨fds, calls, hadds, ⟨_, _, hcalls⟩ | ⟨_, _, rfl, _⟩ | ⟨_, hnot, _⟩⟩ := step_adds hstep
  · exact hadds.genuine hgenuine (hcalls ▸ List.Sublist.refl _)
  · exact hadds.genuine hgenuine (List.nil_sublist _)
  · exact absurd hfilled hnot

theorem step_fictitious {command : Command} {u : Unit} (hfilled : ¬Filled s command)
    (hstep : step s command = .ok (s', u)) : Fictitious s' := by
  obtain ⟨fds, calls, hadds, ⟨_, hfilled', _⟩ | ⟨_, hfilled', _⟩ | ⟨_, _, hmem⟩⟩ := step_adds hstep
  · exact absurd hfilled' hfilled
  · exact absurd hfilled' hfilled
  · exact hadds.fictitious (Or.inr hmem)

theorem step_stays_fictitious {command : Command} {u : Unit} (hfictitious : Fictitious s)
    (hstep : step s command = .ok (s', u)) : Fictitious s' := by
  obtain ⟨fds, calls, hadds, _⟩ := step_adds hstep
  exact hadds.fictitious (Or.inl hfictitious)

theorem start_proper (max_connect : Nat) (listen_socks : List Nat) (client_addr : ClientAddr) :
    Proper (start max_connect listen_socks client_addr) := ⟨rfl, rfl⟩

/-- Every slot and every child is for one connection that was accepted, and every
    connection has one, exactly when at each event of a listening socket the loop
    ended with a connection if and only if there was a slot. A connection without
    a slot is refused on purpose; those aside, slots and children are for
    connections exactly when no loop ended with an error while there was a slot. -/
theorem proper_iff_matched {max_connect : Nat} {listen_socks : List Nat} {client_addr : ClientAddr}
    {commands : List Command} {outputs : List Unit}
    (hrun : run step (start max_connect listen_socks client_addr) commands = .ok (s, outputs)) :
    (Proper s ↔ Guarded step Matched (start max_connect listen_socks client_addr) commands) ∧
      (Genuine s ↔ Guarded step Filled (start max_connect listen_socks client_addr) commands) := by
  have hstart := start_proper max_connect listen_socks client_addr
  obtain ⟨hkept, hspoiled⟩ := run_splits (G := Matched) Proper Improper
    (fun _ _ _ _ hproper hmatched hstep => step_proper hproper hmatched hstep)
    (fun _ _ _ _ hproper hmatched hstep => step_improper hproper hmatched hstep)
    (fun _ _ _ _ himproper hstep => step_stays_improper himproper hstep) hstart hrun
  obtain ⟨hreal, hmade_up⟩ := run_splits (G := Filled) Genuine Fictitious
    (fun _ _ _ _ hgenuine hfilled hstep => step_genuine hgenuine hfilled hstep)
    (fun _ _ _ _ _ hfilled hstep => step_fictitious hfilled hstep)
    (fun _ _ _ _ hfictitious hstep => step_stays_fictitious hfictitious hstep) hstart.genuine hrun
  constructor
  · exact ⟨fun hproper => by_contra fun hnot => (hspoiled hnot).not_proper hproper, hkept⟩
  · exact ⟨fun hgenuine => by_contra fun hnot => (hmade_up hnot).not_genuine hgenuine, hreal⟩

/-- One event of the second of two listening sockets. -/
def one_report (accepts : List AcceptResult) : List Command :=
  [.epoll_wait [{ fd := 4, epollerr := false, epollin := true, epollhup := false }],
    .event { scid := [65], accepts := accepts, creation := .forked (7, 8) (9, 10) 100 }]

def some_addr : ClientAddr := { cip := [49], cport := [50], ip_hex := [51] }

theorem proper_iff_matched_one :
    ∃ s outputs, run step (start 1 [3, 4] some_addr) (one_report [.failed .EINTR, .connection 6 some_addr]) =
        .ok (s, outputs) ∧
      s.created = [(0, 6)] ∧ Proper s ∧ Genuine s := by
  obtain ⟨s, outputs, hrun, hcreated⟩ := run_of_view (fun s : Ctserver => s.created)
    (by decide +kernel : (run step (start 1 [3, 4] some_addr)
      (one_report [.failed .EINTR, .connection 6 some_addr])).toOption.map (fun r => r.1.created) = some [(0, 6)])
  obtain ⟨hproper, hgenuine⟩ := proper_iff_matched hrun
  exact ⟨s, outputs, hrun, hcreated, hproper.mpr (by decide +kernel), hgenuine.mpr (by decide +kernel)⟩

/-- When `accept` fails for good, a slot is taken and a child created for -1. -/
theorem child_for_no_connection :
    ∃ s outputs, run step (start 1 [3, 4] some_addr) (one_report [.failed (.other 24)]) = .ok (s, outputs) ∧
      s.accepted = [] ∧ s.taken = [(0, -1)] ∧ s.created = [(0, -1)] ∧ ¬Proper s ∧ ¬Genuine s := by
  obtain ⟨s, outputs, hrun, hview⟩ := run_of_view (fun s : Ctserver => (s.accepted, s.taken, s.created))
    (by decide +kernel : (run step (start 1 [3, 4] some_addr) (one_report [.failed (.other 24)])).toOption.map
      (fun r => (r.1.accepted, r.1.taken, r.1.created)) = some ([], [(0, -1)], [(0, -1)]))
  obtain ⟨haccepted, htaken, hcreated⟩ := by simpa only [Prod.mk.injEq] using hview
  have hfictitious : Fictitious s := by
    unfold Fictitious
    rw [hcreated]
    exact List.mem_cons_self
  exact ⟨s, outputs, hrun, haccepted, htaken, hcreated, Improper.not_proper (Or.inl hfictitious),
    hfictitious.not_genuine⟩

end code_tools.ctproxy.ctserver
