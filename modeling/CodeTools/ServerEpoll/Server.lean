import CodeTools.Lib.Descriptor
import CodeTools.Lib.Heap
import CodeTools.Lib.Machine
import CodeTools.Lib.Syscall

/-!
# The parent of `server_epoll`

The state holds the parent's globals and what the kernel keeps for it: the open
descriptors, those registered with epoll, the children, and a log of `close`.
A number that is closed leaves epoll. Pipes are named in the order of their
creation.
-/

namespace code_tools.server_epoll.server

open descriptor syscall

inductive File where
  | listener
  | connection
  | pipe_r (pipe : Nat)
  | pipe_w (pipe : Nat)
  | other
deriving DecidableEq, Repr

/-- A slot of `clients_t`. -/
structure Client where
  used : Bool
  pid : Int
  fd : Int
  ip : List UInt8
  port : List UInt8
  sid : List UInt8
  pfd_r : Int
  pfd_w : Int
deriving DecidableEq, Repr

structure Event where
  fd : Nat
  epollerr : Bool
  epollin : Bool
  epollhup : Bool
deriving DecidableEq, Repr

structure Server where
  /-- `atoi(cmax_connect)` -/
  max_connect : Nat
  clients_t : List Client
  epoll_num_running : Int
  listen_fd : Nat
  sigchld_blocked : Bool
  /-- The events of the last `epoll_wait` that are still to be handled. -/
  epoll_evts : List Event
  files : Table File
  watched : List Nat
  pipes : Nat
  /-- Each child with the pipe that it writes to. -/
  children : List (Int × Nat)
  /-- The numbers given to `close`, with what was open there. -/
  closes : List (Int × Option File)
deriving DecidableEq, Repr

/-! ## Calls to the kernel -/

def close_fd (s : Server) (fd : Int) : Server :=
  if fd < 0 then { s with closes := s.closes ++ [(fd, none)] }
  else
    { s with
      files := s.files.close fd.toNat
      watched := s.watched.filter (· ≠ fd.toNat)
      closes := s.closes ++ [(fd, s.files.get? fd.toNat)] }

def open_fd (s : Server) (file : File) : Server × Nat :=
  ({ s with files := s.files.insert s.files.lowest_free file }, s.files.lowest_free)

/-- `pipe`: the read end and the write end. -/
def pipe (s : Server) : Server × Nat × Nat :=
  let (s₁, pfd_r) := open_fd s (.pipe_r s.pipes)
  let (s₂, pfd_w) := open_fd s₁ (.pipe_w s.pipes)
  ({ s₂ with pipes := s.pipes + 1 }, pfd_r, pfd_w)

/-! ## Slots -/

/-- A slot as `init_client_with_idx` leaves it. -/
def idle_client : Client :=
  { used := false, pid := -1, fd := -1, ip := [], port := [], sid := [], pfd_r := -1, pfd_w := -1 }

/-- The descriptors of a slot that are not -1 are closed. -/
def clean_client_with_idx (s : Server) (i : Nat) : Server :=
  match s.clients_t[i]? with
  | none => s
  | some client =>
    let s := if client.fd ≠ -1 then close_fd s client.fd else s
    let s := if client.pfd_r ≠ -1 then close_fd s client.pfd_r else s
    let s := if client.pfd_w ≠ -1 then close_fd s client.pfd_w else s
    { s with clients_t := s.clients_t.set i idle_client }

/-- The first of the `max_connect` slots that a test accepts; `none` is -1. -/
def find_client (s : Server) (test : Client → Bool) : Option Nat :=
  (s.clients_t.take s.max_connect).findIdx? test

def get_idle_idx_from_clients (s : Server) : Option Nat := find_client s fun client => !client.used

def get_idx_with_sockfd (s : Server) (sockfd : Int) : Option Nat :=
  find_client s fun client => client.pfd_r = sockfd && client.used

def exit_child_with_sockfd (s : Server) (sockfd : Int) : Server :=
  match get_idx_with_sockfd s sockfd with
  | none => close_fd s sockfd
  | some i => close_fd (clean_client_with_idx s i) sockfd

/-! ## Creating a child -/

/-- What the kernel says to the calls that create a child. -/
inductive Creation where
  | pipe1_failed
  | pipe2_failed
  | fork_failed
  | forked (pid : Nat) (epoll_added : Bool)
deriving DecidableEq, Repr

/-- The parent's side; -9 is a system error. -/
def create_child_and_exec_with_idx_clientfd (s : Server) (i connfd : Nat) (creation : Creation) :
    Server × Int :=
  if creation = .pipe1_failed then (s, -9)
  else
    let (s, pfd1_r, pfd1_w) := pipe s
    if creation = .pipe2_failed then (close_fd (close_fd s pfd1_r) pfd1_w, -9)
    else
      let pipe2 := s.pipes
      let (s, pfd2_r, pfd2_w) := pipe s
      match creation with
      | .forked pid epoll_added =>
        let s := { s with children := (pid, pipe2) :: s.children }
        let s := close_fd (close_fd (close_fd s pfd1_r) pfd2_w) connfd
        let update := fun client : Client => { client with pid := pid, pfd_r := pfd2_r, pfd_w := pfd1_w }
        ({ s with
          clients_t := s.clients_t.modify i update
          watched := if epoll_added then pfd2_r :: s.watched else s.watched }, 0)
      | _ => (close_fd (close_fd (close_fd (close_fd s pfd1_r) pfd1_w) pfd2_r) pfd2_w, -9)

/-! ## The event loop -/

/-- What `accept` returns; a connection comes with the peer's address. -/
inductive AcceptResult where
  | connection (ip port : List UInt8)
  | failed (errno : Errno)
deriving DecidableEq, Repr

/-- What the kernel answers while one event is handled. -/
structure Answers where
  scid : List UInt8
  accepts : List AcceptResult
  creation : Creation
  reads : List ReadResult
deriving DecidableEq, Repr

/-- What is stored by `snprintf` in a field of the given size. -/
def snprintf (size : Nat) (text : List UInt8) : List UInt8 := text.take (size - 1)

/-- A connection that was accepted. -/
def accepted (s : Server) (scid ip port : List UInt8) (creation : Creation) : Server :=
  let (s, connfd) := open_fd s .connection
  match get_idle_idx_from_clients s with
  | none => close_fd s connfd
  | some i =>
    let update := fun client : Client =>
      { client with
        used := true, fd := connfd, sid := snprintf 128 scid, ip := snprintf 20 ip, port := snprintf 20 port }
    let s := { s with clients_t := s.clients_t.modify i update }
    let (s, ret) := create_child_and_exec_with_idx_clientfd s i connfd creation
    if ret ≠ 0 then close_fd s connfd
    else { s with epoll_num_running := s.epoll_num_running + 1 }

/-- Five attempts are repeated after `EAGAIN`, `EINTR` and `EPROTO`. -/
def accept_loop (s : Server) (answers : Answers) : Nat → List AcceptResult → Except Stuck Server
  | _, [] => .error .answer
  | _, .connection ip port :: _ =>
    if s.files.get? s.listen_fd = some .listener then .ok (accepted s answers.scid ip port answers.creation)
    else .error .answer
  | accept_times, .failed errno :: accepts =>
    if errno = .EAGAIN ∨ errno = .EINTR ∨ errno = .EPROTO then
      if accept_times + 1 > 5 then .ok s else accept_loop s answers (accept_times + 1) accepts
    else .ok s

/-- Read from a child until there is nothing more. -/
def read_loop (s : Server) (evt_fd : Nat) : List ReadResult → Except Stuck Server
  | [] => .error .answer
  | .failed .EAGAIN :: _ => .ok s
  | .failed _ :: _ =>
    .ok { exit_child_with_sockfd s evt_fd with epoll_num_running := s.epoll_num_running - 1 }
  | .data [] :: _ =>
    .ok { exit_child_with_sockfd s evt_fd with epoll_num_running := s.epoll_num_running - 1 }
  | .data _ :: reads => read_loop s evt_fd reads

def hung_up (s : Server) (evt_fd : Nat) : Server :=
  let s := match get_idx_with_sockfd s evt_fd with
    | none => close_fd s evt_fd
    | some i => close_fd (clean_client_with_idx s i) evt_fd
  { s with epoll_num_running := s.epoll_num_running - 1 }

/-- `continue` after `EPOLLERR` leaves out `sig_childunblock`. -/
def handle_event (s : Server) (evt : Event) (answers : Answers) : Except Stuck Server :=
  let s := { s with sigchld_blocked := true }
  if evt.epollerr then .ok (close_fd s evt.fd)
  else do
    let s ←
      if evt.epollin then
        if evt.fd = s.listen_fd then accept_loop s answers 0 answers.accepts
        else read_loop s evt.fd answers.reads
      else if evt.epollhup ∧ evt.fd ≠ s.listen_fd then .ok (hung_up s evt.fd)
      else .ok s
    .ok { s with sigchld_blocked := false }

inductive Command where
  | epoll_wait (events : List Event)
  | event (answers : Answers)
deriving DecidableEq, Repr

/-- `epoll_wait` reports registered descriptors, each once. The next event is
    handled while some are left. -/
def step (s : Server) (command : Command) : Except Stuck (Server × Unit) :=
  match s.epoll_evts, command with
  | [], .epoll_wait events =>
    if (∀ evt ∈ events, evt.fd ∈ s.watched) ∧ (events.map Event.fd).Nodup then
      .ok ({ s with epoll_evts := events }, ())
    else .error .answer
  | evt :: evts, .event answers => do
    let s ← handle_event { s with epoll_evts := evts } evt answers
    .ok (s, ())
  | _, _ => .error .answer

/-- The parent as it enters its loop. -/
def start (max_connect : Nat) (files : Table File) (listen_fd : Nat) : Server :=
  { max_connect := max_connect, clients_t := List.replicate (max_connect + 1) idle_client,
    epoll_num_running := 0, listen_fd := listen_fd, sigchld_blocked := false, epoll_evts := [],
    files := files, watched := [listen_fd], pipes := 0, children := [], closes := [] }

end code_tools.server_epoll.server
