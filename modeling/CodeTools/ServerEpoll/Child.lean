import CodeTools.Lib.Heap
import CodeTools.Lib.Machine
import CodeTools.Lib.Relay
import CodeTools.Lib.Syscall

/-!
# The child of `server_epoll`

The child is a machine driven by what its system calls answer. It stands at the
call it is waiting for, and each answer takes it to its next call.
-/

namespace code_tools.server_epoll.child

open machine relay syscall

def MAX_LINE : Nat := 1024

def pfd_r : Int := 0

def client_fd : Int := 2

inductive RsyncState where
  | CONNECT
  | TRANS
deriving DecidableEq, Repr

/-- The configured address of the back server. -/
structure Config where
  cback_ip : List UInt8
  cback_port : List UInt8
deriving DecidableEq, Repr

/-- One entry of the array that `epoll_wait` fills. -/
structure Event where
  fd : Int
  epollin : Bool
  epollhup : Bool
deriving DecidableEq, Repr

/-- The bytes of one read on their way out, and how many the write loop still
    counts as unwritten. -/
structure Chunk where
  buf : List UInt8
  nw_tmp : Int
deriving DecidableEq, Repr

def Chunk.nr (chunk : Chunk) : Int := chunk.buf.length

/-- Where the pointer that `write` is given lies in the bytes that were read. -/
def Chunk.offset (chunk : Chunk) : Int := chunk.nr - chunk.nw_tmp

/-- The call that the child waits for, with the events it has still to handle. -/
inductive Control where
  | epoll_wait
  | read_client (events : List Event)
  | connect_to_back_server (events : List Event)
  /-- Telling the client why there is no back server, before leaving. -/
  | refuse (wbuf : String) (errnum : Int)
  | write_back (events : List Event) (chunk : Chunk)
  | read_back (events : List Event)
  | write_client (events : List Event) (chunk : Chunk)
  | exited (errnum : Int)
deriving DecidableEq, Repr

/-- The links start when the data transfer does, as the four counters do. -/
structure Child where
  back_fd : Int
  client_state : RsyncState
  back_state : RsyncState
  client_buf_read_len : Nat
  client_buf_write_len : Nat
  back_buf_read_len : Nat
  back_buf_write_len : Nat
  control : Control
  /-- Read from the client, written to the back server. -/
  client_link : Link UInt8
  /-- Read from the back server, written to the client. -/
  back_link : Link UInt8
deriving DecidableEq, Repr

def start : Child :=
  { back_fd := -1, client_state := .CONNECT, back_state := .CONNECT, client_buf_read_len := 0,
    client_buf_write_len := 0, back_buf_read_len := 0, back_buf_write_len := 0, control := .epoll_wait,
    client_link := Link.empty, back_link := Link.empty }

inductive Answer where
  | events (events : List Event)
  | read (result : ReadResult)
  | wrote (result : WriteResult)
  /-- The socket of `connect_to_back_server`, and whether it could be made
      nonblocking and added to epoll. -/
  | connected (fd : Int) (ndelay_on epoll_ctl : Bool)
deriving DecidableEq, Repr

/-- An `unsigned long long` counter. -/
def counted (total : Nat) (n : Int) : Nat := ((total + n) % 2 ^ 64).toNat

def exit_cleanup (s : Child) (errnum : Int) : Child := { s with control := .exited errnum }

/-- Go through the events up to the first whose handler reads. -/
def next_event (s : Child) : List Event → Child
  | [] => { s with control := .epoll_wait }
  | evt :: events =>
    if evt.epollin && evt.fd = client_fd then { s with control := .read_client events }
    else if evt.epollin && evt.fd = s.back_fd then { s with control := .read_back events }
    else if evt.epollin && evt.fd = pfd_r then next_event s events
    else if evt.epollhup then exit_cleanup s 0
    else next_event s events

/-! ## Client to back server -/

/-- Only the first command matters: it makes the child connect. -/
def process_client_cmd (cfg : Config) (s : Child) (events : List Event) : Child :=
  if s.client_state = .CONNECT ∧ cfg.cback_ip ≠ [] ∧ cfg.cback_port ≠ [] then
    { s with control := .connect_to_back_server events }
  else { s with control := .read_client events }

def connected (s : Child) (events : List Event) (fd : Int) (ndelay_on epoll_ctl : Bool) : Child :=
  if fd < 0 then
    { s with back_fd := fd, control := .refuse "@ERROR: SYSTEM ERROR 1010\n" 1010 }
  else if !ndelay_on then
    { s with back_fd := fd, control := .refuse "@ERROR: SYSTEM ERROR 1011\n" 1011 }
  else if !epoll_ctl then
    { s with back_fd := fd, control := .refuse "@ERROR: SYSTEM ERROR 1012\n" 1012 }
  else
    { s with
      back_fd := fd, client_state := .TRANS, back_state := .TRANS, client_buf_read_len := 0,
      client_buf_write_len := 0, back_buf_read_len := 0, back_buf_write_len := 0,
      control := .read_client events }

/-- The test of the write loop. -/
def write_back_loop (s : Child) (events : List Event) (chunk : Chunk) : Child :=
  { s with control := if 0 < chunk.nw_tmp then .write_back events chunk else .read_client events }

def read_client (cfg : Config) (s : Child) (events : List Event) : ReadResult → Except Stuck Child
  | .failed .EAGAIN => .ok (next_event s events)
  | .failed .EINTR => .ok s
  | .failed _ => .ok (exit_cleanup s 51)
  | .data [] => .ok (exit_cleanup s 10)
  | .data buf =>
    if MAX_LINE < buf.length then .error .answer
    else
      let s := { s with client_buf_read_len := counted s.client_buf_read_len buf.length }
      if s.client_state = .TRANS then
        let s := { s with client_link := s.client_link.take buf }
        if s.back_fd ≠ -1 then
          .ok (write_back_loop s events { buf := buf, nw_tmp := buf.length })
        else .ok { s with control := .read_client events }
      else .ok (process_client_cmd cfg s events)

/-- One `write` to the back server. `EAGAIN` makes it try again at once. -/
def write_back (s : Child) (events : List Event) (chunk : Chunk) (result : WriteResult) :
    Except Stuck Child :=
  if chunk.offset < 0 then .error .pointer
  else
    match result with
    | .failed .EAGAIN => .ok s
    | .failed _ => .ok (exit_cleanup s 21)
    | .accepted nw =>
      if chunk.nw_tmp < nw then .error .answer
      else
        let s := { s with
          back_buf_write_len := counted s.back_buf_write_len nw
          client_link := s.client_link.give ((chunk.buf.drop chunk.offset.toNat).take nw) }
        .ok (write_back_loop s events { chunk with nw_tmp := chunk.nw_tmp - nw })

/-! ## Back server to client -/

def write_client_loop (s : Child) (events : List Event) (chunk : Chunk) : Child :=
  { s with control := if 0 < chunk.nw_tmp then .write_client events chunk else .read_back events }

def read_back (s : Child) (events : List Event) : ReadResult → Except Stuck Child
  | .failed .EAGAIN => .ok (next_event s events)
  | .failed .EINTR => .ok s
  | .failed _ => .ok (exit_cleanup s 51)
  | .data [] => .ok (exit_cleanup s 10)
  | .data buf =>
    if MAX_LINE < buf.length then .error .answer
    else
      let s := { s with back_buf_read_len := counted s.back_buf_read_len buf.length }
      if s.back_state = .TRANS then
        let s := { s with back_link := s.back_link.take buf }
        .ok (write_client_loop s events { buf := buf, nw_tmp := buf.length })
      else .ok { s with control := .read_back events }

/-- One `write` to the client. After `EAGAIN` the loop goes on with the -1 that
    `write` returned. -/
def write_client (s : Child) (events : List Event) (chunk : Chunk) (result : WriteResult) :
    Except Stuck Child :=
  if chunk.offset < 0 then .error .pointer
  else
    match result with
    | .failed .EAGAIN =>
      let s := { s with client_buf_write_len := counted s.client_buf_write_len (-1) }
      .ok (write_client_loop s events { chunk with nw_tmp := chunk.nw_tmp - -1 })
    | .failed _ => .ok (exit_cleanup s 21)
    | .accepted nw =>
      if chunk.nw_tmp < nw then .error .answer
      else
        let s := { s with
          client_buf_write_len := counted s.client_buf_write_len nw
          back_link := s.back_link.give ((chunk.buf.drop chunk.offset.toNat).take nw) }
        .ok (write_client_loop s events { chunk with nw_tmp := chunk.nw_tmp - nw })

/-! ## The main loop -/

/-- The child at its next call. -/
def answered (cfg : Config) (s : Child) (answer : Answer) : Except Stuck Child :=
  match s.control, answer with
  | .epoll_wait, .events events => .ok (next_event s events)
  | .read_client events, .read result => read_client cfg s events result
  | .connect_to_back_server events, .connected fd ndelay_on epoll_ctl =>
    .ok (connected s events fd ndelay_on epoll_ctl)
  | .refuse _ errnum, .wrote _ => .ok (exit_cleanup s errnum)
  | .write_back events chunk, .wrote result => write_back s events chunk result
  | .read_back events, .read result => read_back s events result
  | .write_client events chunk, .wrote result => write_client s events chunk result
  | _, _ => .error .answer

def step (cfg : Config) (s : Child) (answer : Answer) : Except Stuck (Child × Unit) := do
  let s ← answered cfg s answer
  .ok (s, ())

end code_tools.server_epoll.child
