import Mathlib.Tactic.Common

/-!
# What system calls answer

A program that talks to the kernel is a machine whose commands are the answers
to the calls it makes. An answer to a call that the program did not make is no
step of the machine.
-/

namespace syscall

/-- The error numbers that callers tell apart. `EWOULDBLOCK` is `EAGAIN`. -/
inductive Errno where
  | EAGAIN
  | EINTR
  | EBADF
  | EPROTO
  | other (number : Nat)
deriving DecidableEq, Repr

/-- What `read` delivers. No bytes are the end of the file. -/
inductive ReadResult where
  | data (bytes : List UInt8)
  | failed (errno : Errno)
deriving DecidableEq, Repr

/-- How many bytes `write` accepts. -/
inductive WriteResult where
  | accepted (count : Nat)
  | failed (errno : Errno)
deriving DecidableEq, Repr

/-- Why a machine makes no step. -/
inductive Stuck where
  /-- The answer does not fit the call that was made. -/
  | answer
  /-- The call was given a pointer outside its buffer. -/
  | pointer
deriving DecidableEq, Repr

end syscall
