import CodeTools.Lib.Buffer
import CodeTools.Lib.Tailq

/-!
# The in-memory file of `mfile.c`

The handle is taken to be non-`NULL`. Blocks are named by the number of the
allocator call that returned them. Loops take fuel, one unit for every byte
still to be moved.
-/

namespace code_tools.mfile

open cmem

def DEFAULT_DATA_BLOCK_SIZE : Nat := 8888

structure DataBlock where
  data_len : Nat
  data : List UInt8
  /-- The number of the allocator call that returned `data`. -/
  data_p : Nat
  current_write_count : Nat
  current_read_count : Nat
deriving DecidableEq, Repr

/-- The handle, and of its allocator the number of calls so far and what was
    handed to `free_fun`. -/
structure MFile where
  total_size : Int
  new_header_size : Nat
  head : Tailq DataBlock
  block_num : Nat
  current_write_p : Ptr
  current_read_p : Ptr
  is_full : Bool
  is_empty : Bool
  DATA_BLOCK_SIZE : Nat
  ccache : UInt8
  /-- Whether the caller's allocator is used rather than `malloc` and `free`. -/
  user : Bool
  allocs : Nat
  freed : List Nat
deriving DecidableEq, Repr

/-- What each allocator call returns: `NULL`, or fresh memory that happens to
    hold the given bytes. -/
abbrev Alloc := Nat → Option (Nat → UInt8)

/-- The handle as `mopen` fills it in, after the allocator's first call. -/
def new_handle (data_block_size : Nat) (user : Bool) : MFile :=
  { total_size := 0, new_header_size := 0, head := [], block_num := 0, current_write_p := none,
    current_read_p := none, is_full := true, is_empty := false,
    DATA_BLOCK_SIZE := if data_block_size = 0 then DEFAULT_DATA_BLOCK_SIZE else data_block_size,
    ccache := 10, user := user, allocs := 1, freed := [] }

/-- `af` and `fe` tell whether the caller passes an allocator and a freer. The
    handle is cleared before it is tested for `NULL`. -/
def mopen (alloc : Alloc) (data_block_size : Nat) (af fe : Bool) : Except Fault (Option MFile) :=
  if af = fe then
    if (alloc 0).isNone then .error .nullPointer
    else .ok (some (new_handle data_block_size af))
  else .ok none

theorem eq_new_handle_of_mopen {alloc : Alloc} {data_block_size : Nat} {af fe : Bool} {h : MFile}
    (hopen : mopen alloc data_block_size af fe = .ok (some h)) : h = new_handle data_block_size af := by
  unfold mopen at hopen
  split at hopen
  · split at hopen
    · cases hopen
    · exact (Option.some.inj (Except.ok.inj hopen)).symm
  · cases hopen

/-- The two allocations for a new block. If the second fails the first is
    released. -/
def new_block (alloc : Alloc) (h : MFile) : MFile × Option (Nat × DataBlock) :=
  match alloc h.allocs with
  | none => ({ h with allocs := h.allocs + 1 }, none)
  | some _ =>
    match alloc (h.allocs + 1) with
    | none => ({ h with allocs := h.allocs + 2, freed := h.freed ++ [h.allocs] }, none)
    | some junk =>
      ({ h with allocs := h.allocs + 2 },
        some (h.allocs,
          { data_len := 0, data := (List.range h.DATA_BLOCK_SIZE).map junk, data_p := h.allocs + 1,
            current_write_count := 0, current_read_count := 0 }))

/-! ## Writing -/

/-- The part of the write loop before the copy: a block with room, if one can be
    had. -/
def write_block (alloc : Alloc) (h : MFile) : MFile × Bool :=
  if h.is_full then
    match new_block alloc h with
    | (h, none) => (h, false)
    | (h, some (a, b)) =>
      ({ h with block_num := h.block_num + 1, current_write_p := some a, head := h.head ++ [(a, b)] }, true)
  else (h, true)

/-- Copy `count` bytes of `data` behind what the current block holds. -/
def append_bytes (h : MFile) (data : List UInt8) (writed count : Nat) : Except Fault MFile := do
  let block ← h.head.read h.current_write_p
  let bytes ← slice data writed count
  let buffer ← blit block.data block.current_write_count bytes
  let write_count := block.current_write_count + count
  let update := fun block : DataBlock =>
    { block with data := buffer, current_write_count := write_count, data_len := write_count }
  .ok { h with
    head := h.current_write_p.elim h.head fun a => h.head.modify a update
    is_full := write_count = h.DATA_BLOCK_SIZE }

def mwrite_loop (alloc : Alloc) : Nat → MFile → List UInt8 → Int → Nat → Except Fault (MFile × Int)
  | fuel, h, data, len, writed =>
    if (writed : Int) < len then
      match fuel with
      | 0 => .error .outOfFuel
      | fuel + 1 =>
        match write_block alloc h with
        | (h, false) => .ok (h, -1)
        | (h, true) => do
          let block ← h.head.read h.current_write_p
          let free_count := h.DATA_BLOCK_SIZE - block.current_write_count
          let rest := (len - writed).toNat
          if rest ≤ free_count then
            let h ← append_bytes h data writed rest
            .ok (h, 1)
          else
            let h ← append_bytes h data writed free_count
            mwrite_loop alloc fuel { h with is_full := true } data len (writed + free_count)
    else .ok (h, 1)

/-- `data` is the buffer that the caller's pointer refers to. -/
def mwrite (alloc : Alloc) (h : MFile) (data : List UInt8) (len : Int) : Except Fault (MFile × Int) :=
  mwrite_loop alloc len.toNat { h with total_size := h.total_size + len } data len 0

/-- A negative length passes the test and makes `memcpy` leave the buffers. -/
def mwrite_head (alloc : Alloc) (h : MFile) (data : List UInt8) (len : Int) :
    Except Fault (MFile × Int) :=
  if len > h.DATA_BLOCK_SIZE then .ok (h, -1)
  else
    match new_block alloc { h with total_size := h.total_size + len } with
    | (h, none) => .ok (h, -1)
    | (h, some (a, block)) =>
      if len < 0 then .error .outOfBounds
      else do
        let bytes ← slice data 0 len.toNat
        let buffer ← blit block.data 0 bytes
        let block := { block with data := buffer, current_write_count := len.toNat, data_len := len.toNat }
        .ok
          ({ h with
            new_header_size := (h.new_header_size + len.toNat) % 2 ^ 32
            block_num := h.block_num + 1
            head := (a, block) :: h.head }, 1)

/-! ## Reading -/

/-- `TAILQ_FIRST` when reading has not started. -/
def read_start (h : MFile) : Ptr := if h.current_read_p.isNone then h.head.first else h.current_read_p

/-- Step to the next block once the current one counts as empty; `none` when
    there is no next block. -/
def read_advance (h : MFile) : Except Fault (Option MFile) :=
  if h.is_empty then do
    match ← h.head.next h.current_read_p with
    | none => .ok none
    | some a => .ok (some { h with current_read_p := some a })
  else .ok (some h)

/-- Note that the reader took `count` bytes of the current block. -/
def consume (h : MFile) (block : DataBlock) (count : Nat) : MFile :=
  { h with
    head := h.current_read_p.elim h.head fun a =>
      h.head.modify a fun block => { block with current_read_count := block.current_read_count + count }
    is_empty := block.current_read_count + count = block.current_write_count }

/-- `out` is what has been read so far. -/
def mread_loop : Nat → MFile → Int → List UInt8 → Except Fault (MFile × List UInt8)
  | fuel, h, len, out =>
    if (out.length : Int) < len then
      match fuel with
      | 0 => .error .outOfFuel
      | fuel + 1 => do
        match ← read_advance h with
        | none => .ok (h, out)
        | some h => do
          let block ← h.head.read h.current_read_p
          if block.current_write_count ≤ block.current_read_count then .ok (h, out)
          else
            let could_read := block.current_write_count - block.current_read_count
            let rest := (len - out.length).toNat
            if rest ≤ could_read then
              let bytes ← slice block.data block.current_read_count rest
              .ok (consume h block rest, out ++ bytes)
            else
              let bytes ← slice block.data block.current_read_count could_read
              mread_loop fuel { consume h block could_read with is_empty := true } len (out ++ bytes)
    else .ok (h, out)

/-- The return value and the bytes stored through `data`. -/
def mread (h : MFile) (len : Int) : Except Fault (MFile × Int × List UInt8) :=
  match read_start h with
  | none => .ok (h, -1, [])
  | some a => do
    let (h, out) ← mread_loop len.toNat { h with current_read_p := some a } len []
    .ok (h, out.length, out)

/-- A read outside the block's buffer yields `beyond`. -/
def mgetc (h : MFile) (beyond : UInt8) : Except Fault (MFile × UInt8) :=
  match read_start h with
  | none => .ok (h, 0)
  | some a => do
    let h := { h with current_read_p := some a }
    match ← read_advance h with
    | none => .ok (h, 0)
    | some h => do
      let block ← h.head.read h.current_read_p
      .ok (consume h block 1, block.data.getD block.current_read_count beyond)

/-! ## Seeking -/

def mseek (h : MFile) : MFile :=
  { h with
    is_empty := false
    current_read_p := none
    head := h.head.map fun x => (x.1, { x.2 with current_read_count := 0 }) }

/-- The loop of `mseek_pos`: the queue with the one read count that it sets, and
    the block it stops at. -/
def seek_loop : Tailq DataBlock → Int → Tailq DataBlock × Ptr
  | [], _ => ([], none)
  | (a, block) :: q, pos =>
    if pos ≤ block.current_write_count then
      ((a, { block with current_read_count := pos.toNat }) :: q, some a)
    else
      let (q, p) := seek_loop q (pos - block.current_write_count)
      ((a, block) :: q, p)

def mseek_pos (h : MFile) (pos : Int) : MFile :=
  let pos := if pos < 0 then 0 else pos
  let h := mseek h
  let (head, p) := seek_loop h.head pos
  { h with head := head, current_read_p := if p.isSome then p else h.current_read_p }

/-! ## Lines -/

/-- The byte that a pass of the line loop begins with: the next one, or the one
    held back. -/
def line_char (h : MFile) (beyond : UInt8) : Except Fault (MFile × UInt8) :=
  if h.ccache = 10 then mgetc h beyond else .ok ({ h with ccache := 13 }, h.ccache)

/-- The loop of `mread_line`; `d` is the offset in the buffer. It returns 0 when
    the buffer is used up before a line ends. -/
def mread_line_loop (beyond : Nat → UInt8) : Nat → MFile → List UInt8 → Nat → Int →
    Except Fault (MFile × List UInt8 × Nat)
  | 0, _, _, _, _ => .error .outOfFuel
  | fuel + 1, h, buf, d, n => do
    let (h, c) ← line_char h (beyond d)
    let buf ← blit buf d [c]
    if c = 13 then
      let (h, ccache) ← mgetc h (beyond (d + 1))
      let h := { h with ccache := ccache }
      if ccache = 0 then
        let buf ← blit buf (d + 1) [10]
        let buf ← blit buf (d + 2) [0]
        .ok (h, buf, d + 2)
      else if ccache ≠ 10 then .ok (h, buf, d + 1)
      else
        let buf ← blit buf (d + 1) [ccache]
        .ok (h, buf, d + 2)
    else if c = 10 then .ok (h, buf, d + 1)
    else if c = 0 then .ok (h, buf, d)
    else if n - 1 > 0 then mread_line_loop beyond fuel h buf (d + 1) (n - 1)
    else .ok (h, buf, 0)

/-- The return value comes last. A read outside a block at offset `d` of the
    buffer yields `beyond d`. -/
def mread_line (h : MFile) (buf : List UInt8) (n : Int) (beyond : Nat → UInt8) :
    Except Fault (MFile × List UInt8 × Nat) :=
  if n - 1 < 0 then .error .outOfBounds
  else do
    let buf ← blit buf (n - 1).toNat [0]
    if n - 2 ≠ 0 then mread_line_loop beyond n.toNat h buf 0 (n - 2) else .ok (h, buf, 0)

/-! ## Sizes and copies -/

def msize (h : MFile) : Int := h.total_size

def mfile_new_header_size (h : MFile) : Nat := h.new_header_size

/-- An `unsigned int` as an `int`. -/
def as_int (x : UInt32) : Int := if x.toNat < 2 ^ 31 then x.toNat else x.toNat - 2 ^ 32

/-- The loop of `mfile_copy`; false means that it returned -1. -/
def mfile_copy_loop (alloc : Alloc) : Nat → MFile → MFile → Nat → Nat → Except Fault (MFile × MFile × Bool)
  | fuel, dest, src, i, stop =>
    if i < stop then
      match fuel with
      | 0 => .error .outOfFuel
      | fuel + 1 => do
        let j := min (stop - i) 1024
        let (src, ret, buffer) ← mread src j
        if ret ≤ 0 then .ok (dest, src, false)
        else
          let (dest, _) ← mwrite alloc dest buffer ret
          if ret < 1024 then .ok (dest, src, true)
          else mfile_copy_loop alloc fuel dest src (i + j) stop
    else .ok (dest, src, true)

/-- `alloc` is the allocator of `dest`. What `mwrite` returns is not looked at. -/
def mfile_copy (alloc : Alloc) (dest src : MFile) (start stop : UInt32) :
    Except Fault (MFile × MFile × Int) := do
  let (dest, src, copied) ← mfile_copy_loop alloc (stop.toNat - start.toNat) dest
    (mseek_pos src (as_int start)) start.toNat stop.toNat
  .ok (dest, src, if copied then as_int (stop - start) else -1)

/-! ## Runs -/

inductive Op where
  | mwrite (data : List UInt8) (len : Int)
  | mwrite_head (data : List UInt8) (len : Int)
  | mread (len : Int)
  | mgetc (beyond : UInt8)
  | mseek
  | mseek_pos (pos : Int)
deriving DecidableEq, Repr

inductive Outcome where
  | wrote (rc : Int)
  | read (rc : Int) (bytes : List UInt8)
  | got (c : UInt8)
  | sought
deriving DecidableEq, Repr

def exec (alloc : Alloc) (h : MFile) : Op → Except Fault (MFile × Outcome)
  | .mwrite data len => do
    let (h, rc) ← mwrite alloc h data len
    .ok (h, .wrote rc)
  | .mwrite_head data len => do
    let (h, rc) ← mwrite_head alloc h data len
    .ok (h, .wrote rc)
  | .mread len => do
    let (h, rc, bytes) ← mread h len
    .ok (h, .read rc bytes)
  | .mgetc beyond => do
    let (h, c) ← mgetc h beyond
    .ok (h, .got c)
  | .mseek => .ok (mseek h, .sought)
  | .mseek_pos pos => .ok (mseek_pos h pos, .sought)

/-- All calls on one handle. -/
inductive Call where
  | op (op : Op)
  | mread_line (buf : List UInt8) (n : Int) (beyond : Nat → UInt8)

inductive Reply where
  | outcome (outcome : Outcome)
  | line (r : Nat) (buf : List UInt8)
deriving DecidableEq, Repr

def perform (alloc : Alloc) (h : MFile) : Call → Except Fault (MFile × Reply)
  | .op op => do
    let (h, outcome) ← exec alloc h op
    .ok (h, .outcome outcome)
  | .mread_line buf n beyond => do
    let (h, buf, r) ← mread_line h buf n beyond
    .ok (h, .line r buf)

end code_tools.mfile
