import CodeTools.Lib.Buffer

/-!
# The growable strings of `stralloc.c`

`len` and `a` are `int` fields that the code uses as unsigned numbers; they are
kept as 32-bit patterns. Sums of them are reduced modulo 2^32 where the source
computes them in `unsigned int`.
-/

namespace code_tools.stralloc

open cmem

def ALIGNMENT : Nat := 16

def SPACE : Nat := 4096

/-- Where a block lies: at an offset of the static array `space`, or in memory
    from `malloc`. -/
inductive Origin where
  | space (offset : Nat)
  | malloc
deriving DecidableEq, Repr

structure Block where
  origin : Origin
  bytes : List UInt8
deriving DecidableEq, Repr

/-- The static allocator state, with the blocks that were handed to `free`. -/
structure Pool where
  avail : Nat
  freed : List Block
deriving DecidableEq, Repr

/-- What the environment decides about one allocation: whether `malloc` succeeds
    if it is called, and what the memory happens to hold. -/
structure Allocation where
  success : Bool
  junk : Nat → UInt8

structure Stralloc where
  s : Option Block
  len : Nat
  a : Nat
deriving DecidableEq, Repr

def Stralloc.zero : Stralloc := { s := none, len := 0, a := 0 }

/-! ## Memory -/

def _alloc (pool : Pool) (n : Nat) (alloc : Allocation) : Pool × Option Block :=
  let n := (ALIGNMENT + n - (n &&& (ALIGNMENT - 1))) % 2 ^ 32
  let bytes := (List.range n).map alloc.junk
  if n ≤ pool.avail then
    ({ pool with avail := pool.avail - n }, some { origin := .space (pool.avail - n), bytes := bytes })
  else if alloc.success then (pool, some { origin := .malloc, bytes := bytes })
  else (pool, none)

def _alloc_free (pool : Pool) (x : Block) : Pool :=
  match x.origin with
  | .space offset => if offset < SPACE then pool else { pool with freed := pool.freed ++ [x] }
  | .malloc => { pool with freed := pool.freed ++ [x] }

/-- The new block with the first `m` bytes of the old one, which is released;
    `none` when there is no memory. -/
def _alloc_re (pool : Pool) (x : Block) (m n : Nat) (alloc : Allocation) :
    Except Fault (Pool × Option Block) :=
  match _alloc pool n alloc with
  | (pool, none) => .ok (pool, none)
  | (pool, some y) => do
    let old ← slice x.bytes 0 m
    let bytes ← blit y.bytes 0 old
    .ok (_alloc_free pool x, some { y with bytes := bytes })

/-! ## Growth -/

/-- The common body of `stralloc_ready` and `stralloc_readyplus`: room for `n`
    bytes in a string that has a buffer, or a first buffer of `first` bytes. -/
def ready_with (pool : Pool) (x : Stralloc) (n first : Nat) (alloc : Allocation) :
    Except Fault (Pool × Stralloc × Bool) :=
  match x.s with
  | some s =>
    let i := x.a
    if n > i then do
      let a := (30 + n + (n >>> 3)) % 2 ^ 32
      match ← _alloc_re pool s i a alloc with
      | (pool, some y) => .ok (pool, { x with s := some y, a := a }, true)
      | (pool, none) => .ok (pool, { x with a := i }, false)
    else .ok (pool, x, true)
  | none =>
    let (pool, y) := _alloc pool first alloc
    .ok (pool, { s := y, len := 0, a := first }, y.isSome)

def stralloc_ready (pool : Pool) (x : Stralloc) (n : Nat) (alloc : Allocation) :
    Except Fault (Pool × Stralloc × Bool) :=
  ready_with pool x n n alloc

def stralloc_readyplus (pool : Pool) (x : Stralloc) (n : Nat) (alloc : Allocation) :
    Except Fault (Pool × Stralloc × Bool) :=
  ready_with pool x ((n + x.len) % 2 ^ 32) n alloc

/-! ## Copying and appending -/

/-- A write at an offset that the source computes in an `int`. -/
def blit_int (dst : List UInt8) (off : Nat) (bytes : List UInt8) : Except Fault (List UInt8) :=
  if off < 2 ^ 31 then blit dst off bytes else .error .outOfBounds

/-- `s` is the memory that the caller's pointer refers to. -/
def stralloc_copyb (pool : Pool) (sa : Stralloc) (s : List UInt8) (n : Nat) (alloc : Allocation) :
    Except Fault (Pool × Stralloc × Bool) := do
  match ← stralloc_ready pool sa ((n + 1) % 2 ^ 32) alloc with
  | (pool, sa, false) => .ok (pool, sa, false)
  | (pool, sa, true) =>
    match sa.s with
    | none => .error .nullPointer
    | some block => do
      let src ← slice s 0 n
      let bytes ← blit block.bytes 0 src
      let bytes ← blit bytes n [0]
      .ok (pool, { sa with s := some { block with bytes := bytes }, len := n }, true)

def strlen (s : List UInt8) : Nat := (s.takeWhile (· ≠ 0)).length

def stralloc_copys (pool : Pool) (sa : Stralloc) (s : List UInt8) (alloc : Allocation) :
    Except Fault (Pool × Stralloc × Bool) :=
  stralloc_copyb pool sa s (strlen s % 2 ^ 32) alloc

/-- The memory behind the `s` of a source string; there is none behind `NULL`. -/
def Stralloc.memory (x : Stralloc) : List UInt8 := x.s.elim [] Block.bytes

def stralloc_copy (pool : Pool) (sa_dst sa_src : Stralloc) (alloc : Allocation) :
    Except Fault (Pool × Stralloc × Bool) :=
  stralloc_copyb pool sa_dst sa_src.memory sa_src.len alloc

def stralloc_catb (pool : Pool) (sa : Stralloc) (s : List UInt8) (n : Nat) (alloc : Allocation) :
    Except Fault (Pool × Stralloc × Bool) :=
  if sa.s.isNone then stralloc_copyb pool sa s n alloc
  else do
    match ← stralloc_readyplus pool sa ((n + 1) % 2 ^ 32) alloc with
    | (pool, sa, false) => .ok (pool, sa, false)
    | (pool, sa, true) =>
      match sa.s with
      | none => .error .nullPointer
      | some block => do
        let src ← slice s 0 n
        let bytes ← blit_int block.bytes sa.len src
        let len := (sa.len + n) % 2 ^ 32
        let bytes ← blit_int bytes len [0]
        .ok (pool, { sa with s := some { block with bytes := bytes }, len := len }, true)

def stralloc_cats (pool : Pool) (sa : Stralloc) (s : List UInt8) (alloc : Allocation) :
    Except Fault (Pool × Stralloc × Bool) :=
  stralloc_catb pool sa s (strlen s % 2 ^ 32) alloc

def stralloc_cat (pool : Pool) (sa_dst sa_src : Stralloc) (alloc : Allocation) :
    Except Fault (Pool × Stralloc × Bool) :=
  stralloc_catb pool sa_dst sa_src.memory sa_src.len alloc

def stralloc_free (pool : Pool) (x : Stralloc) : Pool × Stralloc :=
  match x.s with
  | some s => (_alloc_free pool s, Stralloc.zero)
  | none => (pool, x)

/-! ## Runs -/

inductive Op where
  | ready (n : Nat)
  | readyplus (n : Nat)
  | copyb (s : List UInt8) (n : Nat)
  | copys (s : List UInt8)
  | copy (sa_src : Stralloc)
  | catb (s : List UInt8) (n : Nat)
  | cats (s : List UInt8)
  | cat (sa_src : Stralloc)
  | free
deriving DecidableEq, Repr

/-- One call on the string `x`; `stralloc_free` counts as successful. -/
def call (pool : Pool) (x : Stralloc) (alloc : Allocation) : Op → Except Fault (Pool × Stralloc × Bool)
  | .ready n => stralloc_ready pool x n alloc
  | .readyplus n => stralloc_readyplus pool x n alloc
  | .copyb s n => stralloc_copyb pool x s n alloc
  | .copys s => stralloc_copys pool x s alloc
  | .copy sa_src => stralloc_copy pool x sa_src alloc
  | .catb s n => stralloc_catb pool x s n alloc
  | .cats s => stralloc_cats pool x s alloc
  | .cat sa_src => stralloc_cat pool x sa_src alloc
  | .free =>
    let (pool, x) := stralloc_free pool x
    .ok (pool, x, true)

end code_tools.stralloc
