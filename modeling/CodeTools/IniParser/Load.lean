import CodeTools.IniParser.Dictionary
import CodeTools.IniParser.Line

/-!
# The two readers of `iniparser.c`

`iniparser_load` reads a file, `iniparser_load_mem` a buffer. Positions are
natural numbers, `tmp` is as long as the name built in it, and the messages and
line numbers written to `stderr` are left out. A loop returns `none` when it runs
out of fuel.
-/

namespace code_tools.iniparser

open cstring

/-! ## What the readers share -/

/-- The variables that one line hands to the next. -/
structure Parser where
  section_ : List UInt8
  key : List UInt8
  val : List UInt8
  errs : Int
  dict : dictionary
deriving DecidableEq, Repr

def Parser.start : Parser :=
  { section_ := [], key := [], val := [], errs := 0, dict := dictionary_new 0 }

/-- The loop that gets rid of blanks at the end of a line, downwards from the
    index before `len`; the result counts the bytes that are left. -/
def trim (line : List UInt8) : Nat → List UInt8 × Nat
  | 0 => (line, 0)
  | len + 1 =>
    if line.getD len 0 = LF ∨ isspace (line.getD len 0) = true then trim (line.set len 0) len
    else (line, len + 1)

/-- Whether the last byte that `trim` left is a backslash; there is none before
    the line. -/
def continues (line : List UInt8) : Nat → Bool
  | 0 => false
  | len + 1 => line.getD len 0 = BACKSLASH

/-- The `switch` over the status of a line. -/
def process (p : Parser) (line : List UInt8) : Parser :=
  let l := iniparser_line line p.section_ p.key p.val
  let p := { p with section_ := l.section_, key := l.key, val := l.value }
  match l.sta with
  | .LINE_EMPTY => p
  | .LINE_COMMENT => p
  | .LINE_SECTION =>
    let (dict, errs) := dictionary_set p.dict p.section_ none
    { p with dict := dict, errs := errs }
  | .LINE_VALUE =>
    let tmp := p.section_ ++ [':'.toUInt8] ++ p.key
    let (dict, errs) := dictionary_set p.dict tmp (some p.val)
    { p with dict := dict, errs := errs }
  | .LINE_ERROR => { p with errs := p.errs + 1 }
  | .LINE_UNPROCESSED => p

/-- The end of both readers. -/
def Parser.result (p : Parser) : Option dictionary := if p.errs ≠ 0 then none else some p.dict

/-! ## The file reader -/

def load_loop : Nat → List UInt8 → Nat → List UInt8 → Parser → Option (Option dictionary)
  | 0, _, _, _, _ => none
  | fuel + 1, line, last, stream, p =>
    match fgets (ASCIILINESZ - last) stream with
    | none => some p.result
    | some (bytes, stream) =>
      let line := terminated (line.take last ++ bytes)
      -- the line is too long
      if line.getLast? ≠ some LF then some none
      else
        let (line, len) := trim line line.length
        if continues line len then load_loop fuel line (len - 1) stream p
        else
          let p := process p (terminated line)
          if p.errs < 0 then some p.result else load_loop fuel [] 0 stream p

/-- The argument is the content of the file, `none` when it cannot be opened. -/
def iniparser_load (file : Option (List UInt8)) : Option (Option dictionary) :=
  match file with
  | none => some none
  | some stream => load_loop (stream.length + 1) [] 0 stream Parser.start

/-! ## The buffer reader -/

/-- What `getnstr` leaves in `buf`, what it returns, and how many bytes of `str` it
    has read. -/
structure Getnstr where
  buf : List UInt8
  r : Nat
  seen : Nat
deriving DecidableEq, Repr

/-- The end of the line at `str i` with room for `n + 1` bytes. -/
def getnstr_end (str : Nat → UInt8) (i n : Nat) : Getnstr :=
  let seen := if str i = CR then i + 2 else i + 1
  if str i = CR ∧ str (i + 1) = LF ∧ n ≠ 0 then
    if n - 1 ≠ 0 then { buf := [str i, str (i + 1), 0], r := i + 2, seen }
    else { buf := [str i, 0], r := i + 1, seen }
  else if n ≠ 0 then { buf := [str i, 0], r := i + 1, seen }
  else { buf := [0], r := i, seen }

def is_end (c : UInt8) : Bool := c = CR || c = LF || c = 0

def getnstr_loop (str : Nat → UInt8) (i : Nat) : Nat → Getnstr
  | 0 => { buf := [], r := 0, seen := i }
  | n + 1 =>
    if is_end (str i) then getnstr_end str i n
    else
      let rest := getnstr_loop str (i + 1) n
      { rest with buf := str i :: rest.buf }

def getnstr (str : Nat → UInt8) (n : Nat) : Getnstr := getnstr_loop str 0 n

/-- One call of `getnstr`: it read `seen` bytes from `start` on. -/
structure Read where
  start : Nat
  seen : Nat
deriving DecidableEq, Repr

/-- The loop of `iniparser_load_mem`, with the reads it makes. -/
def load_mem_loop (ini : Nat → UInt8) (inilen : Nat) :
    Nat → List UInt8 → Nat → Nat → Parser → Option (Option dictionary × List Read)
  | 0, _, _, _, _ => none
  | fuel + 1, line, last, tpos, p =>
    let got := getnstr (fun i => ini (tpos + i)) (ASCIILINESZ - last)
    let read : Read := { start := tpos, seen := got.seen }
    if got.r ≠ 0 ∧ tpos < inilen then
      let tpos := tpos + got.r
      let line := terminated (line.take last ++ got.buf)
      -- `len` is the index of the terminator here, where the file reader has the last byte
      let (line, len) := trim line (line.length + 1)
      if continues line len then
        (load_mem_loop ini inilen fuel line (len - 1) tpos p).map (Prod.map id (read :: ·))
      else
        let p := process p (terminated line)
        if p.errs < 0 then some (p.result, [read])
        else (load_mem_loop ini inilen fuel [] 0 tpos p).map (Prod.map id (read :: ·))
    else some (p.result, [read])

def load_mem (ini : Nat → UInt8) (inilen : Nat) : Option (Option dictionary × List Read) :=
  load_mem_loop ini inilen (inilen + 1) [] 0 0 Parser.start

def iniparser_load_mem (ini : Nat → UInt8) (inilen : Nat) : Option (Option dictionary) :=
  (load_mem ini inilen).map Prod.fst

/-- A buffer: the text, its terminator and what happens to lie behind it. -/
def memory (text : List UInt8) (beyond : Nat → UInt8) (i : Nat) : UInt8 :=
  if i < text.length then text.getD i 0 else if i = text.length then 0 else beyond i

end code_tools.iniparser
