import CodeTools.Lib.CString

/-!
# One line of an ini file

`iniparser_line` of `iniparser.c`. The formats of its `sscanf` calls are named
after what they accept.
-/

namespace code_tools.iniparser

open cstring

def ASCIILINESZ : Nat := 1024

inductive line_status where
  | LINE_UNPROCESSED
  | LINE_ERROR
  | LINE_EMPTY
  | LINE_COMMENT
  | LINE_SECTION
  | LINE_VALUE
deriving DecidableEq, Repr

def BACKSLASH : UInt8 := 92

def DOUBLE_QUOTE : UInt8 := 34

def SINGLE_QUOTE : UInt8 := 39

def HASH : UInt8 := '#'.toUInt8

def SEMICOLON : UInt8 := ';'.toUInt8

def EQUALS : UInt8 := '='.toUInt8

def OPENING : UInt8 := '['.toUInt8

def CLOSING : UInt8 := ']'.toUInt8

def strlwc (s : List UInt8) : List UInt8 := (s.take ASCIILINESZ).map tolower

def strstrip (s : List UInt8) : List UInt8 := strip s

/-! ## Formats -/

/-- `[%[^]]` -/
def section_format : List Directive := [.char OPENING, .set (· ≠ CLOSING)]

/-- `%[^=] = "%[^"]"`, or the same with single quotes. -/
def quoted_format (quote : UInt8) : List Directive :=
  [.set (· ≠ EQUALS), .space, .char EQUALS, .space, .char quote, .set (· ≠ quote), .char quote]

/-- `%[^=] = %[^;#]` -/
def plain_format : List Directive :=
  [.set (· ≠ EQUALS), .space, .char EQUALS, .space, .set fun c => c ≠ SEMICOLON && c ≠ HASH]

/-- `%[^=] = %[;#]` -/
def comment_format : List Directive :=
  [.set (· ≠ EQUALS), .space, .char EQUALS, .space, .set fun c => c = SEMICOLON || c = HASH]

/-- `%[^=] %[=]` -/
def no_value_format : List Directive := [.set (· ≠ EQUALS), .space, .set (· = EQUALS)]

/-- Whether one of the formats, tried in order, stores two fields; each format
    that is tried leaves the fields it stored in `key` and `value`. -/
def sscanf_any (line : List UInt8) :
    List (List Directive) → List UInt8 → List UInt8 → Bool × List UInt8 × List UInt8
  | [], key, value => (false, key, value)
  | format :: formats, key, value =>
    let fields := sscanf format line
    let key := fields.getD 0 key
    let value := fields.getD 1 value
    if fields.length = 2 then (true, key, value) else sscanf_any line formats key value

/-! ## The line -/

structure Line where
  sta : line_status
  section_ : List UInt8
  key : List UInt8
  value : List UInt8
deriving DecidableEq, Repr

def iniparser_line (input_line section_ key value : List UInt8) : Line :=
  let line := strstrip input_line
  if line.length < 1 then { sta := .LINE_EMPTY, section_, key, value }
  else if line.head? = some HASH then { sta := .LINE_COMMENT, section_, key, value }
  else if line.head? = some OPENING ∧ line.getLast? = some CLOSING then
    -- the scan of `[]` stores nothing and the section stays what it was
    let section_ := (sscanf section_format line).getD 0 section_
    { sta := .LINE_SECTION, section_ := strlwc (strstrip section_), key, value }
  else
    let (two, key, value) :=
      sscanf_any line [quoted_format DOUBLE_QUOTE, quoted_format SINGLE_QUOTE, plain_format] key value
    if two then
      let value := strstrip value
      { sta := .LINE_VALUE
        section_
        key := strlwc (strstrip key)
        value := if value = [DOUBLE_QUOTE, DOUBLE_QUOTE] ∨ value = [SINGLE_QUOTE, SINGLE_QUOTE] then []
          else value }
    else
      let (two, key, value) := sscanf_any line [comment_format, no_value_format] key value
      if two then { sta := .LINE_VALUE, section_, key := strlwc (strstrip key), value := [] }
      else { sta := .LINE_ERROR, section_, key, value }

/-- How a line is classified, which depends on the line alone. -/
def status (line : List UInt8) : line_status := (iniparser_line line [] [] []).sta

theorem sscanf_any_fst (line : List UInt8) (formats : List (List Directive)) (key value : List UInt8) :
    (sscanf_any line formats key value).1 =
      formats.any fun format => (sscanf format line).length = 2 := by
  induction formats generalizing key value with
  | nil => rfl
  | cons format formats ih =>
    unfold sscanf_any
    dsimp only
    by_cases htwo : (sscanf format line).length = 2
    · rw [if_pos htwo]
      simp [htwo]
    · rw [if_neg htwo, ih]
      simp [htwo]

theorem iniparser_line_sta (line section_ key value : List UInt8) :
    (iniparser_line line section_ key value).sta = status line := by
  unfold status iniparser_line
  dsimp only
  split
  case isTrue => rfl
  case isFalse =>
  split
  case isTrue => rfl
  case isFalse =>
  split
  case isTrue => rfl
  case isFalse =>
  simp only [sscanf_any_fst]
  split
  case isTrue => rfl
  case isFalse => split <;> rfl

/-- Blanks at the end of a line make no difference. -/
theorem iniparser_line_congr {line line' : List UInt8} (hsame : strip line = strip line') :
    iniparser_line line = iniparser_line line' := by
  funext section_ key value
  unfold iniparser_line strstrip
  rw [hsame]

end code_tools.iniparser
