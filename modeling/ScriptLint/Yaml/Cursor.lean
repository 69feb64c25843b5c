/-!
A place in a YAML text. White space is not all alike: line breaks end simple keys, and what precedes the first mark of a
line is its indentation.
-/
namespace ScriptLint.Yaml
set_option autoImplicit false

def isBlank (c : Char) : Bool := c == ' ' || c == '\t'

def isBreak (c : Char) : Bool := c == '\n' || c == '\r'

def isFlowMark (c : Char) : Bool := c == ',' || c == '[' || c == ']' || c == '\x7b' || c == '\x7d'

def isWordChar (c : Char) : Bool := c.isAlphanum || c == '_' || c == '-'

def endsLine : Option Char → Bool
  | none => true
  | some c => isBreak c

def endsWord : Option Char → Bool
  | none => true
  | some c => isBlank c || isBreak c

structure Cursor where
  rest : List Char
  index : Nat := 0
  line : Nat := 0
  column : Nat := 0
  /-- Whether only white space has been passed on this line. -/
  fresh : Bool := true

namespace Cursor

def next? (c : Cursor) : Option Char := c.rest.head?

def second? (c : Cursor) : Option Char := (c.rest.drop 1).head?

def pass (c : Cursor) (count : Nat) : Cursor :=
  { c with rest := c.rest.drop count, index := c.index + count, column := c.column + count }

def skip (c : Cursor) (count : Nat) : Cursor := { c.pass count with fresh := false }

def passBreak (c : Cursor) : Cursor :=
  let count := if c.rest.take 2 = ['\r', '\n'] then 2 else 1
  { rest := c.rest.drop count, index := c.index + count, line := c.line + 1, column := 0, fresh := true }

def blanks (c : Cursor) : List Char := c.rest.takeWhile isBlank

def passComment (c : Cursor) : Cursor := c.pass (c.rest.takeWhile fun d => !isBreak d).length

/-- Passes blanks and a comment, which must stand apart from what is before it. -/
def passTrailing? (c : Cursor) : Option Cursor :=
  let after := c.pass c.blanks.length
  if after.next? = some '#' then
    if c.blanks.isEmpty then none else some after.passComment
  else some after

/-- Whether three equal characters start the line as a word, as they do between documents. -/
def isMarker (c : Cursor) (mark : Char) : Bool :=
  c.column == 0 && c.rest.take 3 == [mark, mark, mark] && endsWord (c.rest.drop 3).head?

def isDocumentMark (c : Cursor) : Bool := c.isMarker '-' || c.isMarker '.'

end Cursor

/-- White space inside a text that runs over several lines: the blanks before the first line break, and how many line
breaks there are. -/
structure Gap where
  blanks : List Char := []
  breaks : Nat := 0

/-- What a gap stands for: a single line break is a space, and of several the first does not count. -/
def Gap.text (gap : Gap) : List Char :=
  match gap.breaks with
  | 0 => gap.blanks
  | 1 => [' ']
  | n + 1 => List.replicate n '\n'

end ScriptLint.Yaml
