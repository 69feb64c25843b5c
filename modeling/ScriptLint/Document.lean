import ScriptLint.Text.Utf8
import ScriptLint.Text.Newline
import ScriptLint.Location.LineIndex

/-!
A markup document: the text as it is stored, the same text with line feeds only, and a line table of each. Both texts
have the same lines and columns and differ in the offsets after a carriage return.
-/
namespace ScriptLint
set_option autoImplicit false

structure Document where
  raw : Bytes
  deriving DecidableEq, Repr

namespace Document

/-- The text that is scanned, with line feeds only. -/
def text (d : Document) : Bytes := Newline.normalize d.raw

def newline (d : Document) : Newline := Newline.detect d.raw

def lines (d : Document) : LineIndex := LineIndex.ofBytes d.text

def rawLines (d : Document) : LineIndex := LineIndex.ofBytes d.raw

def position (d : Document) (offset : Nat) : Position := d.lines.position offset

def rawOffset? (d : Document) (p : Position) : Option Nat := d.rawLines.offset? p

/-- The offset in the stored text of an offset of the scanned one: the same line and column. -/
def toRawOffset (d : Document) (offset : Nat) : Nat :=
  let p := d.position offset
  match d.rawLines.lineStart? p.line with
  | some start => start + p.character
  | none => d.raw.length

def lineText? (d : Document) (line : Nat) : Option Bytes := do
  let start ← d.lines.lineStart? line
  let stop ← d.lines.lineEnd? line
  Utf8.slice? d.text start stop

def lineIndent (d : Document) (line : Nat) : Bytes :=
  match d.lineText? line with
  | some line => line.leadingBlank
  | none => []

end Document
end ScriptLint
