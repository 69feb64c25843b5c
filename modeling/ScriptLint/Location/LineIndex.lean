import ScriptLint.Text.Byte
import ScriptLint.Location.Position

/-!
The line table of a text: where each line starts. Only a line feed ends a line, so a carriage return before it is the
last byte of its line and moves no column.
-/
namespace ScriptLint
set_option autoImplicit false

structure LineIndex where
  starts : List Nat
  length : Nat
  deriving DecidableEq, Repr

namespace LineIndex

/-- The offsets just past the line feeds of a text that begins at `offset`. -/
def startsAfter (offset : Nat) : Bytes → List Nat
  | [] => []
  | b :: rest =>
    if b = Byte.lineFeed then (offset + 1) :: startsAfter (offset + 1) rest
    else startsAfter (offset + 1) rest

def ofBytes (s : Bytes) : LineIndex := ⟨0 :: startsAfter 0 s, s.length⟩

def lineCount (ix : LineIndex) : Nat := ix.starts.length

def lineStart? (ix : LineIndex) (line : Nat) : Option Nat := ix.starts[line]?

def lineEnd? (ix : LineIndex) (line : Nat) : Option Nat :=
  if line < ix.lineCount then
    match ix.lineStart? (line + 1) with
    | some next => some (next - 1)
    | none => some ix.length
  else none

/-- Line and column of an offset; one past the end counts as the end. -/
def lineColumn (ix : LineIndex) (offset : Nat) : Nat × Nat :=
  let inside := min offset ix.length
  let line := (ix.starts.takeWhile (· ≤ inside)).length - 1
  (line, inside - (ix.lineStart? line).getD 0)

def position (ix : LineIndex) (offset : Nat) : Position :=
  ⟨wrapWord (ix.lineColumn offset).1, wrapWord (ix.lineColumn offset).2⟩

/-- The offset of a position whose line exists and whose column does not go past that line's end. -/
def offset? (ix : LineIndex) (p : Position) : Option Nat :=
  match ix.lineStart? p.line, ix.lineEnd? p.line with
  | some start, some stop => if start + p.character ≤ stop then some (start + p.character) else none
  | _, _ => none

@[simp] theorem length_ofBytes (s : Bytes) : (ofBytes s).length = s.length := rfl

end LineIndex
end ScriptLint
