import ScriptLint.Text.WhiteSpace
import ScriptLint.Data.Value

/-!
Which base indentation script lines are expected to carry: that of the block's own first line, a number of spaces, or
that of the opening tag's line with spaces added or taken away.
-/
namespace ScriptLint
set_option autoImplicit false

inductive Indent where
  | auto
  | absolute (width : Nat)
  | relative (shift : Int)
  deriving DecidableEq, Repr

namespace Indent

def decimal (digits : List Char) : Nat := digits.foldl (fun n c => n * 10 + (c.toNat - 0x30)) 0

def number? (limit : Nat) (digits : List Char) : Option Nat :=
  if !digits.isEmpty && digits.all Char.isDigit && decimal digits < limit then some (decimal digits) else none

def widthLimit : Nat := Nat.pow 2 64

def shiftLimit : Nat := Nat.pow 2 63

def isAuto (s : List Char) : Bool := s.map Char.toLower == ['a', 'u', 't', 'o']

def parseChars? (s : List Char) : Option Indent :=
  if isAuto s then some auto
  else
    match s with
    | [] => none
    | c :: rest =>
      if c = '+' then (number? shiftLimit rest).map fun n : Nat => relative n
      else if c = '-' then (number? shiftLimit rest).map fun n : Nat => relative (-n)
      else (number? widthLimit s).map absolute

/-- Reads `auto`, a width such as `4`, or a shift such as `+2` and `-2`, with white space around it. -/
def parse? (s : String) : Option Indent := parseChars? (WhiteSpace.trimChars s.toList)

def text : Indent → String
  | auto => "auto"
  | absolute width => toString width
  | relative shift => if shift < 0 then toString shift else "+" ++ toString shift

/-- A width is a number as long as it fits 63 bits; all else is a text. -/
def toValue : Indent → Value
  | absolute width => if width < shiftLimit then .int width else .string (toString width)
  | other => .string other.text

end Indent
end ScriptLint
