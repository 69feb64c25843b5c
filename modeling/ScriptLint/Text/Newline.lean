import ScriptLint.Text.Byte

/-!
Line break conventions. The first line break of a text decides which one it follows, and a text with carriage returns
before its line feeds can be read as one without them.
-/
namespace ScriptLint
set_option autoImplicit false

inductive Newline where
  | lf
  | crlf
  deriving DecidableEq, Repr

namespace Newline

def name : Newline → String
  | lf => "lf"
  | crlf => "crlf"

def bytes : Newline → Bytes
  | lf => [Byte.lineFeed]
  | crlf => [Byte.carriageReturn, Byte.lineFeed]

/-- The convention of the first line break; a text without one has line feeds. -/
def detect : Bytes → Newline
  | [] => lf
  | [_] => lf
  | a :: b :: rest =>
    if a = Byte.lineFeed then lf
    else if b = Byte.lineFeed then (if a = Byte.carriageReturn then crlf else lf)
    else detect (b :: rest)

/-- The text with every carriage return and line feed pair read as a line feed. -/
def normalize : Bytes → Bytes
  | [] => []
  | [a] => [a]
  | a :: b :: rest =>
    if a = Byte.carriageReturn ∧ b = Byte.lineFeed then b :: normalize rest
    else a :: normalize (b :: rest)

def toCrlf (s : Bytes) : Bytes :=
  s.flatMap fun b => if b = Byte.lineFeed then crlf.bytes else [b]

end Newline
end ScriptLint
