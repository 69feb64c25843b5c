import ScriptLint.Text.Utf8
import ScriptLint.Text.WhiteSpace

/-!
Attributes of opening tags, and the two markup languages. Names are compared without regard to case in HTML and exactly
in XML.
-/
namespace ScriptLint
set_option autoImplicit false

inductive MarkupMode where
  | html
  | xml
  deriving DecidableEq, Repr

namespace MarkupMode

def name : MarkupMode → String
  | html => "html"
  | xml => "xml"

def isXml (mode : MarkupMode) : Bool := mode == xml

def namesMatch (mode : MarkupMode) (s t : Bytes) : Bool :=
  match mode with
  | html => s.eqIgnoreCase t
  | xml => s == t

end MarkupMode

structure Attribute where
  name : Bytes
  /-- There is none for an HTML attribute without a value. -/
  value : Option Bytes
  deriving DecidableEq, Repr

namespace Attribute

def find? (mode : MarkupMode) (attributes : List Attribute) (name : Bytes) : Option Attribute :=
  attributes.find? fun attr => mode.namesMatch attr.name name

def typeName : Bytes := Bytes.ofAscii ['t', 'y', 'p', 'e']

def essence (value : Bytes) : List Char :=
  WhiteSpace.trimChars (Utf8.chars (value.takeWhile (· != Byte.semicolon)))

def lowerAscii (s : List Char) : List Char := s.map Char.toLower

def isScriptType (mediaTypes : List String) (value : Bytes) : Bool :=
  (essence value).isEmpty ||
    mediaTypes.any fun known => lowerAscii (WhiteSpace.trimChars known.toList) == lowerAscii (essence value)

/-- Whether an element with these attributes holds a script: its `type`, if it has one with a value, must be a script
type. -/
def denoteScript (mode : MarkupMode) (mediaTypes : List String) (attributes : List Attribute) : Bool :=
  match (find? mode attributes typeName).bind (·.value) with
  | none => true
  | some value => isScriptType mediaTypes value

end Attribute
end ScriptLint
