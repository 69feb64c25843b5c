import ScriptLint.Location.OffsetRange
import ScriptLint.Markup.Attribute

/-!
Script elements as they stand in the scanned text, and the ways in which XML markup can be broken.
-/
namespace ScriptLint
set_option autoImplicit false

structure Element where
  /-- Offset of the `<` of the opening tag. -/
  tagStart : Nat
  content : OffsetRange
  attributes : List Attribute
  /-- Markup inside the content that is no script text. -/
  masks : List OffsetRange
  deriving DecidableEq, Repr

inductive Enclosure where
  | comment
  | cdata
  | declaration
  | instruction
  | tag
  deriving DecidableEq, Repr

def Enclosure.name : Enclosure → String
  | comment => "comment"
  | cdata => "CDATA section"
  | declaration => "declaration"
  | instruction => "processing instruction"
  | tag => "tag"

/-- What can be wrong with the attributes of an XML tag. Positions count from the byte after the `<`. -/
inductive AttributeFault where
  | equalsExpected (position : Nat)
  | duplicated (position previous : Nat)
  | valueExpected (position : Nat)
  | unquoted (position : Nat)
  | quoteExpected (position : Nat) (quote : UInt8)
  deriving DecidableEq, Repr

namespace AttributeFault

def message : AttributeFault → String
  | equalsExpected p => "position " ++ toString p ++ ": attribute key must be directly followed by `=` or space"
  | duplicated p q =>
    "position " ++ toString p ++ ": duplicated attribute, previous declaration at position " ++ toString q
  | valueExpected p => "position " ++ toString p ++ ": `=` must be followed by an attribute value"
  | unquoted p => "position " ++ toString p ++ ": attribute value must be enclosed in `\"` or `'`"
  | quoteExpected p quote =>
    "position " ++ toString p ++ ": missing closing quote `" ++ Utf8.decode [quote] ++ "` in attribute value"

end AttributeFault

inductive MarkupFault where
  | unmatchedClose (name : Bytes)
  | unknown
  | namelessDoctype
  deriving DecidableEq, Repr

namespace MarkupFault

def message : MarkupFault → String
  | unmatchedClose name =>
    "ill-formed document: close tag `</" ++ Utf8.decode name ++ ">` does not match any open tag"
  | unknown => "syntax error: unknown or missed symbol in markup"
  | namelessDoctype => "ill-formed document: `<!DOCTYPE>` declaration does not contain a name of a document type"

end MarkupFault

/-- Why a document cannot be scanned, with the offset of the construct at fault. -/
inductive ScanError where
  | unexpectedToken (token : Bytes) (offset : Nat)
  | unterminated (enclosure : Enclosure) (offset : Nat)
  | invalidAttribute (fault : AttributeFault) (offset : Nat)
  | unclosedElement (tag : Bytes) (offset : Nat)
  | malformed (fault : MarkupFault) (offset : Nat)
  deriving DecidableEq, Repr

namespace ScanError

def offset : ScanError → Nat
  | unexpectedToken _ offset | unterminated _ offset | invalidAttribute _ offset | unclosedElement _ offset
  | malformed _ offset => offset

def message : ScanError → String
  | unexpectedToken token _ => "Unexpected token " ++ Utf8.decode token
  | unterminated enclosure _ => "Unterminated " ++ enclosure.name
  | invalidAttribute fault _ => "Invalid attribute: " ++ fault.message
  | unclosedElement tag _ => "Unclosed <" ++ Utf8.decode tag ++ "> element"
  | malformed fault _ => fault.message

end ScanError
end ScriptLint
