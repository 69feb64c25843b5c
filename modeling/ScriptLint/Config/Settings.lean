import ScriptLint.Config.Indent
import ScriptLint.Config.Path
import ScriptLint.Data.Mismatch
import ScriptLint.ScriptBlock

/-!
The settings of a run, and the values that describe them. Every setting has a default, so the empty description is one.
-/
namespace ScriptLint
set_option autoImplicit false

structure Settings where
  /-- Whether to read documents as XML; the extension decides when it is not set. -/
  xmlMode : Option Bool := none
  indent : Indent := .auto
  reportBadIndent : Bool := false
  xmlExtensions : List String := ["xhtml"]
  mediaTypes : List String := defaultMediaTypes
  deriving DecidableEq, Repr

namespace Settings

inductive Key where
  | xmlMode
  | indent
  | reportBadIndent
  | xmlExtensions
  | mediaTypes
  deriving DecidableEq, Repr

namespace Key

def name : Key → String
  | xmlMode => "xml-mode"
  | indent => "indent"
  | reportBadIndent => "report-bad-indent"
  | xmlExtensions => "xml-extensions"
  | mediaTypes => "javascript-mime-types"

def all : List Key := [xmlMode, indent, reportBadIndent, xmlExtensions, mediaTypes]

def ofName? (name : String) : Option Key := all.find? (·.name == name)

theorem ofName?_name (key : Key) : ofName? key.name = some key := by
  cases key <;> decide

end Key

def markupMode (settings : Settings) (path : String) : MarkupMode :=
  match settings.xmlMode with
  | some true => .xml
  | some false => .html
  | none => MarkupMode.ofPath path settings.xmlExtensions

inductive Fault where
  | mismatch (cause : Mismatch)
  | invalidIndent (text : String)
  deriving DecidableEq, Repr

def invalidIndentMessage (text : String) : String :=
  "Invalid indent `" ++ text ++ "`: expected \"auto\", a non-negative integer, \"+n\" or \"-n\""

def Fault.message : Fault → String
  | mismatch cause => cause.message
  | invalidIndent text => invalidIndentMessage text

def readBool : Value → Except Fault Bool
  | .bool b => .ok b
  | other => .error (.mismatch (.type other.found .boolean))

def readXmlMode : Value → Except Fault (Option Bool)
  | .null => .ok none
  | other => (readBool other).map some

def readIndent : Value → Except Fault Indent
  | .int n =>
    if n < -Int.pow 2 63 ∨ Int.pow 2 63 ≤ n then .error (.mismatch (.alternatives "RawIndent"))
    else if n < 0 then .error (.invalidIndent (toString n))
    else .ok (.absolute n.toNat)
  | .string s =>
    match Indent.parse? s with
    | some indent => .ok indent
    | none => .error (.invalidIndent s)
  | _ => .error (.mismatch (.alternatives "RawIndent"))

def readStrings : List Value → Except Fault (List String)
  | [] => .ok []
  | .string s :: more => (readStrings more).map (s :: ·)
  | other :: _ => .error (.mismatch (.type other.found .string))

def readList : Value → Except Fault (List String)
  | .array items => readStrings items
  | other => .error (.mismatch (.type other.found .sequence))

def put (settings : Settings) (key : Key) (value : Value) : Except Fault Settings :=
  match key with
  | .xmlMode => (readXmlMode value).map fun xmlMode => { settings with xmlMode }
  | .indent => (readIndent value).map fun indent => { settings with indent }
  | .reportBadIndent => (readBool value).map fun reportBadIndent => { settings with reportBadIndent }
  | .xmlExtensions => (readList value).map fun xmlExtensions => { settings with xmlExtensions }
  | .mediaTypes => (readList value).map fun mediaTypes => { settings with mediaTypes }

/-- The settings with the entries of a description put in, in order; entries of other names are passed over. -/
def putAll (settings : Settings) : List (String × Value) → Except Fault Settings
  | [] => .ok settings
  | (name, value) :: more =>
    match Key.ofName? name with
    | none => putAll settings more
    | some key =>
      match settings.put key value with
      | .ok next => putAll next more
      | .error fault => .error fault

def toValue (settings : Settings) : Value :=
  .object
    ((match settings.xmlMode with
      | some b => [(Key.xmlMode.name, .bool b)]
      | none => []) ++
      [(Key.indent.name, settings.indent.toValue), (Key.reportBadIndent.name, .bool settings.reportBadIndent),
       (Key.xmlExtensions.name, .array (settings.xmlExtensions.map .string)),
       (Key.mediaTypes.name, .array (settings.mediaTypes.map .string))])

end Settings
end ScriptLint
