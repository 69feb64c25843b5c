import ScriptLint.Location.Position
import ScriptLint.Diagnostic.Fix

/-!
Diagnostics: what an analyzer reports about a text. Lines and columns count from one. The same type serves for reports
about a virtual source and about a document.
-/
namespace ScriptLint
set_option autoImplicit false

inductive Severity where
  | error
  | warning
  | info
  | hint
  deriving DecidableEq, Repr

namespace Severity

def name : Severity → String
  | error => "error"
  | warning => "warning"
  | info => "info"
  | hint => "hint"

def all : List Severity := [error, warning, info, hint]

def ofName? (name : String) : Option Severity := all.find? (·.name == name)

end Severity

structure Diagnostic where
  line : Nat
  column : Nat
  endLine : Option Nat := none
  endColumn : Option Nat := none
  message : String
  severity : Severity := .error
  ruleId : Option String := none
  /-- Set when the text could not be read at all. -/
  fatal : Bool := false
  fix : Option Fix := none
  deriving DecidableEq, Repr

namespace Diagnostic

def warning (line column : Nat) (message : String) : Diagnostic :=
  { line, column, message, severity := .warning }

def stop (line column : Nat) (message : String) : Diagnostic :=
  { line, column, message, fatal := true }

def position? (d : Diagnostic) : Option Position := Position.ofOneBased? d.line d.column

def endPosition? (d : Diagnostic) : Option Position :=
  match d.endLine, d.endColumn with
  | some line, some column => Position.ofOneBased? line column
  | _, _ => none

def text (d : Diagnostic) : String :=
  toString d.line ++ ":" ++ toString d.column ++ " " ++ d.severity.name ++ " " ++ d.message ++
    match d.ruleId with
    | some rule => " (" ++ rule ++ ")"
    | none => ""

def le (a b : Diagnostic) : Bool := a.line < b.line || (a.line == b.line && a.column ≤ b.column)

/-- Diagnostics in order of their positions; those at one position keep their order. -/
def sort (diagnostics : List Diagnostic) : List Diagnostic := diagnostics.mergeSort le

end Diagnostic
end ScriptLint
