import ScriptLint.Diagnostic.Basic
import ScriptLint.Json.Typed

/-!
Diagnostics and fixes in data documents. What is absent or has its usual value is left out when it is written; a
severity that is left out is an error.
-/
namespace ScriptLint
set_option autoImplicit false

def OffsetRange.toValue (range : OffsetRange) : Value := .array [.int range.start, .int range.stop]

namespace Fix

def toValue (fix : Fix) : Value := .object [("range", fix.range.toValue), ("text", .string fix.text)]

structure Draft where
  range : Option OffsetRange := none
  text : Option String := none

def readRange : Json.Reader OffsetRange := fun s =>
  match Json.skipSpace s with
  | [] => .error (.malformed .endInValue)
  | c :: rest =>
    if c = '[' then do
      match ← Json.ofFault (Json.nextItem true rest) with
      | .done _ => .error (.mismatch (.length 0 .pair))
      | .item rest =>
        let (start, rest) ← Json.offset rest
        match ← Json.ofFault (Json.nextItem false rest) with
        | .done _ => .error (.mismatch (.length 1 .pair))
        | .item rest =>
          let (stop, rest) ← Json.offset rest
          let rest ← Json.ofFault (Json.listEnd rest)
          .ok (⟨start, stop⟩, rest)
    else Json.complain .pair c rest

def Draft.fill (field : String) (draft : Draft) : Json.Reader Draft := fun s => do
  if field = "range" then
    let (range, rest) ← readRange s
    .ok ({ draft with range }, rest)
  else
    let (text, rest) ← Json.string s
    .ok ({ draft with text }, rest)

def Draft.filled (field : String) (draft : Draft) : Bool :=
  if field = "range" then draft.range.isSome else draft.text.isSome

def Draft.finish (draft : Draft) : Except Mismatch Fix :=
  match draft.range, draft.text with
  | some range, some text => .ok ⟨range, text⟩
  | none, _ => .error (.missing "range")
  | _, none => .error (.missing "text")

def shape : Json.Shape Draft Fix :=
  { name := "Fix", fields := ["range", "text"], required := ["range", "text"], fill := Draft.fill,
    filled := Draft.filled, empty := {}, finish := Draft.finish }

end Fix

namespace Diagnostic

def optional (key : String) (value : Option Value) : List (String × Value) :=
  match value with
  | some value => [(key, value)]
  | none => []

def toValue (d : Diagnostic) : Value :=
  .object
    ([("line", .int d.line), ("column", .int d.column)] ++
      optional "endLine" (d.endLine.map fun n => .int n) ++ optional "endColumn" (d.endColumn.map fun n => .int n) ++
      [("message", .string d.message), ("severity", .string d.severity.name)] ++
      optional "ruleId" (d.ruleId.map .string) ++ (if d.fatal then [("fatal", .bool true)] else []) ++
      optional "fix" (d.fix.map Fix.toValue))

structure Draft where
  line : Option Nat := none
  column : Option Nat := none
  endLine : Option (Option Nat) := none
  endColumn : Option (Option Nat) := none
  message : Option String := none
  severity : Option Severity := none
  ruleId : Option (Option String) := none
  fatal : Option Bool := none
  fix : Option (Option Fix) := none

def Draft.fill (field : String) (draft : Draft) : Json.Reader Draft := fun s => do
  if field = "line" then
    let (line, rest) ← Json.word s
    .ok ({ draft with line }, rest)
  else if field = "column" then
    let (column, rest) ← Json.word s
    .ok ({ draft with column }, rest)
  else if field = "endLine" then
    let (endLine, rest) ← Json.nullable Json.word s
    .ok ({ draft with endLine }, rest)
  else if field = "endColumn" then
    let (endColumn, rest) ← Json.nullable Json.word s
    .ok ({ draft with endColumn }, rest)
  else if field = "message" then
    let (message, rest) ← Json.string s
    .ok ({ draft with message }, rest)
  else if field = "severity" then
    let (severity, rest) ← Json.variant (Severity.all.map Severity.name) Severity.ofName? s
    .ok ({ draft with severity }, rest)
  else if field = "ruleId" then
    let (ruleId, rest) ← Json.nullable Json.string s
    .ok ({ draft with ruleId }, rest)
  else if field = "fatal" then
    let (fatal, rest) ← Json.boolean s
    .ok ({ draft with fatal }, rest)
  else
    let (fix, rest) ← Json.nullable Fix.shape.read s
    .ok ({ draft with fix }, rest)

def Draft.filled (field : String) (draft : Draft) : Bool :=
  if field = "line" then draft.line.isSome
  else if field = "column" then draft.column.isSome
  else if field = "endLine" then draft.endLine.isSome
  else if field = "endColumn" then draft.endColumn.isSome
  else if field = "message" then draft.message.isSome
  else if field = "severity" then draft.severity.isSome
  else if field = "ruleId" then draft.ruleId.isSome
  else if field = "fatal" then draft.fatal.isSome
  else draft.fix.isSome

def Draft.finish (draft : Draft) : Except Mismatch Diagnostic :=
  match draft.line, draft.column, draft.message with
  | none, _, _ => .error (.missing "line")
  | _, none, _ => .error (.missing "column")
  | _, _, none => .error (.missing "message")
  | some line, some column, some message =>
    .ok
      { line, column, message
        endLine := draft.endLine.getD none
        endColumn := draft.endColumn.getD none
        severity := draft.severity.getD .error
        ruleId := draft.ruleId.getD none
        fatal := draft.fatal.getD false
        fix := draft.fix.getD none }

def shape : Json.Shape Draft Diagnostic :=
  { name := "Diagnostic"
    fields := ["line", "column", "endLine", "endColumn", "message", "severity", "ruleId", "fatal", "fix"]
    required := ["line", "column", "message"]
    fill := Draft.fill
    filled := Draft.filled
    empty := {}
    finish := Draft.finish }

def parse (text : String) : Except Json.ReadError Diagnostic := Json.parseWith shape.read text

end Diagnostic
end ScriptLint
