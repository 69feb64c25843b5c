import ScriptLint.Text.Quoted
import ScriptLint.Diagnostic.Basic

/-!
Diagnostics as a numbered list, one to a line.
-/
namespace ScriptLint.Report
set_option autoImplicit false

def numbered (number : Nat) : List String → List String
  | [] => []
  | entry :: more => ("[" ++ toString number ++ "] " ++ entry) :: numbered (number + 1) more

def messages (entries : List String) : String :=
  if entries.isEmpty then "(no diagnostics)" else "\n".intercalate (numbered 1 entries)

def entry (d : Diagnostic) : String :=
  d.text ++ (if d.fatal then " [fatal]" else "") ++
    match d.fix with
    | some fix => " fix " ++ fix.range.text ++ " " ++ Quoted.quote fix.text
    | none => ""

def diagnostics (ds : List Diagnostic) : String := messages (ds.map entry)

def positions (ds : List Diagnostic) : List (Nat × Nat) := ds.map fun d => (d.line, d.column)

end ScriptLint.Report
