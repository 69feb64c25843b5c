import ScriptLint.Diagnostic.Basic
import ScriptLint.Lint.IndentPlan

/-!
Reports about lines that do not carry the expected indentation.
-/
namespace ScriptLint.BadIndent
set_option autoImplicit false

def ruleId : String := "bad-indent"

def message : String := "Bad line indentation."

def check (block : ScriptBlock) (plan : IndentPlan) : List Diagnostic :=
  plan.badLines.map fun line =>
    { line := clampWord (block.start.lineNumber + clampWord line), column := 1, message, ruleId := some ruleId }

end ScriptLint.BadIndent
