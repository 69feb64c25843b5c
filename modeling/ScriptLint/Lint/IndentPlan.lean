import ScriptLint.Config.Indent
import ScriptLint.ScriptBlock

/-!
Indentation plans: how many leading bytes each line of a block loses before an analyzer sees it, and which lines do not
carry the indentation that is expected of them. Also the shift of columns that goes with it.
-/
namespace ScriptLint
set_option autoImplicit false

inductive LineKind where
  /-- The rest of the line that holds the opening tag. -/
  | first
  | blank
  | dedented
  | badIndent
  deriving DecidableEq, Repr

def LineKind.name : LineKind → String
  | first => "first"
  | blank => "blank"
  | dedented => "dedented"
  | badIndent => "bad-indent"

structure LinePlan where
  kind : LineKind
  strip : Nat
  deriving DecidableEq, Repr

def LinePlan.delta (plan : LinePlan) : Int := -plan.strip

structure IndentPlan where
  block : Nat
  expected : Bytes
  lines : List LinePlan
  deriving DecidableEq, Repr

namespace IndentPlan

/-- The plan of a line after the first. Until a line with content has been seen, the indentation of such a line must be
exactly the expected one; later it may be deeper. -/
def planLine (expected : Bytes) (seen : Bool) (line : Bytes) : LinePlan :=
  let carried := Bytes.leadingBlank line
  if Bytes.isBlank line then
    if expected.isPrefixOf carried then ⟨.blank, expected.length⟩ else ⟨.blank, 0⟩
  else if if seen then expected.isPrefixOf carried else carried == expected then ⟨.dedented, expected.length⟩
  else ⟨.badIndent, 0⟩

def planLines (expected : Bytes) (seen : Bool) : List Bytes → List LinePlan
  | [] => []
  | line :: more => planLine expected seen line :: planLines expected (seen || !Bytes.isBlank line) more

/-- The indentation expected of the lines of a block. Widths that no text in memory can have are not refused: they are
counted as if memory had no bound. -/
def expectedIndent (block : ScriptBlock) : Indent → Bytes
  | .auto =>
    match (block.lines.drop 1).find? fun line => !Bytes.isBlank line with
    | some line => Bytes.leadingBlank line
    | none => []
  | .absolute width => List.replicate width Byte.space
  | .relative shift =>
    if 0 ≤ shift then block.tagLineIndent ++ List.replicate shift.toNat Byte.space
    else block.tagLineIndent.take (block.tagLineIndent.length - shift.natAbs)

def ofBlock (block : ScriptBlock) (indent : Indent) : IndentPlan :=
  let expected := expectedIndent block indent
  { block := block.index
    expected
    lines := ⟨.first, 0⟩ :: planLines expected false (block.lines.drop 1) }

/-- The shift of a line's columns; lines outside the block do not move. -/
def delta (plan : IndentPlan) (line : Nat) : Int :=
  match plan.lines[line]? with
  | some planned => planned.delta
  | none => 0

def badLines (plan : IndentPlan) : List Nat :=
  (plan.lines.zipIdx.filter fun entry => entry.1.kind == .badIndent).map (·.2)

def transformed (plan : IndentPlan) (block : ScriptBlock) : List Bytes :=
  (block.lines.zip plan.lines).map fun entry => (Utf8.dropTo? entry.1 entry.2.strip).getD []

theorem length_planLines (expected : Bytes) (seen : Bool) (lines : List Bytes) :
    (planLines expected seen lines).length = lines.length := by
  induction lines generalizing seen with
  | nil => rfl
  | cons line more ih => simp [planLines, ih]

end IndentPlan

namespace Column

/-- A column, counted from one, moved by an amount: never below one, nor past 32 bits. -/
def shift (column : Nat) (amount : Int) : Nat := clampWord (max (column + amount) 1).toNat

def transform (column : Nat) (delta : Int) : Nat := shift column delta

def remap (column : Nat) (delta : Int) : Nat := shift column (-delta)

end Column
end ScriptLint
