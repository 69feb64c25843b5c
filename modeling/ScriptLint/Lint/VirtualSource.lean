import ScriptLint.Lint.IndentPlan

/-!
The text that an analyzer sees. Its line `n` is line `n` of the document, reduced to the script text on it; where two
blocks share a line, spaces stand in for the markup between them.
-/
namespace ScriptLint
set_option autoImplicit false

structure Segment where
  block : Nat
  virtualStart : Nat
  documentStart : Nat
  /-- Column on the line of the document where the text began before it lost its indentation. -/
  lineStart : Nat
  length : Nat
  deriving DecidableEq, Repr

namespace Segment

def virtualEnd (segment : Segment) : Nat := segment.virtualStart + segment.length

/-- A column just past the segment counts as well. -/
def contains (segment : Segment) (column : Nat) : Bool :=
  segment.virtualStart ≤ column && column ≤ segment.virtualEnd

def toDocument (segment : Segment) (column : Nat) : Nat := segment.documentStart + (column - segment.virtualStart)

end Segment

structure VirtualLine where
  text : Bytes := []
  segments : List Segment := []
  deriving DecidableEq, Repr

namespace VirtualLine

/-- What stands between the last segment of a line and one that begins at a column of the document: as much space as
there is markup, and at least one. -/
def gap (line : VirtualLine) (documentStart : Nat) : Bytes :=
  match line.segments.getLast? with
  | none => []
  | some previous =>
    List.replicate (max (documentStart - (previous.documentStart + previous.length)) 1) Byte.space

def append (line : VirtualLine) (block documentStart lineStart : Nat) (content : Bytes) : VirtualLine :=
  let before := line.text ++ line.gap documentStart
  { text := before ++ content
    segments := line.segments ++ [⟨block, before.length, documentStart, lineStart, content.length⟩] }

end VirtualLine

structure VirtualSource where
  lines : List VirtualLine
  newline : Newline
  deriving DecidableEq, Repr

namespace VirtualSource

/-- Lines with line `n` changed, after as many empty ones as are needed. -/
def modifyLine (change : VirtualLine → VirtualLine) : Nat → List VirtualLine → List VirtualLine
  | 0, [] => [change {}]
  | 0, line :: more => change line :: more
  | n + 1, [] => {} :: modifyLine change n []
  | n + 1, line :: more => line :: modifyLine change n more

def placeLines (block n : Nat) (lines : List VirtualLine) : List (Bytes × LinePlan) → List VirtualLine
  | [] => lines
  | (content, plan) :: more =>
    placeLines block (n + 1) (modifyLine (·.append block plan.strip 0 content) n lines) more

def placeBlock (lines : List VirtualLine) (block : ScriptBlock) (plan : IndentPlan) : List VirtualLine :=
  let start := block.start
  match (plan.transformed block).zip plan.lines with
  | [] => lines
  | (content, _) :: more =>
    placeLines block.index (start.line + 1)
      (modifyLine (·.append block.index start.character start.character content) start.line lines) more

def build (newline : Newline) (blocks : List ScriptBlock) (plans : List IndentPlan) : VirtualSource :=
  { lines := (blocks.zip plans).foldl (fun lines entry => placeBlock lines entry.1 entry.2) [], newline }

def join (separator : Bytes) : List Bytes → Bytes
  | [] => []
  | [line] => line
  | line :: more => line ++ separator ++ join separator more

def text (source : VirtualSource) : Bytes := join source.newline.bytes (source.lines.map (·.text))

def lineIndex (source : VirtualSource) : LineIndex := LineIndex.ofBytes source.text

def segments (source : VirtualSource) (line : Nat) : List Segment :=
  match source.lines[line]? with
  | some line => line.segments
  | none => []

end VirtualSource
end ScriptLint
