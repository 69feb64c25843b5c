import ScriptLint.Diagnostic.Basic
import ScriptLint.Lint.VirtualSource

/-!
From places in a virtual source back to places in its document. A range keeps within one block; one that runs from
column zero to column zero covers whole lines and takes in the indentation they lost.
-/
namespace ScriptLint
set_option autoImplicit false

inductive RemapError where
  | invalidPosition (line column : Nat)
  | paddingLine (line : Nat)
  | outsideSegment (line column : Nat)
  | offsetOutOfBounds (offset : Nat)
  | reversedRange (range : OffsetRange)
  | spansMarkup (range : OffsetRange)
  deriving DecidableEq, Repr

def RemapError.message : RemapError → String
  | invalidPosition line column => toString line ++ ":" ++ toString column ++ " is not a valid 1-based position"
  | paddingLine line => "line " ++ toString line ++ " holds no script content"
  | outsideSegment line column =>
    "column " ++ toString column ++ " of line " ++ toString line ++ " is outside every script segment"
  | offsetOutOfBounds offset => "offset " ++ toString offset ++ " is past the end of the virtual source"
  | reversedRange range => "range " ++ range.text ++ " is reversed"
  | spansMarkup range => "range " ++ range.text ++ " spans markup between script segments"

structure Remapper where
  document : Document
  source : VirtualSource
  deriving DecidableEq, Repr

namespace Remapper

def segment (r : Remapper) (p : Position) : Except RemapError Segment :=
  match r.source.segments p.line with
  | [] => .error (.paddingLine p.lineNumber)
  | segments =>
    match segments.find? (·.contains p.character) with
    | some segment => .ok segment
    | none => .error (.outsideSegment p.lineNumber p.columnNumber)

def position (r : Remapper) (p : Position) : Except RemapError Position :=
  (r.segment p).map fun segment => ⟨p.line, clampWord (segment.toDocument p.character)⟩

def virtualPosition (r : Remapper) (offset : Nat) : Except RemapError Position :=
  if r.source.lineIndex.length < offset then .error (.offsetOutOfBounds offset)
  else .ok (r.source.lineIndex.position offset)

def rawOffset (r : Remapper) (line column : Nat) : Except RemapError Nat :=
  let p : Position := ⟨line, clampWord column⟩
  match r.document.rawOffset? p with
  | some offset => .ok offset
  | none => .error (.outsideSegment p.lineNumber p.columnNumber)

/-- Whether a block has text on every line between two lines, both excluded. -/
def holdsBetween (r : Remapper) (block start stop : Nat) : Bool :=
  (List.range' (start + 1) (stop - (start + 1))).all fun line =>
    (r.source.segments line).any (·.block == block)

def range (r : Remapper) (range : OffsetRange) : Except RemapError OffsetRange := do
  if range.stop < range.start then .error (.reversedRange range)
  let start ← r.virtualPosition range.start
  let stop ← r.virtualPosition range.stop
  let startSegment ← r.segment start
  let stopSegment ← r.segment stop
  if stopSegment.block ≠ startSegment.block ∨ !r.holdsBetween startSegment.block start.line stop.line then
    .error (.spansMarkup range)
  let wholeLines := start.character = 0 ∧ stop.character = 0
  let startColumn := if wholeLines then startSegment.lineStart else startSegment.toDocument start.character
  let stopColumn := if wholeLines then stopSegment.lineStart else stopSegment.toDocument stop.character
  let first ← r.rawOffset start.line startColumn
  let last ← r.rawOffset stop.line stopColumn
  .ok ⟨first, max last first⟩

def endPosition? (r : Remapper) (d : Diagnostic) (start : Position) : Option Position :=
  match d.endPosition? with
  | none => none
  | some stop =>
    match r.position stop with
    | .ok stop => some (stop.max start)
    | .error _ => none

def fix? (r : Remapper) (fix : Fix) : Option Fix :=
  match r.range fix.range with
  | .ok range => some { fix with range }
  | .error _ => none

/-- The diagnostic in terms of the document. An end or a fix without a place there is dropped. -/
def diagnostic (r : Remapper) (d : Diagnostic) : Except RemapError Diagnostic :=
  match d.position? with
  | none => .error (.invalidPosition d.line d.column)
  | some p =>
    (r.position p).map fun start =>
      let stop := r.endPosition? d start
      { d with
        line := start.lineNumber
        column := start.columnNumber
        endLine := stop.map (·.lineNumber)
        endColumn := stop.map (·.columnNumber)
        fix := d.fix.bind r.fix? }

end Remapper
end ScriptLint
