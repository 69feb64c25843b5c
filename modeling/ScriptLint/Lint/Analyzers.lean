import ScriptLint.Lint.Linter

/-!
Analyzers that are plain text scans, so that it is easy to foresee where they report. Lines end at a line feed; one
carriage return before it does not belong to the line.
-/
namespace ScriptLint.Analyzers
set_option autoImplicit false

structure Line where
  index : Nat
  start : Nat
  bytes : Bytes
  deriving DecidableEq, Repr

def dropReturn (line : Bytes) : Bytes :=
  if line.getLast? = some Byte.carriageReturn then line.dropLast else line

def number (index start : Nat) : List Bytes → List Line
  | [] => []
  | line :: more => ⟨index, start, line⟩ :: number (index + 1) (start + line.length + 1) more

def lines (source : Bytes) : List Line :=
  (number 0 0 (Bytes.lines source)).map fun line => { line with bytes := dropReturn line.bytes }

/-- Offsets of the occurrences of a text, none overlapping the one before it, in bytes that begin at `offset`. -/
def occurrences (needle : Bytes) (offset : Nat) : Bytes → List Nat
  | [] => []
  | b :: rest =>
    if needle.isPrefixOf (b :: rest) then
      offset :: occurrences needle (offset + 1 + (needle.length - 1)) (rest.drop (needle.length - 1))
    else occurrences needle (offset + 1) rest
termination_by s => s.length
decreasing_by all_goals simp only [List.length_drop, List.length_cons]; omega

def oneBased (n : Nat) : Nat := clampWord (n + 1)

/-- Where markup begins: a `<` with `!`, `/` or a letter after it. -/
def markupColumn? (column : Nat) : Bytes → Option Nat
  | [] => none
  | [_] => none
  | b :: c :: rest =>
    if b = Byte.less ∧ (c = Byte.bang ∨ c = Byte.slash ∨ Byte.isLetter c) then some column
    else markupColumn? (column + 1) (c :: rest)

def consoleText : Bytes := Bytes.ofAscii ['c', 'o', 'n', 's', 'o', 'l', 'e', '.']

/-- Reports every `console.`; markup makes the text unreadable. -/
def console : Analyzer := fun source _ =>
  let markup? := (lines source).findSome? fun line =>
    (markupColumn? 0 line.bytes).map fun column => (line.index, column)
  match markup? with
  | some (index, column) =>
    [Diagnostic.stop (oneBased index) (oneBased column) "Parsing error: Unexpected token <"]
  | none =>
    (lines source).flatMap fun line =>
      (occurrences consoleText 0 line.bytes).map fun column =>
        { line := oneBased line.index
          column := oneBased column
          endLine := some (oneBased line.index)
          endColumn := some (oneBased (column + 7))
          message := "Unexpected console statement."
          ruleId := some "no-console" }

/-- Reports every doubled semicolon, with a fix that deletes the second one. -/
def extraSemicolon : Analyzer := fun source _ =>
  (lines source).flatMap fun line =>
    (occurrences [Byte.semicolon, Byte.semicolon] 0 line.bytes).map fun column =>
      let offset := line.start + (column + 1)
      { line := oneBased line.index
        column := oneBased (column + 1)
        message := "Unnecessary semicolon."
        ruleId := some "no-extra-semi"
        fix := some (Fix.delete offset (offset + 1)) }

/-- Reports the width of the indentation of every line that is not white space. -/
def leadingBlank : Analyzer := fun source _ =>
  ((lines source).filter fun line => !(WhiteSpace.trimChars (Utf8.chars line.bytes)).isEmpty).map fun line =>
    { Diagnostic.warning (oneBased line.index) 1
        ("indent " ++ toString (Bytes.leadingBlank line.bytes).length) with
      ruleId := some "leading-whitespace" }

def characterReports (line column offset : Nat) : List Char → List Diagnostic
  | [] => []
  | c :: rest =>
    if c = '\n' then characterReports (line + 1) 0 (offset + 1) rest
    else
      let more := characterReports line (column + c.utf8Size) (offset + c.utf8Size) rest
      if c = ' ' ∨ c = '\t' ∨ c = '\r' then more
      else
        { line := line + 1
          column := column + 1
          endLine := some (line + 1)
          endColumn := some (column + c.utf8Size + 1)
          message := String.singleton c
          fix := some ⟨⟨offset, offset + c.utf8Size⟩, "#"⟩ } :: more

/-- Reports every character but spaces, tabs and line breaks, with a fix that replaces it. -/
def everyCharacter : Analyzer := fun source _ => characterReports 0 0 0 (Utf8.chars source)

def wholeRanges : List Line → List (Line × OffsetRange)
  | [] => []
  | [line] => [(line, ⟨line.start, line.start + line.bytes.length⟩)]
  | line :: more => (line, ⟨line.start, line.start + line.bytes.length + 1⟩) :: wholeRanges more

def isIdle (b : UInt8) : Bool := Byte.isSpaceOrTab b || b == Byte.carriageReturn

/-- Reports every line with something on it, with a fix that deletes it. -/
def wholeLines : Analyzer := fun source _ =>
  ((wholeRanges (number 0 0 (Bytes.lines source))).filter fun entry => !entry.1.bytes.all isIdle).map fun entry =>
    { Diagnostic.warning (entry.1.index + 1) 1 "line" with fix := some ⟨entry.2, ""⟩ }

end ScriptLint.Analyzers
