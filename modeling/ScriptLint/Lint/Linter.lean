import ScriptLint.Config.Settings
import ScriptLint.Lint.BadIndent
import ScriptLint.Lint.Remap

/-!
Linting: the scripts of a document are found, planned and assembled, an analyzer reports on the result, and its reports
are moved back to the document and put in order.
-/
namespace ScriptLint
set_option autoImplicit false

abbrev Analyzer := Bytes → String → List Diagnostic

inductive Dispatch where
  | combined
  | perBlock
  deriving DecidableEq, Repr

structure Prepared where
  document : Document
  mode : MarkupMode
  blocks : List ScriptBlock
  plans : List IndentPlan
  deriving DecidableEq, Repr

namespace Prepared

def virtualSource (p : Prepared) : VirtualSource := VirtualSource.build p.document.newline p.blocks p.plans

/-- The source of one block; it is empty for a block that does not exist. -/
def blockSource (p : Prepared) (index : Nat) : VirtualSource :=
  VirtualSource.build p.document.newline (p.blocks[index]?).toList (p.plans[index]?).toList

def badIndent (p : Prepared) : List Diagnostic :=
  (p.blocks.zip p.plans).flatMap fun entry => BadIndent.check entry.1 entry.2

end Prepared

structure Unmapped where
  diagnostic : Diagnostic
  cause : RemapError
  deriving DecidableEq, Repr

def Unmapped.message (failure : Unmapped) : String :=
  "diagnostic `" ++ failure.diagnostic.text ++ "` could not be remapped: " ++ failure.cause.message

structure Linter where
  settings : Settings := {}
  dispatch : Dispatch := .combined
  /-- Whether a diagnostic without a place in the document is an error; it is dropped otherwise. -/
  strict : Bool := false
  deriving DecidableEq, Repr

namespace Linter

def scanOptions (linter : Linter) (filename : String) : ScanOptions :=
  ⟨linter.settings.markupMode filename, linter.settings.mediaTypes⟩

def fatal (document : Document) (error : ScanError) : Diagnostic :=
  let p := document.position error.offset
  Diagnostic.stop p.lineNumber p.columnNumber ("Parsing error: " ++ error.message)

def prepare (linter : Linter) (source : Bytes) (filename : String) : Except Diagnostic Prepared :=
  let document : Document := ⟨source⟩
  let options := linter.scanOptions filename
  match document.scan options with
  | .error error => .error (fatal document error)
  | .ok blocks =>
    .ok ⟨document, options.mode, blocks, blocks.map fun block => IndentPlan.ofBlock block linter.settings.indent⟩

def sources (linter : Linter) (p : Prepared) (filename : String) : List (String × VirtualSource) :=
  if p.blocks.isEmpty then []
  else
    match linter.dispatch with
    | .combined => [(filename ++ ".js", p.virtualSource)]
    | .perBlock =>
      (List.range p.blocks.length).map fun index =>
        (filename ++ "." ++ toString index ++ ".js", p.blockSource index)

def remapAll (strict : Bool) (r : Remapper) : List Diagnostic → Except Unmapped (List Diagnostic)
  | [] => .ok []
  | d :: more =>
    match r.diagnostic d with
    | .ok remapped => (remapAll strict r more).map (remapped :: ·)
    | .error cause => if strict then .error ⟨d, cause⟩ else remapAll strict r more

def report (linter : Linter) (analyzer : Analyzer) (document : Document) :
    List (String × VirtualSource) → Except Unmapped (List Diagnostic)
  | [] => .ok []
  | (name, source) :: more =>
    match remapAll linter.strict ⟨document, source⟩ (analyzer source.text name) with
    | .error failure => .error failure
    | .ok found => (linter.report analyzer document more).map (found ++ ·)

def lint (linter : Linter) (analyzer : Analyzer) (source : Bytes) (filename : String) :
    Except Unmapped (List Diagnostic) :=
  match linter.prepare source filename with
  | .error fatal => .ok [fatal]
  | .ok p =>
    match linter.report analyzer p.document (linter.sources p filename) with
    | .error failure => .error failure
    | .ok found =>
      .ok (Diagnostic.sort (found ++ if linter.settings.reportBadIndent then p.badIndent else []))

/-- The calls that linting makes, by file name and then by text. -/
def calls (linter : Linter) (source : Bytes) (filename : String) : List (Bytes × Bytes) :=
  match linter.prepare source filename with
  | .error _ => []
  | .ok p =>
    ((linter.sources p filename).map fun call => (Utf8.encode call.1, call.2.text)).mergeSort fun a b =>
      a.1 < b.1 || (a.1 == b.1 && a.2 ≤ b.2)

def fixed? (source : Bytes) (diagnostics : List Diagnostic) : Option Bytes :=
  Fix.applyAll (diagnostics.filterMap (·.fix)) source

/-- The text with all fixes applied or, if they cannot be, with the first one. -/
def improve? (source : Bytes) (diagnostics : List Diagnostic) : Option Bytes :=
  match fixed? source diagnostics with
  | some text => some text
  | none => (diagnostics.findSome? (·.fix)).bind (·.apply source)

/-- Lints and fixes a text again and again, until nothing changes, a fix fails or the rounds are over. -/
def fixRounds (linter : Linter) (analyzer : Analyzer) (filename : String) (source : Bytes) :
    Nat → Except Unmapped (List (List Diagnostic × Option Bytes))
  | 0 => .ok []
  | rounds + 1 =>
    match linter.lint analyzer source filename with
    | .error failure => .error failure
    | .ok diagnostics =>
      match improve? source diagnostics with
      | none => .ok [(diagnostics, none)]
      | some text =>
        if text = source then .ok [(diagnostics, some text)]
        else (linter.fixRounds analyzer filename text rounds).map ((diagnostics, some text) :: ·)

end Linter
end ScriptLint
