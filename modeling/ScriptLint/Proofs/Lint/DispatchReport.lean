import ScriptLint.Proofs.Diagnostic.Order
import ScriptLint.Proofs.Lint.DispatchRange
import ScriptLint.Proofs.Lint.FixSafety
import ScriptLint.Proofs.Lint.Report

/-!
# Reports under the two dispatch modes

An analyzer that sees a block alone and reports on it as it does where it sees all blocks is remapped to the same
reports, and since no two blocks share a position of the document, the two modes also put them into the same order.
-/
namespace ScriptLint
set_option autoImplicit false

namespace Diagnostic

/-- A report without a fix, all of it in the script text of a source. -/
structure LiesIn (source : VirtualSource) (d : Diagnostic) : Prop where
  start : ∃ p, d.position? = some p ∧ source.Touches p
  stop : d.endLine = none ∧ d.endColumn = none ∨ ∃ q, d.endPosition? = some q ∧ source.Touches q
  noFix : d.fix = none

/-- A report on the source of a block, moved to where the block is in a source of many. -/
def among (source : VirtualSource) (block : Nat) (d : Diagnostic) : Diagnostic :=
  { d with
    column := d.column + source.startOf block (d.line - 1)
    endColumn :=
      match d.endLine, d.endColumn with
      | some line, some column => some (column + source.startOf block (line - 1))
      | _, column => column }

theorem ofOneBased?_among (source : VirtualSource) (block : Nat) {line column : Nat} {p : Position}
    (h : Position.ofOneBased? line column = some p) :
    Position.ofOneBased? line (column + source.startOf block (line - 1)) = some (source.among block p) := by
  rw [Position.ofOneBased?] at h ⊢
  split at h
  · cases h
  · rename_i hPos
    cases h
    rw [if_neg (by omega), VirtualSource.among]
    simp only [Option.some.injEq, Position.mk.injEq, true_and]
    omega

theorem position?_among (source : VirtualSource) (block : Nat) {d : Diagnostic} {p : Position}
    (h : d.position? = some p) : (d.among source block).position? = some (source.among block p) :=
  ofOneBased?_among source block h

theorem endPosition?_among (source : VirtualSource) (block : Nat) {d : Diagnostic} {q : Position}
    (h : d.endPosition? = some q) : (d.among source block).endPosition? = some (source.among block q) := by
  rw [endPosition?] at h
  split at h
  · rename_i line column hLine hColumn
    simp only [endPosition?, among, hLine, hColumn]
    exact ofOneBased?_among source block h
  · cases h

end Diagnostic

namespace Remapper

variable {document : Document} {blocks : List ScriptBlock} {indent : Indent} {block : ScriptBlock} {p : Position}

theorem position_among (hBlocks : ScriptBlock.Arranged document blocks) (hBlock : block ∈ blocks) (newline : Newline)
    (hp : (VirtualSource.ofBlocks newline indent [block]).Touches p) :
    ∃ q, (Remapper.mk document (VirtualSource.ofBlocks newline indent [block])).position p = .ok q ∧
      (Remapper.mk document (VirtualSource.ofBlocks newline indent blocks)).position
        ((VirtualSource.ofBlocks newline indent blocks).among block.index p) = .ok q ∧
      ∃ run ∈ VirtualSource.runs indent blocks q.line, run.block = block ∧ run.documentStart ≤ q.character ∧
        q.character ≤ run.documentStop := by
  have hOwn : ScriptBlock.Arranged document [block] := hBlocks.sublist (List.singleton_sublist.mpr hBlock)
  obtain ⟨run, hRun, hLength⟩ := (VirtualSource.touches_singleton_iff hOwn newline).mp hp
  obtain ⟨rfl, -⟩ := Run.isPlaced_of_onLine (hBlocks.isPlaced block hBlock) hRun
  have hMem := VirtualSource.mem_runs_of_onLine hBlock hRun
  have hShift := VirtualSource.shift_singleton hRun
  have hMoved := VirtualSource.among_add_shift hBlocks newline hMem
  have hStop : p.character + run.documentStart ≤ run.documentStop := by
    rw [Run.documentStop]
    omega
  refine ⟨⟨p.line, p.character + run.documentStart⟩, ?_, ?_, run, hMem, rfl, Nat.le_add_left _ _, hStop⟩
  · refine (position_eq_ok_iff hOwn).mpr ⟨by rw [hShift], run, ?_, ?_⟩
    · exact VirtualSource.mem_runs_of_onLine (List.mem_singleton.mpr rfl) hRun
    · rw [hShift]
      exact ⟨Nat.le_add_left _ _, hStop⟩
  · refine (position_eq_ok_iff hBlocks).mpr ⟨?_, run, hMem, ?_⟩
    · exact congrArg (Position.mk p.line) hMoved.symm
    · exact ⟨Nat.le_trans (Nat.le_add_left _ _) (Nat.le_of_eq hMoved.symm), Nat.le_trans (Nat.le_of_eq hMoved) hStop⟩

theorem diagnostic?_eq_some {r : Remapper} {d : Diagnostic} {q : Position} (h : d.position? = some p)
    (hq : r.position p = .ok q) :
    r.diagnostic? d = some
      { d with
        line := q.lineNumber
        column := q.columnNumber
        endLine := (r.endPosition? d q).map (·.lineNumber)
        endColumn := (r.endPosition? d q).map (·.columnNumber)
        fix := d.fix.bind r.fix? } := by
  simp only [diagnostic?, diagnostic, h, hq, Except.map, Except.toOption]

theorem diagnostic?_among (hBlocks : ScriptBlock.Arranged document blocks) (hBlock : block ∈ blocks) (newline : Newline)
    {d : Diagnostic} (hd : d.LiesIn (VirtualSource.ofBlocks newline indent [block])) :
    ∃ d', (Remapper.mk document (VirtualSource.ofBlocks newline indent [block])).diagnostic? d = some d' ∧
      (Remapper.mk document (VirtualSource.ofBlocks newline indent blocks)).diagnostic?
        (d.among (VirtualSource.ofBlocks newline indent blocks) block.index) = some d' ∧
      ∃ q : Position, d'.line = q.lineNumber ∧ d'.column = q.columnNumber ∧
        ∃ run ∈ VirtualSource.runs indent blocks q.line, run.block = block ∧ run.documentStart ≤ q.character ∧
          q.character ≤ run.documentStop := by
  obtain ⟨p, hPosition, hp⟩ := hd.start
  obtain ⟨q, hq, hqAmong, hRun⟩ := position_among hBlocks hBlock newline hp
  refine ⟨_, diagnostic?_eq_some hPosition hq, ?_, q, rfl, rfl, hRun⟩
  rw [diagnostic?_eq_some (Diagnostic.position?_among _ block.index hPosition) hqAmong]
  have hStop : (Remapper.mk document (VirtualSource.ofBlocks newline indent blocks)).endPosition?
        (d.among (VirtualSource.ofBlocks newline indent blocks) block.index) q =
      (Remapper.mk document (VirtualSource.ofBlocks newline indent [block])).endPosition? d q := by
    rcases hd.stop with ⟨hLine, hColumn⟩ | ⟨stop, hStop, hTouches⟩
    · simp [endPosition?, Diagnostic.endPosition?, Diagnostic.among, hLine, hColumn]
    · obtain ⟨q', hq', hqAmong', -⟩ := position_among hBlocks hBlock newline hTouches
      simp only [endPosition?, Diagnostic.endPosition?_among _ block.index hStop, hStop, hq', hqAmong']
  rw [hStop]
  simp only [Diagnostic.among, hd.noFix, Option.bind_none]

/-- Reports on different blocks are at different positions of the document. -/
theorem eq_of_diagnostic?_eq_some (hBlocks : ScriptBlock.Arranged document blocks) (newline : Newline)
    {other : ScriptBlock} (hBlock : block ∈ blocks) (hOther : other ∈ blocks) {d e d' e' : Diagnostic}
    (hd : d.LiesIn (VirtualSource.ofBlocks newline indent [block]))
    (he : e.LiesIn (VirtualSource.ofBlocks newline indent [other]))
    (hd' : (Remapper.mk document (VirtualSource.ofBlocks newline indent [block])).diagnostic? d = some d')
    (he' : (Remapper.mk document (VirtualSource.ofBlocks newline indent [other])).diagnostic? e = some e')
    (hLine : d'.line = e'.line) (hColumn : d'.column = e'.column) : block = other := by
  obtain ⟨_, hSome, -, p, hpLine, hpColumn, run, hRun, rfl, hStart, hStop⟩ := diagnostic?_among hBlocks hBlock newline hd
  obtain ⟨_, hSome', -, q, hqLine, hqColumn, run', hRun', rfl, hStart', hStop'⟩ :=
    diagnostic?_among hBlocks hOther newline he
  cases hd'.symm.trans hSome
  cases he'.symm.trans hSome'
  have hp := (VirtualSource.isPlaced_of_mem_runs hBlocks hRun).2.line_add_documentStop_le
  have hq := (VirtualSource.isPlaced_of_mem_runs hBlocks hRun').2.line_add_documentStop_le
  have hSmall := hBlocks.isSmall.text
  rw [hpLine, hqLine] at hLine
  rw [hpColumn, hqColumn] at hColumn
  obtain rfl := Position.eq_of_numbers (by omega) (by omega) hLine hColumn
  have hSame := (VirtualSource.separated_runs hBlocks indent p.line).eq_of_column hRun hRun' hStart hStop hStart' hStop'
  rw [hSame]

end Remapper

namespace Linter

variable {linter : Linter} {analyzer : Analyzer} {filename : String}

def blockCall (prepared : Prepared) (filename : String) (i : Nat) : String × VirtualSource :=
  (filename ++ "." ++ toString i ++ ".js", prepared.blockSource i)

def combinedCall (prepared : Prepared) (filename : String) : String × VirtualSource :=
  (filename ++ ".js", prepared.virtualSource)

/-- An analyzer that has nothing to say of several blocks together: its reports on them all are those on each, in any
mixture. -/
structure Blockwise (analyzer : Analyzer) (prepared : Prepared) (filename : String) : Prop where
  inside : ∀ i < prepared.blocks.length,
    ∀ d ∈ analyzer (blockCall prepared filename i).2.text (blockCall prepared filename i).1,
      d.LiesIn (prepared.blockSource i)
  mixed : Interleaved
    ((List.range prepared.blocks.length).map fun i =>
      (analyzer (blockCall prepared filename i).2.text (blockCall prepared filename i).1).map
        (Diagnostic.among prepared.virtualSource i))
    (analyzer (combinedCall prepared filename).2.text (combinedCall prepared filename).1)

theorem sources_perBlock (linter : Linter) (prepared : Prepared) (filename : String) :
    { linter with dispatch := .perBlock }.sources prepared filename =
      (List.range prepared.blocks.length).map (blockCall prepared filename) := by
  rw [sources]
  split
  · rename_i hEmpty
    rw [List.isEmpty_iff.mp hEmpty]
    rfl
  · rfl

theorem sources_combined (linter : Linter) {prepared : Prepared} (h : prepared.blocks ≠ []) (filename : String) :
    { linter with dispatch := .combined }.sources prepared filename = [combinedCall prepared filename] := by
  rw [sources, if_neg (by simpa using h)]
  rfl

section Prepared

variable {source : Bytes} {prepared : Prepared} {i j : Nat} {d e d' e' : Diagnostic}
  (hPrepare : linter.prepare source filename = .ok prepared)
  (hBlocks : ScriptBlock.Arranged prepared.document prepared.blocks)
include hPrepare

theorem virtualSource_of_prepare : prepared.virtualSource =
    VirtualSource.ofBlocks prepared.document.newline linter.settings.indent prepared.blocks := by
  obtain ⟨blocks, -, rfl⟩ := prepare_eq_ok hPrepare
  rfl

theorem exists_block_of_prepare (hi : i < prepared.blocks.length) :
    ∃ block ∈ prepared.blocks, block.index = i ∧ prepared.blockSource i =
      VirtualSource.ofBlocks prepared.document.newline linter.settings.indent [block] := by
  obtain ⟨blocks, hScan, rfl⟩ := prepare_eq_ok hPrepare
  have hBlock : blocks[i]? = some blocks[i] := List.getElem?_eq_getElem hi
  exact ⟨_, List.mem_of_getElem? hBlock, Document.index_of_scan hScan hBlock,
    Prepared.blockSource_eq_ofBlocks _ hBlock⟩

include hBlocks

theorem exists_remapped (hi : i < prepared.blocks.length) (hd : d.LiesIn (prepared.blockSource i)) :
    ∃ d', (Remapper.mk prepared.document (prepared.blockSource i)).diagnostic? d = some d' ∧
      (Remapper.mk prepared.document prepared.virtualSource).diagnostic? (d.among prepared.virtualSource i) =
        some d' := by
  obtain ⟨block, hMem, rfl, hSource⟩ := exists_block_of_prepare hPrepare hi
  rw [hSource] at hd ⊢
  rw [virtualSource_of_prepare hPrepare]
  obtain ⟨d', hOwn, hCombined, -⟩ := Remapper.diagnostic?_among hBlocks hMem prepared.document.newline hd
  exact ⟨d', hOwn, hCombined⟩

theorem index_eq_of_position (hi : i < prepared.blocks.length) (hj : j < prepared.blocks.length)
    (hd : d.LiesIn (prepared.blockSource i)) (he : e.LiesIn (prepared.blockSource j))
    (hd' : (Remapper.mk prepared.document (prepared.blockSource i)).diagnostic? d = some d')
    (he' : (Remapper.mk prepared.document (prepared.blockSource j)).diagnostic? e = some e')
    (hLine : d'.line = e'.line) (hColumn : d'.column = e'.column) : i = j := by
  obtain ⟨block, hMem, rfl, hSource⟩ := exists_block_of_prepare hPrepare hi
  obtain ⟨other, hOther, rfl, hSource'⟩ := exists_block_of_prepare hPrepare hj
  rw [hSource] at hd hd'
  rw [hSource'] at he he'
  rw [Remapper.eq_of_diagnostic?_eq_some hBlocks _ hMem hOther hd he hd' he' hLine hColumn]

variable (hAnalyzer : Blockwise analyzer prepared filename)
include hAnalyzer

theorem interleaved_found :
    Interleaved
      ((List.range prepared.blocks.length).map fun i => found analyzer prepared.document (blockCall prepared filename i))
      (found analyzer prepared.document (combinedCall prepared filename)) := by
  have hMixed := hAnalyzer.mixed.filterMap (Remapper.mk prepared.document prepared.virtualSource).diagnostic?
  rw [List.map_map] at hMixed
  refine Eq.mp (congrArg (Interleaved · _) (List.map_congr_left ?_)) hMixed
  intro i hi
  have hi := List.mem_range.mp hi
  have hSame := List.map_congr_left fun d hd => by
    obtain ⟨d', hOwn, hCombined⟩ := exists_remapped hPrepare hBlocks hi (hAnalyzer.inside i hi d hd)
    exact hCombined.trans hOwn.symm
  have hFound := congrArg (List.filterMap id) hSame
  rw [List.filterMap_map, List.filterMap_map] at hFound
  rw [Function.comp_apply, List.filterMap_map]
  exact hFound

theorem found_apart :
    ((List.range prepared.blocks.length).map fun i =>
        found analyzer prepared.document (blockCall prepared filename i)).Pairwise
      fun xs ys => ∀ x ∈ xs, ∀ y ∈ ys, ¬(x.line = y.line ∧ x.column = y.column) := by
  rw [List.pairwise_map]
  refine List.pairwise_lt_range.imp_of_mem ?_
  rintro i j hi hj hLt x hx y hy ⟨hLine, hColumn⟩
  rw [List.mem_range] at hi hj
  obtain ⟨d, hd, hx⟩ := List.mem_filterMap.mp hx
  obtain ⟨e, he, hy⟩ := List.mem_filterMap.mp hy
  exact Nat.ne_of_lt hLt (index_eq_of_position hPrepare hBlocks hi hj (hAnalyzer.inside i hi d hd)
    (hAnalyzer.inside j hj e he) hx hy hLine hColumn)

theorem report_perBlock :
    { linter with dispatch := .perBlock }.report analyzer prepared.document
        ({ linter with dispatch := .perBlock }.sources prepared filename) =
      .ok ((List.range prepared.blocks.length).map fun i =>
        found analyzer prepared.document (blockCall prepared filename i)).flatten := by
  rw [sources_perBlock, report_eq_ok, List.flatMap_map]
  · rfl
  · intro _ call hCall d hd
    obtain ⟨i, hi, rfl⟩ := List.mem_map.mp hCall
    have hi := List.mem_range.mp hi
    obtain ⟨d', hOwn, -⟩ := exists_remapped hPrepare hBlocks hi (hAnalyzer.inside i hi d hd)
    exact Option.isSome_of_eq_some hOwn

theorem report_combined :
    { linter with dispatch := .combined }.report analyzer prepared.document
        ({ linter with dispatch := .combined }.sources prepared filename) =
      .ok (found analyzer prepared.document (combinedCall prepared filename)) := by
  by_cases hNone : prepared.blocks = []
  · have hFound := interleaved_found hPrepare hBlocks hAnalyzer
    rw [hNone] at hFound
    rw [hFound.eq_flatten .nil, sources, hNone]
    rfl
  · rw [sources_combined linter hNone, report_eq_ok, List.flatMap_singleton]
    intro _ call hCall d hd
    rw [List.mem_singleton.mp hCall] at hd ⊢
    obtain ⟨list, hList, hd⟩ := hAnalyzer.mixed.exists_mem hd
    obtain ⟨i, hi, rfl⟩ := List.mem_map.mp hList
    obtain ⟨given, hGiven, rfl⟩ := List.mem_map.mp hd
    have hi := List.mem_range.mp hi
    obtain ⟨d', -, hCombined⟩ := exists_remapped hPrepare hBlocks hi (hAnalyzer.inside i hi given hGiven)
    exact Option.isSome_of_eq_some hCombined

end Prepared

/-- The two dispatch modes return the same reports in the same order, for an analyzer that reports block by block. -/
theorem dispatch_modes_agree (linter : Linter) (analyzer : Analyzer) (source filename : String)
    (hSize : (Utf8.encode source).length < wordLimit)
    (hMark : (linter.scanOptions filename).mode = .xml →
      ¬Xml.byteOrderMark <+: (Document.mk (Utf8.encode source)).text)
    (hAnalyzer : ∀ prepared, linter.prepare (Utf8.encode source) filename = .ok prepared →
      Blockwise analyzer prepared filename) :
    ∃ out, { linter with dispatch := .combined }.lint analyzer (Utf8.encode source) filename = .ok out ∧
      { linter with dispatch := .perBlock }.lint analyzer (Utf8.encode source) filename = .ok out := by
  have hSame : ∀ dispatch, { linter with dispatch }.prepare (Utf8.encode source) filename =
      linter.prepare (Utf8.encode source) filename := fun _ => rfl
  cases hPrepare : linter.prepare (Utf8.encode source) filename with
  | error fatal => exact ⟨[fatal], by simp only [lint, hSame, hPrepare], by simp only [lint, hSame, hPrepare]⟩
  | ok prepared =>
    have hBlockwise := hAnalyzer prepared hPrepare
    have hBlocks := arranged_of_prepare hSize hMark hPrepare
    refine ⟨_, lint_eq_ok ((hSame .combined).trans hPrepare) (report_combined hPrepare hBlocks hBlockwise), ?_⟩
    rw [lint_eq_ok ((hSame .perBlock).trans hPrepare) (report_perBlock hPrepare hBlocks hBlockwise)]
    exact congrArg Except.ok (Diagnostic.sort_of_interleaved (interleaved_found hPrepare hBlocks hBlockwise)
      (found_apart hPrepare hBlocks hBlockwise) _).symm

theorem dispatch_modes_agree_sharedLine :
    let report : Nat → Diagnostic := fun column =>
      { line := 1, column, endLine := some 1, endColumn := some (column + 1), message := "" }
    let analyzer : Analyzer := fun _ name => if name = "a.html.js" then [report 19, report 1] else [report 1]
    let raw := Utf8.encode "<script>x</script><script>y</script>"
    Linter.lint { dispatch := .perBlock } analyzer raw "a.html" = .ok [report 9, report 27] ∧
      Linter.lint { dispatch := .combined } analyzer raw "a.html" = .ok [report 9, report 27] := by
  intro report analyzer raw
  obtain ⟨prepared, hPrepare⟩ : ∃ prepared, Linter.prepare { dispatch := .perBlock } raw "a.html" = .ok prepared :=
    ⟨_, rfl⟩
  have hReport : Linter.report { dispatch := .perBlock } analyzer prepared.document
      (Linter.sources { dispatch := .perBlock } prepared "a.html") = .ok [report 9, report 27] := by
    cases hPrepare
    exact eq_ok_of_toOption (by decide +kernel)
  have hLint : Linter.lint { dispatch := .perBlock } analyzer raw "a.html" = .ok [report 9, report 27] := by
    rw [lint_eq_ok hPrepare hReport]
    have hSorted : [report 9, report 27].Pairwise fun a b => a.le b = true := by decide
    exact congrArg Except.ok (List.mergeSort_of_pairwise hSorted)
  have hLength : prepared.blocks.length = 2 := by
    cases hPrepare
    decide +kernel
  have hAnalyzer : Blockwise analyzer prepared "a.html" := by
    constructor
    · intro i hi d hd
      have hIndex : i = 0 ∨ i = 1 := by omega
      cases hPrepare
      rcases hIndex with rfl | rfl <;> rw [List.mem_singleton.mp hd]
      all_goals
        refine ⟨⟨⟨0, 0⟩, rfl, ?_⟩, .inr ⟨⟨0, 1⟩, rfl, ?_⟩, rfl⟩ <;> unfold VirtualSource.Touches <;> decide +kernel
    · cases hPrepare
      have hMixed : Interleaved [[report 1], [report 19]] [report 19, report 1] :=
        .take (i := 1) rfl (.take (i := 0) rfl (.done (by decide)))
      exact Eq.mp (congrArg (Interleaved · [report 19, report 1]) (by decide +kernel)) hMixed
  obtain ⟨out, hCombined, hPerBlock⟩ := dispatch_modes_agree {} analyzer "<script>x</script><script>y</script>" "a.html"
    (by decide +kernel) nofun fun other hOther => by
      cases hPrepare.symm.trans hOther
      exact hAnalyzer
  cases hPerBlock.symm.trans hLint
  exact ⟨hLint, hCombined⟩

end Linter
end ScriptLint
