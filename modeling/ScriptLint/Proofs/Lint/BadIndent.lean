import ScriptLint.Proofs.Diagnostic.Order
import ScriptLint.Proofs.Lint.DocumentLine
import ScriptLint.Proofs.Lint.Report

/-!
# Reports on indentation

The lines that are reported can be told from the document and the settings alone, whatever the analyzer reports and
however it is called. No line is reported for two blocks, and the reports stand in the result from top to bottom.
-/
namespace ScriptLint
set_option autoImplicit false

def BadIndent.reportAt (n : Nat) : Diagnostic := { line := n + 1, column := 1, message, ruleId := some ruleId }

/-- Line `n` has content of a block after the block's first line, and its indentation is not what it must be. -/
def Document.Misindented (document : Document) (block : ScriptBlock) (expected : Bytes) (n : Nat) : Prop :=
  document.hasContent block n = true ∧
    IndentPlan.Deviates expected (holdsFirst (document.hasContent block) n) (document.lineIndent n)

namespace IndentPlan

theorem mem_badLines_iff {plan : IndentPlan} {k : Nat} :
    k ∈ plan.badLines ↔ ∃ entry, plan.lines[k]? = some entry ∧ entry.kind = .badIndent := by
  simp only [badLines, List.mem_map, List.mem_filter, List.mem_zipIdx_iff_getElem?, beq_iff_eq, Prod.exists]
  constructor
  · rintro ⟨entry, i, ⟨hEntry, hKind⟩, rfl⟩
    exact ⟨entry, hEntry, hKind⟩
  · rintro ⟨entry, hEntry, hKind⟩
    exact ⟨entry, k, ⟨hEntry, hKind⟩, rfl⟩

theorem pairwise_badLines (plan : IndentPlan) : plan.badLines.Pairwise (· < ·) := by
  have hSublist : plan.badLines.Sublist (plan.lines.zipIdx.map (·.2)) := List.filter_sublist.map _
  rw [List.zipIdx_map_snd] at hSublist
  exact (List.pairwise_lt_range' 1).sublist hSublist

theorem bounds_of_mem_badLines {block : ScriptBlock} {indent : Indent} {k : Nat}
    (h : k ∈ (ofBlock block indent).badLines) : 0 < k ∧ k < block.lines.length := by
  obtain ⟨entry, hEntry, hKind⟩ := mem_badLines_iff.mp h
  constructor
  · cases k with
    | zero =>
      cases hEntry
      cases hKind
    | succ k => exact Nat.succ_pos k
  · have hInside := (List.getElem?_eq_some_iff.mp hEntry).1
    rw [length_lines_ofBlock] at hInside
    exact hInside

end IndentPlan

namespace Document

variable {document : Document} {block : ScriptBlock} {n : Nat}

section Html

variable (hPlaced : block.IsPlaced document) (hText : Utf8.IsText document.text) (hHtml : block.mode = .html)
  (hStop : block.span.stop = document.text.place block.content.stop)
include hPlaced hText hHtml hStop

theorem misindented_add_iff (indent : Indent) {k : Nat} {line : Bytes} {entry : LinePlan}
    (hLine : block.lines[k + 1]? = some line) (hEntry : (IndentPlan.ofBlock block indent).lines[k + 1]? = some entry) :
    document.Misindented block (IndentPlan.ofBlock block indent).expected (block.start.line + (k + 1)) ↔
      entry.kind = .badIndent := by
  have hFollows := IndentPlan.follows_succ hPlaced.isText hLine hEntry
  rw [hFollows.badIndent_iff (Nat.succ_pos k), Misindented, hasContent_add hPlaced hText hHtml hStop,
    holdsFirst_add hPlaced hText hHtml hStop]
  apply and_congr_right
  intro hContent
  rw [ScriptBlock.hasContent_of_getElem? (Nat.succ_pos k) hLine, Bool.not_eq_true'] at hContent
  rw [lineIndent_eq hPlaced hText hHtml hStop (Nat.succ_pos k) hLine hContent]

theorem misindented_iff (indent : Indent) :
    document.Misindented block (IndentPlan.ofBlock block indent).expected n ↔
      ∃ k ∈ (IndentPlan.ofBlock block indent).badLines, block.start.line + k = n := by
  simp only [IndentPlan.mem_badLines_iff]
  constructor
  · intro h
    obtain ⟨k, rfl⟩ := Nat.exists_eq_add_of_lt (lt_of_hasContent h.1)
    rw [Nat.add_assoc] at h ⊢
    have hContent := h.1
    rw [hasContent_add hPlaced hText hHtml hStop] at hContent
    obtain ⟨-, line, hLine, -⟩ := ScriptBlock.exists_of_hasContent hContent
    obtain ⟨entry, hEntry, -⟩ := IndentPlan.getElem?_lines_ofBlock indent hLine
    exact ⟨k + 1, ⟨entry, hEntry, (misindented_add_iff hPlaced hText hHtml hStop indent hLine hEntry).mp h⟩, rfl⟩
  · rintro ⟨k, ⟨entry, hEntry, hKind⟩, rfl⟩
    obtain ⟨hPos, hInside⟩ := IndentPlan.bounds_of_mem_badLines (IndentPlan.mem_badLines_iff.mpr ⟨entry, hEntry, hKind⟩)
    obtain ⟨k, rfl⟩ := Nat.exists_eq_succ_of_ne_zero (Nat.ne_of_gt hPos)
    exact (misindented_add_iff hPlaced hText hHtml hStop indent (List.getElem?_eq_getElem hInside) hEntry).mpr hKind

end Html

/-- The opening tag takes up a byte, so there are fewer lines than bytes. -/
theorem stop_line_lt (hPlaced : block.IsPlaced document)
    (hStop : block.span.stop = document.text.place block.content.stop) :
    block.span.stop.line < document.text.length := by
  obtain ⟨i, hi, hGreater⟩ := hPlaced.opened
  have hBefore := Position.after_line_le ⟨0, 0⟩ (document.text.take i)
  have hWithin := Position.after_line_le (document.text.place block.content.start)
    ((document.text.drop block.content.start).take (block.content.stop - block.content.start))
  have hStart : (document.text.place block.content.start).line = (document.text.place i).line := by
    rw [hi, Bytes.place_succ hGreater]
    rfl
  have hLe := hPlaced.start_le_stop
  have hLength := hPlaced.stop_le_length
  rw [← Bytes.place_add, Nat.add_sub_cancel' hLe, ← hStop, hStart] at hWithin
  rw [← Bytes.place] at hBefore
  simp only [List.length_take, List.length_drop] at hBefore hWithin
  omega

end Document

namespace BadIndent

def rows (indent : Indent) (blocks : List ScriptBlock) : List Nat :=
  blocks.flatMap fun block => (IndentPlan.ofBlock block indent).badLines.map (block.start.line + ·)

theorem pairwise_reportAt {rows : List Nat} (h : rows.Pairwise (· < ·)) :
    (rows.map reportAt).Pairwise fun a b => a.le b = true := by
  rw [List.pairwise_map]
  refine h.imp ?_
  intro n m hLt
  exact Diagnostic.le_iff.mpr (.inl (Nat.succ_lt_succ hLt))

section Blocks

variable {document : Document} {blocks : List ScriptBlock} (hBlocks : ScriptBlock.Arranged document blocks)
  (hStop : ∀ block ∈ blocks, block.span.stop = document.text.place block.content.stop) (indent : Indent)
include hBlocks hStop

theorem bounds_of_mem {block : ScriptBlock} (hBlock : block ∈ blocks) {n : Nat}
    (h : n ∈ (IndentPlan.ofBlock block indent).badLines.map (block.start.line + ·)) :
    block.start.line < n ∧ n ≤ block.span.stop.line := by
  obtain ⟨k, hk, rfl⟩ := List.mem_map.mp h
  obtain ⟨hPos, hInside⟩ := IndentPlan.bounds_of_mem_badLines hk
  have hLines := (hBlocks.isPlaced block hBlock).start_add_length_lines (hStop block hBlock)
  omega

/-- A block ends before the first line of a later one, or on it; and that line is not reported for the later block. -/
theorem pairwise_rows : (rows indent blocks).Pairwise (· < ·) := by
  rw [rows, List.pairwise_flatMap]
  constructor
  · intro block _
    rw [List.pairwise_map]
    exact (IndentPlan.pairwise_badLines _).imp fun hLt => Nat.add_lt_add_left hLt _
  · refine (hBlocks.pairwise_span hStop).imp_of_mem ?_
    intro a b ha hb hApart n hn m hm
    obtain ⟨-, hEnd⟩ := bounds_of_mem hBlocks hStop indent ha hn
    obtain ⟨hBegin, -⟩ := bounds_of_mem hBlocks hStop indent hb hm
    have hStart : b.start.line = b.span.start.line := rfl
    rw [Position.lt_iff] at hApart
    omega

theorem check_eq {block : ScriptBlock} (hBlock : block ∈ blocks) :
    check block (IndentPlan.ofBlock block indent) =
      ((IndentPlan.ofBlock block indent).badLines.map (block.start.line + ·)).map reportAt := by
  rw [check, List.map_map, List.map_inj_left]
  intro k hk
  obtain ⟨-, hEnd⟩ := bounds_of_mem hBlocks hStop indent hBlock (List.mem_map_of_mem hk)
  have hLine := Document.stop_line_lt (hBlocks.isPlaced block hBlock) (hStop block hBlock)
  have hSmall := hBlocks.isSmall.text
  have hNumber : block.start.lineNumber + k = block.start.line + k + 1 := by
    rw [Position.lineNumber_of_lt (by omega)]
    exact Nat.add_right_comm _ _ _
  rw [clampWord_of_lt (n := k) (by omega), hNumber, clampWord_of_lt (by omega)]
  rfl

theorem badIndent_eq (mode : MarkupMode) :
    (Prepared.mk document mode blocks (blocks.map fun block => IndentPlan.ofBlock block indent)).badIndent =
      (rows indent blocks).map reportAt := by
  rw [Prepared.badIndent, ← List.map_prod_left_eq_zip, List.flatMap_map, rows, List.map_flatMap]
  rw [List.flatMap_def, List.flatMap_def, List.map_congr_left]
  intro block hBlock
  exact check_eq hBlocks hStop indent hBlock

end Blocks

theorem mem_rows_iff {document : Document} {blocks : List ScriptBlock} (hBlocks : ScriptBlock.Arranged document blocks)
    (hText : Utf8.IsText document.text) (hHtml : ∀ block ∈ blocks, block.mode = .html)
    (hStop : ∀ block ∈ blocks, block.span.stop = document.text.place block.content.stop) (indent : Indent) {n : Nat} :
    n ∈ rows indent blocks ↔
      ∃ block ∈ blocks, document.Misindented block (IndentPlan.ofBlock block indent).expected n := by
  have hRow : ∀ block ∈ blocks, n ∈ (IndentPlan.ofBlock block indent).badLines.map (block.start.line + ·) ↔
      document.Misindented block (IndentPlan.ofBlock block indent).expected n := by
    intro block hBlock
    rw [Document.misindented_iff (hBlocks.isPlaced block hBlock) hText (hHtml block hBlock) (hStop block hBlock),
      List.mem_map]
  rw [rows, List.mem_flatMap]
  constructor
  · rintro ⟨block, hBlock, hn⟩
    exact ⟨block, hBlock, (hRow block hBlock).mp hn⟩
  · rintro ⟨block, hBlock, h⟩
    exact ⟨block, hBlock, (hRow block hBlock).mpr h⟩

end BadIndent

namespace Linter

theorem prepare_html (linter : Linter) {source : Bytes} {filename : String} {blocks : List ScriptBlock}
    (hHtml : linter.settings.markupMode filename = .html)
    (hScan : (Document.mk source).scan ⟨.html, linter.settings.mediaTypes⟩ = .ok blocks) :
    linter.prepare source filename = .ok ⟨⟨source⟩, .html, blocks,
      blocks.map fun block => IndentPlan.ofBlock block linter.settings.indent⟩ := by
  simp only [prepare, scanOptions, hHtml, hScan]

/-- The lines of an HTML document with content that is not indented as its block expects are reported, each once and in
order, and these reports are all that the check adds to the result. -/
theorem badIndent_reports_exact (settings : Settings) (source filename : String)
    (hSize : (Utf8.encode source).length < wordLimit) (hHtml : settings.markupMode filename = .html)
    (hReport : settings.reportBadIndent = true) :
    let document : Document := ⟨Utf8.encode source⟩
    ∃ (blocks : List ScriptBlock) (rows : List Nat), document.scan ⟨.html, settings.mediaTypes⟩ = .ok blocks ∧
      rows.Pairwise (· < ·) ∧
      (∀ n, n ∈ rows ↔ ∃ block ∈ blocks,
        document.Misindented block (IndentPlan.ofBlock block settings.indent).expected n) ∧
      ∀ (dispatch : Dispatch) (analyzer : Analyzer), ∃ prepared silent out,
        Linter.prepare { settings, dispatch } document.raw filename = .ok prepared ∧
        prepared.badIndent = rows.map BadIndent.reportAt ∧
        Linter.lint { settings := { settings with reportBadIndent := false }, dispatch } analyzer document.raw filename =
          .ok silent ∧
        Linter.lint { settings, dispatch } analyzer document.raw filename = .ok out ∧
        Interleaved [silent, rows.map BadIndent.reportAt] out := by
  intro document
  obtain ⟨blocks, hScan⟩ : ∃ blocks, document.scan ⟨.html, settings.mediaTypes⟩ = .ok blocks := ⟨_, rfl⟩
  have hPlain : document.IsPlain .html := Document.isPlain_encode hSize fun hXml => nomatch hXml
  have hText := Newline.isText_normalize hPlain.isText
  obtain ⟨hBlocks, hMode⟩ := Document.scan_arranged hPlain hScan
  have hStop : ∀ block ∈ blocks, block.span.stop = document.text.place block.content.stop :=
    fun block hBlock => Document.stop_eq_of_scan hPlain hScan hBlock
  have hBad := BadIndent.badIndent_eq hBlocks hStop settings.indent .html
  have hRows := BadIndent.pairwise_rows hBlocks hStop settings.indent
  refine ⟨blocks, BadIndent.rows settings.indent blocks, hScan, hRows, ?_, ?_⟩
  · intro n
    exact BadIndent.mem_rows_iff hBlocks hText hMode hStop settings.indent
  · intro dispatch analyzer
    obtain ⟨prepared, hPrepared⟩ : ∃ p, p = Prepared.mk document .html blocks
      (blocks.map fun block => IndentPlan.ofBlock block settings.indent) := ⟨_, rfl⟩
    have hPrepare := prepare_html { settings, dispatch } hHtml hScan
    have hSilent := prepare_html { settings := { settings with reportBadIndent := false }, dispatch } hHtml hScan
    rw [← hPrepared] at hPrepare hSilent hBad
    refine ⟨prepared, _, _, hPrepare, hBad, lint_of_lenient rfl hSilent, lint_of_lenient rfl hPrepare, ?_⟩
    rw [if_neg Bool.false_ne_true, List.append_nil, if_pos hReport, hBad]
    exact Diagnostic.interleaved_sort _ (BadIndent.pairwise_reportAt hRows)

theorem badIndent_reports_exact_sharedLine :
    let settings : Settings := { indent := .absolute 2, reportBadIndent := true }
    let document : Document := ⟨Utf8.encode "<script>\n  a\n b</script><script>\n   c\n</script>"⟩
    document.raw.length < wordLimit ∧ settings.markupMode "a.html" = .html ∧
      ∃ blocks, document.scan ⟨.html, settings.mediaTypes⟩ = .ok blocks ∧
        (∀ n, n ∈ [2, 3] ↔ ∃ block ∈ blocks,
          document.Misindented block (IndentPlan.ofBlock block settings.indent).expected n) ∧
        ∀ (dispatch : Dispatch) (analyzer : Analyzer), ∃ silent out,
          Linter.lint { settings := { settings with reportBadIndent := false }, dispatch } analyzer document.raw
            "a.html" = .ok silent ∧
          Linter.lint { settings, dispatch } analyzer document.raw "a.html" = .ok out ∧
          Interleaved [silent, [BadIndent.reportAt 2, BadIndent.reportAt 3]] out := by
  intro settings document
  have hSize : document.raw.length < wordLimit := by decide +kernel
  have hHtml : settings.markupMode "a.html" = .html := by decide +kernel
  obtain ⟨blocks, rows, hScan, -, hMem, hRun⟩ := badIndent_reports_exact settings _ "a.html" hSize hHtml rfl
  have hRows : rows = [2, 3] := by
    obtain ⟨prepared, -, -, hPrepare, hBad, -⟩ := hRun .combined fun _ _ => []
    have hLines : prepared.badIndent.map (·.line - 1) = [2, 3] := by
      cases hPrepare
      decide +kernel
    rw [hBad, List.map_map] at hLines
    exact (List.map_id rows).symm.trans hLines
  subst hRows
  refine ⟨hSize, hHtml, blocks, hScan, hMem, ?_⟩
  intro dispatch analyzer
  obtain ⟨-, silent, out, -, -, hSilent, hOut, hMixed⟩ := hRun dispatch analyzer
  exact ⟨silent, out, hSilent, hOut, hMixed⟩

end Linter
end ScriptLint
