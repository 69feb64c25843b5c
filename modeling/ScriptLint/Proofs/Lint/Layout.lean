import ScriptLint.Proofs.Location.LineTable
import ScriptLint.Proofs.Lint.RangeAccepted

/-!
# The layout of a virtual source

A virtual source has the lines of its document up to the last script. A block has one segment on each of its lines, the
segments of a line stand as far apart as in the document, and there is markup between any two of them.
-/
namespace ScriptLint
set_option autoImplicit false

/-- How a source lays out blocks of a document. -/
structure VirtualSource.LaidOut (document : Document) (blocks : List ScriptBlock) (source : VirtualSource) : Prop where
  length_le : source.lines.length ≤ document.lines.lineCount
  length_eq : ∀ last, blocks.getLast? = some last → source.lines.length = last.span.stop.line + 1
  text_split : source.lines ≠ [] → source.lineIndex.lineCount = source.lines.length ∧
    ∀ n line, source.lines[n]? = some line → source.lineIndex.fullLine? source.text n =
      some (line.text ++ if n + 1 < source.lines.length then document.newline.bytes else [])
  count_segments : ∀ block ∈ blocks, ∀ n, ((source.segments n).map (·.block)).count block.index =
    if block.span.start.line ≤ n ∧ n ≤ block.span.stop.line then 1 else 0
  exists_block : ∀ n, ∀ segment ∈ source.segments n, ∃ block ∈ blocks, block.index = segment.block
  text_of_no_segments : ∀ line ∈ source.lines, line.segments = [] → line.text = []
  first_start : ∀ n segment, (source.segments n).head? = some segment → segment.virtualStart = 0
  starts_of_later : ∀ n, ∀ segment ∈ (source.segments n).tail, ∀ block ∈ blocks, block.index = segment.block →
    block.span.start.line = n
  /-- There is room for markup between segments in the document too, so a gap is never cut off or made up. -/
  separated : ∀ n, (source.segments n).Pairwise fun a b =>
    a.block < b.block ∧ a.virtualEnd + 1 ≤ b.virtualStart ∧ a.documentStart + a.length + 1 ≤ b.documentStart
  same_shift : ∀ n, ∃ shift, ∀ segment ∈ source.segments n, segment.documentStart = segment.virtualStart + shift

variable {document : Document} {blocks : List ScriptBlock} {block : ScriptBlock} {indent : Indent} {n : Nat}

namespace ScriptBlock

theorem IsPlaced.start_add_length_lines (h : block.IsPlaced document)
    (hStop : block.span.stop = document.text.place block.content.stop) :
    block.start.line + block.lines.length = block.span.stop.line + 1 := by
  have hPos : 0 < block.lines.length := List.length_pos_iff.mpr (Bytes.lines_ne_nil block.text)
  have hPlace := h.place_add (Nat.le_refl block.text.length)
  rw [h.content_start_add_length, List.take_length, Position.after_eq] at hPlace
  rw [hStop, hPlace]
  simp only [lines] at hPos ⊢
  omega

theorem Arranged.pairwise_span (h : Arranged document blocks)
    (hStop : ∀ block ∈ blocks, block.span.stop = document.text.place block.content.stop) :
    blocks.Pairwise fun a b => a.span.stop.lt b.span.start = true := by
  refine h.inOrder.imp_of_mem ?_
  intro a b ha hb hOrder
  have hPlaced := h.isPlaced b hb
  have hStart : b.span.start = document.text.place b.content.start := hPlaced.start_eq
  rw [hStop a ha, hStart]
  exact Bytes.place_lt_place hOrder.1 (Nat.le_trans hPlaced.start_le_stop hPlaced.stop_le_length)

theorem Arranged.stop_line_le {last : ScriptBlock} (h : Arranged document blocks)
    (hStop : ∀ block ∈ blocks, block.span.stop = document.text.place block.content.stop)
    (hLast : blocks.getLast? = some last) (hBlock : block ∈ blocks) : block.span.stop.line ≤ last.span.stop.line := by
  have hMem := List.mem_of_getLast? hLast
  rcases List.getLast?_eq_some_iff.mp hLast with ⟨before, rfl⟩
  rcases List.mem_append.mp hBlock with hBefore | hEq
  · obtain ⟨hApart, -⟩ := (List.pairwise_append.mp h.inOrder).2.2 block hBefore last List.mem_cons_self
    have hPlaced := h.isPlaced last hMem
    have hLt := Bytes.place_lt_place (Nat.lt_of_lt_of_le hApart hPlaced.start_le_stop) hPlaced.stop_le_length
    rw [← hStop block hBlock, ← hStop last hMem, Position.lt_iff] at hLt
    omega
  · cases List.mem_singleton.mp hEq
    exact Nat.le_refl _

end ScriptBlock

theorem Document.stop_eq_of_scan {options : ScanOptions} (hPlain : document.IsPlain options.mode)
    (hScan : document.scan options = .ok blocks) (hBlock : block ∈ blocks) :
    block.span.stop = document.text.place block.content.stop := by
  have hPlaced := (scan_arranged hPlain hScan).1.isPlaced block hBlock
  obtain ⟨elements, -, rfl⟩ := scan_eq_ok hScan
  obtain ⟨element, -, i, -, rfl⟩ := ScriptBlock.exists_of_mem_number hBlock
  exact position_eq_place hPlain.isSmall hPlaced.stop_le_length

theorem Run.isSome_onLine_iff : (onLine indent n block).isSome = true ↔
    block.start.line ≤ n ∧ n < block.start.line + block.lines.length := by
  rw [onLine]
  split
  · simp only [Option.isSome_none, Bool.false_eq_true, false_iff]
    omega
  · rw [Option.isSome_map, Option.isSome_iff_ne_none, ne_eq, List.getElem?_eq_none_iff, List.length_zip,
      IndentPlan.length_lines_ofBlock, Nat.min_self]
    omega

namespace VirtualSource

theorem index_mem_segments_iff (hBlocks : ScriptBlock.Arranged document blocks) (newline : Newline)
    (hBlock : block ∈ blocks) :
    block.index ∈ ((ofBlocks newline indent blocks).segments n).map (·.block) ↔
      (Run.onLine indent n block).isSome = true := by
  rw [segments_ofBlocks hBlocks, List.map_map, List.mem_map, Option.isSome_iff_exists]
  constructor
  · rintro ⟨run, hRun, hIndex⟩
    obtain ⟨other, hOther, hOnLine⟩ := List.mem_filterMap.mp hRun
    obtain ⟨rfl, -⟩ := Run.isPlaced_of_onLine (hBlocks.isPlaced other hOther) hOnLine
    exact ⟨run, hBlocks.inOrder.eq_of_index hOther hBlock hIndex ▸ hOnLine⟩
  · rintro ⟨run, hOnLine⟩
    obtain ⟨rfl, -⟩ := Run.isPlaced_of_onLine (hBlocks.isPlaced block hBlock) hOnLine
    exact ⟨run, mem_runs_of_onLine hBlock hOnLine, rfl⟩

/-- Only a run that begins its block can stand after another one. -/
theorem start_eq_of_mem_tail (hBlocks : ScriptBlock.Arranged document blocks) {run : Run}
    (hRun : run ∈ (runs indent blocks n).tail) : run.block.start.line = n := by
  obtain ⟨-, hPlaced⟩ := isPlaced_of_mem_runs hBlocks (List.mem_of_mem_tail hRun)
  have hSeparated := separated_runs hBlocks indent n
  cases hRuns : runs indent blocks n with
  | nil =>
    rw [hRuns] at hRun
    cases hRun
  | cons first more =>
    rw [hRuns] at hRun hSeparated
    have hApart := (List.pairwise_cons.mp hSeparated).1 run hRun
    have hLineStart := hPlaced.lineStart_eq
    split at hLineStart
    · rename_i hStart
      exact hStart.symm
    · omega

theorem fullLine?_ofBlocks (hBlocks : ScriptBlock.Arranged document blocks) (newline : Newline) (indent : Indent)
    {line : VirtualLine} (h : (ofBlocks newline indent blocks).lines[n]? = some line) :
    (ofBlocks newline indent blocks).lineIndex.fullLine? (ofBlocks newline indent blocks).text n =
      some (line.text ++ if n + 1 < (ofBlocks newline indent blocks).lines.length then newline.bytes else []) := by
  have hBreak := lineFeed_notMem_line hBlocks newline indent
  have hInside := (List.getElem?_eq_some_iff.mp h).1
  have hCount : (Bytes.lines (ofBlocks newline indent blocks).text).length = _ := length_lines_join newline hBreak
  have hText : ((ofBlocks newline indent blocks).lines.map (·.text))[n]? = some line.text := by
    rw [List.getElem?_map, h, Option.map_some]
  have hLine : (Bytes.lines (ofBlocks newline indent blocks).text)[n]? = _ := getElem?_lines_join newline hBreak hText
  rw [lineIndex, LineIndex.fullLine?_ofBytes hLine, hCount, List.length_map, Nat.max_eq_left (by omega)]
  split
  · rw [bytes_eq_mark_append, List.append_assoc]
  · rw [List.append_nil]

theorem laidOut_ofBlocks (hBlocks : ScriptBlock.Arranged document blocks)
    (hStop : ∀ block ∈ blocks, block.span.stop = document.text.place block.content.stop) (indent : Indent) :
    (ofBlocks document.newline indent blocks).LaidOut document blocks where
  length_le := by
    apply length_lines_ofBlocks_le
    intro block hBlock
    have hPlaced := hBlocks.isPlaced block hBlock
    have hInside := (List.getElem?_eq_some_iff.mp (Bytes.lines_getElem?_place document.text block.content.stop)).1
    rw [← hStop block hBlock] at hInside
    rw [hPlaced.start_add_length_lines (hStop block hBlock), Document.lines, LineIndex.lineCount_ofBytes]
    exact ⟨hPlaced.isText, hInside⟩
  length_eq last hLast := by
    have hMem := List.mem_of_getLast? hLast
    have hLines := (hBlocks.isPlaced last hMem).start_add_length_lines (hStop last hMem)
    apply Nat.le_antisymm
    · apply length_lines_ofBlocks_le
      intro block hBlock
      have hPlaced := hBlocks.isPlaced block hBlock
      rw [hPlaced.start_add_length_lines (hStop block hBlock)]
      exact ⟨hPlaced.isText, Nat.succ_le_succ (hBlocks.stop_line_le hStop hLast hBlock)⟩
    · have hPos : 0 < last.lines.length := List.length_pos_iff.mpr (Bytes.lines_ne_nil last.text)
      have hSome : (Run.onLine indent last.span.stop.line last).isSome = true := Run.isSome_onLine_iff.mpr (by omega)
      obtain ⟨run, hRun⟩ := Option.isSome_iff_exists.mp hSome
      exact lt_length_of_run hBlocks document.newline (mem_runs_of_onLine hMem hRun)
  text_split hNe := by
    refine ⟨?_, fun n line hLine => fullLine?_ofBlocks hBlocks document.newline indent hLine⟩
    have hPos := List.length_pos_iff.mpr hNe
    rw [lineIndex, LineIndex.lineCount_ofBytes, text,
      length_lines_join _ (lineFeed_notMem_line hBlocks document.newline indent), List.length_map]
    exact Nat.max_eq_left hPos
  count_segments block hBlock n := by
    have hNodup : (((ofBlocks document.newline indent blocks).segments n).map (·.block)).Nodup := by
      rw [segments_ofBlocks hBlocks, List.map_map, List.Nodup, List.pairwise_map]
      exact (pairwise_runs hBlocks indent n).imp fun hOrder => Nat.ne_of_lt hOrder.2
    have hLines := (hBlocks.isPlaced block hBlock).start_add_length_lines (hStop block hBlock)
    have hOnLine : block.index ∈ ((ofBlocks document.newline indent blocks).segments n).map (·.block) ↔
        block.span.start.line ≤ n ∧ n ≤ block.span.stop.line := by
      rw [index_mem_segments_iff hBlocks _ hBlock, Run.isSome_onLine_iff, hLines, Nat.lt_succ_iff]
      rfl
    rw [hNodup.count]
    simp only [hOnLine]
  exists_block n segment hSegment := by
    rw [segments_ofBlocks hBlocks] at hSegment
    obtain ⟨run, hRun, rfl⟩ := List.mem_map.mp hSegment
    exact ⟨run.block, (isPlaced_of_mem_runs hBlocks hRun).1, rfl⟩
  text_of_no_segments line hMem hSegments := by
    obtain ⟨n, hLine⟩ := List.mem_iff_getElem?.mp hMem
    have hRuns := segments_ofBlocks hBlocks document.newline indent n
    have hText := line_ofBlocks document.newline indent (fun block hBlock => (hBlocks.isPlaced block hBlock).isText) n
    rw [segments_eq, VirtualSource.line, hLine, Option.getD_some, hSegments] at hRuns
    rw [VirtualSource.line, hLine, Option.getD_some, List.map_eq_nil_iff.mp hRuns.symm] at hText
    rw [hText]
    rfl
  first_start n segment hSegment := by
    rw [segments_ofBlocks hBlocks, List.head?_map] at hSegment
    obtain ⟨run, hRun, rfl⟩ := Option.map_eq_some_iff.mp hSegment
    obtain ⟨more, hRuns⟩ := List.head?_eq_some_iff.mp hRun
    simp only [Run.segment, shift, hRuns, Run.shift, Nat.sub_self]
  starts_of_later n segment hSegment block hBlock hIndex := by
    rw [segments_ofBlocks hBlocks, ← List.map_tail] at hSegment
    obtain ⟨run, hRun, rfl⟩ := List.mem_map.mp hSegment
    obtain ⟨hMem, -⟩ := isPlaced_of_mem_runs hBlocks (List.mem_of_mem_tail hRun)
    rw [hBlocks.inOrder.eq_of_index hBlock hMem hIndex]
    exact start_eq_of_mem_tail hBlocks hRun
  separated n := by
    have hShows := line_shows hBlocks document.newline indent n
    rw [segments_ofBlocks hBlocks, List.pairwise_map]
    refine ((pairwise_runs hBlocks indent n).and (separated_runs hBlocks indent n)).imp_of_mem ?_
    rintro a b ha - ⟨⟨-, hOrder⟩, hApart⟩
    have hShift := hShows.shift_le ha
    have hStart : b.lineStart ≤ b.documentStart := Nat.le_add_right _ _
    rw [Run.documentStop] at hApart
    simp only [Run.segment, Segment.virtualEnd]
    omega
  same_shift n := by
    have hShows := line_shows hBlocks document.newline indent n
    refine ⟨VirtualSource.shift indent blocks n, ?_⟩
    rw [segments_ofBlocks hBlocks]
    intro segment hSegment
    obtain ⟨run, hRun, rfl⟩ := List.mem_map.mp hSegment
    exact (Nat.sub_add_cancel (hShows.shift_le hRun)).symm

end VirtualSource

namespace Document

/-- The source that an analyzer gets is laid out, in whatever document the blocks were found. -/
theorem virtual_source_laidOut (source : String) (options : ScanOptions) (indent : Indent) {blocks : List ScriptBlock}
    (hSize : (Utf8.encode source).length < wordLimit)
    (hMark : options.mode = .xml → ¬Xml.byteOrderMark <+: (Document.mk (Utf8.encode source)).text)
    (hScan : (Document.mk (Utf8.encode source)).scan options = .ok blocks) :
    let document : Document := ⟨Utf8.encode source⟩
    let plans := blocks.map fun block => IndentPlan.ofBlock block indent
    (VirtualSource.build document.newline blocks plans).LaidOut document blocks := by
  intro document plans
  have hPlain := isPlain_encode hSize hMark
  exact VirtualSource.laidOut_ofBlocks (scan_arranged hPlain hScan).1
    (fun block hBlock => stop_eq_of_scan hPlain hScan hBlock) indent

theorem virtual_source_laidOut_sharedLine :
    let document : Document := ⟨Utf8.encode "<p><script>\r\n  a();\r\n    b()</script><script>é</script>"⟩
    ∃ blocks, document.scan {} = .ok blocks ∧ blocks.length = 2 ∧ document.raw.length < wordLimit ∧
      let source := VirtualSource.build document.newline blocks
        (blocks.map fun block => IndentPlan.ofBlock block .auto)
      source.lines.length = 3 ∧ source.segments 2 = [⟨0, 0, 2, 0, 5⟩, ⟨1, 22, 24, 24, 2⟩] ∧
        source.LaidOut document blocks := by
  intro document
  have hSize : document.raw.length < wordLimit := by decide +kernel
  have hLaidOut := virtual_source_laidOut _ {} .auto hSize nofun rfl
  exact ⟨_, rfl, by decide +kernel, hSize, by decide +kernel, by decide +kernel, hLaidOut⟩

end Document
end ScriptLint
