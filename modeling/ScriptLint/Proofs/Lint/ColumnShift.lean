import ScriptLint.Proofs.Lint.BlockSource

/-!
# Shifted columns

A column can be moved back to the document in two ways: through the segment that it is in, counting from zero, and by the
shift of its line, which counts from one and never goes below it. On every line of a block but its first, the two agree.
-/
namespace ScriptLint
set_option autoImplicit false

namespace Column

variable {column strip : Nat}

theorem remap_neg (hColumn : 0 < column) (h : column + strip < wordLimit) :
    remap column (-strip) = column + strip := by
  have hMax : (max ((column : Int) + - -(strip : Int)) 1).toNat = column + strip := by omega
  rw [remap, shift, hMax, clampWord_of_lt h]

theorem transform_neg (h : column < wordLimit) : transform column (-strip) = max (column - strip) 1 := by
  have hMax : (max ((column : Int) + -(strip : Int)) 1).toNat = max (column - strip) 1 := by omega
  have hLimit : 1 < wordLimit := by decide
  rw [transform, shift, hMax, clampWord_of_lt (by omega)]

theorem remap_transform (hStrip : strip < column) (h : column < wordLimit) :
    remap (transform column (-strip)) (-strip) = column := by
  rw [transform_neg h, remap_neg] <;> omega

end Column

/-- The source in which an analyzer sees block `i`. -/
def Prepared.sourceOf (prepared : Prepared) (i : Nat) : Dispatch → VirtualSource
  | .combined => prepared.virtualSource
  | .perBlock => prepared.blockSource i

section Blocks

variable {document : Document} {blocks : List ScriptBlock} {indent : Indent} {block : ScriptBlock} {k : Nat}

theorem VirtualSource.exists_run_of_later (hBlocks : ScriptBlock.Arranged document blocks) (indent : Indent)
    (hBlock : block ∈ blocks) (hk : 0 < k) (hLine : k < block.lines.length) :
    ∃ run ∈ runs indent blocks (block.start.line + k), run.block = block ∧
      shift indent blocks (block.start.line + k) = run.documentStart ∧
      (IndentPlan.ofBlock block indent).delta k = -run.documentStart := by
  obtain ⟨plan, run, hPlan, hRun, -, -⟩ := Run.exists_onLine indent (List.getElem?_eq_getElem hLine)
  obtain ⟨rfl, hPlaced⟩ := Run.isPlaced_of_onLine (hBlocks.isPlaced block hBlock) hRun
  have hMem := mem_runs_of_onLine hBlock hRun
  have hLost : run.lost.length = plan.strip := by
    apply Run.length_lost_of_onLine hRun
    rw [Nat.add_sub_cancel_left]
    exact hPlan
  have hLineStart : run.lineStart = 0 := by
    rw [hPlaced.lineStart_eq, if_neg (by omega)]
  obtain ⟨-, hShift⟩ := lostIndent_of_later hBlocks hMem (by omega)
  refine ⟨run, hMem, rfl, ?_, ?_⟩
  · rw [hShift, Run.documentStart, hLineStart, Nat.zero_add]
  · simp only [IndentPlan.delta, hPlan, LinePlan.delta, Run.documentStart, hLineStart, Nat.zero_add, hLost]

/-- What the two ways have to say about line `k` of a block in a source. -/
structure Remapper.ShiftsLine (r : Remapper) (block : ScriptBlock) (plan : IndentPlan) (k : Nat) (segment : Segment) :
    Prop where
  own : (r.source.segments (block.start.line + k)).find? (·.block == block.index) = some segment
  begins : segment.virtualStart = 0
  position : ∀ c ≤ segment.virtualEnd, ∃ q, r.position ⟨block.start.line + k, c⟩ = .ok q ∧
    q.line = block.start.line + k ∧ q.columnNumber = Column.remap (c + 1) (plan.delta k) ∧
    Column.transform q.columnNumber (plan.delta k) = c + 1

theorem Remapper.exists_shiftsLine (hBlocks : ScriptBlock.Arranged document blocks) (newline : Newline) (indent : Indent)
    (hBlock : block ∈ blocks) (hk : 0 < k) (hLine : k < block.lines.length) :
    ∃ segment, (Remapper.mk document (VirtualSource.ofBlocks newline indent blocks)).ShiftsLine block
      (IndentPlan.ofBlock block indent) k segment := by
  obtain ⟨run, hRun, rfl, hShift, hDelta⟩ := VirtualSource.exists_run_of_later hBlocks indent hBlock hk hLine
  obtain ⟨-, hPlaced⟩ := VirtualSource.isPlaced_of_mem_runs hBlocks hRun
  have hStart : (run.segment run.documentStart).virtualStart = 0 := Nat.sub_self run.documentStart
  have hOwn := VirtualSource.find?_segments hBlocks newline hRun
  rw [hShift] at hOwn
  refine ⟨run.segment run.documentStart, hOwn, hStart, ?_⟩
  intro c hc
  have hColumn : c + run.documentStart ≤ run.documentStop := by
    rw [Segment.virtualEnd, hStart, Nat.zero_add] at hc
    rw [Nat.add_comm]
    exact Nat.add_le_add_left hc run.documentStart
  have hLimit : c + 1 + run.documentStart < wordLimit := by
    have hStop := hPlaced.line_add_documentStop_le
    have hSmall := hBlocks.isSmall.text
    omega
  have hNumber : Position.columnNumber ⟨run.block.start.line + k, c + run.documentStart⟩ = c + 1 + run.documentStart := by
    rw [Nat.add_right_comm] at hLimit ⊢
    exact Position.columnNumber_of_lt hLimit
  refine ⟨⟨run.block.start.line + k, c + run.documentStart⟩, ?_, rfl, ?_, ?_⟩
  · refine (position_eq_ok_iff hBlocks).mpr ⟨?_, run, hRun, ?_, ?_⟩ <;> rw [hShift]
    · exact Nat.le_add_left _ _
    · exact hColumn
  · rw [hNumber, hDelta, Column.remap_neg (Nat.succ_pos c) hLimit]
  · rw [hNumber, hDelta, Column.transform_neg hLimit]
    omega

end Blocks

namespace Document

/-- Segments and shifts move the columns of a script line alike, and shifts undo each other. -/
theorem line_shifts_agree (source : String) (options : ScanOptions) (indent : Indent) {blocks : List ScriptBlock}
    (hSize : (Utf8.encode source).length < wordLimit)
    (hMark : options.mode = .xml → ¬Xml.byteOrderMark <+: (Document.mk (Utf8.encode source)).text)
    (hScan : (Document.mk (Utf8.encode source)).scan options = .ok blocks) :
    let document : Document := ⟨Utf8.encode source⟩
    let plans := blocks.map fun block => IndentPlan.ofBlock block indent
    let prepared : Prepared := ⟨document, options.mode, blocks, plans⟩
    (∀ dispatch i block plan, blocks[i]? = some block → plans[i]? = some plan →
      ∀ k, 1 ≤ k → k < block.lines.length →
        ∃ segment, (Remapper.mk document (prepared.sourceOf i dispatch)).ShiftsLine block plan k segment) ∧
    ∀ strip column, strip < wordLimit → column < wordLimit →
      (strip < column → Column.remap (Column.transform column (-strip)) (-strip) = column) ∧
      (1 ≤ column → column ≤ strip → Column.transform column (-strip) = 1) := by
  intro document plans prepared
  obtain ⟨hBlocks, -⟩ := scan_arranged (isPlain_encode hSize hMark) hScan
  constructor
  · intro dispatch i block plan hBlock hPlan k hk hLine
    have hPlanEq : IndentPlan.ofBlock block indent = plan := by
      simpa only [plans, List.getElem?_map, hBlock, Option.map_some, Option.some.injEq] using hPlan
    subst hPlanEq
    have hMem := List.mem_of_getElem? hBlock
    cases dispatch with
    | combined => exact Remapper.exists_shiftsLine hBlocks document.newline indent hMem hk hLine
    | perBlock =>
      have hSource : prepared.sourceOf i .perBlock = VirtualSource.ofBlocks document.newline indent [block] :=
        Prepared.blockSource_eq_ofBlocks options.mode hBlock
      rw [hSource]
      exact Remapper.exists_shiftsLine (hBlocks.sublist (List.singleton_sublist.mpr hMem)) document.newline indent
        (List.mem_singleton.mpr rfl) hk hLine
  · intro strip column _ hColumn
    constructor
    · intro hStrip
      exact Column.remap_transform hStrip hColumn
    · intro _ hLost
      rw [Column.transform_neg hColumn]
      omega

theorem line_shifts_agree_sharedLine :
    let document : Document := ⟨Utf8.encode "<p><script>\r\n  a();\r\n    b()</script><script>é</script>"⟩
    ∃ blocks, document.scan {} = .ok blocks ∧ document.raw.length < wordLimit ∧
      let plans := blocks.map fun block => IndentPlan.ofBlock block .auto
      let remapper : Remapper := ⟨document, (Prepared.mk document .html blocks plans).sourceOf 0 .combined⟩
      ∃ block plan segment, blocks[0]? = some block ∧ plans[0]? = some plan ∧ 2 < block.lines.length ∧
        plan.delta 2 = -2 ∧ (remapper.position ⟨2, 5⟩).toOption = some ⟨2, 7⟩ ∧
        remapper.ShiftsLine block plan 2 segment ∧ Column.remap (Column.transform 8 (-2)) (-2) = 8 := by
  intro document
  have hSize : document.raw.length < wordLimit := by decide +kernel
  obtain ⟨blocks, hScan⟩ : ∃ blocks, document.scan {} = .ok blocks := ⟨_, rfl⟩
  obtain ⟨hLines, hColumns⟩ := line_shifts_agree _ {} .auto hSize nofun hScan
  have hFirst : blocks[0]?.any (fun block =>
      2 < block.lines.length && (IndentPlan.ofBlock block .auto).delta 2 == -2) = true := by
    cases hScan
    decide +kernel
  obtain ⟨block, hBlock, hPlanned⟩ := (Option.any_eq_true ..).mp hFirst
  obtain ⟨hLength, hDelta⟩ : 2 < block.lines.length ∧ (IndentPlan.ofBlock block .auto).delta 2 = -2 := by
    simpa using hPlanned
  have hPlan : (blocks.map fun block => IndentPlan.ofBlock block .auto)[0]? = some (IndentPlan.ofBlock block .auto) := by
    rw [List.getElem?_map, hBlock, Option.map_some]
  obtain ⟨segment, hSegment⟩ := hLines .combined 0 block _ hBlock hPlan 2 (by decide) hLength
  refine ⟨blocks, hScan, hSize, block, _, segment, hBlock, hPlan, hLength, hDelta, ?_, hSegment, ?_⟩
  · cases hScan
    decide +kernel
  · exact (hColumns 2 8 (by decide) (by decide)).1 (by decide)

end Document
end ScriptLint
