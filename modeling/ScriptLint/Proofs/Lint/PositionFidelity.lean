import ScriptLint.Proofs.Lint.Remap

/-!
# Positions survive the way to the analyzer and back

Every byte of a script that is neither a line break nor lost indentation has one virtual position. Remapping leads from
it to the position of the byte in the document, on the same line and in the same order.
-/
namespace ScriptLint
set_option autoImplicit false

namespace VirtualSource

/-- A byte of script text stands at the position. -/
def HasText (source : VirtualSource) (p : Position) : Prop :=
  ∃ segment ∈ source.segments p.line, segment.virtualStart ≤ p.character ∧ p.character < segment.virtualEnd

/-- The position is in script text or just past it. -/
def Touches (source : VirtualSource) (p : Position) : Prop :=
  ∃ segment ∈ source.segments p.line, segment.virtualStart ≤ p.character ∧ p.character ≤ segment.virtualEnd

def byteAt? (source : VirtualSource) (p : Position) : Option UInt8 :=
  (source.lineIndex.offset? p).bind fun o => source.text[o]?

end VirtualSource

/-- A line of the block after its first loses the column. -/
def ScriptBlock.IsLost (block : ScriptBlock) (plan : IndentPlan) (q : Position) : Prop :=
  ∃ line, block.start.line < q.line ∧ plan.lines[q.line - block.start.line]? = some line ∧ q.character < line.strip

namespace Document

/-- A script has `b` at the position of the document, and `b` is neither a line break nor lost indentation. -/
def Keeps (document : Document) (blocks : List ScriptBlock) (plans : List IndentPlan) (q : Position) (b : UInt8) : Prop :=
  ∃ entry ∈ blocks.zip plans, ∃ i, entry.1.text[i]? = some b ∧ b ≠ Byte.lineFeed ∧
    document.position (entry.1.content.start + i) = q ∧ ¬entry.1.IsLost entry.2 q

def byteAt? (document : Document) (q : Position) : Option UInt8 :=
  (document.rawOffset? q).bind fun i => document.raw[i]?

end Document

namespace VirtualSource

variable {document : Document} {blocks : List ScriptBlock} {indent : Indent} {newline : Newline}

theorem hasText_iff (hBlocks : ScriptBlock.Arranged document blocks) {p : Position} :
    (ofBlocks newline indent blocks).HasText p ↔ ∃ run ∈ runs indent blocks p.line,
      run.documentStart ≤ p.character + shift indent blocks p.line ∧
        p.character + shift indent blocks p.line < run.documentStop := by
  have hShows := line_shows hBlocks newline indent p.line
  rw [HasText, segments_ofBlocks hBlocks]
  constructor
  · rintro ⟨segment, hSegment, hStart, hStop⟩
    obtain ⟨run, hRun, rfl⟩ := List.mem_map.mp hSegment
    have hShift := hShows.shift_le hRun
    simp only [Segment.virtualEnd, Run.segment] at hStart hStop
    exact ⟨run, hRun, by omega, by rw [Run.documentStop]; omega⟩
  · rintro ⟨run, hRun, hStart, hStop⟩
    have hShift := hShows.shift_le hRun
    rw [Run.documentStop] at hStop
    refine ⟨_, List.mem_map_of_mem hRun, ?_⟩
    simp only [Segment.virtualEnd, Run.segment]
    omega

theorem exists_byte_of_hasText (hBlocks : ScriptBlock.Arranged document blocks) {p : Position}
    (h : (ofBlocks newline indent blocks).HasText p) :
    ∃ run ∈ runs indent blocks p.line, run.documentStart ≤ p.character + shift indent blocks p.line ∧
      p.character + shift indent blocks p.line ≤ run.documentStop ∧
      ∃ b, run.content[p.character + shift indent blocks p.line - run.documentStart]? = some b := by
  obtain ⟨run, hRun, hStart, hStop⟩ := (hasText_iff hBlocks).mp h
  refine ⟨run, hRun, hStart, Nat.le_of_lt hStop, _, List.getElem?_eq_getElem ?_⟩
  rw [Run.documentStop] at hStop
  omega

theorem touches_iff (hBlocks : ScriptBlock.Arranged document blocks) {p : Position} :
    (ofBlocks newline indent blocks).Touches p ↔
      ∃ q, (Remapper.mk document (ofBlocks newline indent blocks)).position p = .ok q := by
  have hShows := line_shows hBlocks newline indent p.line
  rw [Touches, segments_ofBlocks hBlocks]
  constructor
  · rintro ⟨segment, hSegment, hColumn⟩
    obtain ⟨run, hRun, rfl⟩ := List.mem_map.mp hSegment
    refine ⟨_, (Remapper.position_eq_ok_iff hBlocks).mpr ⟨rfl, run, hRun, ?_⟩⟩
    exact (hShows.contains_segment_iff hRun).mp (Segment.contains_iff.mpr hColumn)
  · rintro ⟨q, hPosition⟩
    obtain ⟨-, run, hRun, hColumn⟩ := (Remapper.position_eq_ok_iff hBlocks).mp hPosition
    exact ⟨_, List.mem_map_of_mem hRun, Segment.contains_iff.mp ((hShows.contains_segment_iff hRun).mpr hColumn)⟩

theorem byteAt?_of_line (hBlocks : ScriptBlock.Arranged document blocks) {n c : Nat} {b : UInt8}
    (h : ((ofBlocks newline indent blocks).line n).text[c]? = some b) :
    (ofBlocks newline indent blocks).byteAt? ⟨n, c⟩ = some b := by
  obtain ⟨hc, -⟩ := List.getElem?_eq_some_iff.mp h
  obtain ⟨ending, -, hText⟩ := getElem?_lines_text hBlocks newline indent (lt_length_of_line h)
  obtain ⟨o, ho, hPlace⟩ := Bytes.exists_place_eq hText (x := c) (by rw [List.length_append]; omega)
  rw [byteAt?, lineIndex, LineIndex.offset?_ofBytes_eq_some_iff.mpr ⟨ho, hPlace⟩, Option.bind_some]
  exact text_getElem?_of_line hBlocks hPlace h

theorem exists_run_of_byte (hBlocks : ScriptBlock.Arranged document blocks) (indent : Indent) {block : ScriptBlock}
    (hBlock : block ∈ blocks) {q : Position} {b : UInt8} {i : Nat} (hByte : block.text[i]? = some b)
    (hb : b ≠ Byte.lineFeed) (hPosition : document.text.place (block.content.start + i) = q) :
    ∃ run, Run.onLine indent q.line block = some run ∧ run.lineStart ≤ q.character ∧
      (run.lost ++ run.content)[q.character - run.lineStart]? = some b := by
  have hPlaced := hBlocks.isPlaced block hBlock
  have hi : i < block.text.length := (List.getElem?_eq_some_iff.mp hByte).1
  -- the byte stands at line `k` and column `x` of the script
  obtain ⟨k, x, hPlace⟩ : ∃ k x, block.text.place i = ⟨k, x⟩ := ⟨_, _, rfl⟩
  have hLine := Bytes.lines_getElem?_place block.text i
  rw [hPlace] at hLine
  have hColumn := (Bytes.getElem?_eq_some_iff_of_place hLine hPlace hb).mp hByte
  rw [hPlaced.place_add (Nat.le_of_lt hi), Bytes.after_take, hPlace] at hPosition
  subst hPosition
  obtain ⟨plan, run, -, hRun, hLost, hContent⟩ := Run.exists_onLine indent hLine
  obtain ⟨rfl, hRunPlaced⟩ := Run.isPlaced_of_onLine hPlaced hRun
  have hFirst : run.block.start.line + k = run.block.start.line ↔ k = 0 := by omega
  have hLineStart := hRunPlaced.lineStart_eq
  simp only [hFirst] at hLineStart
  refine ⟨run, hRun, ?_, ?_⟩
  · rw [hLineStart]
    exact Nat.le_add_right _ _
  · rw [hLost, hContent, List.take_append_drop, hLineStart, Nat.add_sub_cancel_left]
    exact hColumn

theorem exists_run_of_keeps (hBlocks : ScriptBlock.Arranged document blocks) {q : Position} {b : UInt8}
    (h : document.Keeps blocks (blocks.map fun block => IndentPlan.ofBlock block indent) q b) :
    ∃ run ∈ runs indent blocks q.line, run.documentStart ≤ q.character ∧
      run.content[q.character - run.documentStart]? = some b := by
  obtain ⟨entry, hEntry, i, hByte, hb, hPosition, hKept⟩ := h
  rw [← List.map_prod_left_eq_zip] at hEntry
  obtain ⟨block, hBlock, rfl⟩ := List.mem_map.mp hEntry
  have hPlaced := hBlocks.isPlaced block hBlock
  have hi : i < block.text.length := (List.getElem?_eq_some_iff.mp hByte).1
  rw [Document.position_eq_place hBlocks.isSmall (hPlaced.start_add_le_length (Nat.le_of_lt hi))] at hPosition
  obtain ⟨run, hRun, hLineStart, hRunByte⟩ := exists_run_of_byte hBlocks indent hBlock hByte hb hPosition
  obtain ⟨rfl, hRunPlaced⟩ := Run.isPlaced_of_onLine hPlaced hRun
  have hLost : run.lost.length ≤ q.character - run.lineStart := by
    apply Nat.le_of_not_lt
    intro hLt
    have hLater : q.line ≠ run.block.start.line := by
      intro hFirst
      rw [hRunPlaced.lost_eq_nil hFirst] at hLt
      exact Nat.not_lt_zero _ hLt
    obtain ⟨plan, hPlan, -, -⟩ := IndentPlan.getElem?_lines_ofBlock indent hRunPlaced.text
    refine hKept ⟨plan, Nat.lt_of_le_of_ne hRunPlaced.start_le (Ne.symm hLater), hPlan, ?_⟩
    rw [Run.length_lost_of_onLine hRun hPlan, hRunPlaced.lineStart_eq, if_neg hLater] at hLt
    exact hLt
  rw [List.getElem?_append_right hLost, Nat.sub_sub] at hRunByte
  refine ⟨run, mem_runs_of_onLine hBlock hRun, ?_, hRunByte⟩
  rw [Run.documentStart]
  omega

theorem keeps_of_run (hBlocks : ScriptBlock.Arranged document blocks) {q : Position} {b : UInt8} {run : Run}
    (hRun : run ∈ runs indent blocks q.line) (hStart : run.documentStart ≤ q.character)
    (hByte : run.content[q.character - run.documentStart]? = some b) :
    document.Keeps blocks (blocks.map fun block => IndentPlan.ofBlock block indent) q b := by
  obtain ⟨block, hBlock, hOnLine⟩ := List.mem_filterMap.mp hRun
  obtain ⟨rfl, hPlaced⟩ := Run.isPlaced_of_onLine (hBlocks.isPlaced block hBlock) hOnLine
  obtain ⟨hInside, -⟩ := List.getElem?_eq_some_iff.mp hByte
  have hStop : q.character ≤ run.documentStop := by
    rw [Run.documentStop]
    omega
  obtain ⟨i, hi, hScript, hDocument⟩ := hPlaced.exists_offset (Nat.le_trans (Nat.le_add_right _ _) hStart) hStop
  have hb : b ≠ Byte.lineFeed := fun hb => hPlaced.noBreak (List.mem_of_getElem? (hb ▸ hByte))
  refine ⟨(run.block, IndentPlan.ofBlock run.block indent), ?_, i, ?_, hb, ?_, ?_⟩
  · rw [← List.map_prod_left_eq_zip]
    exact List.mem_map_of_mem hBlock
  · refine (Bytes.getElem?_eq_some_iff_of_place hPlaced.text hScript hb).mpr ?_
    rw [Run.documentStart] at hStart hByte
    rw [List.getElem?_append_right (by omega), Nat.sub_sub]
    exact hByte
  · rw [Document.position_eq_place hBlocks.isSmall (hPlaced.block.start_add_le_length hi), hDocument]
  · rintro ⟨plan, hLater, hPlan, hLt⟩
    have hLost := Run.length_lost_of_onLine hOnLine hPlan
    rw [Run.documentStart, hPlaced.lineStart_eq, if_neg (Nat.ne_of_gt hLater), hLost] at hStart
    omega

end VirtualSource

/-- Remapping sets up a correspondence between the script text of the source and the bytes that `kept` tells. -/
structure Remapper.Faithful (r : Remapper) (kept : Position → UInt8 → Prop) : Prop where
  into : ∀ p, r.source.HasText p → ∃ q b, r.position p = .ok q ∧ q.line = p.line ∧ kept q b
  onto : ∀ q b, kept q b → ∃ p, r.source.HasText p ∧ r.position p = .ok q
  injective : ∀ p p' q, r.position p = .ok q → r.position p' = .ok q → p = p'
  monotone : ∀ p p' q q', r.position p = .ok q → r.position p' = .ok q' → (p.lt p' = true ↔ q.lt q' = true)
  sameByte : ∀ p q b, r.source.HasText p → r.position p = .ok q → (r.source.byteAt? p = some b ↔ kept q b)
  defined : ∀ p, (∃ q, r.position p = .ok q) ↔ r.source.Touches p

namespace Remapper

variable {document : Document} {blocks : List ScriptBlock}

theorem monotone_of_arranged (hBlocks : ScriptBlock.Arranged document blocks) {newline : Newline} {indent : Indent}
    {p p' q q' : Position}
    (hq : (Remapper.mk document (VirtualSource.ofBlocks newline indent blocks)).position p = .ok q)
    (hq' : (Remapper.mk document (VirtualSource.ofBlocks newline indent blocks)).position p' = .ok q') :
    p.lt p' = true ↔ q.lt q' = true := by
  obtain ⟨rfl, -⟩ := (position_eq_ok_iff hBlocks).mp hq
  obtain ⟨rfl, -⟩ := (position_eq_ok_iff hBlocks).mp hq'
  rw [Position.lt_iff, Position.lt_iff]
  by_cases hLine : p.line = p'.line
  · simp only [hLine, Nat.lt_irrefl, false_or, true_and, Nat.add_lt_add_iff_right]
  · simp only [hLine, false_and, or_false]

/-- Arranged blocks are remapped faithfully, whatever indentation their lines lose. -/
theorem faithful_of_arranged (hBlocks : ScriptBlock.Arranged document blocks) (newline : Newline) (indent : Indent) :
    (Remapper.mk document (VirtualSource.ofBlocks newline indent blocks)).Faithful
      (document.Keeps blocks (blocks.map fun block => IndentPlan.ofBlock block indent)) where
  into p hp := by
    obtain ⟨run, hRun, hStart, hStop, b, hByte⟩ := VirtualSource.exists_byte_of_hasText hBlocks hp
    refine ⟨_, b, (position_eq_ok_iff hBlocks).mpr ⟨rfl, run, hRun, hStart, hStop⟩, rfl, ?_⟩
    exact VirtualSource.keeps_of_run hBlocks hRun hStart hByte
  onto q b hq := by
    obtain ⟨run, hRun, hStart, hByte⟩ := VirtualSource.exists_run_of_keeps hBlocks hq
    obtain ⟨hInside, -⟩ := List.getElem?_eq_some_iff.mp hByte
    have hShift := (VirtualSource.line_shows hBlocks newline indent q.line).shift_le hRun
    have hColumn : q.character - VirtualSource.shift indent blocks q.line +
        VirtualSource.shift indent blocks q.line = q.character := by omega
    refine ⟨⟨q.line, q.character - VirtualSource.shift indent blocks q.line⟩, ?_, ?_⟩
    · refine (VirtualSource.hasText_iff hBlocks).mpr ⟨run, hRun, ?_⟩
      rw [hColumn, Run.documentStop]
      omega
    · refine (position_eq_ok_iff hBlocks).mpr ⟨?_, run, hRun, ?_⟩
      · rw [hColumn]
      · rw [hColumn, Run.documentStop]
        omega
  injective p p' q hp hp' := by
    obtain ⟨rfl, -⟩ := (position_eq_ok_iff hBlocks).mp hp
    obtain ⟨hEq, -⟩ := (position_eq_ok_iff hBlocks).mp hp'
    obtain ⟨hLine, hColumn⟩ := Position.mk.inj hEq
    rw [hLine] at hColumn
    cases p
    cases p'
    exact congr (congrArg Position.mk hLine) (Nat.add_right_cancel hColumn)
  monotone p p' q q' hq hq' := monotone_of_arranged hBlocks hq hq'
  sameByte p q b hp hq := by
    obtain ⟨rfl, -⟩ := (position_eq_ok_iff hBlocks).mp hq
    constructor
    · intro hByte
      obtain ⟨run, hRun, hStart, -, c, hContent⟩ := VirtualSource.exists_byte_of_hasText hBlocks hp
      have hSame : (VirtualSource.ofBlocks newline indent blocks).byteAt? p = some c :=
        VirtualSource.byteAt?_of_line hBlocks (VirtualSource.line_getElem?_of_run hBlocks hRun hStart hContent)
      exact VirtualSource.keeps_of_run hBlocks hRun hStart (hContent.trans (hSame.symm.trans hByte))
    · intro hKept
      obtain ⟨run, hRun, hStart, hContent⟩ := VirtualSource.exists_run_of_keeps hBlocks hKept
      exact VirtualSource.byteAt?_of_line hBlocks (VirtualSource.line_getElem?_of_run hBlocks hRun hStart hContent)
  defined p := (VirtualSource.touches_iff hBlocks).symm

end Remapper

namespace Document

theorem byteAt?_of_keeps {document : Document} {blocks : List ScriptBlock} {plans : List IndentPlan} {q : Position}
    {b : UInt8} (hBlocks : ScriptBlock.Arranged document blocks) (hHtml : ∀ block ∈ blocks, block.mode = .html)
    (h : document.Keeps blocks plans q b) : document.byteAt? q = some b := by
  obtain ⟨⟨block, plan⟩, hEntry, i, hByte, hb, rfl, -⟩ := h
  obtain ⟨hBlock, -⟩ := List.of_mem_zip hEntry
  have hPlaced := hBlocks.isPlaced block hBlock
  have hi : i < block.text.length := (List.getElem?_eq_some_iff.mp hByte).1
  have hText : document.text[block.content.start + i]? = some b := by
    have hLength := hPlaced.content_start_add_length
    simp only [hPlaced.html (hHtml block hBlock)] at hByte
    rw [List.getElem?_drop, List.getElem?_take_of_lt (by omega)] at hByte
    exact hByte
  have hLe := hPlaced.start_add_le_length (Nat.le_of_lt hi)
  rw [byteAt?, position_eq_place hBlocks.isSmall hLe, rawOffset?_place hBlocks.isSmall hLe, Option.bind_some,
    raw_getElem?_toRawOffset hBlocks.isSmall hText hb]

/-- The script text that the analyzer sees corresponds to the script text of the document that is not lost. -/
theorem positions_correspond (source : String) (options : ScanOptions) (indent : Indent) {blocks : List ScriptBlock}
    (hSize : (Utf8.encode source).length < wordLimit)
    (hMark : options.mode = .xml → ¬Xml.byteOrderMark <+: (Document.mk (Utf8.encode source)).text)
    (hScan : (Document.mk (Utf8.encode source)).scan options = .ok blocks) :
    let document : Document := ⟨Utf8.encode source⟩
    let plans := blocks.map fun block => IndentPlan.ofBlock block indent
    (Remapper.mk document (VirtualSource.build document.newline blocks plans)).Faithful (document.Keeps blocks plans) ∧
      (options.mode = .html → ∀ q b, document.Keeps blocks plans q b → document.byteAt? q = some b) := by
  intro document plans
  obtain ⟨hBlocks, hMode⟩ := scan_arranged (isPlain_encode hSize hMark) hScan
  refine ⟨Remapper.faithful_of_arranged hBlocks document.newline indent, ?_⟩
  intro hHtml q b hKept
  exact byteAt?_of_keeps hBlocks (fun block hBlock => (hMode block hBlock).trans hHtml) hKept

theorem positions_correspond_sharedLine :
    let document : Document := ⟨Utf8.encode "<p><script>\r\n  a();\r\n    b()</script><script>é</script>"⟩
    ∃ blocks, document.scan {} = .ok blocks ∧ blocks.length = 2 ∧ document.raw.length < wordLimit ∧
      let plans := blocks.map fun block => IndentPlan.ofBlock block .auto
      let remapper : Remapper := ⟨document, VirtualSource.build document.newline blocks plans⟩
      (remapper.position ⟨2, 22⟩).toOption = some ⟨2, 24⟩ ∧ remapper.Faithful (document.Keeps blocks plans) ∧
        ∀ q b, document.Keeps blocks plans q b → document.byteAt? q = some b := by
  intro document
  have hSize : document.raw.length < wordLimit := by decide +kernel
  obtain ⟨hFaithful, hHtml⟩ := positions_correspond _ {} .auto hSize nofun rfl
  exact ⟨_, rfl, by decide +kernel, hSize, by decide +kernel, hFaithful, hHtml rfl⟩

end Document
end ScriptLint
