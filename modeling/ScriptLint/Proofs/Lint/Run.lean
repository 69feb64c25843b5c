import ScriptLint.Proofs.Lint.IndentPlan

/-!
# What blocks have on a line

What a block has on a line is a run: the indentation that the line loses and the content that stays. The runs of placed
blocks stand on the line of the document one after the other, with markup between them.
-/
namespace ScriptLint
set_option autoImplicit false

/-- The part of a document line that belongs to one block. -/
structure Run where
  block : ScriptBlock
  /-- Column on the line of the document where the text of the block begins. -/
  lineStart : Nat
  /-- The indentation that the line loses. -/
  lost : Bytes
  content : Bytes

namespace Run

def documentStart (run : Run) : Nat := run.lineStart + run.lost.length

def documentStop (run : Run) : Nat := run.documentStart + run.content.length

def onLine (indent : Indent) (n : Nat) (block : ScriptBlock) : Option Run :=
  if n < block.start.line then none
  else
    (block.lines.zip (IndentPlan.ofBlock block indent).lines)[n - block.start.line]?.map fun entry =>
      { block
        lineStart := if n = block.start.line then block.start.character else 0
        lost := entry.1.take entry.2.strip
        content := entry.1.drop entry.2.strip }

variable {indent : Indent} {n : Nat} {document : Document} {block : ScriptBlock} {run : Run}

/-- A run whose fields describe line `n` of the document. -/
structure IsPlaced (document : Document) (n : Nat) (run : Run) : Prop where
  block : run.block.IsPlaced document
  start_le : run.block.start.line ≤ n
  text : run.block.lines[n - run.block.start.line]? = some (run.lost ++ run.content)
  lineStart_eq : run.lineStart = if n = run.block.start.line then run.block.start.character else 0
  lost_eq_nil : n = run.block.start.line → run.lost = []
  blank : ∀ b ∈ run.lost, Byte.isSpaceOrTab b = true

theorem isPlaced_of_onLine (hBlock : block.IsPlaced document) (h : onLine indent n block = some run) :
    run.block = block ∧ run.IsPlaced document n := by
  rw [onLine] at h
  split at h
  · cases h
  · rename_i hStart
    obtain ⟨⟨line, plan⟩, hEntry, rfl⟩ := Option.map_eq_some_iff.mp h
    obtain ⟨hStrips, hFirst⟩ := IndentPlan.strips_of_getElem?_zip hEntry
    refine ⟨rfl, hBlock, Nat.le_of_not_lt hStart, ?_, rfl, ?_, hStrips.blank⟩
    · rw [List.take_append_drop]
      exact (List.getElem?_zip_eq_some.mp hEntry).1
    · intro hn
      rw [hFirst (Nat.sub_eq_zero_of_le (Nat.le_of_eq hn)), List.take_zero]

/-- A block has a run on each of its lines, and no more than the plan says is lost of it. -/
theorem exists_onLine {k : Nat} {line : Bytes} (indent : Indent) (h : block.lines[k]? = some line) :
    ∃ plan run, (IndentPlan.ofBlock block indent).lines[k]? = some plan ∧
      onLine indent (block.start.line + k) block = some run ∧ run.lost = line.take plan.strip ∧
      run.content = line.drop plan.strip := by
  obtain ⟨plan, hPlan, -, -⟩ := IndentPlan.getElem?_lines_ofBlock indent h
  have hEntry := (List.getElem?_zip_eq_some (z := (line, plan))).mpr ⟨h, hPlan⟩
  exact ⟨plan, _, hPlan, by rw [onLine, if_neg (by omega), Nat.add_sub_cancel_left, hEntry, Option.map_some], rfl, rfl⟩

theorem onLine_of_noBreak {a : Nat} (hStart : block.start = ⟨n, a⟩)
    (hBreak : Byte.lineFeed ∉ block.text) (indent : Indent) :
    onLine indent n block = some ⟨block, a, [], block.text⟩ := by
  have hLines : block.lines = [block.text] := Bytes.lines_of_notMem hBreak
  rw [onLine, hStart, if_neg (Nat.lt_irrefl _), Nat.sub_self, hLines, if_pos rfl]
  rfl

theorem length_lost_of_onLine {plan : LinePlan} (h : onLine indent n block = some run)
    (hPlan : (IndentPlan.ofBlock block indent).lines[n - block.start.line]? = some plan) :
    run.lost.length = plan.strip := by
  rw [onLine] at h
  split at h
  · cases h
  · obtain ⟨⟨line, other⟩, hEntry, rfl⟩ := Option.map_eq_some_iff.mp h
    cases hPlan.symm.trans (List.getElem?_zip_eq_some.mp hEntry).2
    exact List.length_take_of_le (IndentPlan.strips_of_getElem?_zip hEntry).1.le_length

theorem lineStart_le_documentStop (run : Run) : run.lineStart ≤ run.documentStop :=
  Nat.le_trans (Nat.le_add_right _ _) (Nat.le_add_right _ _)

namespace IsPlaced

theorem noBreak (h : run.IsPlaced document n) : Byte.lineFeed ∉ run.content := fun hMem =>
  Bytes.lineFeed_notMem_of_mem_lines (List.mem_of_getElem? h.text) (List.mem_append_right _ hMem)

/-- The offset of the script, and so of the document, that a column of the run stands at. -/
theorem exists_offset (h : run.IsPlaced document n) {column : Nat} (hStart : run.lineStart ≤ column)
    (hStop : column ≤ run.documentStop) :
    ∃ i ≤ run.block.text.length, run.block.text.place i = ⟨n - run.block.start.line, column - run.lineStart⟩ ∧
      document.text.place (run.block.content.start + i) = ⟨n, column⟩ := by
  have hLength : column - run.lineStart ≤ (run.lost ++ run.content).length := by
    rw [documentStop, documentStart] at hStop
    rw [List.length_append]
    omega
  obtain ⟨i, hi, hPlace⟩ := Bytes.exists_place_eq h.text hLength
  have hFirst : n - run.block.start.line = 0 ↔ n = run.block.start.line := by have := h.start_le; omega
  have hLineStart := h.lineStart_eq
  refine ⟨i, hi, hPlace, ?_⟩
  rw [h.block.place_add hi, Bytes.after_take, hPlace]
  simp only [hFirst, Nat.add_sub_cancel' h.start_le, ← hLineStart, Nat.add_sub_cancel' hStart]

theorem line_add_documentStop_le (h : run.IsPlaced document n) : n + run.documentStop ≤ document.text.length := by
  obtain ⟨i, -, -, hPlace⟩ := h.exists_offset run.lineStart_le_documentStop (Nat.le_refl _)
  have hColumn := Bytes.place_line_add_character_le document.text (run.block.content.start + i)
  rw [hPlace] at hColumn
  exact hColumn

theorem documentStop_le (h : run.IsPlaced document n) : run.documentStop ≤ document.text.length :=
  Nat.le_trans (Nat.le_add_left _ n) h.line_add_documentStop_le

end IsPlaced

/-- Runs of blocks that follow each other are apart. -/
theorem IsPlaced.documentStop_lt {a b : Run} (ha : a.IsPlaced document n) (hb : b.IsPlaced document n)
    (hOrder : a.block.content.stop < b.block.content.start) : a.documentStop < b.lineStart := by
  obtain ⟨i, hi, -, hStop⟩ := ha.exists_offset a.lineStart_le_documentStop (Nat.le_refl _)
  obtain ⟨j, hj, -, hStart⟩ := hb.exists_offset (Nat.le_refl _) b.lineStart_le_documentStop
  have hiLength := ha.block.content_start_add_length
  have hjLength := hb.block.content_start_add_length
  have hLength := hb.block.stop_le_length
  have hLt := Bytes.place_lt_place (s := document.text) (i := a.block.content.start + i)
    (j := b.block.content.start + j) (by omega) (by omega)
  rw [hStop, hStart, Position.lt_iff] at hLt
  rcases hLt with hLine | ⟨-, hColumn⟩
  · exact absurd hLine (Nat.lt_irrefl n)
  · exact hColumn

/-- Runs as they follow each other on a line, each apart from the next. -/
def Separated (runs : List Run) : Prop := runs.Pairwise fun a b => a.documentStop < b.lineStart

theorem Separated.eq_of_column {runs : List Run} (h : Separated runs) {a b : Run} (ha : a ∈ runs) (hb : b ∈ runs)
    {column : Nat} (haStart : a.documentStart ≤ column) (haStop : column ≤ a.documentStop)
    (hbStart : b.documentStart ≤ column) (hbStop : column ≤ b.documentStop) : a = b := by
  have haLine : a.lineStart ≤ a.documentStart := Nat.le_add_right _ _
  have hbLine : b.lineStart ≤ b.documentStart := Nat.le_add_right _ _
  rcases eq_or_rel_of_pairwise h ha hb with hEq | hLt | hLt
  · exact hEq
  · omega
  · omega

end Run

namespace VirtualSource

def runs (indent : Indent) (blocks : List ScriptBlock) (n : Nat) : List Run := blocks.filterMap (Run.onLine indent n)

variable {document : Document} {blocks : List ScriptBlock}

theorem mem_runs_of_onLine {block : ScriptBlock} (hBlock : block ∈ blocks) {indent : Indent} {n : Nat} {run : Run}
    (h : Run.onLine indent n block = some run) : run ∈ runs indent blocks n :=
  List.mem_filterMap.mpr ⟨block, hBlock, h⟩

theorem isPlaced_of_mem_runs (hBlocks : ScriptBlock.Arranged document blocks) {indent : Indent} {n : Nat} {run : Run}
    (h : run ∈ runs indent blocks n) : run.block ∈ blocks ∧ run.IsPlaced document n := by
  obtain ⟨block, hBlock, hRun⟩ := List.mem_filterMap.mp h
  obtain ⟨rfl, hRunPlaced⟩ := Run.isPlaced_of_onLine (hBlocks.isPlaced block hBlock) hRun
  exact ⟨hBlock, hRunPlaced⟩

theorem pairwise_runs (hBlocks : ScriptBlock.Arranged document blocks) (indent : Indent) (n : Nat) :
    (runs indent blocks n).Pairwise fun a b =>
      a.block.content.stop < b.block.content.start ∧ a.block.index < b.block.index := by
  rw [runs, List.pairwise_filterMap]
  refine hBlocks.inOrder.imp_of_mem ?_
  intro a b hMemA hMemB hOrder run hRun other hOther
  obtain ⟨rfl, -⟩ := Run.isPlaced_of_onLine (hBlocks.isPlaced a hMemA) hRun
  obtain ⟨rfl, -⟩ := Run.isPlaced_of_onLine (hBlocks.isPlaced b hMemB) hOther
  exact hOrder

theorem separated_runs (hBlocks : ScriptBlock.Arranged document blocks) (indent : Indent) (n : Nat) :
    Run.Separated (runs indent blocks n) := by
  refine (pairwise_runs hBlocks indent n).imp_of_mem ?_
  intro a b ha hb hOrder
  exact (isPlaced_of_mem_runs hBlocks ha).2.documentStop_lt (isPlaced_of_mem_runs hBlocks hb).2 hOrder.1

end VirtualSource
end ScriptLint
