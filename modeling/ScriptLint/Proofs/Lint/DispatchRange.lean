import ScriptLint.Proofs.Lint.BlockSource

/-!
# Ranges of a block under the two dispatch modes

A range of one block stands for the same stretch of the document whether the block is alone in its source or among
others. The exception is a range of whole lines that begins on a line where another block ends: among others it does
not begin at column zero, so it runs past the indentation of its last line.
-/
namespace ScriptLint
set_option autoImplicit false

namespace VirtualSource

/-- The position, in a source of many blocks, of a position in the source of one of them. -/
def among (source : VirtualSource) (block : Nat) (p : Position) : Position :=
  ⟨p.line, p.character + source.startOf block p.line⟩

def rangeBetween? (source : VirtualSource) (p q : Position) : Option OffsetRange := do
  let start ← source.lineIndex.offset? p
  let stop ← source.lineIndex.offset? q
  return ⟨start, stop⟩

end VirtualSource

/-- How much further a range of block `i` from `p` to `q` reaches in the source of all blocks. -/
def Prepared.overreach (prepared : Prepared) (i : Nat) (p q : Position) : Nat :=
  if p.character = 0 ∧ q.character = 0 ∧ prepared.virtualSource.startOf i p.line ≠ 0 ∧ p.line < q.line then
    (VirtualSource.lostIndent prepared.blocks prepared.plans q.line).length
  else 0

variable {document : Document} {blocks : List ScriptBlock} {indent : Indent} {block : ScriptBlock} {p q e : Position}
  {run first last : Run}

namespace VirtualSource

theorem among_add_shift (hBlocks : ScriptBlock.Arranged document blocks) (newline : Newline)
    (hRun : run ∈ runs indent blocks e.line) :
    ((ofBlocks newline indent blocks).among run.block.index e).character + shift indent blocks e.line =
      e.character + run.documentStart := by
  have hColumn := startOf_add_shift hBlocks newline hRun
  simp only [among]
  omega

theorem exists_rangeBetween? (hBlocks : ScriptBlock.Arranged document blocks) (newline : Newline)
    (hFirst : first ∈ runs indent blocks p.line) (hLast : last ∈ runs indent blocks q.line)
    (hp : p.character + shift indent blocks p.line ≤ first.documentStop)
    (hq : q.character + shift indent blocks q.line ≤ last.documentStop) (hOrder : p.le q = true) :
    ∃ range, (ofBlocks newline indent blocks).rangeBetween? p q = some range ∧ range.start ≤ range.stop ∧
      range.stop ≤ (ofBlocks newline indent blocks).text.length ∧
      (ofBlocks newline indent blocks).text.place range.start = p ∧
      (ofBlocks newline indent blocks).text.place range.stop = q := by
  obtain ⟨start, hStart, hStartPlace⟩ := exists_place_of_run hBlocks newline hFirst hp
  obtain ⟨stop, hStop, hStopPlace⟩ := exists_place_of_run hBlocks newline hLast hq
  refine ⟨⟨start, stop⟩, ?_, ?_, hStop, hStartPlace, hStopPlace⟩
  · rw [rangeBetween?, lineIndex, LineIndex.offset?_ofBytes_eq_some_iff.mpr ⟨hStart, hStartPlace⟩,
      LineIndex.offset?_ofBytes_eq_some_iff.mpr ⟨hStop, hStopPlace⟩]
    rfl
  · apply Nat.le_of_not_lt
    intro hLt
    have hReversed := Bytes.place_lt_place hLt hStart
    rw [hStartPlace, hStopPlace] at hReversed
    rw [Position.le, hReversed] at hOrder
    cases hOrder

end VirtualSource

namespace Remapper

theorem exists_range_between (hBlocks : ScriptBlock.Arranged document blocks) (hBlock : last.block = first.block)
    (hFirst : first ∈ VirtualSource.runs indent blocks p.line) (hLast : last ∈ VirtualSource.runs indent blocks q.line)
    {c d : Nat} (hp : p.character + VirtualSource.shift indent blocks p.line = c + first.documentStart)
    (hc : c ≤ first.content.length)
    (hq : q.character + VirtualSource.shift indent blocks q.line = d + last.documentStart)
    (hd : d ≤ last.content.length) (hOrder : p.le q = true) :
    ∃ range i j, (VirtualSource.ofBlocks document.newline indent blocks).rangeBetween? p q = some range ∧
      (Remapper.mk document (VirtualSource.ofBlocks document.newline indent blocks)).range range =
        .ok ⟨document.toRawOffset (first.block.content.start + i), document.toRawOffset (first.block.content.start + j)⟩ ∧
      first.Edge document indent blocks p q p i ∧ last.Edge document indent blocks p q q j := by
  have hpStop : p.character + VirtualSource.shift indent blocks p.line ≤ first.documentStop := by
    rw [Run.documentStop]
    omega
  have hqStop : q.character + VirtualSource.shift indent blocks q.line ≤ last.documentStop := by
    rw [Run.documentStop]
    omega
  obtain ⟨range, hRange, hLe, hLength, hpPlace, hqPlace⟩ :=
    VirtualSource.exists_rangeBetween? hBlocks document.newline hFirst hLast hpStop hqStop hOrder
  obtain ⟨i, hEdge⟩ := exists_edge_of_mem hBlocks p q hFirst (by omega) hpStop
  obtain ⟨j, hEdge'⟩ := exists_edge_of_mem hBlocks p q hLast (by omega) hqStop
  exact ⟨range, i, j, hRange, range_eq_ok_of_edges hBlocks hLe hLength hpPlace hqPlace hBlock hEdge hEdge', hEdge, hEdge'⟩

theorem toRawOffset_of_edges (hBlocks : ScriptBlock.Arranged document blocks) {others : List ScriptBlock}
    {p' q' e' : Position} {i j k : Nat} (hEdge : run.Edge document indent others p q e i)
    (hEdge' : run.Edge document indent blocks p' q' e' j) (hLine : e'.line = e.line)
    (hColumn : run.edgeColumn indent blocks p' q' e' = run.edgeColumn indent others p q e + k) :
    document.toRawOffset (run.block.content.start + j) = document.toRawOffset (run.block.content.start + i) + k := by
  have hPlaced := (VirtualSource.isPlaced_of_mem_runs hBlocks hEdge'.mem).2.block
  have hDocument := hEdge'.document
  rw [hLine, hColumn] at hDocument
  exact Document.toRawOffset_add_column hBlocks.isSmall (hPlaced.start_add_le_length hEdge.le_length)
    (hPlaced.start_add_le_length hEdge'.le_length) hEdge.document hDocument

end Remapper

section Block

variable (hBlocks : ScriptBlock.Arranged document blocks) (hBlock : block ∈ blocks) (newline : Newline)
  (hFirst : Run.onLine indent p.line block = some first) (hLast : Run.onLine indent q.line block = some last)
  (hOrder : p.le q = true)

theorem VirtualSource.edgeColumn_singleton (hRun : Run.onLine indent e.line block = some run) :
    run.edgeColumn indent [block] p q e =
      if p.character = 0 ∧ q.character = 0 then run.lineStart else e.character + run.documentStart := by
  rw [Run.edgeColumn, shift_singleton hRun]

include hOrder in
theorem VirtualSource.among_le_among (source : VirtualSource) (i : Nat) :
    (source.among i p).le (source.among i q) = true := by
  rw [Position.le_iff] at hOrder ⊢
  rcases hOrder with hLine | ⟨hLine, hColumn⟩
  · exact .inl hLine
  · refine .inr ⟨hLine, ?_⟩
    simp only [among, hLine]
    omega

include hBlocks hBlock

theorem VirtualSource.edgeColumn_among (hRun : Run.onLine indent e.line block = some run) :
    run.edgeColumn indent blocks ((ofBlocks newline indent blocks).among block.index p)
        ((ofBlocks newline indent blocks).among block.index q) ((ofBlocks newline indent blocks).among block.index e) =
      if p.character + (ofBlocks newline indent blocks).startOf block.index p.line = 0 ∧
          q.character + (ofBlocks newline indent blocks).startOf block.index q.line = 0
        then run.lineStart else e.character + run.documentStart := by
  obtain ⟨rfl, -⟩ := Run.isPlaced_of_onLine (hBlocks.isPlaced block hBlock) hRun
  rw [Run.edgeColumn, ← among_add_shift hBlocks newline (mem_runs_of_onLine hBlock hRun)]
  rfl

include hFirst hLast hOrder

/-- A block that has nothing before it where a range begins has nothing before it where the range ends. -/
theorem VirtualSource.startOf_eq_zero_of_le
    (h : (ofBlocks newline indent blocks).startOf block.index p.line = 0) :
    (ofBlocks newline indent blocks).startOf block.index q.line = 0 := by
  obtain ⟨rfl, hPlaced⟩ := Run.isPlaced_of_onLine (hBlocks.isPlaced block hBlock) hFirst
  obtain ⟨hSame, -⟩ := Run.isPlaced_of_onLine (hBlocks.isPlaced _ hBlock) hLast
  apply Decidable.byContradiction
  intro hNe
  rw [← hSame] at hNe
  have hLine := eq_start_of_startOf_ne_zero hBlocks newline (mem_runs_of_onLine hBlock hLast) hNe
  have hStart := hPlaced.start_le
  rw [Position.le_iff] at hOrder
  have hEq : p.line = q.line := by
    rw [hSame] at hLine
    omega
  rw [hSame, ← hEq] at hNe
  exact hNe h

theorem VirtualSource.edgeColumns_among :
    first.edgeColumn indent blocks ((ofBlocks newline indent blocks).among block.index p)
        ((ofBlocks newline indent blocks).among block.index q) ((ofBlocks newline indent blocks).among block.index p) =
      first.edgeColumn indent [block] p q p ∧
    last.edgeColumn indent blocks ((ofBlocks newline indent blocks).among block.index p)
        ((ofBlocks newline indent blocks).among block.index q) ((ofBlocks newline indent blocks).among block.index q) =
      last.edgeColumn indent [block] p q q +
        if p.character = 0 ∧ q.character = 0 ∧ (ofBlocks newline indent blocks).startOf block.index p.line ≠ 0 ∧
          p.line < q.line then last.lost.length else 0 := by
  have hZero := startOf_eq_zero_of_le hBlocks hBlock newline hFirst hLast hOrder
  rw [edgeColumn_singleton hFirst, edgeColumn_singleton hLast,
    edgeColumn_among hBlocks hBlock newline hFirst, edgeColumn_among hBlocks hBlock newline hLast]
  obtain ⟨hFirstBlock, hFirstPlaced⟩ := Run.isPlaced_of_onLine (hBlocks.isPlaced block hBlock) hFirst
  obtain ⟨hLastBlock, hLastPlaced⟩ := Run.isPlaced_of_onLine (hBlocks.isPlaced block hBlock) hLast
  by_cases hWhole : p.character = 0 ∧ q.character = 0
  · obtain ⟨hp, hq⟩ := hWhole
    by_cases hStart : (ofBlocks newline indent blocks).startOf block.index p.line = 0
    · simp [hp, hq, hStart, hZero hStart]
    · -- the range begins where the block does, so nothing is lost there
      have hRun := mem_runs_of_onLine hBlock hFirst
      have hLine := eq_start_of_startOf_ne_zero hBlocks newline hRun (by rwa [hFirstBlock])
      have hLost := hFirstPlaced.lost_eq_nil hLine
      rw [Position.le_iff] at hOrder
      by_cases hLater : p.line < q.line
      · simp [hp, hq, hStart, hLater, Run.documentStart, hLost]
      · have hSame : q.line = last.block.start.line := by
          rw [hLastBlock, ← hFirstBlock]
          omega
        simp [hp, hq, hStart, hLater, Run.documentStart, hLost, hLastPlaced.lost_eq_nil hSame]
  · have hMoved : ¬(p.character + (ofBlocks newline indent blocks).startOf block.index p.line = 0 ∧
        q.character + (ofBlocks newline indent blocks).startOf block.index q.line = 0) := by omega
    rw [if_neg hWhole, if_neg hWhole, if_neg hMoved, if_neg hMoved, if_neg (fun h => hWhole ⟨h.1, h.2.1⟩)]
    exact ⟨rfl, rfl⟩

/-- The two modes map a range of a block to the same start, and to stops that differ by lost indentation at most. -/
theorem Remapper.range_among (hp : p.character ≤ first.content.length) (hq : q.character ≤ last.content.length) :
    ∃ range range' mapped,
      (VirtualSource.ofBlocks document.newline indent [block]).rangeBetween? p q = some range ∧
      (VirtualSource.ofBlocks document.newline indent blocks).rangeBetween?
        ((VirtualSource.ofBlocks document.newline indent blocks).among block.index p)
        ((VirtualSource.ofBlocks document.newline indent blocks).among block.index q) = some range' ∧
      (Remapper.mk document (VirtualSource.ofBlocks document.newline indent [block])).range range = .ok mapped ∧
      (Remapper.mk document (VirtualSource.ofBlocks document.newline indent blocks)).range range' =
        .ok ⟨mapped.start, mapped.stop +
          if p.character = 0 ∧ q.character = 0 ∧
            (VirtualSource.ofBlocks document.newline indent blocks).startOf block.index p.line ≠ 0 ∧ p.line < q.line
          then last.lost.length else 0⟩ := by
  have hOwn : ScriptBlock.Arranged document [block] := hBlocks.sublist (List.singleton_sublist.mpr hBlock)
  have hMem : block ∈ [block] := List.mem_singleton.mpr rfl
  obtain ⟨hFirstBlock, hFirstPlaced⟩ := Run.isPlaced_of_onLine (hBlocks.isPlaced block hBlock) hFirst
  obtain ⟨hLastBlock, hLastPlaced⟩ := Run.isPlaced_of_onLine (hBlocks.isPlaced block hBlock) hLast
  have hSame : last.block = first.block := hLastBlock.trans hFirstBlock.symm
  have hFirstMem := VirtualSource.mem_runs_of_onLine hBlock hFirst
  have hLastMem := VirtualSource.mem_runs_of_onLine hBlock hLast
  obtain ⟨hStart, hStop⟩ := VirtualSource.edgeColumns_among hBlocks hBlock document.newline hFirst hLast hOrder
  obtain ⟨range, i, j, hRange, hMapped, hEdge, hEdge'⟩ := exists_range_between hOwn hSame
    (VirtualSource.mem_runs_of_onLine hMem hFirst) (VirtualSource.mem_runs_of_onLine hMem hLast)
    (congrArg _ (VirtualSource.shift_singleton hFirst)) hp (congrArg _ (VirtualSource.shift_singleton hLast)) hq hOrder
  obtain ⟨range', i', j', hRange', hMapped', hMoved, hMoved'⟩ := exists_range_between hBlocks hSame
    (p := (VirtualSource.ofBlocks document.newline indent blocks).among block.index p)
    (q := (VirtualSource.ofBlocks document.newline indent blocks).among block.index q) hFirstMem hLastMem
    (hFirstBlock ▸ VirtualSource.among_add_shift hBlocks document.newline hFirstMem) hp
    (hLastBlock ▸ VirtualSource.among_add_shift hBlocks document.newline hLastMem) hq
    (VirtualSource.among_le_among hOrder _ _)
  have hStartRaw := toRawOffset_of_edges hBlocks hEdge hMoved rfl (k := 0) hStart
  have hStopRaw := toRawOffset_of_edges hBlocks hEdge' hMoved' rfl hStop
  rw [hSame] at hStopRaw
  rw [hStartRaw, hStopRaw] at hMapped'
  exact ⟨range, range', _, hRange, hRange', hMapped, hMapped'⟩

end Block

namespace Document

/-- A range of a block is mapped alike under the two dispatch modes, except that whole lines which begin after another
block on their line reach over the indentation of the line they end on. -/
theorem block_ranges_agree (source : String) (options : ScanOptions) (indent : Indent) {blocks : List ScriptBlock}
    (hSize : (Utf8.encode source).length < wordLimit)
    (hMark : options.mode = .xml → ¬Xml.byteOrderMark <+: (Document.mk (Utf8.encode source)).text)
    (hScan : (Document.mk (Utf8.encode source)).scan options = .ok blocks) :
    let document : Document := ⟨Utf8.encode source⟩
    let plans := blocks.map fun block => IndentPlan.ofBlock block indent
    let prepared : Prepared := ⟨document, options.mode, blocks, plans⟩
    let combined := prepared.virtualSource
    ∀ i p q, (prepared.blockSource i).Touches p → (prepared.blockSource i).Touches q → p.le q = true →
      ∃ range range' mapped, (prepared.blockSource i).rangeBetween? p q = some range ∧
        combined.rangeBetween? (combined.among i p) (combined.among i q) = some range' ∧
        (Remapper.mk document (prepared.blockSource i)).range range = .ok mapped ∧
        (Remapper.mk document combined).range range' = .ok ⟨mapped.start, mapped.stop + prepared.overreach i p q⟩ := by
  intro document plans prepared combined i p q hp hq hOrder
  obtain ⟨hBlocks, -⟩ := scan_arranged (isPlain_encode hSize hMark) hScan
  cases hBlock : blocks[i]? with
  | none =>
    -- there is no such block, so its source has no segment to touch
    obtain ⟨segment, hSegment, -⟩ := hp
    simp [prepared, Prepared.blockSource, hBlock, VirtualSource.build, VirtualSource.segments] at hSegment
  | some block =>
    have hMem := List.mem_of_getElem? hBlock
    have hOwn : ScriptBlock.Arranged document [block] := hBlocks.sublist (List.singleton_sublist.mpr hMem)
    rw [Prepared.blockSource_eq_ofBlocks options.mode hBlock] at hp hq ⊢
    obtain ⟨first, hFirst, hpLength⟩ := (VirtualSource.touches_singleton_iff hOwn document.newline).mp hp
    obtain ⟨last, hLast, hqLength⟩ := (VirtualSource.touches_singleton_iff hOwn document.newline).mp hq
    have hRange := Remapper.range_among hBlocks hMem hFirst hLast hOrder hpLength hqLength
    rw [index_of_scan hScan hBlock] at hRange
    have hReach : prepared.overreach i p q =
        if p.character = 0 ∧ q.character = 0 ∧ combined.startOf i p.line ≠ 0 ∧ p.line < q.line
        then last.lost.length else 0 := by
      refine ite_congr rfl (fun hWhole => ?_) (fun _ => rfl)
      obtain ⟨hFirstBlock, hPlaced⟩ := Run.isPlaced_of_onLine (hBlocks.isPlaced block hMem) hFirst
      obtain ⟨hLastBlock, -⟩ := Run.isPlaced_of_onLine (hBlocks.isPlaced block hMem) hLast
      have hStart := hPlaced.start_le
      rw [hFirstBlock, ← hLastBlock] at hStart
      exact congrArg List.length
        (VirtualSource.lostIndent_of_later hBlocks (VirtualSource.mem_runs_of_onLine hMem hLast) (by omega)).1
    rw [hReach]
    exact hRange

theorem block_ranges_agree_sharedLine :
    let document : Document := ⟨Utf8.encode "<script>x</script><script>\n  a\n</script>"⟩
    ∃ blocks, document.scan {} = .ok blocks ∧
      let prepared : Prepared := ⟨document, .html, blocks, blocks.map fun block => IndentPlan.ofBlock block .auto⟩
      let combined := prepared.virtualSource
      combined.among 1 ⟨0, 0⟩ = ⟨0, 18⟩ ∧
        ∃ range range' mapped, (prepared.blockSource 1).rangeBetween? ⟨0, 0⟩ ⟨1, 1⟩ = some range ∧
          combined.rangeBetween? (combined.among 1 ⟨0, 0⟩) (combined.among 1 ⟨1, 1⟩) = some range' ∧
          (Remapper.mk document (prepared.blockSource 1)).range range = .ok mapped ∧
          (Remapper.mk document combined).range range' = .ok mapped := by
  intro document
  have hSize : document.raw.length < wordLimit := by decide +kernel
  refine ⟨_, rfl, ?_⟩
  intro prepared combined
  have hFirst : (prepared.blockSource 1).Touches ⟨0, 0⟩ := by
    unfold VirtualSource.Touches
    decide +kernel
  have hLast : (prepared.blockSource 1).Touches ⟨1, 1⟩ := by
    unfold VirtualSource.Touches
    decide +kernel
  have hReach : prepared.overreach 1 ⟨0, 0⟩ ⟨1, 1⟩ = 0 := by decide +kernel
  obtain ⟨range, range', mapped, hOwn, hCombined, hMapped, hMapped'⟩ :=
    block_ranges_agree _ {} .auto hSize nofun rfl 1 ⟨0, 0⟩ ⟨1, 1⟩ hFirst hLast rfl
  refine ⟨by decide +kernel, range, range', mapped, hOwn, hCombined, hMapped, hMapped'.trans ?_⟩
  exact congrArg (fun k => Except.ok (OffsetRange.mk mapped.start (mapped.stop + k))) hReach

/-- The line break after the second tag, with which a line of its block begins, takes the indentation after it along
where both blocks are in one source. -/
theorem block_ranges_differ :
    let document : Document := ⟨Utf8.encode "<script>x</script><script>\n  a\n</script>"⟩
    ∃ blocks, document.scan {} = .ok blocks ∧
      let prepared : Prepared := ⟨document, .html, blocks, blocks.map fun block => IndentPlan.ofBlock block .auto⟩
      let combined := prepared.virtualSource
      (prepared.blockSource 1).Touches ⟨0, 0⟩ ∧ (prepared.blockSource 1).Touches ⟨1, 0⟩ ∧
        (prepared.blockSource 1).rangeBetween? ⟨0, 0⟩ ⟨1, 0⟩ = some ⟨0, 1⟩ ∧
        combined.rangeBetween? (combined.among 1 ⟨0, 0⟩) (combined.among 1 ⟨1, 0⟩) = some ⟨18, 19⟩ ∧
        (Remapper.mk document (prepared.blockSource 1)).range ⟨0, 1⟩ = .ok ⟨26, 27⟩ ∧
        (Remapper.mk document combined).range ⟨18, 19⟩ = .ok ⟨26, 29⟩ := by
  intro document
  refine ⟨_, rfl, ?_⟩
  intro prepared combined
  refine ⟨?_, ?_, by decide +kernel, by decide +kernel, eq_ok_of_toOption (by decide +kernel),
    eq_ok_of_toOption (by decide +kernel)⟩
  · unfold VirtualSource.Touches
    decide +kernel
  · unfold VirtualSource.Touches
    decide +kernel

end Document
end ScriptLint
