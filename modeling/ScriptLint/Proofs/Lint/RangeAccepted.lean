import ScriptLint.Proofs.Lint.RangeContent

/-!
# Which ranges of a virtual source are accepted

Every column of a run is at an offset of the virtual text. A range between two of them is accepted as soon as both runs
belong to one block, because a block has a run on every line between any two of its lines.
-/
namespace ScriptLint
set_option autoImplicit false

variable {document : Document} {blocks : List ScriptBlock} {indent : Indent}

namespace VirtualSource

theorem lt_length_of_run (hBlocks : ScriptBlock.Arranged document blocks) (newline : Newline) {n : Nat} {run : Run}
    (hRun : run ∈ runs indent blocks n) : n < (ofBlocks newline indent blocks).lines.length := by
  have hSegments := (line_shows hBlocks newline indent n).segments_eq
  apply Nat.lt_of_not_le
  intro hLe
  rw [line, List.getElem?_eq_none hLe, Option.getD_none] at hSegments
  exact List.ne_nil_of_mem hRun (List.map_eq_nil_iff.mp hSegments.symm)

theorem exists_place_of_run (hBlocks : ScriptBlock.Arranged document blocks) (newline : Newline) {n c : Nat} {run : Run}
    (hRun : run ∈ runs indent blocks n) (hStop : c + shift indent blocks n ≤ run.documentStop) :
    ∃ s ≤ (ofBlocks newline indent blocks).text.length, (ofBlocks newline indent blocks).text.place s = ⟨n, c⟩ := by
  obtain ⟨ending, -, hLine⟩ := getElem?_lines_text hBlocks newline indent (lt_length_of_run hBlocks newline hRun)
  obtain ⟨before, after, hText, hColumn⟩ := (line_shows hBlocks newline indent n).split run hRun
  refine Bytes.exists_place_eq hLine ?_
  rw [Run.documentStop] at hStop
  simp only [hText, List.length_append]
  omega

end VirtualSource

namespace Remapper

variable {p q : Position} {first last : Run} {i j : Nat}

theorem holdsBetween_of_edges (hBlocks : ScriptBlock.Arranged document blocks) (newline : Newline)
    (hBlock : last.block = first.block) (hEdge : first.Edge document indent blocks p q p i)
    (hEdge' : last.Edge document indent blocks p q q j) :
    (Remapper.mk document (VirtualSource.ofBlocks newline indent blocks)).holdsBetween first.block.index p.line q.line =
      true := by
  rw [holdsBetween, List.all_eq_true]
  intro n hn
  obtain ⟨hLower, hUpper⟩ := List.mem_range'_1.mp hn
  obtain ⟨run, hRun⟩ := VirtualSource.exists_within hBlocks hBlock hEdge hEdge' (n := n) (by omega) (by omega)
  rw [List.any_eq_true, VirtualSource.segments_eq, (VirtualSource.line_shows hBlocks newline indent n).segments_eq]
  refine ⟨_, List.mem_map_of_mem hRun.mem, ?_⟩
  rw [beq_iff_eq]
  exact congrArg ScriptBlock.index hRun.block

theorem segment_of_edge (hBlocks : ScriptBlock.Arranged document blocks) (newline : Newline) {e : Position} {run : Run}
    {o : Nat} (hEdge : run.Edge document indent blocks p q e o) :
    (Remapper.mk document (VirtualSource.ofBlocks newline indent blocks)).segment e =
      .ok (run.segment (VirtualSource.shift indent blocks e.line)) :=
  (segment_ofBlocks_eq_ok_iff hBlocks).mpr ⟨run, hEdge.mem, rfl, hEdge.start_le, hEdge.le_stop⟩

/-- A range between runs of one block is accepted. -/
theorem range_eq_ok_of_edges (hBlocks : ScriptBlock.Arranged document blocks) {range : OffsetRange}
    (hLe : range.start ≤ range.stop)
    (hLength : range.stop ≤ (VirtualSource.ofBlocks document.newline indent blocks).text.length)
    (hp : (VirtualSource.ofBlocks document.newline indent blocks).text.place range.start = p)
    (hq : (VirtualSource.ofBlocks document.newline indent blocks).text.place range.stop = q)
    (hBlock : last.block = first.block) (hEdge : first.Edge document indent blocks p q p i)
    (hEdge' : last.Edge document indent blocks p q q j) :
    (Remapper.mk document (VirtualSource.ofBlocks document.newline indent blocks)).range range =
      .ok ⟨document.toRawOffset (first.block.content.start + i), document.toRawOffset (first.block.content.start + j)⟩ := by
  have hOrder : p.le q = true := by
    rw [← hp, ← hq, Position.le, Bool.not_eq_true', ← Bool.not_eq_true,
      Bytes.place_lt_place_iff hLength (Nat.le_trans hLe hLength)]
    exact Nat.not_lt.mpr hLe
  have hij := offset_le_of_edges hBlocks hBlock hEdge hEdge' hOrder
  have hInside' := hEdge'.start_add_le_length hBlocks
  rw [hBlock] at hInside'
  have hMax := Nat.max_eq_left ((Document.toRawOffset_le_iff hBlocks.isSmall (hEdge.start_add_le_length hBlocks)
    hInside').mpr (Nat.add_le_add_left hij first.block.content.start))
  have hStart := edgeOffset_of_edge hBlocks document.newline hEdge
  have hStop := edgeOffset_of_edge hBlocks document.newline hEdge'
  rw [hBlock] at hStop
  obtain rfl := hp.symm.trans (place_ofBlocks hBlocks (Nat.le_trans hLe hLength)).symm
  obtain rfl := hq.symm.trans (place_ofBlocks hBlocks hLength).symm
  refine range_eq_ok_iff.mpr ⟨_, _, _, _, ⟨hLe, hLength, ?_, ?_, ?_, ?_, hStart, hStop⟩, congrArg _ hMax.symm⟩
  · exact segment_of_edge hBlocks document.newline hEdge
  · exact segment_of_edge hBlocks document.newline hEdge'
  · exact congrArg ScriptBlock.index hBlock
  · exact holdsBetween_of_edges hBlocks document.newline hBlock hEdge hEdge'

end Remapper
end ScriptLint
