import ScriptLint.Lint.Linter
import ScriptLint.Proofs.Lint.PositionFidelity
import ScriptLint.Proofs.Lint.RangeAccepted

/-!
# A block alone and among others

The source of a single block has one run on each of its lines, which begins at column zero. In the source of all blocks
the same run begins where the runs before it leave room, and the two columns differ by that much.
-/
namespace ScriptLint
set_option autoImplicit false

/-- The virtual column where the text of a block begins on line `n`. -/
def VirtualSource.startOf (source : VirtualSource) (block n : Nat) : Nat :=
  match (source.segments n).find? (·.block == block) with
  | some segment => segment.virtualStart
  | none => 0

variable {document : Document} {blocks : List ScriptBlock} {indent : Indent} {block : ScriptBlock} {n i : Nat} {run : Run}

theorem Prepared.blockSource_eq_ofBlocks (mode : MarkupMode) (h : blocks[i]? = some block) :
    (Prepared.mk document mode blocks (blocks.map fun block => IndentPlan.ofBlock block indent)).blockSource i =
      VirtualSource.ofBlocks document.newline indent [block] := by
  simp [blockSource, VirtualSource.ofBlocks, h]

namespace VirtualSource

theorem runs_singleton (h : Run.onLine indent n block = some run) : runs indent [block] n = [run] := by
  simp [runs, h]

theorem shift_singleton (h : Run.onLine indent n block = some run) : shift indent [block] n = run.documentStart := by
  rw [shift, runs_singleton h, Run.shift]

theorem find?_segments (hBlocks : ScriptBlock.Arranged document blocks) (newline : Newline)
    (hRun : run ∈ runs indent blocks n) :
    ((ofBlocks newline indent blocks).segments n).find? (·.block == run.block.index) =
      some (run.segment (shift indent blocks n)) := by
  have hSome : (((ofBlocks newline indent blocks).segments n).find? (·.block == run.block.index)).isSome = true := by
    rw [List.find?_isSome, segments_ofBlocks hBlocks]
    exact ⟨_, List.mem_map_of_mem hRun, beq_self_eq_true _⟩
  obtain ⟨found, hFound⟩ := Option.isSome_iff_exists.mp hSome
  have hMem := List.mem_of_find?_eq_some hFound
  rw [segments_ofBlocks hBlocks] at hMem
  obtain ⟨other, hOther, rfl⟩ := List.mem_map.mp hMem
  have hIndex : other.block.index = run.block.index := by
    have hFits := List.find?_some hFound
    exact beq_iff_eq.mp hFits
  have hSame := hBlocks.inOrder.eq_of_index (isPlaced_of_mem_runs hBlocks hOther).1
    (isPlaced_of_mem_runs hBlocks hRun).1 hIndex
  rw [hFound, eq_of_block hBlocks hOther hRun hSame]

theorem startOf_add_shift (hBlocks : ScriptBlock.Arranged document blocks) (newline : Newline)
    (hRun : run ∈ runs indent blocks n) :
    (ofBlocks newline indent blocks).startOf run.block.index n + shift indent blocks n = run.documentStart := by
  have hShift := (line_shows hBlocks newline indent n).shift_le hRun
  simp only [startOf, find?_segments hBlocks newline hRun]
  exact Nat.sub_add_cancel hShift

/-- Only a block that begins on the line can have another one before it there. -/
theorem eq_start_of_startOf_ne_zero (hBlocks : ScriptBlock.Arranged document blocks) (newline : Newline)
    (hRun : run ∈ runs indent blocks n) (h : (ofBlocks newline indent blocks).startOf run.block.index n ≠ 0) :
    n = run.block.start.line := by
  have hColumn := startOf_add_shift hBlocks newline hRun
  obtain ⟨-, hPlaced⟩ := isPlaced_of_mem_runs hBlocks hRun
  apply Decidable.byContradiction
  intro hLater
  have hLineStart := hPlaced.lineStart_eq
  rw [if_neg hLater] at hLineStart
  obtain ⟨more, hRuns⟩ := exists_runs_eq_cons hBlocks hRun (by omega)
  have hShift := shift_eq_of_first hRuns
  omega

theorem touches_singleton_iff (hBlock : ScriptBlock.Arranged document [block]) (newline : Newline) {p : Position} :
    (ofBlocks newline indent [block]).Touches p ↔
      ∃ run, Run.onLine indent p.line block = some run ∧ p.character ≤ run.content.length := by
  rw [Touches, segments_ofBlocks hBlock]
  constructor
  · rintro ⟨segment, hSegment, -, hStop⟩
    obtain ⟨run, hRun, rfl⟩ := List.mem_map.mp hSegment
    obtain ⟨other, hOther, hOnLine⟩ := List.mem_filterMap.mp hRun
    rw [List.mem_singleton.mp hOther] at hOnLine
    refine ⟨run, hOnLine, ?_⟩
    simpa [Segment.virtualEnd, Run.segment, shift_singleton hOnLine] using hStop
  · rintro ⟨run, hOnLine, hStop⟩
    refine ⟨_, List.mem_map_of_mem (mem_runs_of_onLine (List.mem_singleton.mpr rfl) hOnLine), ?_⟩
    simpa [Segment.virtualEnd, Run.segment, shift_singleton hOnLine] using hStop

end VirtualSource
end ScriptLint
