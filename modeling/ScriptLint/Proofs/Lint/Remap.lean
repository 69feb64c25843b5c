import ScriptLint.Lint.Remap
import ScriptLint.Proofs.Lint.VirtualSource

/-!
# Virtual positions in the document

A virtual position is looked up among the segments of its line. It is in one of them at most, and moves by the distance
of its line.
-/
namespace ScriptLint
set_option autoImplicit false

theorem Segment.contains_iff {segment : Segment} {c : Nat} :
    segment.contains c = true ↔ segment.virtualStart ≤ c ∧ c ≤ segment.virtualEnd := by
  simp [contains]

namespace VirtualLine.Shows

variable {line : VirtualLine} {shift : Nat} {runs : List Run} {run : Run}

theorem shift_le (h : line.Shows shift runs) (hRun : run ∈ runs) : shift ≤ run.documentStart := by
  obtain ⟨before, after, -, hColumn⟩ := h.split run hRun
  omega

theorem contains_segment_iff (h : line.Shows shift runs) (hRun : run ∈ runs) {c : Nat} :
    (run.segment shift).contains c = true ↔ run.documentStart ≤ c + shift ∧ c + shift ≤ run.documentStop := by
  have hShift := h.shift_le hRun
  simp only [Segment.contains_iff, Segment.virtualEnd, Run.segment, Run.documentStop]
  omega

theorem toDocument_segment (h : line.Shows shift runs) (hRun : run ∈ runs) {c : Nat}
    (hc : run.documentStart ≤ c + shift) : (run.segment shift).toDocument c = c + shift := by
  have hShift := h.shift_le hRun
  simp only [Segment.toDocument, Run.segment]
  omega

theorem find?_eq_some_iff (h : line.Shows shift runs) (hSeparated : Run.Separated runs) {c : Nat} {segment : Segment} :
    line.segments.find? (·.contains c) = some segment ↔
      ∃ run ∈ runs, run.segment shift = segment ∧ run.documentStart ≤ c + shift ∧ c + shift ≤ run.documentStop := by
  rw [h.segments_eq]
  constructor
  · intro hFind
    obtain ⟨run, hRun, rfl⟩ := List.mem_map.mp (List.mem_of_find?_eq_some hFind)
    exact ⟨run, hRun, rfl, (h.contains_segment_iff hRun).mp (List.find?_some (p := (Segment.contains · c)) hFind)⟩
  · rintro ⟨run, hRun, rfl, hColumn⟩
    have hMem : run.segment shift ∈ runs.map (Run.segment shift) := List.mem_map_of_mem hRun
    have hSome := List.find?_isSome (p := (Segment.contains · c)).mpr ⟨_, hMem, (h.contains_segment_iff hRun).mpr hColumn⟩
    obtain ⟨found, hFound⟩ := Option.isSome_iff_exists.mp hSome
    obtain ⟨other, hOther, rfl⟩ := List.mem_map.mp (List.mem_of_find?_eq_some hFound)
    obtain ⟨hStart, hStop⟩ := (h.contains_segment_iff hOther).mp (List.find?_some (p := (Segment.contains · c)) hFound)
    rw [hFound, hSeparated.eq_of_column hOther hRun hStart hStop hColumn.1 hColumn.2]

end VirtualLine.Shows

namespace Remapper

theorem segment_eq_ok_iff {r : Remapper} {p : Position} {segment : Segment} :
    r.segment p = .ok segment ↔ (r.source.line p.line).segments.find? (·.contains p.character) = some segment := by
  rw [Remapper.segment, VirtualSource.segments_eq]
  cases (r.source.line p.line).segments with
  | nil => simp
  | cons first more =>
    cases hFind : (first :: more).find? (·.contains p.character) <;> simp [hFind]

variable {document : Document} {blocks : List ScriptBlock}

theorem segment_ofBlocks_eq_ok_iff (hBlocks : ScriptBlock.Arranged document blocks) {newline : Newline}
    {indent : Indent} {p : Position} {segment : Segment} :
    (Remapper.mk document (VirtualSource.ofBlocks newline indent blocks)).segment p = .ok segment ↔
      ∃ run ∈ VirtualSource.runs indent blocks p.line,
        run.segment (VirtualSource.shift indent blocks p.line) = segment ∧
        run.documentStart ≤ p.character + VirtualSource.shift indent blocks p.line ∧
        p.character + VirtualSource.shift indent blocks p.line ≤ run.documentStop :=
  segment_eq_ok_iff.trans ((VirtualSource.line_shows hBlocks newline indent p.line).find?_eq_some_iff
    (VirtualSource.separated_runs hBlocks indent p.line))

/-- A virtual position has a place in the document exactly if it is in a run of its line, ends included. -/
theorem position_eq_ok_iff (hBlocks : ScriptBlock.Arranged document blocks) {newline : Newline} {indent : Indent}
    {p q : Position} :
    (Remapper.mk document (VirtualSource.ofBlocks newline indent blocks)).position p = .ok q ↔
      q = ⟨p.line, p.character + VirtualSource.shift indent blocks p.line⟩ ∧
        ∃ run ∈ VirtualSource.runs indent blocks p.line,
          run.documentStart ≤ p.character + VirtualSource.shift indent blocks p.line ∧
          p.character + VirtualSource.shift indent blocks p.line ≤ run.documentStop := by
  have hColumn : ∀ run ∈ VirtualSource.runs indent blocks p.line,
      run.documentStart ≤ p.character + VirtualSource.shift indent blocks p.line →
      p.character + VirtualSource.shift indent blocks p.line ≤ run.documentStop →
      clampWord ((run.segment (VirtualSource.shift indent blocks p.line)).toDocument p.character) =
        p.character + VirtualSource.shift indent blocks p.line := by
    intro run hRun hStart hStop
    obtain ⟨-, hPlaced⟩ := VirtualSource.isPlaced_of_mem_runs hBlocks hRun
    rw [(VirtualSource.line_shows hBlocks newline indent p.line).toDocument_segment hRun hStart]
    exact clampWord_of_lt (Nat.lt_of_le_of_lt (Nat.le_trans hStop hPlaced.documentStop_le) hBlocks.isSmall.text)
  rw [position]
  constructor
  · intro h
    cases hSegment : (Remapper.mk document (VirtualSource.ofBlocks newline indent blocks)).segment p with
    | error e =>
      rw [hSegment] at h
      cases h
    | ok segment =>
      rw [hSegment] at h
      obtain ⟨run, hRun, rfl, hStart, hStop⟩ := (segment_ofBlocks_eq_ok_iff hBlocks).mp hSegment
      cases h
      exact ⟨congrArg (Position.mk p.line) (hColumn run hRun hStart hStop), run, hRun, hStart, hStop⟩
  · rintro ⟨rfl, run, hRun, hStart, hStop⟩
    rw [(segment_ofBlocks_eq_ok_iff hBlocks).mpr ⟨run, hRun, rfl, hStart, hStop⟩]
    simp only [Except.map, hColumn run hRun hStart hStop]

/-- On a line that two blocks share, columns are counted from the first of them. -/
theorem position_of_shared {first second : ScriptBlock} {n a b c : Nat}
    (hBlocks : ScriptBlock.Arranged document [first, second]) (hFirst : first.start = ⟨n, a⟩)
    (hSecond : second.start = ⟨n, b⟩) (hBreak : Byte.lineFeed ∉ first.text) (hBreak' : Byte.lineFeed ∉ second.text)
    (newline : Newline) (indent : Indent)
    (hc : c ≤ first.text.length ∨ b ≤ c + a ∧ c + a ≤ b + second.text.length) :
    (Remapper.mk document (VirtualSource.ofBlocks newline indent [first, second])).position ⟨n, c⟩ =
      .ok ⟨n, c + a⟩ := by
  have hRuns : VirtualSource.runs indent [first, second] n =
      [⟨first, a, [], first.text⟩, ⟨second, b, [], second.text⟩] := by
    simp only [VirtualSource.runs, List.filterMap_cons, Run.onLine_of_noBreak hFirst hBreak,
      Run.onLine_of_noBreak hSecond hBreak', List.filterMap_nil]
  have hShift : VirtualSource.shift indent [first, second] n = a := by
    rw [VirtualSource.shift, hRuns, Run.shift]
    rfl
  refine (position_eq_ok_iff hBlocks).mpr ⟨by rw [hShift], ?_⟩
  rw [hRuns, hShift]
  rcases hc with hc | hc
  · refine ⟨_, List.mem_cons_self, ?_⟩
    simp only [Run.documentStop, Run.documentStart, List.length_nil]
    omega
  · refine ⟨_, List.mem_cons_of_mem _ List.mem_cons_self, ?_⟩
    simp only [Run.documentStop, Run.documentStart, List.length_nil]
    omega

end Remapper
end ScriptLint
