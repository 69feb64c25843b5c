import ScriptLint.Proofs.Lint.Remap

/-!
# Ranges of a virtual source in the document

A range is accepted if its ends are in runs of one block. It then stands for a stretch of the script of that block,
between the places of its two ends; both places take in lost indentation when the range covers whole lines.
-/
namespace ScriptLint
set_option autoImplicit false

theorem bind_eq_ok {ε α β : Type} {x : Except ε α} {f : α → Except ε β} {b : β} (h : (x >>= f) = .ok b) :
    ∃ a, x = .ok a ∧ f a = .ok b := by
  cases x with
  | error e => cases h
  | ok a => exact ⟨a, rfl, h⟩

theorem map_eq_ok {ε α β : Type} {x : Except ε α} {f : α → β} {b : β} (h : x.map f = .ok b) :
    ∃ a, x = .ok a ∧ f a = b := by
  cases x with
  | error e => cases h
  | ok a =>
    cases h
    exact ⟨a, rfl, rfl⟩

namespace Remapper

def place (r : Remapper) (offset : Nat) : Position := r.source.lineIndex.position offset

theorem virtualPosition_eq_ok {r : Remapper} {offset : Nat} {p : Position} (h : r.virtualPosition offset = .ok p) :
    offset ≤ r.source.text.length ∧ p = r.place offset := by
  rw [virtualPosition] at h
  split at h
  · cases h
  · rename_i hInside
    cases h
    exact ⟨Nat.le_of_not_lt hInside, rfl⟩

theorem virtualPosition_of_le {r : Remapper} {offset : Nat} (h : offset ≤ r.source.text.length) :
    r.virtualPosition offset = .ok (r.place offset) :=
  if_neg (Nat.not_lt.mpr h)

/-- The offset in the stored text of the end `e` of a range from `p` to `q`, where `e` is in the segment. -/
def edgeOffset (r : Remapper) (p q e : Position) (segment : Segment) : Except RemapError Nat :=
  r.rawOffset e.line (if p.character = 0 ∧ q.character = 0 then segment.lineStart else segment.toDocument e.character)

/-- All that makes a range acceptable: both of its ends are in segments of one block that has text on every line
between, and they have offsets in the stored text. -/
structure Accepts (r : Remapper) (range : OffsetRange) (first last : Segment) (start stop : Nat) : Prop where
  forward : range.start ≤ range.stop
  inside : range.stop ≤ r.source.text.length
  firstSegment : r.segment (r.place range.start) = .ok first
  lastSegment : r.segment (r.place range.stop) = .ok last
  sameBlock : last.block = first.block
  between : r.holdsBetween first.block (r.place range.start).line (r.place range.stop).line = true
  startOffset : r.edgeOffset (r.place range.start) (r.place range.stop) (r.place range.start) first = .ok start
  stopOffset : r.edgeOffset (r.place range.start) (r.place range.stop) (r.place range.stop) last = .ok stop

theorem range_eq_ok_iff {r : Remapper} {range mapped : OffsetRange} : r.range range = .ok mapped ↔
    ∃ first last start stop, r.Accepts range first last start stop ∧ mapped = ⟨start, max stop start⟩ := by
  rw [Remapper.range]
  constructor
  · intro h
    by_cases hReversed : range.stop < range.start
    · rw [if_pos hReversed] at h
      cases h
    · rw [if_neg hReversed] at h
      obtain ⟨p, hp, h⟩ := bind_eq_ok h
      obtain ⟨q, hq, h⟩ := bind_eq_ok h
      obtain ⟨-, rfl⟩ := virtualPosition_eq_ok hp
      obtain ⟨hInside, rfl⟩ := virtualPosition_eq_ok hq
      obtain ⟨first, hFirst, h⟩ := bind_eq_ok h
      obtain ⟨last, hLast, h⟩ := bind_eq_ok h
      split at h
      · cases h
      · rename_i hBlock
        obtain ⟨start, hStart, h⟩ := bind_eq_ok h
        obtain ⟨stop, hStop, h⟩ := bind_eq_ok h
        cases h
        simp only [not_or, ne_eq, Decidable.not_not, Bool.not_eq_true', Bool.not_eq_false] at hBlock
        exact ⟨first, last, start, stop,
          ⟨Nat.le_of_not_lt hReversed, hInside, hFirst, hLast, hBlock.1, hBlock.2, hStart, hStop⟩, rfl⟩
  · rintro ⟨first, last, start, stop, h, rfl⟩
    have hStart := h.startOffset
    have hStop := h.stopOffset
    rw [edgeOffset] at hStart hStop
    rw [if_neg (Nat.not_lt.mpr h.forward), virtualPosition_of_le (Nat.le_trans h.forward h.inside),
      virtualPosition_of_le h.inside]
    simp only [bind, Except.bind, h.firstSegment, h.lastSegment, h.sameBlock, h.between, ne_eq, not_true_eq_false, Bool.not_true,
      Bool.false_eq_true, or_self, if_false, hStart, hStop]

theorem fix?_eq_some {r : Remapper} {fix mapped : Fix} (h : r.fix? fix = some mapped) :
    r.range fix.range = .ok mapped.range ∧ mapped.range.start ≤ mapped.range.stop := by
  rw [fix?] at h
  split at h
  · rename_i range hRange
    cases h
    obtain ⟨-, -, start, stop, -, rfl⟩ := range_eq_ok_iff.mp hRange
    exact ⟨hRange, Nat.le_max_right _ _⟩
  · cases h

theorem fix_of_diagnostic_eq_ok {r : Remapper} {given d : Diagnostic} (h : r.diagnostic given = .ok d) :
    d.fix = given.fix.bind r.fix? := by
  rw [diagnostic] at h
  split at h
  · cases h
  · obtain ⟨start, -, rfl⟩ := map_eq_ok h
    rfl

end Remapper

namespace Run

/-- The column in the document of the end `e` of a range from `p` to `q`, where `e` is in the run. -/
def edgeColumn (indent : Indent) (blocks : List ScriptBlock) (p q e : Position) (run : Run) : Nat :=
  if p.character = 0 ∧ q.character = 0 then run.lineStart else e.character + VirtualSource.shift indent blocks e.line

theorem edgeColumn_sub {indent : Indent} {blocks : List ScriptBlock} {p q e : Position} {run : Run}
    (hWhole : ¬(p.character = 0 ∧ q.character = 0))
    (hStart : run.documentStart ≤ e.character + VirtualSource.shift indent blocks e.line) :
    run.edgeColumn indent blocks p q e - run.lineStart =
      run.lost.length + (e.character + VirtualSource.shift indent blocks e.line - run.documentStart) := by
  rw [edgeColumn, if_neg hWhole]
  rw [documentStart] at hStart ⊢
  omega

theorem edgeColumn_sub_of_whole {indent : Indent} {blocks : List ScriptBlock} {p q : Position} {run : Run}
    (hWhole : p.character = 0 ∧ q.character = 0) (e : Position) :
    run.edgeColumn indent blocks p q e - run.lineStart = 0 := by
  rw [edgeColumn, if_pos hWhole, Nat.sub_self]

/-- A run that holds the end `e` of a range from `p` to `q`, and the offset of the script where the range ends there. -/
structure Edge (document : Document) (indent : Indent) (blocks : List ScriptBlock) (p q e : Position) (run : Run)
    (offset : Nat) : Prop where
  mem : run ∈ VirtualSource.runs indent blocks e.line
  start_le : run.documentStart ≤ e.character + VirtualSource.shift indent blocks e.line
  le_stop : e.character + VirtualSource.shift indent blocks e.line ≤ run.documentStop
  le_length : offset ≤ run.block.text.length
  script : run.block.text.place offset =
    ⟨e.line - run.block.start.line, run.edgeColumn indent blocks p q e - run.lineStart⟩
  document : document.text.place (run.block.content.start + offset) = ⟨e.line, run.edgeColumn indent blocks p q e⟩

theorem Edge.start_add_le_length {document : Document} {indent : Indent} {blocks : List ScriptBlock} {p q e : Position}
    {run : Run} {offset : Nat} (hBlocks : ScriptBlock.Arranged document blocks)
    (h : run.Edge document indent blocks p q e offset) : run.block.content.start + offset ≤ document.text.length :=
  (VirtualSource.isPlaced_of_mem_runs hBlocks h.mem).2.block.start_add_le_length h.le_length

end Run

namespace Remapper

variable {document : Document} {blocks : List ScriptBlock} {indent : Indent}

theorem place_ofBlocks (hBlocks : ScriptBlock.Arranged document blocks) {o : Nat}
    (ho : o ≤ (VirtualSource.ofBlocks document.newline indent blocks).text.length) :
    (Remapper.mk document (VirtualSource.ofBlocks document.newline indent blocks)).place o =
      (VirtualSource.ofBlocks document.newline indent blocks).text.place o := by
  rw [place, VirtualSource.lineIndex, LineIndex.position_ofBytes (VirtualSource.fits_text hBlocks indent),
    Nat.min_eq_left ho]

theorem exists_edge_of_mem (hBlocks : ScriptBlock.Arranged document blocks) (p q : Position) {e : Position} {run : Run}
    (hRun : run ∈ VirtualSource.runs indent blocks e.line)
    (hStart : run.documentStart ≤ e.character + VirtualSource.shift indent blocks e.line)
    (hStop : e.character + VirtualSource.shift indent blocks e.line ≤ run.documentStop) :
    ∃ o, run.Edge document indent blocks p q e o := by
  obtain ⟨-, hPlaced⟩ := VirtualSource.isPlaced_of_mem_runs hBlocks hRun
  have hLineStart : run.lineStart ≤ run.documentStart := Nat.le_add_right _ _
  have hBounds : run.lineStart ≤ run.edgeColumn indent blocks p q e ∧
      run.edgeColumn indent blocks p q e ≤ run.documentStop := by
    rw [Run.edgeColumn]
    split <;> omega
  obtain ⟨o, ho, hScript, hDocument⟩ := hPlaced.exists_offset hBounds.1 hBounds.2
  exact ⟨o, hRun, hStart, hStop, ho, hScript, hDocument⟩

theorem edgeOffset_of_edge (hBlocks : ScriptBlock.Arranged document blocks) (newline : Newline) {p q e : Position}
    {run : Run} {o : Nat} (hEdge : run.Edge document indent blocks p q e o) :
    (Remapper.mk document (VirtualSource.ofBlocks newline indent blocks)).edgeOffset p q e
        (run.segment (VirtualSource.shift indent blocks e.line)) =
      .ok (document.toRawOffset (run.block.content.start + o)) := by
  have hRaw := Document.rawOffset?_place hBlocks.isSmall (hEdge.start_add_le_length hBlocks)
  have hColumn := Bytes.place_character_le document.text (run.block.content.start + o)
  rw [hEdge.document, Run.edgeColumn] at hRaw hColumn
  rw [edgeOffset, (VirtualSource.line_shows hBlocks newline indent e.line).toDocument_segment hEdge.mem hEdge.start_le,
    rawOffset]
  simp only [Run.segment, clampWord_of_lt (Nat.lt_of_le_of_lt hColumn hBlocks.isSmall.text), hRaw]

theorem exists_edge (hBlocks : ScriptBlock.Arranged document blocks) {newline : Newline} (p q : Position) {e : Position}
    {segment : Segment}
    (hSegment : (Remapper.mk document (VirtualSource.ofBlocks newline indent blocks)).segment e = .ok segment) :
    ∃ (run : Run) (o : Nat), run.block.index = segment.block ∧ run.Edge document indent blocks p q e o ∧
      (Remapper.mk document (VirtualSource.ofBlocks newline indent blocks)).edgeOffset p q e segment =
        .ok (document.toRawOffset (run.block.content.start + o)) := by
  obtain ⟨run, hRun, rfl, hStart, hStop⟩ := (segment_ofBlocks_eq_ok_iff hBlocks).mp hSegment
  obtain ⟨o, hEdge⟩ := exists_edge_of_mem hBlocks p q hRun hStart hStop
  exact ⟨run, o, rfl, hEdge, edgeOffset_of_edge hBlocks newline hEdge⟩

/-- The ends of a range are in order in the script. -/
theorem offset_le_of_edges (hBlocks : ScriptBlock.Arranged document blocks) {p q : Position} {first last : Run} {i j : Nat}
    (hBlock : last.block = first.block) (hEdge : first.Edge document indent blocks p q p i)
    (hEdge' : last.Edge document indent blocks p q q j) (hPositions : p.le q = true) : i ≤ j := by
  have hDocument := hEdge'.document
  rw [hBlock] at hDocument
  apply Nat.le_of_not_lt
  intro hji
  have hLt := Bytes.place_lt_place (s := document.text) (Nat.add_lt_add_left hji first.block.content.start)
    (hEdge.start_add_le_length hBlocks)
  rw [hDocument, hEdge.document, Position.lt_iff] at hLt
  rw [Position.le_iff] at hPositions
  obtain ⟨hLine, hColumn⟩ : q.line = p.line ∧ p.character ≤ q.character := by
    simp only at hLt
    omega
  -- on one line, both columns are those of the range, or both ends are in the run at the start of the line
  have hRuns : last ∈ VirtualSource.runs indent blocks p.line := hLine ▸ hEdge'.mem
  have hLastStart := hEdge'.start_le
  have hLastStop := hEdge'.le_stop
  rw [hLine] at hLt hLastStart hLastStop
  simp only [Nat.lt_irrefl, false_or, true_and, Run.edgeColumn, hLine] at hLt
  split at hLt
  · rename_i hZero
    rw [hZero.2, ← hZero.1] at hLastStart hLastStop
    have hEq : last = first := (VirtualSource.separated_runs hBlocks indent p.line).eq_of_column hRuns hEdge.mem
      hLastStart hLastStop hEdge.start_le hEdge.le_stop
    rw [hEq] at hLt
    exact Nat.lt_irrefl _ hLt
  · omega

/-- An accepted range stands for a stretch of one script. -/
theorem range_ofBlocks (hBlocks : ScriptBlock.Arranged document blocks) {range mapped : OffsetRange} {p q : Position}
    (h : (Remapper.mk document (VirtualSource.ofBlocks document.newline indent blocks)).range range = .ok mapped)
    (hp : p = (Remapper.mk document (VirtualSource.ofBlocks document.newline indent blocks)).place range.start)
    (hq : q = (Remapper.mk document (VirtualSource.ofBlocks document.newline indent blocks)).place range.stop) :
    ∃ (first last : Run) (i j : Nat), last.block = first.block ∧ i ≤ j ∧
      first.Edge document indent blocks p q p i ∧ last.Edge document indent blocks p q q j ∧
      mapped = ⟨document.toRawOffset (first.block.content.start + i),
        document.toRawOffset (first.block.content.start + j)⟩ := by
  obtain ⟨a, b, start, stop, ⟨hLe, hLength, hFirst, hLast, hSame, -, hStart, hStop⟩, rfl⟩ := range_eq_ok_iff.mp h
  have hPositions : p.le q = true := by
    rw [hp, hq, place_ofBlocks hBlocks (Nat.le_trans hLe hLength), place_ofBlocks hBlocks hLength, Position.le,
      Bool.not_eq_true', ← Bool.not_eq_true, Bytes.place_lt_place_iff hLength (Nat.le_trans hLe hLength)]
    exact Nat.not_lt.mpr hLe
  rw [← hp, ← hq] at hStart hStop
  rw [← hp] at hFirst
  rw [← hq] at hLast
  obtain ⟨first, i, hFirstIndex, hEdge, hFirstOffset⟩ := exists_edge hBlocks p q hFirst
  obtain ⟨last, j, hLastIndex, hEdge', hLastOffset⟩ := exists_edge hBlocks p q hLast
  cases hStart.symm.trans hFirstOffset
  cases hStop.symm.trans hLastOffset
  have hMem := (VirtualSource.isPlaced_of_mem_runs hBlocks hEdge.mem).1
  have hMem' := (VirtualSource.isPlaced_of_mem_runs hBlocks hEdge'.mem).1
  have hBlock : last.block = first.block :=
    hBlocks.inOrder.eq_of_index hMem' hMem (by rw [hLastIndex, hFirstIndex, hSame])
  have hij := offset_le_of_edges hBlocks hBlock hEdge hEdge' hPositions
  have hInside' := hEdge'.start_add_le_length hBlocks
  rw [hBlock] at hInside'
  refine ⟨first, last, i, j, hBlock, hij, hEdge, hEdge', ?_⟩
  rw [hBlock, Nat.max_eq_left]
  exact (Document.toRawOffset_le_iff hBlocks.isSmall (hEdge.start_add_le_length hBlocks) hInside').mpr
    (Nat.add_le_add_left hij _)

end Remapper
end ScriptLint
