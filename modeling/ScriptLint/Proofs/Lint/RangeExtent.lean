import ScriptLint.Proofs.Lint.BlockSource

/-!
# Which bytes a remapped range has

A remapped range has what is shown in the range, the line breaks that the range crosses, and the lost indentation that
it takes in: that of all its lines but the last if it covers whole lines, and of all but the first if it does not.
-/
namespace ScriptLint
set_option autoImplicit false

/-- A range from `p` to `q` takes in what line `n` lost. -/
def Position.TakesIndent (p q : Position) (n : Nat) : Prop :=
  if p.character = 0 ∧ q.character = 0 then p.line ≤ n ∧ n < q.line else p.line < n ∧ n ≤ q.line

theorem Position.TakesIndent.line_lt {p q : Position} {n : Nat} (h : p.TakesIndent q n) : p.line < q.line := by
  rw [TakesIndent] at h
  split at h <;> omega

/-- The analyzer sees `b` in the range for what stands at `e` in the document. -/
def Remapper.ShowsAt (r : Remapper) (range : OffsetRange) (b : UInt8) (e : Position) : Prop :=
  ∃ v, range.start ≤ v ∧ v < range.stop ∧ r.source.text[v]? = some b ∧ r.position (r.place v) = .ok e

namespace Remapper

variable {document : Document} {blocks : List ScriptBlock} {indent : Indent} {range : OffsetRange} {p q : Position}
  {first last : Run} {i j n c : Nat} {b : UInt8}

section Stretch

variable (hBlocks : ScriptBlock.Arranged document blocks) (hBlock : last.block = first.block)
  (hEdge : first.Edge document indent blocks p q p i) (hEdge' : last.Edge document indent blocks p q q j)
  (hLe : range.start ≤ range.stop)
  (hLength : range.stop ≤ (VirtualSource.ofBlocks document.newline indent blocks).text.length)
  (hp : (VirtualSource.ofBlocks document.newline indent blocks).text.place range.start = p)
  (hq : (VirtualSource.ofBlocks document.newline indent blocks).text.place range.stop = q)

include hBlocks hBlock hEdge hEdge' in
theorem between_edges_iff {t : Nat} (ht : t ≤ document.text.length) (hPlace : document.text.place t = ⟨n, c⟩) :
    first.block.content.start + i ≤ t ∧ t < first.block.content.start + j ↔
      (p.line < n ∨ p.line = n ∧ first.edgeColumn indent blocks p q p ≤ c) ∧
      (n < q.line ∨ n = q.line ∧ c < last.edgeColumn indent blocks p q q) := by
  have hLower := Bytes.place_lt_place_iff ht (hEdge.start_add_le_length hBlocks)
  have hUpper := Bytes.place_lt_place_iff ht (hEdge'.start_add_le_length hBlocks)
  rw [hPlace, hEdge.document, Position.lt_iff] at hLower
  rw [hPlace, hEdge'.document, Position.lt_iff, hBlock] at hUpper
  rw [← Nat.not_lt, ← hLower, ← hUpper]
  simp only
  omega

include hBlocks hBlock hEdge hEdge' in
/-- A line break is in the stretch that a range stands for if the range crosses it. -/
theorem between_edges_iff_of_break {t : Nat} (hFeed : document.text[t]? = some Byte.lineFeed)
    (hLine : (document.text.place t).line = n) :
    first.block.content.start + i ≤ t ∧ t < first.block.content.start + j ↔ p.line ≤ n ∧ n < q.line := by
  have ht := (List.getElem?_eq_some_iff.mp hFeed).1
  have hNext : document.text.place (t + 1) = ⟨n + 1, 0⟩ := by
    rw [Bytes.place_succ hFeed, ← hLine]
    rfl
  have hLower := Bytes.place_lt_place_iff (hEdge.start_add_le_length hBlocks) ht
  have hUpper := Bytes.place_lt_place_iff (hEdge'.start_add_le_length hBlocks) ht
  rw [hNext, hEdge.document, Position.lt_iff] at hLower
  rw [hNext, hEdge'.document, Position.lt_iff, hBlock] at hUpper
  simp only [Nat.not_lt_zero, and_false, or_false] at hLower hUpper
  omega

variable (hLower : p.line < n ∨ p.line = n ∧ first.edgeColumn indent blocks p q p ≤ c)
  (hUpper : n < q.line ∨ n = q.line ∧ c < last.edgeColumn indent blocks p q q)

include hBlocks hEdge' hLe hLength hp hq hLower hUpper in
theorem showsAt_of_run {run : Run} (hRun : run ∈ VirtualSource.runs indent blocks n) (hStart : run.documentStart ≤ c)
    (hByte : run.content[c - run.documentStart]? = some b) :
    (Remapper.mk document (VirtualSource.ofBlocks document.newline indent blocks)).ShowsAt range b ⟨n, c⟩ := by
  have hShift := (VirtualSource.line_shows hBlocks document.newline indent n).shift_le hRun
  obtain ⟨x, rfl⟩ := Nat.exists_eq_add_of_le' (Nat.le_trans hShift hStart)
  have hStop : x + VirtualSource.shift indent blocks n ≤ run.documentStop := by
    have hInside := (List.getElem?_eq_some_iff.mp hByte).1
    rw [Run.documentStop]
    omega
  obtain ⟨v, hv, hPlace⟩ := VirtualSource.exists_place_of_run hBlocks document.newline hRun hStop
  have hText := VirtualSource.text_getElem?_of_line hBlocks hPlace
    (VirtualSource.line_getElem?_of_run hBlocks hRun hStart hByte)
  refine ⟨v, ?_, ?_, hText, ?_⟩
  · have hBefore := Bytes.place_lt_place_iff hv (Nat.le_trans hLe hLength)
    rw [hPlace, hp, Position.lt_iff] at hBefore
    rw [← Nat.not_lt, ← hBefore]
    simp only at hBefore ⊢
    rw [Run.edgeColumn] at hLower
    rcases hLower with hLine | ⟨rfl, hColumn⟩
    · omega
    · split at hColumn <;> omega
  · have hAfter := Bytes.place_lt_place_iff hv hLength
    rw [hPlace, hq, Position.lt_iff] at hAfter
    rw [← hAfter]
    simp only
    have hLast := hEdge'.start_le
    rw [Run.documentStart] at hLast
    rw [Run.edgeColumn] at hUpper
    rcases hUpper with hLine | ⟨rfl, hColumn⟩
    · exact .inl hLine
    · split at hColumn <;> omega
  · rw [place_ofBlocks hBlocks hv, hPlace]
    exact (position_eq_ok_iff hBlocks).mpr ⟨rfl, run, hRun, hStart, hStop⟩

include hBlocks hBlock hEdge hEdge' hLower hUpper in
theorem takesIndent_of_lost {run : Run} (hRun : run ∈ VirtualSource.runs indent blocks n)
    (hRunBlock : run.block = first.block) (hLater : run.block.start.line < n) (hLost : c < run.documentStart) :
    p.TakesIndent q n := by
  have hLineStart := (VirtualSource.isPlaced_of_mem_runs hBlocks hRun).2.lineStart_eq
  rw [if_neg (Nat.ne_of_gt hLater)] at hLineStart
  have hFirst := hEdge.start_le
  rw [Run.edgeColumn] at hLower hUpper
  rw [Position.TakesIndent]
  split
  · rename_i hWhole
    rw [if_pos hWhole] at hUpper
    refine ⟨by omega, ?_⟩
    rcases hUpper with hLine | ⟨rfl, hColumn⟩
    · exact hLine
    · rw [VirtualSource.eq_of_block hBlocks hEdge'.mem hRun (hBlock.trans hRunBlock.symm)] at hColumn
      omega
  · rename_i hWhole
    rw [if_neg hWhole] at hLower
    refine ⟨?_, by omega⟩
    rcases hLower with hLine | ⟨rfl, hColumn⟩
    · exact hLine
    · rw [VirtualSource.eq_of_block hBlocks hEdge.mem hRun hRunBlock.symm] at hFirst
      omega

include hBlocks hBlock hEdge hEdge' hLe hLength hp hq hLower hUpper in
/-- A byte of the script between the ends of a range is shown in it, or lost and taken in with the indentation. -/
theorem shown_or_lost {x : Nat} (hByte : first.block.text[x]? = some b) (hb : b ≠ Byte.lineFeed)
    (hPlace : document.text.place (first.block.content.start + x) = ⟨n, c⟩) :
    (Remapper.mk document (VirtualSource.ofBlocks document.newline indent blocks)).ShowsAt range b ⟨n, c⟩ ∨
      c < (VirtualSource.lostIndent blocks (blocks.map fun block => IndentPlan.ofBlock block indent) n).length ∧
        p.TakesIndent q n := by
  obtain ⟨hMem, hPlaced⟩ := VirtualSource.isPlaced_of_mem_runs hBlocks hEdge.mem
  obtain ⟨run, hOnLine, hLineStart, hRunByte⟩ := VirtualSource.exists_run_of_byte hBlocks indent hMem hByte hb hPlace
  obtain ⟨hRunBlock, hRunPlaced⟩ := Run.isPlaced_of_onLine hPlaced.block hOnLine
  have hRun := VirtualSource.mem_runs_of_onLine hMem hOnLine
  by_cases hLost : c < run.documentStart
  · have hLater : run.block.start.line < n := by
      apply Nat.lt_of_le_of_ne hRunPlaced.start_le
      intro hFirst
      rw [Run.documentStart, hRunPlaced.lost_eq_nil hFirst.symm] at hLost
      exact Nat.not_le_of_lt hLost hLineStart
    refine .inr ⟨?_, takesIndent_of_lost hBlocks hBlock hEdge hEdge' hLower hUpper hRun hRunBlock hLater hLost⟩
    rw [(VirtualSource.lostIndent_of_later hBlocks hRun hLater).1]
    rwa [Run.documentStart, hRunPlaced.lineStart_eq, if_neg (Nat.ne_of_gt hLater), Nat.zero_add] at hLost
  · have hKept : run.lost.length ≤ c - run.lineStart := by
      rw [Run.documentStart] at hLost
      omega
    rw [List.getElem?_append_right hKept, Nat.sub_sub] at hRunByte
    exact .inl (showsAt_of_run hBlocks hEdge' hLe hLength hp hq hLower hUpper hRun (Nat.le_of_not_lt hLost) hRunByte)

omit hLower hUpper
include hBlocks hBlock hEdge hEdge'

include hLength hp hq in
theorem exists_offset_of_showsAt
    (h : (Remapper.mk document (VirtualSource.ofBlocks document.newline indent blocks)).ShowsAt range b ⟨n, c⟩) :
    ∃ t ≤ document.text.length, document.text.place t = ⟨n, c⟩ ∧ first.block.content.start + i ≤ t ∧
      t < first.block.content.start + j := by
  obtain ⟨v, hStart, hStop, -, hPosition⟩ := h
  have hv := Nat.le_trans (Nat.le_of_lt hStop) hLength
  obtain ⟨hPlace, run, hRun, hRunStart, hRunStop⟩ := (position_eq_ok_iff hBlocks).mp hPosition
  have hBefore := Bytes.place_lt_place_iff hv (Nat.le_trans hStart hv)
  have hAfter := Bytes.place_lt_place_iff hv hLength
  rw [place_ofBlocks hBlocks hv] at hPlace hRun hRunStart hRunStop
  rw [hp, Position.lt_iff] at hBefore
  rw [hq, Position.lt_iff] at hAfter
  generalize (VirtualSource.ofBlocks document.newline indent blocks).text.place v = e at *
  obtain ⟨rfl, rfl⟩ := Position.mk.inj hPlace
  obtain ⟨-, hPlaced⟩ := VirtualSource.isPlaced_of_mem_runs hBlocks hRun
  obtain ⟨o, ho, -, hDocument⟩ := hPlaced.exists_offset (Nat.le_trans (Nat.le_add_right _ _) hRunStart) hRunStop
  have hInside := hPlaced.block.start_add_le_length ho
  refine ⟨_, hInside, hDocument, (between_edges_iff hBlocks hBlock hEdge hEdge' hInside hDocument).mpr ⟨?_, ?_⟩⟩
  · have hFirst := hEdge.start_le
    rw [Run.documentStart] at hFirst
    rcases Nat.lt_or_ge p.line e.line with hLine | hLine
    · exact .inl hLine
    · obtain ⟨hSame, hColumn⟩ : p.line = e.line ∧ p.character ≤ e.character := by omega
      rw [hSame] at hFirst
      refine .inr ⟨hSame, ?_⟩
      rw [Run.edgeColumn, hSame]
      split <;> omega
  · rcases hAfter.mpr hStop with hLine | ⟨hSame, hColumn⟩
    · exact .inl hLine
    · refine .inr ⟨hSame, ?_⟩
      rw [Run.edgeColumn, if_neg (by omega), hSame]
      omega

theorem exists_offset_of_lost
    (hLost : c < (VirtualSource.lostIndent blocks (blocks.map fun block => IndentPlan.ofBlock block indent) n).length)
    (hTakes : p.TakesIndent q n) :
    ∃ t ≤ document.text.length, document.text.place t = ⟨n, c⟩ ∧ first.block.content.start + i ≤ t ∧
      t < first.block.content.start + j := by
  obtain ⟨run, hRun, hLater⟩ := VirtualSource.exists_later_of_lostIndent hBlocks
    (List.ne_nil_of_length_pos (Nat.zero_lt_of_lt hLost))
  obtain ⟨-, hPlaced⟩ := VirtualSource.isPlaced_of_mem_runs hBlocks hRun
  have hLineStart := hPlaced.lineStart_eq
  rw [if_neg (Nat.ne_of_gt hLater)] at hLineStart
  obtain ⟨hIndent, hShift⟩ := VirtualSource.lostIndent_of_later hBlocks hRun hLater
  rw [hIndent] at hLost
  obtain ⟨o, ho, -, hDocument⟩ := hPlaced.exists_offset (hLineStart ▸ Nat.zero_le c)
    (by rw [Run.documentStop, Run.documentStart]; omega)
  have hInside := hPlaced.block.start_add_le_length ho
  refine ⟨_, hInside, hDocument, (between_edges_iff hBlocks hBlock hEdge hEdge' hInside hDocument).mpr ?_⟩
  rw [Run.edgeColumn, Run.edgeColumn]
  rw [Position.TakesIndent] at hTakes
  split at hTakes
  · rename_i hWhole
    rw [if_pos hWhole, if_pos hWhole]
    refine ⟨?_, .inl hTakes.2⟩
    rcases Nat.lt_or_eq_of_le hTakes.1 with hLine | rfl
    · exact .inl hLine
    · have hFirst := hEdge.start_le
      rw [hWhole.1, Nat.zero_add] at hFirst
      -- nothing but the run that lost the indentation is this far to the left
      obtain ⟨more, hRuns⟩ := VirtualSource.exists_runs_eq_cons hBlocks hRun (hLineStart ▸ Nat.zero_le _)
      obtain ⟨more', hRuns'⟩ := VirtualSource.exists_runs_eq_cons hBlocks hEdge.mem
        (Nat.le_trans (Nat.le_add_right _ _) hFirst)
      obtain ⟨rfl, -⟩ := List.cons.inj (hRuns.symm.trans hRuns')
      exact .inr ⟨rfl, hLineStart ▸ Nat.zero_le c⟩
  · rename_i hWhole
    rw [if_neg hWhole, if_neg hWhole]
    refine ⟨.inl hTakes.1, ?_⟩
    rcases Nat.lt_or_eq_of_le hTakes.2 with hLine | rfl
    · exact .inl hLine
    · exact .inr ⟨rfl, by omega⟩

end Stretch

theorem line_le_of_noBreak (hBlocks : ScriptBlock.Arranged document blocks) {mapped : OffsetRange}
    (h : (Remapper.mk document (VirtualSource.ofBlocks document.newline indent blocks)).range range = .ok mapped)
    (hBreak : ∀ v, range.start ≤ v → v < range.stop →
      (VirtualSource.ofBlocks document.newline indent blocks).text[v]? ≠ some Byte.lineFeed) :
    ((Remapper.mk document (VirtualSource.ofBlocks document.newline indent blocks)).place range.stop).line ≤
      ((Remapper.mk document (VirtualSource.ofBlocks document.newline indent blocks)).place range.start).line := by
  obtain ⟨-, -, -, -, ⟨hLe, hLength, -⟩, -⟩ := range_eq_ok_iff.mp h
  rw [place_ofBlocks hBlocks (Nat.le_trans hLe hLength), place_ofBlocks hBlocks hLength]
  apply Nat.le_of_not_lt
  intro hLine
  obtain ⟨v, hStart, hStop, hFeed⟩ := Bytes.exists_lineFeed hLe hLength hLine
  exact hBreak v hStart hStop hFeed

/-- What a remapped range has of the stored text: what is shown in the range, the line breaks that it crosses, and the
indentation that it takes in. -/
theorem mem_mapped_iff (hBlocks : ScriptBlock.Arranged document blocks) {mapped : OffsetRange}
    (h : (Remapper.mk document (VirtualSource.ofBlocks document.newline indent blocks)).range range = .ok mapped)
    (hp : p = (Remapper.mk document (VirtualSource.ofBlocks document.newline indent blocks)).place range.start)
    (hq : q = (Remapper.mk document (VirtualSource.ofBlocks document.newline indent blocks)).place range.stop) {o : Nat}
    (ho : o < document.raw.length) (hPlace : document.raw.place o = ⟨n, c⟩) (hb : b ≠ Byte.lineFeed)
    (hByte : document.isBreak o = false → ∀ block ∈ blocks, ∀ x < block.text.length,
      document.toRawOffset (block.content.start + x) = o → block.text[x]? = some b) :
    mapped.start ≤ o ∧ o < mapped.stop ↔
      (Remapper.mk document (VirtualSource.ofBlocks document.newline indent blocks)).ShowsAt range b ⟨n, c⟩ ∨
      (document.isBreak o = true ∧ p.line ≤ n ∧ n < q.line) ∨
      (c < (VirtualSource.lostIndent blocks (blocks.map fun block => IndentPlan.ofBlock block indent) n).length ∧
        p.TakesIndent q n) := by
  have hSmall := hBlocks.isSmall
  obtain ⟨-, -, -, -, ⟨hLe, hLength, -⟩, -⟩ := range_eq_ok_iff.mp h
  obtain ⟨first, last, i, j, hBlock, -, hEdge, hEdge', rfl⟩ := range_ofBlocks hBlocks h hp hq
  rw [place_ofBlocks hBlocks (Nat.le_trans hLe hLength)] at hp
  rw [place_ofBlocks hBlocks hLength] at hq
  have hMem := (VirtualSource.isPlaced_of_mem_runs hBlocks hEdge.mem).1
  have hInside' := hEdge'.start_add_le_length hBlocks
  rw [hBlock] at hInside'
  -- the byte stands for offset `t` of the scanned text, where the stretch of the range is known
  obtain ⟨t, ht, htRaw, htNext, htLine, hBreak, hSame⟩ := Document.exists_scanned hSmall ho
  rw [hPlace] at htLine
  have hStretch : document.toRawOffset (first.block.content.start + i) ≤ o ∧
      o < document.toRawOffset (first.block.content.start + j) ↔
        first.block.content.start + i ≤ t ∧ t < first.block.content.start + j := by
    rw [← Nat.not_le, Document.toRawOffset_le_of_scanned hSmall ht htRaw htNext (hEdge.start_add_le_length hBlocks),
      Document.toRawOffset_le_of_scanned hSmall ht htRaw htNext hInside', Nat.not_le]
  have hCrossed (hFeed : document.isBreak o = true) :=
    between_edges_iff_of_break hBlocks hBlock hEdge hEdge' (hBreak.mp hFeed) htLine.symm
  rw [hStretch]
  constructor
  · intro hBetween
    by_cases hFeed : document.isBreak o = true
    · exact .inr (.inl ⟨hFeed, (hCrossed hFeed).mp hBetween⟩)
    · rw [Bool.not_eq_true] at hFeed
      obtain rfl := hSame hFeed
      rw [(Document.cut_toRawOffset hSmall (Nat.le_of_lt ht)).place_eq] at hPlace
      obtain ⟨hLower, hUpper⟩ := (between_edges_iff hBlocks hBlock hEdge hEdge' (Nat.le_of_lt ht) hPlace).mp hBetween
      obtain ⟨x, rfl⟩ := Nat.exists_eq_add_of_le (Nat.le_trans (Nat.le_add_right _ i) hBetween.1)
      have hx : x < first.block.text.length :=
        Nat.lt_of_lt_of_le (Nat.lt_of_add_lt_add_left hBetween.2) (hBlock ▸ hEdge'.le_length)
      rcases shown_or_lost hBlocks hBlock hEdge hEdge' hLe hLength hp.symm hq.symm hLower hUpper
        (hByte hFeed first.block hMem x hx rfl) hb hPlace with hShown | hLost
      · exact .inl hShown
      · exact .inr (.inr hLost)
  · have hOffset : ∀ u ≤ document.text.length, document.text.place u = ⟨n, c⟩ → u = t := fun u hu huPlace =>
      Document.eq_of_scanned hSmall ho ht htRaw htNext hu (huPlace.trans hPlace.symm)
    rintro (hShown | ⟨hFeed, hLines⟩ | ⟨hLost, hTakes⟩)
    · obtain ⟨u, hu, huPlace, hBetween⟩ :=
        exists_offset_of_showsAt hBlocks hBlock hEdge hEdge' hLength hp.symm hq.symm hShown
      exact hOffset u hu huPlace ▸ hBetween
    · exact (hCrossed hFeed).mpr hLines
    · obtain ⟨u, hu, huPlace, hBetween⟩ := exists_offset_of_lost hBlocks hBlock hEdge hEdge' hLost hTakes
      exact hOffset u hu huPlace ▸ hBetween

end Remapper
end ScriptLint
