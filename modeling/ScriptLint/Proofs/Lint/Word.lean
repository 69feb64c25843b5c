import ScriptLint.Proofs.Lint.DocumentLine
import ScriptLint.Proofs.Lint.RangeAccepted
import ScriptLint.Proofs.Text.Occurrence

/-!
# Words of a virtual line

A virtual line has only spaces between its runs, so a word without spaces lies in one run. The document has the same word
at the place of the run, and ranges within the word are mapped to the same letters.
-/
namespace ScriptLint
set_option autoImplicit false

/-- All of the script but spaces stands in the document. -/
def ScriptBlock.Copies (document : Document) (block : ScriptBlock) : Prop :=
  ∀ i b, block.text[i]? = some b → b ≠ Byte.space → document.text[block.content.start + i]? = some b

theorem Document.copies_of_scan {document : Document} {options : ScanOptions} {blocks : List ScriptBlock}
    (hPlain : document.IsPlain options.mode) (hScan : document.scan options = .ok blocks) {block : ScriptBlock}
    (hBlock : block ∈ blocks) : block.Copies document := by
  intro i b hb hNe
  obtain ⟨elements, hElements, -⟩ := scan_eq_ok hScan
  obtain ⟨element, -, hContent, hText⟩ := exists_element_of_scan hPlain hElements hScan hBlock
  rw [hText, ScriptBlock.getElem?_blank] at hb
  obtain ⟨c, hc, hBlank⟩ := Option.map_eq_some_iff.mp hb
  split at hBlank
  · exact absurd hBlank.symm hNe
  · subst hBlank
    have hi := (List.getElem?_eq_some_iff.mp hc).1
    rw [Element.contentText, List.length_drop, List.length_take] at hi
    rw [Element.contentText, List.getElem?_drop, List.getElem?_take_of_lt (by omega)] at hc
    rw [hContent, hc]

/-- The document has a word in the content of a block, at an offset that stands at a position. -/
structure Document.Spells (document : Document) (block : ScriptBlock) (p : Position) (word : Bytes) (o : Nat) : Prop where
  start_le : block.content.start ≤ o
  stop_le : o + word.length ≤ block.content.stop
  place : document.text.place o = p
  text : word <+: document.text.drop o

/-- A run has a word at a virtual column of line `n`. -/
structure Run.Carries (indent : Indent) (blocks : List ScriptBlock) (n c : Nat) (word : Bytes) (run : Run) : Prop where
  mem : run ∈ VirtualSource.runs indent blocks n
  start_le : run.documentStart ≤ c + VirtualSource.shift indent blocks n
  word : word <+: run.content.drop (c + VirtualSource.shift indent blocks n - run.documentStart)

variable {document : Document} {blocks : List ScriptBlock} {indent : Indent} {n c : Nat} {word : Bytes} {run : Run}

theorem Run.Carries.le_stop (h : run.Carries indent blocks n c word) (hNe : word ≠ []) :
    c + VirtualSource.shift indent blocks n + word.length ≤ run.documentStop := by
  have hLength := Bytes.length_le_of_prefix_drop h.word hNe
  have hStart := h.start_le
  rw [Run.documentStop]
  omega

/-- A word without spaces is in one run. -/
theorem VirtualSource.exists_carries (hBlocks : ScriptBlock.Arranged document blocks) (newline : Newline)
    (hNe : word ≠ []) (hSpace : Byte.space ∉ word)
    (h : word <+: ((ofBlocks newline indent blocks).line n).text.drop c) :
    ∃ run : Run, run.Carries indent blocks n c word := by
  have hSeparated := separated_runs hBlocks indent n
  induction word generalizing c with
  | nil => exact absurd rfl hNe
  | cons b rest ih =>
    rw [List.mem_cons, not_or] at hSpace
    obtain ⟨hb, hRest⟩ := Bytes.cons_prefix_drop_iff.mp h
    obtain ⟨run, hRun, hStart, hByte⟩ := (line_shows hBlocks newline indent n).kept c b hb (Ne.symm hSpace.1)
    refine ⟨run, hRun, hStart, Bytes.cons_prefix_drop_iff.mpr ⟨hByte, ?_⟩⟩
    by_cases hEnd : rest = []
    · rw [hEnd]
      exact List.nil_prefix
    · -- the next byte is in a run too, and no other run is that close
      obtain ⟨other, hOther⟩ := ih hEnd hSpace.2 hRest
      have hOtherStart := hOther.start_le
      have hOtherStop := hOther.le_stop hEnd
      have hInside := (List.getElem?_eq_some_iff.mp hByte).1
      have hPos := List.length_pos_iff.mpr hEnd
      have hStop : c + 1 + shift indent blocks n ≤ run.documentStop := by
        rw [Run.documentStop]
        omega
      obtain rfl : run = other :=
        hSeparated.eq_of_column hRun hOther.mem (by omega) hStop hOtherStart (by omega)
      rw [show c + shift indent blocks n - run.documentStart + 1 = c + 1 + shift indent blocks n - run.documentStart by
        omega]
      exact hOther.word

namespace Run.Carries

theorem exists_spells (h : run.Carries indent blocks n c word) (hBlocks : ScriptBlock.Arranged document blocks)
    (hCopies : run.block.Copies document) (hNe : word ≠ []) (hSpace : Byte.space ∉ word) :
    ∃ o, document.Spells run.block ⟨n, c + VirtualSource.shift indent blocks n⟩ word o := by
  obtain ⟨-, hPlaced⟩ := VirtualSource.isPlaced_of_mem_runs hBlocks h.mem
  have hStart := h.start_le
  have hStop := h.le_stop hNe
  rw [documentStart] at hStart
  have hLine : run.lineStart ≤ c + VirtualSource.shift indent blocks n := by omega
  obtain ⟨i, hi, hScript, hDocument⟩ := hPlaced.exists_offset hLine (by omega)
  have hWord : word <+: run.block.text.drop i := by
    refine List.IsPrefix.trans ?_ (Bytes.firstLine_isPrefix _)
    rw [(Bytes.line_cut_of_place hPlaced.text hScript).2.2, List.drop_append, List.drop_of_length_le (by omega),
      List.nil_append, Nat.sub_sub]
    exact h.word
  have hLength := Bytes.length_le_of_prefix_drop hWord hNe
  have hContent := hPlaced.block.content_start_add_length
  refine ⟨run.block.content.start + i, Nat.le_add_right _ _, by omega, hDocument, ?_⟩
  rw [List.prefix_iff_getElem?] at hWord ⊢
  intro k hk
  have hByte := hWord k hk
  rw [List.getElem?_drop] at hByte ⊢
  rw [Nat.add_assoc]
  exact hCopies _ _ hByte fun hEq => hSpace (hEq ▸ List.getElem_mem hk)

end Run.Carries

namespace Document.Spells

variable {block : ScriptBlock} {p : Position} {o k : Nat}

theorem place_add (h : document.Spells block p word o) (hBreak : Byte.lineFeed ∉ word) (hk : k ≤ word.length) :
    document.text.place (o + k) = ⟨p.line, p.character + k⟩ := by
  rw [Bytes.place_add_of_prefix h.text hBreak hk, h.place]

theorem exists_lineText (h : document.Spells block p word o) (hText : Utf8.IsText document.text)
    (hBreak : Byte.lineFeed ∉ word) :
    ∃ line, document.lineText? p.line = some line ∧ word <+: line.drop p.character := by
  have hLine := Bytes.lines_getElem?_place document.text o
  rw [h.place] at hLine
  refine ⟨_, lineText?_of_getElem? hText hLine, ?_⟩
  rw [← (Bytes.line_cut_of_place hLine h.place).2.2]
  exact Bytes.prefix_firstLine h.text hBreak

theorem toRawOffset_add (h : document.Spells block p word o) (hBlock : block.IsPlaced document)
    (hSmall : document.IsSmall) (hBreak : Byte.lineFeed ∉ word) (hk : k ≤ word.length) :
    document.toRawOffset (o + k) = document.toRawOffset o + k := by
  have hStop := h.stop_le
  have hLength := hBlock.stop_le_length
  refine toRawOffset_add_column hSmall (by omega) (by omega) h.place ?_
  rw [h.place_add hBreak hk]

theorem raw_isPrefix (h : document.Spells block p word o) (hBlock : block.IsPlaced document) (hSmall : document.IsSmall)
    (hBreak : Byte.lineFeed ∉ word) : word <+: document.raw.drop (document.toRawOffset o) := by
  have hText := h.text
  rw [List.prefix_iff_getElem?] at hText ⊢
  intro k hk
  have hByte := hText k hk
  rw [List.getElem?_drop] at hByte ⊢
  rw [← h.toRawOffset_add hBlock hSmall hBreak (Nat.le_of_lt hk)]
  exact raw_getElem?_toRawOffset hSmall hByte fun hEq => hBreak (hEq ▸ List.getElem_mem hk)

end Document.Spells

namespace Remapper

theorem position_of_carries (hBlocks : ScriptBlock.Arranged document blocks) (newline : Newline)
    (h : run.Carries indent blocks n c word) (hNe : word ≠ []) {k : Nat} (hk : k ≤ word.length) :
    (Remapper.mk document (VirtualSource.ofBlocks newline indent blocks)).position ⟨n, c + k⟩ =
      .ok ⟨n, c + VirtualSource.shift indent blocks n + k⟩ := by
  have hStart := h.start_le
  have hStop := h.le_stop hNe
  refine (position_eq_ok_iff hBlocks).mpr ⟨?_, run, h.mem, ?_⟩
  · rw [Nat.add_right_comm]
  · simp only
    omega

/-- A range within a word is mapped to the same letters of the stored text. -/
theorem range_of_carries (hBlocks : ScriptBlock.Arranged document blocks) (h : run.Carries indent blocks n c word)
    {o : Nat} (hSpells : document.Spells run.block ⟨n, c + VirtualSource.shift indent blocks n⟩ word o)
    (hNe : word ≠ []) (hBreak : Byte.lineFeed ∉ word) {range : OffsetRange} {j k : Nat} (hjk : j ≤ k)
    (hk : k ≤ word.length) (hj : c + j ≠ 0) (hLe : range.start ≤ range.stop)
    (hLength : range.stop ≤ (VirtualSource.ofBlocks document.newline indent blocks).text.length)
    (hStart : (VirtualSource.ofBlocks document.newline indent blocks).text.place range.start = ⟨n, c + j⟩)
    (hStop : (VirtualSource.ofBlocks document.newline indent blocks).text.place range.stop = ⟨n, c + k⟩) :
    (Remapper.mk document (VirtualSource.ofBlocks document.newline indent blocks)).range range =
      .ok ⟨document.toRawOffset o + j, document.toRawOffset o + k⟩ := by
  obtain ⟨-, hPlaced⟩ := VirtualSource.isPlaced_of_mem_runs hBlocks h.mem
  have hRunStart := h.start_le
  have hRunStop := h.le_stop hNe
  -- an end of the range stands where the word has the same letter
  have hEdge : ∀ x ≤ word.length, ∃ i, run.Edge document indent blocks ⟨n, c + j⟩ ⟨n, c + k⟩ ⟨n, c + x⟩ i ∧
      document.toRawOffset (run.block.content.start + i) = document.toRawOffset o + x := by
    intro x hx
    obtain ⟨i, hi⟩ := exists_edge_of_mem hBlocks ⟨n, c + j⟩ ⟨n, c + k⟩ (e := ⟨n, c + x⟩) h.mem
      (by simp only; omega) (by simp only; omega)
    refine ⟨i, hi, ?_⟩
    have hDocument := hi.document
    rw [Run.edgeColumn, if_neg (fun hWhole => hj hWhole.1)] at hDocument
    have hSame : run.block.content.start + i = o + x := by
      have hEnd := hSpells.stop_le
      have hContent := hPlaced.block.stop_le_length
      refine Bytes.place_injective (hi.start_add_le_length hBlocks) (by omega) ?_
      rw [hDocument, hSpells.place_add hBreak hx, Nat.add_right_comm]
    rw [hSame, hSpells.toRawOffset_add hPlaced.block hBlocks.isSmall hBreak hx]
  obtain ⟨i, hi, hFirst⟩ := hEdge j (Nat.le_trans hjk hk)
  obtain ⟨i', hi', hLast⟩ := hEdge k hk
  rw [range_eq_ok_of_edges hBlocks hLe hLength hStart hStop rfl hi hi', hFirst, hLast]

end Remapper
end ScriptLint
