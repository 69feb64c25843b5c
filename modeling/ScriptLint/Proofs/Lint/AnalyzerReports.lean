import Mathlib.Data.List.Infix
import ScriptLint.Proofs.Diagnostic.Substitution
import ScriptLint.Proofs.Lint.DispatchReport
import ScriptLint.Proofs.Lint.TextScan
import ScriptLint.Proofs.Lint.Word

/-!
# The reports of the text scans in the document

The words that a scan looks for hold no spaces, so every report lies in one run. It has a place in the document, where the
same word stands, and a fix that deletes a byte of the word deletes that byte.
-/
namespace ScriptLint
set_option autoImplicit false

namespace Analyzers

theorem ofOneBased?_oneBased {n c : Nat} (hn : n + 1 < wordLimit) (hc : c + 1 < wordLimit) :
    Position.ofOneBased? (oneBased n) (oneBased c) = some ⟨n, c⟩ := by
  simp [Position.ofOneBased?, oneBased, clampWord_of_lt hn, clampWord_of_lt hc]

theorem mem_console {source : Bytes} {name : String} {d : Diagnostic} (h : d ∈ console source name) :
    ∃ (line : Line) (c : Nat) (word : Bytes), line.IsOf source ∧ word ≠ [] ∧ Byte.space ∉ word ∧ word <+: line.bytes.drop c ∧
      d.line = oneBased line.index ∧ d.column = oneBased c ∧
      (d.ruleId = some "no-console" →
        word = consoleText ∧ d.endLine = some (oneBased line.index) ∧ d.endColumn = some (oneBased (c + 7))) := by
  simp only [console] at h
  split at h
  · rename_i index c hMarkup
    obtain ⟨line, hLine, hFound⟩ := List.exists_of_findSome?_eq_some hMarkup
    obtain ⟨_, hColumn, hEq⟩ := Option.map_eq_some_iff.mp hFound
    cases hEq
    obtain ⟨-, next, hNext, hWord⟩ := prefix_of_markupColumn? hColumn
    rw [List.mem_singleton.mp h]
    refine ⟨line, c, [Byte.less, next], isOf_of_mem_lines hLine, List.cons_ne_nil _ _, ?_, hWord, rfl, rfl, ?_⟩
    · simp only [List.mem_cons, List.not_mem_nil, or_false, not_or]
      exact ⟨by decide, Ne.symm hNext⟩
    · intro hRule
      cases hRule
  · obtain ⟨line, hLine, hReport⟩ := List.mem_flatMap.mp h
    obtain ⟨c, hColumn, rfl⟩ := List.mem_map.mp hReport
    exact ⟨line, c, consoleText, isOf_of_mem_lines hLine, by decide, by decide, (prefix_of_mem_occurrences hColumn).2,
      rfl, rfl, fun _ => ⟨rfl, rfl, rfl⟩⟩

def semicolonReport (line : Line) (column : Nat) : Diagnostic :=
  { line := oneBased line.index
    column := oneBased (column + 1)
    message := "Unnecessary semicolon."
    ruleId := some "no-extra-semi"
    fix := some (Fix.delete (line.start + (column + 1)) (line.start + (column + 1) + 1)) }

def semicolons : Bytes := [Byte.semicolon, Byte.semicolon]

theorem extraSemicolon_eq (source : Bytes) (name : String) :
    extraSemicolon source name = (spots semicolons source).map fun spot => semicolonReport spot.1 spot.2 := by
  simp only [extraSemicolon, spots, List.map_flatMap, List.map_map]
  rfl

end Analyzers

open Analyzers

/-- The report covers a `console` on a line of the document, and a point follows. -/
def Document.CoversConsole (document : Document) (d : Diagnostic) : Prop :=
  ∃ n c row, d.line = n + 1 ∧ d.column = c + 1 ∧ d.endLine = some (n + 1) ∧ d.endColumn = some (c + 8) ∧
    document.lineText? n = some row ∧
    (row.take (c + 7)).drop c = Bytes.ofAscii ['c', 'o', 'n', 's', 'o', 'l', 'e'] ∧ row[c + 7]? = some 0x2E

/-- The second of two semicolons in the stored content of a block stands at an offset. -/
structure ScriptBlock.DoublesSemicolon (document : Document) (a : Nat) (block : ScriptBlock) : Prop where
  offset_lt : block.offset < a
  lt_endOffset : a < block.endOffset
  raw : (document.raw.take (a + 1)).drop (a - 1) = semicolons

section Call

variable {document : Document} {blocks : List ScriptBlock} {indent : Indent} {word : Bytes} {line : Line} {n c : Nat}

theorem VirtualSource.bytes_prefix_line (hBlocks : ScriptBlock.Arranged document blocks) (newline : Newline)
    (h : line.IsOf (ofBlocks newline indent blocks).text) :
    line.bytes <+: ((ofBlocks newline indent blocks).line line.index).text := by
  obtain ⟨whole, hWhole, hBytes⟩ := h.bytes
  rw [hBytes]
  by_cases hInside : line.index < (ofBlocks newline indent blocks).lines.length
  · obtain ⟨ending, hEnding, hText⟩ := getElem?_lines_text hBlocks newline indent hInside
    obtain rfl := Option.some.inj (hWhole.symm.trans hText)
    have hCases : ending = [] ∨ ending = [Byte.carriageReturn] := by
      rcases hEnding with rfl | rfl
      · exact .inl rfl
      · cases newline
        · exact .inl rfl
        · exact .inr rfl
    rcases hCases with rfl | rfl
    · rw [List.append_nil]
      exact dropReturn_isPrefix _
    · simp [dropReturn_append]
  · -- only a source without lines has a line too many, and that is empty
    have hCount : (Bytes.lines (ofBlocks newline indent blocks).text).length = _ :=
      length_lines_join newline (lineFeed_notMem_line hBlocks newline indent)
    have hIndex := (List.getElem?_eq_some_iff.mp hWhole).1
    rw [hCount, List.length_map] at hIndex
    have hNil : (ofBlocks newline indent blocks).lines = [] := List.eq_nil_of_length_eq_zero (by omega)
    have hMem := List.mem_of_getElem? hWhole
    rw [VirtualSource.text, hNil, List.map_nil, join, Bytes.lines_nil, List.mem_singleton] at hMem
    rw [hMem]
    exact List.nil_prefix

theorem VirtualSource.exists_carries_of_line (hBlocks : ScriptBlock.Arranged document blocks) (newline : Newline)
    (hLine : line.IsOf (ofBlocks newline indent blocks).text) (hNe : word ≠ []) (hSpace : Byte.space ∉ word)
    (hWord : word <+: line.bytes.drop c) : ∃ run : Run, run.Carries indent blocks line.index c word :=
  exists_carries hBlocks newline hNe hSpace
    (hWord.trans (List.IsPrefix.drop (bytes_prefix_line hBlocks newline hLine) c))

theorem VirtualSource.exists_first_of_text (hBlocks : ScriptBlock.Arranged document blocks) (newline : Newline)
    (hText : 0 < ((ofBlocks newline indent blocks).line n).text.length) :
    n + 1 < wordLimit ∧ ∃ first more, runs indent blocks n = first :: more := by
  have hShows := line_shows hBlocks newline indent n
  cases hRuns : runs indent blocks n with
  | nil =>
    rw [line_ofBlocks newline indent (fun block hBlock => (hBlocks.isPlaced block hBlock).isText), hRuns] at hText
    cases hText
  | cons first more =>
    -- the last run tells how long the line is
    obtain ⟨last, hLast⟩ : ∃ last, (first :: more).getLast? = some last := ⟨_, List.getLast?_cons⟩
    rw [← hRuns] at hLast
    have hLength := hShows.length_eq _ hLast
    have hStop := (isPlaced_of_mem_runs hBlocks (List.mem_of_getLast? hLast)).2.line_add_documentStop_le
    have hSmall := hBlocks.isSmall.text
    exact ⟨by omega, first, more, rfl⟩

theorem Run.Carries.add_lt {run : Run} (h : run.Carries indent blocks n c word)
    (hBlocks : ScriptBlock.Arranged document blocks) (hNe : word ≠ []) :
    n + (c + VirtualSource.shift indent blocks n + word.length) < wordLimit := by
  have hLine := (VirtualSource.isPlaced_of_mem_runs hBlocks h.mem).2.line_add_documentStop_le
  have hStop := h.le_stop hNe
  have hSmall := hBlocks.isSmall.text
  omega

namespace Remapper

theorem diagnostic?_of_console (hBlocks : ScriptBlock.Arranged document blocks) (hText : Utf8.IsText document.text)
    (hCopies : ∀ block ∈ blocks, block.Copies document) (newline : Newline) {name : String} {given : Diagnostic}
    (h : given ∈ console (VirtualSource.ofBlocks newline indent blocks).text name) :
    ∃ d, (Remapper.mk document (VirtualSource.ofBlocks newline indent blocks)).diagnostic? given = some d ∧
      (d.ruleId = some "no-console" → document.CoversConsole d) := by
  obtain ⟨line, c, word, hLine, hNe, hSpace, hWord, hNumber, hColumn, hConsole⟩ := mem_console h
  obtain ⟨run, hCarries⟩ := VirtualSource.exists_carries_of_line hBlocks newline hLine hNe hSpace hWord
  have hLength := List.length_pos_iff.mpr hNe
  have hLt := hCarries.add_lt hBlocks hNe
  have hPosition : given.position? = some ⟨line.index, c⟩ := by
    rw [Diagnostic.position?, hNumber, hColumn, ofOneBased?_oneBased (by omega) (by omega)]
  have hStart := position_of_carries hBlocks newline hCarries hNe (Nat.zero_le _)
  refine ⟨_, diagnostic?_eq_some hPosition hStart, ?_⟩
  intro hRule
  obtain ⟨rfl, hEndLine, hEndColumn⟩ := hConsole hRule
  have hEight : consoleText.length = 8 := rfl
  have hEnd : given.endPosition? = some ⟨line.index, c + 7⟩ := by
    rw [Diagnostic.endPosition?, hEndLine, hEndColumn]
    exact ofOneBased?_oneBased (by omega) (by omega)
  have hStop := position_of_carries hBlocks newline hCarries hNe (k := 7) (by decide)
  have hMapped : (Remapper.mk document (VirtualSource.ofBlocks newline indent blocks)).endPosition? given
      ⟨line.index, c + VirtualSource.shift indent blocks line.index + 0⟩ =
      some ⟨line.index, c + VirtualSource.shift indent blocks line.index + 7⟩ := by
    simp only [endPosition?, hEnd, hStop, Position.max]
    rw [if_neg]
    simp [Position.le_iff]
  obtain ⟨hBlock, -⟩ := VirtualSource.isPlaced_of_mem_runs hBlocks hCarries.mem
  obtain ⟨o, hSpells⟩ := hCarries.exists_spells hBlocks (hCopies _ hBlock) hNe hSpace
  obtain ⟨row, hRow, rest, hRest⟩ := hSpells.exists_lineText hText (by decide)
  have hLineNumber (k : Nat) : Position.lineNumber ⟨line.index, k⟩ = line.index + 1 :=
    Position.lineNumber_of_lt (by simp only; omega)
  have hColumnNumber (k : Nat) (hk : k ≤ 7) :
      Position.columnNumber ⟨line.index, c + VirtualSource.shift indent blocks line.index + k⟩ =
        c + VirtualSource.shift indent blocks line.index + k + 1 :=
    Position.columnNumber_of_lt (by simp only; omega)
  refine ⟨line.index, c + VirtualSource.shift indent blocks line.index, row, hLineNumber _,
    hColumnNumber 0 (by decide), ?_, ?_, hRow, ?_, ?_⟩
  · rw [hMapped]
    exact congrArg some (hLineNumber _)
  · rw [hMapped]
    exact congrArg some (hColumnNumber 7 (by decide))
  · rw [List.drop_take, Nat.add_sub_cancel_left, ← hRest]
    rfl
  · rw [← List.getElem?_drop, ← hRest]
    rfl

theorem diagnostic?_of_leadingBlank (hBlocks : ScriptBlock.Arranged document blocks) (newline : Newline) {name : String}
    {given : Diagnostic} (h : given ∈ leadingBlank (VirtualSource.ofBlocks newline indent blocks).text name) :
    ∃ d, (Remapper.mk document (VirtualSource.ofBlocks newline indent blocks)).diagnostic? given = some d := by
  obtain ⟨line, hLine, rfl⟩ := List.mem_map.mp h
  obtain ⟨hLine, hSolid⟩ := List.mem_filter.mp hLine
  have hPrefix := VirtualSource.bytes_prefix_line hBlocks newline (isOf_of_mem_lines hLine)
  have hBytes : 0 < line.bytes.length := by
    apply List.length_pos_iff.mpr
    intro hNil
    rw [hNil, Utf8.chars] at hSolid
    cases hSolid
  obtain ⟨hNumber, first, more, hRuns⟩ :=
    VirtualSource.exists_first_of_text hBlocks newline (Nat.lt_of_lt_of_le hBytes hPrefix.length_le)
  have hShift := VirtualSource.shift_eq_of_first hRuns
  have hStart : (Remapper.mk document (VirtualSource.ofBlocks newline indent blocks)).position ⟨line.index, 0⟩ =
      .ok ⟨line.index, 0 + VirtualSource.shift indent blocks line.index⟩ := by
    refine (position_eq_ok_iff hBlocks).mpr ⟨rfl, first, ?_, ?_⟩
    · simp only [hRuns, List.mem_cons, true_or]
    · simp only [hShift, Run.documentStop]
      omega
  have hColumn : Position.ofOneBased? (oneBased line.index) (oneBased 0) = some ⟨line.index, 0⟩ :=
    ofOneBased?_oneBased hNumber (by decide)
  exact ⟨_, diagnostic?_eq_some hColumn hStart⟩

theorem diagnostic?_of_semicolon (hBlocks : ScriptBlock.Arranged document blocks)
    (hCopies : ∀ block ∈ blocks, block.Copies document)
    (h : (line, c) ∈ spots semicolons (VirtualSource.ofBlocks document.newline indent blocks).text) :
    ∃ d a, (Remapper.mk document (VirtualSource.ofBlocks document.newline indent blocks)).diagnostic?
        (semicolonReport line c) = some d ∧ d.ruleId = some "no-extra-semi" ∧ d.fix = some (Fix.delete a (a + 1)) ∧
      document.raw.place a = ⟨line.index, c + VirtualSource.shift indent blocks line.index + 1⟩ ∧
      ∃ block ∈ blocks, block.DoublesSemicolon document a := by
  obtain ⟨hLine, hWord⟩ := mem_spots h
  have hTwo : semicolons.length = 2 := rfl
  have hNe : semicolons ≠ [] := List.cons_ne_nil _ _
  obtain ⟨run, hCarries⟩ := VirtualSource.exists_carries_of_line hBlocks document.newline hLine hNe (by decide) hWord
  obtain ⟨hBlock, hPlaced⟩ := VirtualSource.isPlaced_of_mem_runs hBlocks hCarries.mem
  have hPlaced := hPlaced.block
  obtain ⟨o, hSpells⟩ := hCarries.exists_spells hBlocks (hCopies _ hBlock) hNe (by decide)
  have hLt := hCarries.add_lt hBlocks hNe
  have hPosition : (semicolonReport line c).position? = some ⟨line.index, c + 1⟩ :=
    ofOneBased?_oneBased (by omega) (by omega)
  have hStart := position_of_carries hBlocks document.newline hCarries hNe (k := 1) (by decide)
  have hInside := Bytes.length_le_of_prefix_drop hWord hNe
  obtain ⟨hFirst, -⟩ := hLine.place_add (k := c + 1) (by omega)
  obtain ⟨hSecond, hEnd⟩ := hLine.place_add (k := c + 2) (by omega)
  have hRange : (Remapper.mk document (VirtualSource.ofBlocks document.newline indent blocks)).range
      ⟨line.start + (c + 1), line.start + (c + 2)⟩ = .ok ⟨document.toRawOffset o + 1, document.toRawOffset o + 2⟩ :=
    range_of_carries hBlocks hCarries hSpells hNe (by decide) (Nat.le_succ 1) (by decide) (by omega)
      (by simp only; omega) hEnd hFirst hSecond
  have hRaw : ∀ k ≤ 2, document.toRawOffset (o + k) = document.toRawOffset o + k := fun k hk =>
    hSpells.toRawOffset_add hPlaced hBlocks.isSmall (by decide) hk
  have hLe := hSpells.start_le
  have hStop := hSpells.stop_le
  have hLength := hPlaced.stop_le_length
  refine ⟨_, document.toRawOffset o + 1, diagnostic?_eq_some hPosition hStart, rfl, ?_, ?_, run.block, hBlock, ?_⟩
  · simp only [semicolonReport, Option.bind_some, fix?, Fix.delete, Nat.add_assoc, hRange]
  · rw [← hRaw 1 (by decide), (Document.cut_toRawOffset hBlocks.isSmall (by omega)).place_eq,
      hSpells.place_add (by decide) (by decide)]
  · constructor
    · rw [hPlaced.offset_eq, Nat.lt_succ_iff, Document.toRawOffset_le_iff hBlocks.isSmall (by omega) (by omega)]
      exact hLe
    · rw [hPlaced.endOffset_eq, ← hRaw 1 (by decide), Document.toRawOffset_lt_iff hBlocks.isSmall (by omega) (by omega)]
      omega
    · obtain ⟨rest, hRest⟩ := hSpells.raw_isPrefix hPlaced hBlocks.isSmall (by decide)
      rw [Nat.add_sub_cancel, List.drop_take, show document.toRawOffset o + 1 + 1 - document.toRawOffset o = 2 by omega,
        ← hRest]
      rfl

end Remapper

namespace ScriptBlock.DoublesSemicolon

variable {block : ScriptBlock} {a : Nat}

theorem getElem?_raw (h : block.DoublesSemicolon document a) : document.raw[a]? = some Byte.semicolon := by
  have hPos := h.offset_lt
  have hSecond := congrArg (fun s : Bytes => s[1]?) h.raw
  simp only [List.getElem?_drop, show a - 1 + 1 = a by omega, List.getElem?_take_of_lt (Nat.lt_succ_self a)] at hSecond
  exact hSecond

theorem lt_length (h : block.DoublesSemicolon document a) : a < document.raw.length :=
  (List.getElem?_eq_some_iff.mp h.getElem?_raw).1

theorem fits (h : block.DoublesSemicolon document a) (hText : Utf8.IsText document.raw) :
    (Fix.delete a (a + 1)).Fits document.raw :=
  ⟨Nat.le_succ a, h.lt_length, Utf8.isBoundary_of_not_tail h.getElem?_raw (by decide),
    hText.isBoundary_succ h.getElem?_raw (by decide)⟩

end ScriptBlock.DoublesSemicolon

namespace Linter

def semicolonFixes (document : Document) (call : String × VirtualSource) : List Fix :=
  (found extraSemicolon document call).filterMap (·.fix)

theorem semicolonFixes_eq (name : String) (source : VirtualSource) :
    semicolonFixes document (name, source) = (spots semicolons source.text).filterMap fun spot =>
      ((Remapper.mk document source).diagnostic? (semicolonReport spot.1 spot.2)).bind (·.fix) := by
  simp only [semicolonFixes, found, extraSemicolon_eq, List.filterMap_map, List.filterMap_filterMap]
  rfl

variable (hBlocks : ScriptBlock.Arranged document blocks) (hCopies : ∀ block ∈ blocks, block.Copies document)
  (name : String)
include hBlocks hCopies

theorem exists_of_mem_semicolonFixes {fix : Fix}
    (h : fix ∈ semicolonFixes document (name, VirtualSource.ofBlocks document.newline indent blocks)) :
    ∃ a, fix = Fix.delete a (a + 1) ∧ ∃ block ∈ blocks, block.DoublesSemicolon document a := by
  rw [semicolonFixes_eq] at h
  obtain ⟨⟨line, c⟩, hSpot, hFix⟩ := List.mem_filterMap.mp h
  obtain ⟨d, a, hReport, -, hDelete, -, hBlock⟩ := Remapper.diagnostic?_of_semicolon hBlocks hCopies hSpot
  rw [hReport, Option.bind_some, hDelete] at hFix
  cases hFix
  exact ⟨a, rfl, hBlock⟩

theorem pairwise_semicolonFixes :
    (semicolonFixes document (name, VirtualSource.ofBlocks document.newline indent blocks)).Pairwise fun a b =>
      a.range.stop ≤ b.range.start := by
  rw [semicolonFixes_eq, List.pairwise_filterMap]
  refine (pairwise_spots semicolons _).imp_of_mem ?_
  rintro ⟨line, c⟩ ⟨line', c'⟩ hSpot hSpot' hOrder fix hFix fix' hFix'
  obtain ⟨d, a, hReport, -, hDelete, hPlace, block, -, hDoubles⟩ :=
    Remapper.diagnostic?_of_semicolon hBlocks hCopies hSpot
  obtain ⟨d', a', hReport', -, hDelete', hPlace', block', -, hDoubles'⟩ :=
    Remapper.diagnostic?_of_semicolon hBlocks hCopies hSpot'
  rw [hReport, Option.bind_some, hDelete] at hFix
  rw [hReport', Option.bind_some, hDelete'] at hFix'
  cases hFix
  cases hFix'
  have hLt : a < a' := by
    rw [← Bytes.place_lt_place_iff (Nat.le_of_lt hDoubles.lt_length) (Nat.le_of_lt hDoubles'.lt_length), hPlace, hPlace',
      Position.lt_iff]
    rcases hOrder with hLine | ⟨hLine, hColumn⟩
    · exact .inl hLine
    · simp only at hLine hColumn ⊢
      rw [hLine]
      exact .inr ⟨rfl, by omega⟩
  exact hLt

end Linter
end Call
end ScriptLint
