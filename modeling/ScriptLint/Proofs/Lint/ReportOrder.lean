import ScriptLint.Proofs.Lint.BadIndent
import ScriptLint.Proofs.Lint.DispatchReport
import ScriptLint.Proofs.Lint.LongLine

/-!
# The order of the result

An analyzer may report in any order, as long as reports at one position follow each other as they should: remapping
never brings reports from different positions together, and sorting undoes the rest. In the result the blocks of a
document follow each other, and reports on indentation come last at their position. Only the very last column that 32
bits can hold is out of place: counted from one it is zero, and reports there come first.
-/
namespace ScriptLint
set_option autoImplicit false

theorem Diagnostic.position?_eq_some_iff {d : Diagnostic} {p : Position} :
    d.position? = some p ↔ d.line = p.line + 1 ∧ d.column = p.character + 1 := by
  constructor
  · intro h
    rw [position?, Position.ofOneBased?] at h
    split at h
    · cases h
    · cases h
      simp only
      omega
  · rintro ⟨hLine, hColumn⟩
    simp [position?, Position.ofOneBased?, hLine, hColumn]

namespace ScriptBlock

/-- The report begins in the block or just past its end. -/
def covers (block : ScriptBlock) (d : Diagnostic) : Bool :=
  d.position?.any fun p => block.span.start.le p && p.le block.span.stop

variable {document : Document} {block : ScriptBlock} {d : Diagnostic}

theorem covers_iff : block.covers d = true ↔
    ∃ p, d.position? = some p ∧ block.span.start.le p = true ∧ p.le block.span.stop = true := by
  rw [covers, Option.any_eq_true]
  simp only [Bool.and_eq_true]

theorem not_le_of_covers {later : ScriptBlock} (hApart : block.span.stop.lt later.span.start = true) {a b : Diagnostic}
    (ha : block.covers a = true) (hb : later.covers b = true) : ¬b.le a = true := by
  obtain ⟨p, hp, -, hEnd⟩ := covers_iff.mp ha
  obtain ⟨q, hq, hBegin, -⟩ := covers_iff.mp hb
  rw [Diagnostic.position?_eq_some_iff] at hp hq
  rw [Position.lt_iff] at hApart
  rw [Position.le_iff] at hEnd hBegin
  rw [Diagnostic.le_iff, hp.1, hp.2, hq.1, hq.2]
  omega

theorem not_isAt_of_covers (h : block.covers d = true) : ¬d.isAt 1 0 = true := by
  obtain ⟨p, hp, -⟩ := covers_iff.mp h
  rw [Diagnostic.position?_eq_some_iff] at hp
  rw [Diagnostic.isAt_iff, hp.2]
  omega

theorem not_le_of_isAt {a b : Diagnostic} (ha : a.isAt 1 0 = true) (hb : block.covers b = true) : ¬b.le a = true := by
  obtain ⟨p, hp, -⟩ := covers_iff.mp hb
  rw [Diagnostic.position?_eq_some_iff] at hp
  rw [Diagnostic.isAt_iff] at ha
  rw [Diagnostic.le_iff, hp.1, hp.2, ha.1, ha.2]
  omega

/-- Sorted reports stand block after block, behind those in the column that is counted as zero. -/
theorem eq_filter_append_flatMap {blocks : List ScriptBlock} {out : List Diagnostic}
    (hSorted : out.Pairwise fun a b => a.le b = true)
    (hApart : blocks.Pairwise fun a b => a.span.stop.lt b.span.start = true)
    (hAll : ∀ d ∈ out, (∃ block ∈ blocks, block.covers d = true) ∨ d.isAt 1 0 = true) :
    out = out.filter (Diagnostic.isAt 1 0) ++ blocks.flatMap fun block => out.filter block.covers := by
  let holds : Option ScriptBlock → Diagnostic → Bool := fun group => group.elim (Diagnostic.isAt 1 0) covers
  have hGroups : (none :: blocks.map some).Pairwise fun g g' =>
      ∀ a b, holds g a = true → holds g' b = true → ¬b.le a = true := by
    rw [List.pairwise_cons, List.pairwise_map]
    refine ⟨?_, hApart.imp fun hApart _ _ => not_le_of_covers hApart⟩
    rintro _ hGroup a b ha hb
    obtain ⟨block, -, rfl⟩ := List.mem_map.mp hGroup
    exact not_le_of_isAt ha hb
  have hSplit := Diagnostic.byPosition.eq_flatMap_filter hSorted hGroups fun d hd =>
    (hAll d hd).elim (fun ⟨block, hBlock, hCovers⟩ => ⟨some block, .tail _ (List.mem_map_of_mem hBlock), hCovers⟩)
      fun hAt => ⟨none, .head _, hAt⟩
  rwa [List.flatMap_cons, List.flatMap_map] at hSplit

theorem IsPlaced.covers_of_place (hPlaced : block.IsPlaced document)
    (hStop : block.span.stop = document.text.place block.content.stop) {i : Nat} (hi : i ≤ block.text.length)
    (hPosition : d.position? = some (document.text.place (block.content.start + i))) : block.covers d = true := by
  have hLength := hPlaced.content_start_add_length
  have hEnd := hPlaced.stop_le_length
  refine covers_iff.mpr ⟨_, hPosition, ?_, ?_⟩
  · have hBegin : block.span.start = document.text.place block.content.start := hPlaced.start_eq
    rw [hBegin]
    exact Bytes.place_le_place (Nat.le_add_right _ _) (by omega)
  · rw [hStop]
    exact Bytes.place_le_place (by omega) hEnd

theorem IsPlaced.line_place_lt (hPlaced : block.IsPlaced document)
    (hStop : block.span.stop = document.text.place block.content.stop) {i : Nat} (hi : i ≤ block.text.length) :
    (document.text.place (block.content.start + i)).line < document.text.length := by
  have hLength := hPlaced.content_start_add_length
  have hLe := Bytes.place_le_place (s := document.text) (i := block.content.start + i) (j := block.content.stop)
    (by omega) hPlaced.stop_le_length
  have hLine := Document.stop_line_lt hPlaced hStop
  rw [← hStop, Position.le_iff] at hLe
  omega

theorem covers_reportAt {n : Nat} (hBegin : block.start.line < n) (hEnd : n ≤ block.span.stop.line) :
    block.covers (BadIndent.reportAt n) = true := by
  have hPosition : (BadIndent.reportAt n).position? = some ⟨n, 0⟩ := rfl
  refine covers_iff.mpr ⟨_, hPosition, ?_, ?_⟩
  · rw [Position.le_iff]
    exact .inl hBegin
  · rw [Position.le_iff]
    exact (Nat.lt_or_eq_of_le hEnd).imp_right fun hLine => ⟨hLine, Nat.zero_le _⟩

end ScriptBlock

namespace Remapper

variable {document : Document} {blocks : List ScriptBlock} {d d' : Diagnostic}

theorem exists_position_of_diagnostic? {r : Remapper} (h : r.diagnostic? d = some d') :
    ∃ p q, d.position? = some p ∧ r.position p = .ok q ∧ d'.line = q.lineNumber ∧ d'.column = q.columnNumber := by
  cases hp : d.position? with
  | none =>
    simp only [diagnostic?, diagnostic, hp] at h
    cases h
  | some p =>
    cases hq : r.position p with
    | error cause =>
      simp only [diagnostic?, diagnostic, hp, hq] at h
      cases h
    | ok q =>
      cases h.symm.trans (diagnostic?_eq_some hp hq)
      exact ⟨p, q, rfl, hq, rfl, rfl⟩

theorem diagnostic?_of_position {r : Remapper} {c k : Nat} (h : r.position ⟨0, c⟩ = .ok ⟨0, k⟩)
    (message : String) :
    r.diagnostic? { line := 1, column := c + 1, message } = some { line := 1, column := wrapWord (k + 1), message } :=
  diagnostic?_eq_some (Diagnostic.position?_eq_some_iff.mpr ⟨rfl, rfl⟩) h

section Blocks

variable (hBlocks : ScriptBlock.Arranged document blocks) {newline : Newline} {indent : Indent}
include hBlocks

theorem line_add_character_le {p q : Position}
    (h : (Remapper.mk document (VirtualSource.ofBlocks newline indent blocks)).position p = .ok q) :
    q.line + q.character ≤ document.text.length := by
  obtain ⟨rfl, run, hRun, -, hLast⟩ := (position_eq_ok_iff hBlocks).mp h
  obtain ⟨-, hPlaced⟩ := VirtualSource.isPlaced_of_mem_runs hBlocks hRun
  exact Nat.le_trans (Nat.add_le_add_left hLast _) hPlaced.line_add_documentStop_le

theorem position_eq_of_diagnostic? {e e' : Diagnostic}
    (hd : (Remapper.mk document (VirtualSource.ofBlocks newline indent blocks)).diagnostic? d = some d')
    (he : (Remapper.mk document (VirtualSource.ofBlocks newline indent blocks)).diagnostic? e = some e')
    (hSame : d'.line = e'.line ∧ d'.column = e'.column) : d.line = e.line ∧ d.column = e.column := by
  obtain ⟨p, q, hp, hq, hLine, hColumn⟩ := exists_position_of_diagnostic? hd
  obtain ⟨p', q', hp', hq', hLine', hColumn'⟩ := exists_position_of_diagnostic? he
  have hSmall := hBlocks.isSmall.text
  have hFits := Nat.lt_of_le_of_lt (line_add_character_le hBlocks hq) hSmall
  have hFits' := Nat.lt_of_le_of_lt (line_add_character_le hBlocks hq') hSmall
  obtain rfl := Position.eq_of_numbers hFits hFits' (hLine.symm.trans (hSame.1.trans hLine'))
    (hColumn.symm.trans (hSame.2.trans hColumn'))
  obtain rfl := (faithful_of_arranged hBlocks newline indent).injective p p' q hq hq'
  rw [Diagnostic.position?_eq_some_iff] at hp hp'
  exact ⟨hp.1.trans hp'.1.symm, hp.2.trans hp'.2.symm⟩

/-- A remapped report begins in a block, unless it is in the last column that 32 bits can hold. -/
theorem covers_or_isAt_of_diagnostic?
    (hStop : ∀ block ∈ blocks, block.span.stop = document.text.place block.content.stop)
    (h : (Remapper.mk document (VirtualSource.ofBlocks newline indent blocks)).diagnostic? d = some d') :
    (∃ block ∈ blocks, block.covers d' = true) ∨ d'.isAt 1 0 = true ∧ document.text.length + 1 = wordLimit := by
  obtain ⟨p, q, -, hq, hLine, hColumn⟩ := exists_position_of_diagnostic? h
  have hLength := line_add_character_le hBlocks hq
  have hSmall := hBlocks.isSmall.text
  rcases Nat.lt_or_ge (q.character + 1) wordLimit with hFits | hFull
  · obtain ⟨rfl, run, hRun, hFirst, hLast⟩ := (position_eq_ok_iff hBlocks).mp hq
    obtain ⟨hBlock, hPlaced⟩ := VirtualSource.isPlaced_of_mem_runs hBlocks hRun
    obtain ⟨i, hi, -, hPlace⟩ := hPlaced.exists_offset (Nat.le_trans (Nat.le_add_right _ _) hFirst) hLast
    have hEnd := hPlaced.block.line_place_lt (hStop run.block hBlock) hi
    rw [hPlace] at hEnd
    rw [Position.lineNumber_of_lt (Nat.lt_of_le_of_lt hEnd hSmall)] at hLine
    rw [Position.columnNumber_of_lt hFits] at hColumn
    have hPosition := Diagnostic.position?_eq_some_iff.mpr ⟨hLine, hColumn⟩
    rw [← hPlace] at hPosition
    exact .inl ⟨run.block, hBlock, hPlaced.block.covers_of_place (hStop run.block hBlock) hi hPosition⟩
  · have hFirst : q.line = 0 := by omega
    have hLast : q.character + 1 = wordLimit := by omega
    rw [Position.lineNumber, hFirst] at hLine
    rw [Position.columnNumber, hLast] at hColumn
    exact .inr ⟨Diagnostic.isAt_iff.mpr ⟨hLine, hColumn⟩, by omega⟩

end Blocks

end Remapper

namespace Linter

variable {linter : Linter} {filename : String} {prepared : Prepared}

theorem stop_eq_of_prepare {source : String} (hSize : (Utf8.encode source).length < wordLimit)
    (hMark : (linter.scanOptions filename).mode = .xml →
      ¬Xml.byteOrderMark <+: (Document.mk (Utf8.encode source)).text)
    (h : linter.prepare (Utf8.encode source) filename = .ok prepared) :
    ∀ block ∈ prepared.blocks, block.span.stop = prepared.document.text.place block.content.stop := by
  obtain ⟨blocks, hScan, rfl⟩ := prepare_eq_ok h
  intro block hBlock
  exact Document.stop_eq_of_scan (Document.isPlain_encode hSize hMark) hScan hBlock

section Prepared

variable {source : Bytes} (hPrepare : linter.prepare source filename = .ok prepared)
  (hBlocks : ScriptBlock.Arranged prepared.document prepared.blocks)
include hPrepare hBlocks

theorem reordered_found {first second : Analyzer}
    (hSame : ∀ call ∈ linter.sources prepared filename,
      Diagnostic.Reordered (first call.2.text call.1) (second call.2.text call.1)) :
    Diagnostic.Reordered ((linter.sources prepared filename).flatMap (found first prepared.document))
      ((linter.sources prepared filename).flatMap (found second prepared.document)) := by
  apply Diagnostic.Reordered.flatMap
  intro call hCall
  obtain ⟨part, hPart, hSource⟩ := exists_ofBlocks_of_mem_sources hPrepare hCall
  apply (hSame call hCall).filterMap
  intro a b a' b' ha hb
  rw [hSource] at ha hb
  exact Remapper.position_eq_of_diagnostic? (hBlocks.sublist hPart) ha hb

variable (hStop : ∀ block ∈ prepared.blocks, block.span.stop = prepared.document.text.place block.content.stop)
include hStop

theorem covers_or_isAt_of_mem_found {analyzer : Analyzer} {call : String × VirtualSource} {d : Diagnostic}
    (hCall : call ∈ linter.sources prepared filename) (hd : d ∈ found analyzer prepared.document call) :
    (∃ block ∈ prepared.blocks, block.covers d = true) ∨
      d.isAt 1 0 = true ∧ prepared.document.text.length + 1 = wordLimit := by
  obtain ⟨part, hPart, hSource⟩ := exists_ofBlocks_of_mem_sources hPrepare hCall
  obtain ⟨given, -, hGiven⟩ := List.mem_filterMap.mp hd
  rw [hSource] at hGiven
  refine (Remapper.covers_or_isAt_of_diagnostic? (hBlocks.sublist hPart)
    (fun block hBlock => hStop block (hPart.subset hBlock)) hGiven).imp_left ?_
  rintro ⟨block, hBlock, hCovers⟩
  exact ⟨block, hPart.subset hBlock, hCovers⟩

theorem exists_covers_of_mem_badIndent {d : Diagnostic} (hd : d ∈ prepared.badIndent) :
    ∃ block ∈ prepared.blocks, block.covers d = true := by
  obtain ⟨blocks, -, rfl⟩ := prepare_eq_ok hPrepare
  rw [BadIndent.badIndent_eq hBlocks hStop] at hd
  obtain ⟨n, hn, rfl⟩ := List.mem_map.mp hd
  obtain ⟨block, hBlock, hn⟩ := List.mem_flatMap.mp hn
  obtain ⟨hBegin, hEnd⟩ := BadIndent.bounds_of_mem hBlocks hStop linter.settings.indent hBlock hn
  exact ⟨block, hBlock, ScriptBlock.covers_reportAt hBegin hEnd⟩

theorem covers_or_isAt_of_mem_sort (analyzer : Analyzer) :
    ∀ d ∈ Diagnostic.sort ((linter.sources prepared filename).flatMap (found analyzer prepared.document) ++
        if linter.settings.reportBadIndent then prepared.badIndent else []),
      (∃ block ∈ prepared.blocks, block.covers d = true) ∨
        d.isAt 1 0 = true ∧ prepared.document.text.length + 1 = wordLimit := by
  intro d hd
  rcases List.mem_append.mp (List.mem_mergeSort.mp hd) with hFound | hBad
  · obtain ⟨call, hCall, hd⟩ := List.mem_flatMap.mp hFound
    exact covers_or_isAt_of_mem_found hPrepare hBlocks hStop hCall hd
  · split at hBad
    · exact .inl (exists_covers_of_mem_badIndent hPrepare hBlocks hStop hBad)
    · cases hBad

end Prepared

theorem length_text_le_of_prepare {source : Bytes} (h : linter.prepare source filename = .ok prepared) :
    prepared.document.text.length ≤ source.length := by
  obtain ⟨blocks, -, rfl⟩ := prepare_eq_ok h
  exact Document.length_text_le _

/-- The order of an analyzer's reports does not matter: two analyzers that differ in nothing else have the same result.
It is sorted, and at each position the analyzer's reports stand before the one on indentation. It goes on block after
block, behind the reports in the column that is counted as zero; there are none in a document that leaves room for one
more byte. -/
theorem lint_of_reordered (linter : Linter) (first second : Analyzer) (source filename : String)
    (hSize : (Utf8.encode source).length < wordLimit)
    (hMark : (linter.scanOptions filename).mode = .xml →
      ¬Xml.byteOrderMark <+: (Document.mk (Utf8.encode source)).text)
    (hLenient : linter.strict = false)
    (hSame : ∀ prepared, linter.prepare (Utf8.encode source) filename = .ok prepared →
      ∀ call ∈ linter.sources prepared filename,
        Diagnostic.Reordered (first call.2.text call.1) (second call.2.text call.1)) :
    ∃ out, linter.lint first (Utf8.encode source) filename = .ok out ∧
      linter.lint second (Utf8.encode source) filename = .ok out ∧
      out.Pairwise (fun a b => a.le b = true) ∧
      ∀ prepared, linter.prepare (Utf8.encode source) filename = .ok prepared →
        prepared.blocks.Pairwise (fun a b => a.span.stop.lt b.span.start = true) ∧
        out = out.filter (Diagnostic.isAt 1 0) ++ prepared.blocks.flatMap (fun block => out.filter block.covers) ∧
        ((Utf8.encode source).length + 1 < wordLimit → out.filter (Diagnostic.isAt 1 0) = []) ∧
        ∀ line column, out.filter (Diagnostic.isAt line column) =
          ((linter.sources prepared filename).flatMap (found first prepared.document)).filter
              (Diagnostic.isAt line column) ++
            (if linter.settings.reportBadIndent then prepared.badIndent else []).filter
              (Diagnostic.isAt line column) := by
  cases hPrepare : linter.prepare (Utf8.encode source) filename with
  | error fatal =>
    refine ⟨[fatal], by simp only [lint, hPrepare], by simp only [lint, hPrepare], List.pairwise_singleton _ _, ?_⟩
    intro prepared h
    cases h
  | ok prepared =>
    have hBlocks := arranged_of_prepare hSize hMark hPrepare
    have hStop := stop_eq_of_prepare hSize hMark hPrepare
    have hReordered := reordered_found hPrepare hBlocks (hSame prepared hPrepare)
    refine ⟨_, lint_of_lenient hLenient hPrepare, ?_, Diagnostic.pairwise_sort _, ?_⟩
    · rw [lint_of_lenient hLenient hPrepare, Diagnostic.sort_eq_sort (hReordered.append_right _)]
    · intro other hOther
      cases hOther
      have hApart := hBlocks.pairwise_span hStop
      have hAll := covers_or_isAt_of_mem_sort hPrepare hBlocks hStop first
      refine ⟨hApart, ?_, ?_, ?_⟩
      · exact ScriptBlock.eq_filter_append_flatMap (Diagnostic.pairwise_sort _) hApart fun d hd =>
          (hAll d hd).imp_right And.left
      · intro hRoom
        rw [List.filter_eq_nil_iff]
        intro d hd
        rcases hAll d hd with ⟨block, -, hCovers⟩ | ⟨-, hFull⟩
        · exact ScriptBlock.not_isAt_of_covers hCovers
        · have hLength := length_text_le_of_prepare hPrepare
          omega
      · intro line column
        rw [Diagnostic.filter_isAt_sort, List.filter_append]

theorem lint_of_reordered_sharedLine :
    let linter : Linter := { settings := { indent := .absolute 2, reportBadIndent := true } }
    let report : Nat → Nat → String → Diagnostic := fun line column message => { line, column, message }
    let first := [report 2 1 "c", report 1 19 "b", report 1 5 "", report 1 1 "a", report 1 19 "b again"]
    let second := [report 1 1 "a", report 1 5 "", report 1 19 "b", report 1 19 "b again", report 2 1 "c"]
    let raw := Utf8.encode "<script>x</script><script>y\n z</script>"
    let out := [report 1 9 "a", report 1 27 "b", report 1 27 "b again", report 2 1 "c", BadIndent.reportAt 1]
    raw.length < wordLimit ∧ Diagnostic.Reordered first second ∧
      linter.lint (fun _ _ => first) raw "a.html" = .ok out ∧ linter.lint (fun _ _ => second) raw "a.html" = .ok out := by
  intro linter report first second raw out
  have hSize : raw.length < wordLimit := by decide +kernel
  have hSame : Diagnostic.Reordered first second := by
    intro line column
    simp only [first, second, report, Diagnostic.isAt, List.filter_cons, List.filter_nil]
    grind
  obtain ⟨prepared, hPrepare⟩ : ∃ prepared, linter.prepare raw "a.html" = .ok prepared := ⟨_, rfl⟩
  have hSecond : linter.lint (fun _ _ => second) raw "a.html" = .ok out := by
    have hFound : (linter.sources prepared "a.html").flatMap (found (fun _ _ => second) prepared.document) ++
        prepared.badIndent = out := by
      cases hPrepare
      decide +kernel
    have hSorted : out.Pairwise fun a b => a.le b = true := by decide
    rw [lint_of_lenient rfl hPrepare, if_pos rfl, hFound]
    exact congrArg Except.ok (List.mergeSort_of_pairwise hSorted)
  obtain ⟨_, hFirst, hOther, -⟩ := lint_of_reordered linter (fun _ _ => first) (fun _ _ => second)
    "<script>x</script><script>y\n z</script>" "a.html" hSize nofun rfl fun _ _ _ _ => hSame
  cases hOther.symm.trans hSecond
  exact ⟨hSize, hSame, hFirst, hSecond⟩

/-- One report on the first of two scripts on a line, and one just past the end of the second. -/
theorem lint_afterScript {script : Bytes} (h : script.IsFlat) (hPlain : (Document.afterScript script).IsPlain .html)
    (message message' : String) :
    ∃ prepared, Linter.prepare {} (Document.afterScript script).raw "a.html" = .ok prepared ∧
      prepared.blocks.map (·.span) = [⟨⟨0, 8⟩, ⟨0, 9⟩⟩, ⟨⟨0, 26⟩, ⟨0, wrapWord (26 + script.length)⟩⟩] ∧
      Linter.lint {} (fun _ _ => [{ line := 1, column := 1, message },
          { line := 1, column := 18 + script.length + 1, message := message' }])
        (Document.afterScript script).raw "a.html" =
        .ok (Diagnostic.sort [{ line := 1, column := 9, message },
          { line := 1, column := wrapWord (26 + script.length + 1), message := message' }]) := by
  obtain ⟨first, second, hScan, hFirst, hFirstSpan, rfl, hSecondSpan⟩ := Document.scan_afterScript h
  obtain ⟨hBlocks, -⟩ := Document.scan_arranged hPlain hScan
  have hHtml : Settings.markupMode {} "a.html" = .html := by decide
  have hPrepare := prepare_html {} hHtml hScan
  have hBreak : Byte.lineFeed ∉ first.text := by
    rw [hFirst]
    decide
  have hStart : first.start = ⟨0, 8⟩ := congrArg Span.start hFirstSpan
  have hNext : second.start = ⟨0, 26⟩ := congrArg Span.start hSecondSpan
  have hPosition {c : Nat} := Remapper.position_of_shared (c := c) hBlocks hStart hNext hBreak h.noBreak
    (Document.afterScript second.text).newline .auto
  have hHere := Remapper.diagnostic?_of_position (hPosition (.inl (Nat.zero_le _))) message
  have hThere := Remapper.diagnostic?_of_position (hPosition (c := 18 + second.text.length) (.inr (by omega))) message'
  rw [Nat.add_right_comm 18 second.text.length 8] at hThere
  refine ⟨_, hPrepare, ?_, ?_⟩
  · simp only [List.map_cons, List.map_nil, hFirstSpan, hSecondSpan]
  · refine (lint_of_lenient rfl hPrepare).trans (congrArg (fun found => Except.ok (Diagnostic.sort found)) ?_)
    change List.filterMap (Remapper.mk (Document.afterScript second.text) (VirtualSource.ofBlocks
      (Document.afterScript second.text).newline .auto [first, second])).diagnostic? [_, _] ++ [] ++ [] = _
    rw [List.filterMap_cons_some hHere, List.filterMap_cons_some hThere]
    rfl

/-- The last column that 32 bits can hold is counted as zero, and a report there stands before those on earlier blocks. -/
theorem lint_lastColumn :
    let report : Nat → String → Diagnostic := fun column message => { line := 1, column, message }
    let source := "<script>a</script><script>" ++ String.ofList (List.replicate (wordLimit - 27) 'a')
    let out := [report 0 "second", report 9 "first"]
    (Utf8.encode source).length < wordLimit ∧
      Linter.lint {} (fun _ _ => [report 1 "first", report (wordLimit - 8) "second"]) (Utf8.encode source) "a.html" =
        .ok out ∧
      ∃ prepared, Linter.prepare {} (Utf8.encode source) "a.html" = .ok prepared ∧
        prepared.blocks.map (·.span) = [⟨⟨0, 8⟩, ⟨0, 9⟩⟩, ⟨⟨0, 26⟩, ⟨0, wordLimit - 1⟩⟩] ∧
        out ≠ prepared.blocks.flatMap fun block => out.filter block.covers := by
  -- the text is too long to be looked at as a whole
  generalize hLetters : wordLimit - 27 = n
  intro report source out
  have hLimit : wordLimit = 4294967296 := rfl
  have hDocument : Document.afterScript (List.replicate n 0x61) = ⟨Utf8.encode source⟩ := Document.afterScript_replicate n
  have hScript : (List.replicate n (0x61 : UInt8)).length = n := List.length_replicate
  have hLength : (Utf8.encode source).length = 26 + n := by
    have hRaw := Document.length_afterScript (List.replicate n 0x61)
    rwa [hDocument, hScript] at hRaw
  have hSize : (Utf8.encode source).length < wordLimit := by omega
  have hPlain : (Document.mk (Utf8.encode source)).IsPlain .html := Document.isPlain_encode hSize nofun
  rw [← hDocument] at hPlain
  obtain ⟨prepared, hPrepare, hSpans, hLint⟩ := lint_afterScript (Bytes.isFlat_replicate n) hPlain "first" "second"
  rw [hDocument] at hPrepare hLint
  rw [hScript] at hSpans hLint
  have hEnd : wrapWord (26 + n) = wordLimit - 1 := by
    rw [wrapWord_of_lt] <;> omega
  have hColumn : 18 + n + 1 = wordLimit - 8 := by omega
  have hFull : 26 + n + 1 = wordLimit := by omega
  have hZero : wrapWord wordLimit = 0 := Nat.mod_self _
  rw [hEnd] at hSpans
  rw [hColumn, hFull, hZero] at hLint
  have hSame : Diagnostic.Reordered [report 9 "first", report 0 "second"] out := by
    intro line column
    simp only [out, report, Diagnostic.isAt, List.filter_cons, List.filter_nil]
    grind
  have hSorted : out.Pairwise fun a b => a.le b = true := by decide
  refine ⟨hSize, ?_, prepared, hPrepare, hSpans, ?_⟩
  · rw [hLint, Diagnostic.sort_eq_sort hSame]
    exact congrArg Except.ok (List.mergeSort_of_pairwise hSorted)
  · intro hOut
    have hMem : report 0 "second" ∈ out := List.mem_cons_self
    rw [hOut] at hMem
    obtain ⟨block, -, hCovers⟩ := List.mem_flatMap.mp hMem
    exact ScriptBlock.not_isAt_of_covers (List.mem_filter.mp hCovers).2 rfl

end Linter
end ScriptLint
