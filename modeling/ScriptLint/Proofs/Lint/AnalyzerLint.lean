import ScriptLint.Proofs.Lint.AnalyzerReports

/-!
# Linting with the text scans

Every report of every call has a place in the document, so linting loses none. The calls are on blocks that follow each
other, so their fixes are apart and can be applied together.
-/
namespace ScriptLint
set_option autoImplicit false

open Analyzers

namespace Linter

variable {linter : Linter} {analyzer : Analyzer} {filename : String} {source : Bytes} {p : Prepared}

theorem exists_parts (hPrepare : linter.prepare source filename = .ok p)
    (hBlocks : ScriptBlock.Arranged p.document p.blocks) :
    ∃ parts : List (String × List ScriptBlock),
      linter.sources p filename = parts.map (fun part =>
        (part.1, VirtualSource.ofBlocks p.document.newline linter.settings.indent part.2)) ∧
      (∀ part ∈ parts, part.2.Sublist p.blocks) ∧
      parts.Pairwise fun a b => ∀ block ∈ a.2, ∀ other ∈ b.2, block.content.stop < other.content.start := by
  obtain ⟨blocks, -, rfl⟩ := prepare_eq_ok hPrepare
  rw [sources]
  split
  · exact ⟨[], rfl, by simp, .nil⟩
  · cases linter.dispatch with
    | combined =>
      refine ⟨[(filename ++ ".js", blocks)], rfl, ?_, List.pairwise_singleton _ _⟩
      intro part hPart
      rw [List.mem_singleton.mp hPart]
    | perBlock =>
      refine ⟨(List.range blocks.length).map fun index =>
        (filename ++ "." ++ toString index ++ ".js", blocks[index]?.toList), ?_, ?_, ?_⟩
      · rw [List.map_map]
        apply List.map_congr_left
        intro index _
        simp only [Prepared.blockSource, VirtualSource.ofBlocks, List.getElem?_map, Function.comp_apply,
          Option.toList_map]
      · intro part hPart
        obtain ⟨index, -, rfl⟩ := List.mem_map.mp hPart
        cases hBlock : blocks[index]? with
        | none => exact List.nil_sublist _
        | some block => exact List.singleton_sublist.mpr (List.mem_of_getElem? hBlock)
      · refine List.pairwise_map.mpr (List.pairwise_lt_range.imp ?_)
        intro i j hij block hBlock other hOther
        obtain ⟨hi, rfl⟩ := List.getElem?_eq_some_iff.mp (Option.mem_toList.mp hBlock)
        obtain ⟨hj, rfl⟩ := List.getElem?_eq_some_iff.mp (Option.mem_toList.mp hOther)
        exact (List.pairwise_iff_getElem.mp hBlocks.inOrder i j hi hj hij).1

/-- When every report has a place in the document, linting gives what all of them are mapped to. -/
theorem lint_of_remaps {P : Diagnostic → Prop} (hPrepare : linter.prepare source filename = .ok p)
    (h : ∀ call ∈ linter.sources p filename, ∀ given ∈ analyzer call.2.text call.1,
      ∃ d, (Remapper.mk p.document call.2).diagnostic? given = some d ∧ P d) :
    let reported := (linter.sources p filename).flatMap (found analyzer p.document)
    let out := Diagnostic.sort (reported ++ if linter.settings.reportBadIndent then p.badIndent else [])
    linter.lint analyzer source filename = .ok out ∧
      ∀ d ∈ out, P d ∨ d.ruleId = some BadIndent.ruleId ∧ d.fix = none := by
  constructor
  · refine lint_eq_ok hPrepare (report_eq_ok ?_)
    intro _ call hCall given hGiven
    obtain ⟨d, hReport, -⟩ := h call hCall given hGiven
    exact Option.isSome_iff_exists.mpr ⟨d, hReport⟩
  · intro d hd
    rcases List.mem_append.mp ((List.mergeSort_perm _ _).mem_iff.mp hd) with hFound | hIndent
    · obtain ⟨call, hCall, hFound⟩ := List.mem_flatMap.mp hFound
      obtain ⟨given, hGiven, hReport⟩ := List.mem_filterMap.mp hFound
      obtain ⟨_, hSame, hd⟩ := h call hCall given hGiven
      cases hReport.symm.trans hSame
      exact .inl hd
    · split at hIndent
      · obtain ⟨entry, -, hCheck⟩ := List.mem_flatMap.mp hIndent
        obtain ⟨line, -, rfl⟩ := List.mem_map.mp hCheck
        exact .inr ⟨rfl, rfl⟩
      · cases hIndent

/-- A document that is ready for its calls: the scripts are in place, and show what the document has there. -/
structure Readied (linter : Linter) (source : Bytes) (filename : String) (p : Prepared) : Prop where
  prepare : linter.prepare source filename = .ok p
  arranged : ScriptBlock.Arranged p.document p.blocks
  isText : Utf8.IsText p.document.raw
  copies : ∀ block ∈ p.blocks, block.Copies p.document

namespace Readied

theorem exists_part (h : linter.Readied source filename p) {call : String × VirtualSource}
    (hCall : call ∈ linter.sources p filename) :
    ∃ part, part ⊆ p.blocks ∧ ScriptBlock.Arranged p.document part ∧ (∀ block ∈ part, block.Copies p.document) ∧
      call.2 = VirtualSource.ofBlocks p.document.newline linter.settings.indent part := by
  obtain ⟨part, hPart, hSource⟩ := exists_ofBlocks_of_mem_sources h.prepare hCall
  exact ⟨part, hPart.subset, h.arranged.sublist hPart, fun block hBlock => h.copies block (hPart.subset hBlock), hSource⟩

theorem diagnostic?_of_console (h : linter.Readied source filename p) {call : String × VirtualSource}
    (hCall : call ∈ linter.sources p filename) {given : Diagnostic} (hGiven : given ∈ console call.2.text call.1) :
    ∃ d, (Remapper.mk p.document call.2).diagnostic? given = some d ∧
      (d.ruleId = some "no-console" → p.document.CoversConsole d) := by
  obtain ⟨part, -, hPart, hCopies, hSource⟩ := h.exists_part hCall
  rw [hSource] at hGiven ⊢
  exact Remapper.diagnostic?_of_console hPart (Newline.isText_normalize h.isText) hCopies _ hGiven

theorem diagnostic?_of_extraSemicolon (h : linter.Readied source filename p) {call : String × VirtualSource}
    (hCall : call ∈ linter.sources p filename) {given : Diagnostic} (hGiven : given ∈ extraSemicolon call.2.text call.1) :
    ∃ d, (Remapper.mk p.document call.2).diagnostic? given = some d ∧ d.ruleId = some "no-extra-semi" ∧
      ∃ a, d.fix = some (Fix.delete a (a + 1)) ∧ ∃ block ∈ p.blocks, block.DoublesSemicolon p.document a := by
  obtain ⟨part, hSubset, hPart, hCopies, hSource⟩ := h.exists_part hCall
  rw [hSource, extraSemicolon_eq] at hGiven
  rw [hSource]
  obtain ⟨⟨line, c⟩, hSpot, rfl⟩ := List.mem_map.mp hGiven
  obtain ⟨d, a, hReport, hRule, hFix, -, block, hBlock, hDoubles⟩ :=
    Remapper.diagnostic?_of_semicolon hPart hCopies hSpot
  exact ⟨d, hReport, hRule, a, hFix, block, hSubset hBlock, hDoubles⟩

theorem diagnostic?_of_leadingBlank (h : linter.Readied source filename p) {call : String × VirtualSource}
    (hCall : call ∈ linter.sources p filename) {given : Diagnostic} (hGiven : given ∈ leadingBlank call.2.text call.1) :
    ∃ d, (Remapper.mk p.document call.2).diagnostic? given = some d := by
  obtain ⟨part, -, hPart, -, hSource⟩ := h.exists_part hCall
  rw [hSource] at hGiven ⊢
  exact Remapper.diagnostic?_of_leadingBlank hPart _ hGiven

theorem pairwise_semicolonFixes (h : linter.Readied source filename p) :
    ((linter.sources p filename).flatMap (semicolonFixes p.document)).Pairwise fun a b =>
      a.range.stop ≤ b.range.start := by
  obtain ⟨parts, hSources, hSublist, hOrder⟩ := exists_parts h.prepare h.arranged
  have hArranged : ∀ part ∈ parts, ScriptBlock.Arranged p.document part.2 := fun part hPart =>
    h.arranged.sublist (hSublist part hPart)
  have hCopies : ∀ part ∈ parts, ∀ block ∈ part.2, block.Copies p.document := fun part hPart block hBlock =>
    h.copies block ((hSublist part hPart).subset hBlock)
  rw [hSources, List.flatMap_map, List.pairwise_flatMap]
  constructor
  · intro part hPart
    exact Linter.pairwise_semicolonFixes (hArranged part hPart) (hCopies part hPart) part.1
  · refine hOrder.imp_of_mem ?_
    intro part part' hPart hPart' hApart fix hFix fix' hFix'
    obtain ⟨a, rfl, block, hBlock, hDoubles⟩ :=
      exists_of_mem_semicolonFixes (hArranged part hPart) (hCopies part hPart) part.1 hFix
    obtain ⟨a', rfl, block', hBlock', hDoubles'⟩ :=
      exists_of_mem_semicolonFixes (hArranged part' hPart') (hCopies part' hPart') part'.1 hFix'
    have hPlaced := (hArranged part hPart).isPlaced block hBlock
    have hPlaced' := (hArranged part' hPart').isPlaced block' hBlock'
    have hContent := hApart block hBlock block' hBlock'
    have hLength := hPlaced'.stop_le_length
    have hForward := hPlaced'.start_le_stop
    have hLe : block.endOffset ≤ block'.offset := by
      rw [hPlaced.endOffset_eq, hPlaced'.offset_eq,
        Document.toRawOffset_le_iff h.arranged.isSmall (by omega) (by omega)]
      omega
    have hStop := hDoubles.lt_endOffset
    have hStart := hDoubles'.offset_lt
    change a + 1 ≤ a'
    omega

theorem lint_console (h : linter.Readied source filename p) :
    ∃ out, linter.lint console source filename = .ok out ∧
      ∀ d ∈ out, d.ruleId = some "no-console" → p.document.CoversConsole d := by
  obtain ⟨hLint, hOut⟩ := lint_of_remaps h.prepare fun _ hCall _ hGiven => h.diagnostic?_of_console hCall hGiven
  refine ⟨_, hLint, ?_⟩
  intro d hd hRule
  rcases hOut d hd with hCovers | ⟨hIndent, -⟩
  · exact hCovers hRule
  · exact absurd (hRule.symm.trans hIndent) (by decide)

theorem lint_leadingBlank (h : linter.Readied source filename p) :
    ∃ out, linter.lint leadingBlank source filename = .ok out := by
  have hPlace : ∀ call ∈ linter.sources p filename, ∀ given ∈ leadingBlank call.2.text call.1,
      ∃ d, (Remapper.mk p.document call.2).diagnostic? given = some d ∧ True := by
    intro call hCall given hGiven
    obtain ⟨d, hReport⟩ := h.diagnostic?_of_leadingBlank hCall hGiven
    exact ⟨d, hReport, trivial⟩
  exact ⟨_, (lint_of_remaps h.prepare hPlace).1⟩

theorem lint_extraSemicolon (h : linter.Readied source filename p) :
    ∃ out, linter.lint extraSemicolon source filename = .ok out ∧
      (∀ d ∈ out, d.ruleId = some "no-extra-semi" → ∃ a, d.fix = some (Fix.delete a (a + 1)) ∧
        ∃ block ∈ p.blocks, block.DoublesSemicolon p.document a) ∧
      (∀ d ∈ out, d.ruleId ≠ some "no-extra-semi" → d.fix = none) ∧
      (out.filterMap (·.fix)).Pairwise Fix.Apart := by
  obtain ⟨hLint, hOut⟩ := lint_of_remaps h.prepare fun _ hCall _ hGiven => h.diagnostic?_of_extraSemicolon hCall hGiven
  refine ⟨_, hLint, ?_, ?_, ?_⟩
  · intro d hd hRule
    rcases hOut d hd with ⟨-, hFix⟩ | ⟨hIndent, -⟩
    · exact hFix
    · exact absurd (hRule.symm.trans hIndent) (by decide)
  · intro d hd hRule
    rcases hOut d hd with ⟨hOther, -⟩ | ⟨-, hFix⟩
    · exact absurd hOther hRule
    · exact hFix
  · have hIndent : (if linter.settings.reportBadIndent then p.badIndent else []).filterMap (·.fix) = [] := by
      split
      · exact List.filterMap_eq_nil_iff.mpr fun d hd => fix_of_mem_badIndent hd
      · rfl
    have hPerm := (List.mergeSort_perm ((linter.sources p filename).flatMap (found extraSemicolon p.document) ++
      if linter.settings.reportBadIndent then p.badIndent else []) Diagnostic.le).filterMap (·.fix)
    rw [List.filterMap_append, hIndent, List.append_nil, List.filterMap_flatMap] at hPerm
    exact hPerm.symm.pairwise (h.pairwise_semicolonFixes.imp .inl) fun hApart => hApart.symm

end Readied

theorem readied_of_scan {text : String} {blocks : List ScriptBlock} (hSize : (Utf8.encode text).length < wordLimit)
    (hMark : (linter.scanOptions filename).mode = .xml → ¬Xml.byteOrderMark <+: (Document.mk (Utf8.encode text)).text)
    (hScan : (Document.mk (Utf8.encode text)).scan (linter.scanOptions filename) = .ok blocks) :
    linter.Readied (Utf8.encode text) filename ⟨⟨Utf8.encode text⟩, (linter.scanOptions filename).mode, blocks,
      blocks.map fun block => IndentPlan.ofBlock block linter.settings.indent⟩ := by
  have hPlain := Document.isPlain_encode hSize hMark
  constructor
  · simp only [prepare, hScan]
  · exact (Document.scan_arranged hPlain hScan).1
  · exact hPlain.isText
  · exact fun block hBlock => Document.copies_of_scan hPlain hScan hBlock

theorem fixed?_of_semicolons {document : Document} {blocks : List ScriptBlock} {out : List Diagnostic}
    (hText : Utf8.IsText document.raw)
    (hFixes : ∀ d ∈ out, d.ruleId = some "no-extra-semi" → ∃ a, d.fix = some (Fix.delete a (a + 1)) ∧
      ∃ block ∈ blocks, block.DoublesSemicolon document a)
    (hOthers : ∀ d ∈ out, d.ruleId ≠ some "no-extra-semi" → d.fix = none)
    (hApart : (out.filterMap (·.fix)).Pairwise Fix.Apart) :
    ∃ fixed, fixed? document.raw out = some fixed ∧
      fixed.length + (out.filter (·.ruleId == some "no-extra-semi")).length = document.raw.length := by
  have hFix : ∀ fix ∈ out.filterMap (·.fix), ∃ a, fix = Fix.delete a (a + 1) ∧ (Fix.delete a (a + 1)).Fits document.raw := by
    intro fix hMem
    obtain ⟨d, hd, hSome⟩ := List.mem_filterMap.mp hMem
    by_cases hRule : d.ruleId = some "no-extra-semi"
    · obtain ⟨a, hDelete, block, -, hDoubles⟩ := hFixes d hd hRule
      cases hSome.symm.trans hDelete
      exact ⟨a, rfl, hDoubles.fits hText⟩
    · cases hSome.symm.trans (hOthers d hd hRule)
  have hCount : (out.filterMap (·.fix)).length = (out.filter (·.ruleId == some "no-extra-semi")).length := by
    rw [List.length_filterMap_eq_countP, ← List.countP_eq_length_filter]
    apply List.countP_congr
    intro d hd
    rw [beq_iff_eq]
    constructor
    · intro hSome
      apply Decidable.byContradiction
      intro hRule
      rw [hOthers d hd hRule] at hSome
      cases hSome
    · intro hRule
      obtain ⟨a, hDelete, -⟩ := hFixes d hd hRule
      rw [hDelete]
      rfl
  obtain ⟨fixed, hFixed, hLength⟩ := Fix.applyAll_of_deletions hText
    (fun fix hMem => by obtain ⟨a, rfl, hFits⟩ := hFix fix hMem; exact hFits) hApart
    (fun fix hMem => by obtain ⟨a, rfl, -⟩ := hFix fix hMem; exact ⟨a, rfl⟩)
  exact ⟨fixed, hFixed, hCount ▸ hLength⟩

/-- Linting with a text scan never meets a report without a place in the document. The reports cover the same words there
as in the text that was scanned, and their fixes can be applied together. -/
theorem text_scans_remap_exactly (settings : Settings) (dispatch : Dispatch) (source filename : String)
    {blocks : List ScriptBlock} (hSize : (Utf8.encode source).length < wordLimit)
    (hMark : settings.markupMode filename = .xml → ¬Xml.byteOrderMark <+: (Document.mk (Utf8.encode source)).text)
    (hScan : (Document.mk (Utf8.encode source)).scan ⟨settings.markupMode filename, settings.mediaTypes⟩ = .ok blocks) :
    let linter : Linter := ⟨settings, dispatch, true⟩
    let document : Document := ⟨Utf8.encode source⟩
    (∃ out, linter.lint console document.raw filename = .ok out ∧
      ∀ d ∈ out, d.ruleId = some "no-console" → document.CoversConsole d) ∧
    (∃ out, linter.lint extraSemicolon document.raw filename = .ok out ∧
      (∀ d ∈ out, d.ruleId = some "no-extra-semi" → ∃ a, d.fix = some (Fix.delete a (a + 1)) ∧
        ∃ block ∈ blocks, block.DoublesSemicolon document a) ∧
      ∃ fixed, fixed? document.raw out = some fixed ∧
        fixed.length + (out.filter (·.ruleId == some "no-extra-semi")).length = document.raw.length) ∧
    ∃ out, linter.lint leadingBlank document.raw filename = .ok out := by
  intro linter document
  have hReadied : linter.Readied document.raw filename _ := readied_of_scan hSize hMark hScan
  obtain ⟨out, hLint, hFixes, hOthers, hApart⟩ := hReadied.lint_extraSemicolon
  refine ⟨hReadied.lint_console, ⟨out, hLint, hFixes, ?_⟩, hReadied.lint_leadingBlank⟩
  exact fixed?_of_semicolons hReadied.isText hFixes hOthers hApart

theorem text_scans_remap_exactly_sharedLine :
    let document : Document :=
      ⟨Utf8.encode "<p><script>\r\n  a();;\r\n    console.log()</script><script>é;;;;</script>"⟩
    let linter : Linter := ⟨{}, .perBlock, true⟩
    (∃ out, linter.lint console document.raw "a.html" = .ok out ∧ out.length = 1 ∧
      ∀ d ∈ out, d.ruleId = some "no-console" → document.CoversConsole d) ∧
    ∃ out fixed, linter.lint extraSemicolon document.raw "a.html" = .ok out ∧ out.length = 3 ∧
      fixed? document.raw out = some fixed ∧
      fixed.length + (out.filter (·.ruleId == some "no-extra-semi")).length = document.raw.length := by
  intro document linter
  obtain ⟨blocks, hScan⟩ : ∃ blocks, document.scan {} = .ok blocks := ⟨_, rfl⟩
  obtain ⟨⟨out, hLint, hCovers⟩, ⟨out', hLint', -, fixed, hFixed, hLength⟩, -⟩ :=
    text_scans_remap_exactly {} .perBlock _ "a.html" (by decide +kernel) nofun hScan
  obtain ⟨p, hPrepare⟩ : ∃ p, linter.prepare document.raw "a.html" = .ok p := ⟨_, rfl⟩
  have hCount : ∀ {analyzer out}, linter.lint analyzer document.raw "a.html" = .ok out →
      (linter.report analyzer p.document (linter.sources p "a.html")).toOption.map List.length = some out.length := by
    intro analyzer out hOut
    simp only [lint, hPrepare] at hOut
    split at hOut
    · cases hOut
    · rename_i reported hReported
      cases hOut
      rw [hReported, Diagnostic.sort, List.length_mergeSort]
      exact congrArg some (congrArg List.length (List.append_nil reported).symm)
  have hOne : out.length = 1 := by
    apply Option.some.inj
    rw [← hCount hLint]
    cases hPrepare
    decide +kernel
  have hThree : out'.length = 3 := by
    apply Option.some.inj
    rw [← hCount hLint']
    cases hPrepare
    decide +kernel
  exact ⟨⟨out, hLint, hOne, hCovers⟩, out', fixed, hLint', hThree, hFixed, hLength⟩

end Linter
end ScriptLint
