import ScriptLint.Lint.Linter
import ScriptLint.Proofs.Diagnostic.Fix
import ScriptLint.Proofs.Lint.Range

/-!
# Fixes stay inside scripts

Whatever an analyzer reports, a fix that linting returns lies in the content of one script, so markup is never edited. In
HTML a fix that cuts no character of the virtual text cuts none of the document, and can be applied.
-/
namespace ScriptLint
set_option autoImplicit false

namespace Run

variable {document : Document} {n : Nat} {run : Run}

/-- No character of a script straddles a column in the indentation that a line loses. -/
theorem IsPlaced.isBoundary_of_le_lost (h : run.IsPlaced document n) {o x : Nat}
    (hPlace : run.block.text.place o = ⟨n - run.block.start.line, x⟩) (ho : o ≤ run.block.text.length)
    (hx : x ≤ run.lost.length) : Utf8.isBoundary run.block.text o = true := by
  cases o with
  | zero => rfl
  | succ o =>
    have hByte := List.getElem?_eq_getElem (l := run.block.text) (i := o) ho
    refine h.block.isText.isBoundary_succ hByte ?_
    by_cases hFeed : run.block.text[o] = Byte.lineFeed
    · rw [hFeed]
      decide
    · -- the byte before is on the same line, in the lost indentation
      have hStep := Bytes.place_succ hByte
      rw [hPlace, Position.step, if_neg hFeed] at hStep
      obtain ⟨hLine, hColumn⟩ := Position.mk.inj hStep
      have hBefore : run.block.text.place o = ⟨n - run.block.start.line, x - 1⟩ := by
        rw [hLine, hColumn]
        rfl
      have hLost := (Bytes.getElem?_eq_some_iff_of_place h.text hBefore hFeed).mp hByte
      rw [List.getElem?_append_left (by omega)] at hLost
      have hBlank := h.blank _ (List.mem_of_getElem? hLost)
      simp only [Byte.isSpaceOrTab, Bool.or_eq_true, beq_iff_eq] at hBlank
      rcases hBlank with hBlank | hBlank <;> rw [hBlank] <;> decide

variable {blocks : List ScriptBlock} {indent : Indent} {p q e : Position} {o s : Nat}

/-- Where a range ends between characters of the virtual text, it ends between characters of the script. -/
theorem Edge.isBoundary (hBlocks : ScriptBlock.Arranged document blocks) {newline : Newline}
    (hEdge : run.Edge document indent blocks p q e o)
    (he : (VirtualSource.ofBlocks newline indent blocks).text.place s = e)
    (hBoundary : Utf8.isBoundary (VirtualSource.ofBlocks newline indent blocks).text s = true) :
    Utf8.isBoundary run.block.text o = true := by
  obtain ⟨-, hPlaced⟩ := VirtualSource.isPlaced_of_mem_runs hBlocks hEdge.mem
  by_cases hx : run.edgeColumn indent blocks p q e - run.lineStart ≤ run.lost.length
  · exact hPlaced.isBoundary_of_le_lost hEdge.script hEdge.le_length hx
  · have hWhole : ¬(p.character = 0 ∧ q.character = 0) := by
      intro hWhole
      rw [edgeColumn_sub_of_whole hWhole] at hx
      exact hx (Nat.zero_le _)
    have hScript := hEdge.script
    rw [edgeColumn_sub hWhole hEdge.start_le] at hx hScript
    have hShift := (VirtualSource.line_shows hBlocks newline indent e.line).shift_le hEdge.mem
    have ho : 0 < o := by
      apply Nat.pos_of_ne_zero
      rintro rfl
      have hZero : 0 = _ := (Position.mk.inj hScript).2
      omega
    have hs : 0 < s := by
      apply Nat.pos_of_ne_zero
      rintro rfl
      have hZero : e.character = 0 := by rw [← he, Bytes.place_zero]
      omega
    rw [Utf8.isBoundary_iff ho]
    refine ⟨hEdge.le_length, ?_⟩
    intro b hb
    by_cases hFeed : b = Byte.lineFeed
    · rw [hFeed]
      decide
    · have hContent := (Bytes.getElem?_eq_some_iff_of_place hPlaced.text hScript hFeed).mp hb
      rw [List.getElem?_append_right (Nat.le_add_right _ _), Nat.add_sub_cancel_left] at hContent
      have hLine : ((VirtualSource.ofBlocks newline indent blocks).line e.line).text[e.character]? = some b :=
        VirtualSource.line_getElem?_of_run hBlocks hEdge.mem hEdge.start_le hContent
      exact ((Utf8.isBoundary_iff hs).mp hBoundary).2 b (VirtualSource.text_getElem?_of_line hBlocks he hLine)

end Run

namespace Remapper

variable {document : Document} {blocks : List ScriptBlock} {indent : Indent}

theorem range_inside (hBlocks : ScriptBlock.Arranged document blocks) {range mapped : OffsetRange}
    (h : (Remapper.mk document (VirtualSource.ofBlocks document.newline indent blocks)).range range = .ok mapped) :
    ∃ block ∈ blocks, block.offset ≤ mapped.start ∧ mapped.start ≤ mapped.stop ∧ mapped.stop ≤ block.endOffset ∧
      block.endOffset ≤ document.raw.length := by
  obtain ⟨first, last, i, j, hBlock, hij, hEdge, hEdge', rfl⟩ := range_ofBlocks hBlocks h rfl rfl
  obtain ⟨hMem, hPlaced⟩ := VirtualSource.isPlaced_of_mem_runs hBlocks hEdge.mem
  have hPlaced := hPlaced.block
  have hj : j ≤ first.block.text.length := hBlock ▸ hEdge'.le_length
  have hLength := hPlaced.content_start_add_length
  have hStop := hPlaced.stop_le_length
  have hLe : ∀ {o o'}, o ≤ o' → o' ≤ document.text.length → document.toRawOffset o ≤ document.toRawOffset o' :=
    fun hLe ho' => (Document.toRawOffset_le_iff hBlocks.isSmall (Nat.le_trans hLe ho') ho').mpr hLe
  refine ⟨first.block, hMem, ?_, hLe (by omega) (by omega), ?_, ?_⟩
  · rw [hPlaced.offset_eq]
    exact hLe (by omega) (by omega)
  · rw [hPlaced.endOffset_eq]
    exact hLe (by omega) (by omega)
  · rw [hPlaced.endOffset_eq]
    exact (Document.cut_toRawOffset hBlocks.isSmall hStop).le_length

theorem range_isBoundary (hBlocks : ScriptBlock.Arranged document blocks) (hText : Utf8.IsText document.raw)
    (hHtml : ∀ block ∈ blocks, block.mode = .html) {range mapped : OffsetRange}
    (h : (Remapper.mk document (VirtualSource.ofBlocks document.newline indent blocks)).range range = .ok mapped)
    (hStart : Utf8.isBoundary (VirtualSource.ofBlocks document.newline indent blocks).text range.start = true)
    (hStop : Utf8.isBoundary (VirtualSource.ofBlocks document.newline indent blocks).text range.stop = true) :
    Utf8.isBoundary document.raw mapped.start = true ∧ Utf8.isBoundary document.raw mapped.stop = true := by
  have hScanned : Utf8.IsText document.text := Newline.isText_normalize hText
  have hBoundary : ∀ {p q e run o s}, Run.Edge document indent blocks p q e run o →
      (VirtualSource.ofBlocks document.newline indent blocks).text.place s = e →
      Utf8.isBoundary (VirtualSource.ofBlocks document.newline indent blocks).text s = true →
      Utf8.isBoundary document.raw (document.toRawOffset (run.block.content.start + o)) = true := by
    intro p q e run o s hEdge he hs
    obtain ⟨hMem, hPlaced⟩ := VirtualSource.isPlaced_of_mem_runs hBlocks hEdge.mem
    apply Document.isBoundary_toRawOffset hBlocks.isSmall
    exact hPlaced.block.isBoundary_add hScanned (hHtml _ hMem) (hEdge.isBoundary hBlocks he hs)
  obtain ⟨first, last, i, j, hBlock, -, hEdge, hEdge', rfl⟩ := range_ofBlocks hBlocks h rfl rfl
  refine ⟨hBoundary hEdge (place_ofBlocks hBlocks (Utf8.isBoundary_le hStart)).symm hStart, ?_⟩
  rw [← hBlock]
  exact hBoundary hEdge' (place_ofBlocks hBlocks (Utf8.isBoundary_le hStop)).symm hStop

end Remapper

namespace Linter

variable {linter : Linter} {analyzer : Analyzer} {filename : String}

/-- A fix in terms of the document, with the call and the fix of the analyzer that it comes from. -/
structure Origin (linter : Linter) (analyzer : Analyzer) (p : Prepared) (filename : String)
    (call : String × VirtualSource) (given fix : Fix) : Prop where
  mem : call ∈ linter.sources p filename
  reported : ∃ d ∈ analyzer call.2.text call.1, d.fix = some given
  mapped : (Remapper.mk p.document call.2).fix? given = some fix

theorem exists_of_mem_remapAll {strict : Bool} {r : Remapper} {reported out : List Diagnostic} {d : Diagnostic}
    (h : remapAll strict r reported = .ok out) (hd : d ∈ out) : ∃ given ∈ reported, r.diagnostic given = .ok d := by
  induction reported generalizing out with
  | nil =>
    cases h
    cases hd
  | cons first more ih =>
    have hLater : ∀ {later}, remapAll strict r more = .ok later → d ∈ later →
        ∃ given ∈ first :: more, r.diagnostic given = .ok d := by
      intro later hMore hMem
      obtain ⟨given, hGiven, hDiagnostic⟩ := ih hMore hMem
      exact ⟨given, List.mem_cons_of_mem _ hGiven, hDiagnostic⟩
    rw [remapAll] at h
    split at h
    · rename_i remapped hFirst
      obtain ⟨later, hMore, rfl⟩ := map_eq_ok h
      rcases List.mem_cons.mp hd with rfl | hd
      · exact ⟨first, List.mem_cons_self, hFirst⟩
      · exact hLater hMore hd
    · split at h
      · cases h
      · exact hLater h hd

theorem exists_of_mem_report {document : Document} {calls : List (String × VirtualSource)} {out : List Diagnostic}
    {d : Diagnostic} (h : linter.report analyzer document calls = .ok out) (hd : d ∈ out) :
    ∃ call ∈ calls, ∃ given ∈ analyzer call.2.text call.1, (Remapper.mk document call.2).diagnostic given = .ok d := by
  induction calls generalizing out with
  | nil =>
    cases h
    cases hd
  | cons call more ih =>
    rw [report] at h
    split at h
    · cases h
    · rename_i found hFound
      obtain ⟨later, hMore, rfl⟩ := map_eq_ok h
      rcases List.mem_append.mp hd with hd | hd
      · exact ⟨call, List.mem_cons_self, exists_of_mem_remapAll hFound hd⟩
      · obtain ⟨other, hOther, hGiven⟩ := ih hMore hd
        exact ⟨other, List.mem_cons_of_mem _ hOther, hGiven⟩

theorem prepare_eq_ok {source : Bytes} {p : Prepared} (h : linter.prepare source filename = .ok p) :
    ∃ blocks, (Document.mk source).scan (linter.scanOptions filename) = .ok blocks ∧
      p = ⟨⟨source⟩, (linter.scanOptions filename).mode, blocks,
        blocks.map fun block => IndentPlan.ofBlock block linter.settings.indent⟩ := by
  rw [prepare] at h
  split at h
  · cases h
  · rename_i blocks hScan
    cases h
    exact ⟨blocks, hScan, rfl⟩

theorem arranged_of_prepare {source : String} {p : Prepared} (hSize : (Utf8.encode source).length < wordLimit)
    (hMark : (linter.scanOptions filename).mode = .xml →
      ¬Xml.byteOrderMark <+: (Document.mk (Utf8.encode source)).text)
    (h : linter.prepare (Utf8.encode source) filename = .ok p) : ScriptBlock.Arranged p.document p.blocks := by
  obtain ⟨blocks, hScan, rfl⟩ := prepare_eq_ok h
  exact (Document.scan_arranged (Document.isPlain_encode hSize hMark) hScan).1

theorem fix_of_prepare_eq_error {source : Bytes} {d : Diagnostic} (h : linter.prepare source filename = .error d) :
    d.fix = none := by
  rw [prepare] at h
  split at h
  · cases h
    rfl
  · cases h

theorem fix_of_mem_badIndent {p : Prepared} {d : Diagnostic} (h : d ∈ p.badIndent) : d.fix = none := by
  obtain ⟨entry, -, hCheck⟩ := List.mem_flatMap.mp h
  obtain ⟨line, -, rfl⟩ := List.mem_map.mp hCheck
  rfl

theorem exists_ofBlocks_of_mem_sources {source : Bytes} {p : Prepared} {call : String × VirtualSource}
    (hPrepare : linter.prepare source filename = .ok p) (hCall : call ∈ linter.sources p filename) :
    ∃ part, part.Sublist p.blocks ∧
      call.2 = VirtualSource.ofBlocks p.document.newline linter.settings.indent part := by
  obtain ⟨blocks, -, rfl⟩ := prepare_eq_ok hPrepare
  rw [sources] at hCall
  split at hCall
  · cases hCall
  · split at hCall
    · rw [List.mem_singleton.mp hCall]
      exact ⟨blocks, List.Sublist.refl _, rfl⟩
    · obtain ⟨index, hIndex, rfl⟩ := List.mem_map.mp hCall
      obtain ⟨block, hBlock⟩ : ∃ block, blocks[index]? = some block :=
        ⟨_, List.getElem?_eq_getElem (List.mem_range.mp hIndex)⟩
      refine ⟨[block], List.singleton_sublist.mpr (List.mem_of_getElem? hBlock), ?_⟩
      simp only [Prepared.blockSource, VirtualSource.ofBlocks, List.getElem?_map, hBlock, Option.map_some,
        Option.toList_some, List.map_cons, List.map_nil]

theorem exists_origin {source : Bytes} {out : List Diagnostic} {d : Diagnostic} {fix : Fix}
    (h : linter.lint analyzer source filename = .ok out) (hd : d ∈ out) (hFix : d.fix = some fix) :
    ∃ p, linter.prepare source filename = .ok p ∧ ∃ call given, linter.Origin analyzer p filename call given fix := by
  rw [lint] at h
  split at h
  · rename_i report hPrepare
    cases h
    rw [List.mem_singleton.mp hd, fix_of_prepare_eq_error hPrepare] at hFix
    cases hFix
  · rename_i p hPrepare
    split at h
    · cases h
    · rename_i found hFound
      cases h
      refine ⟨p, hPrepare, ?_⟩
      rcases List.mem_append.mp ((List.mergeSort_perm _ _).mem_iff.mp hd) with hd | hd
      · obtain ⟨call, hCall, reported, hReported, hDiagnostic⟩ := exists_of_mem_report hFound hd
        rw [Remapper.fix_of_diagnostic_eq_ok hDiagnostic] at hFix
        obtain ⟨given, hGiven, hMapped⟩ := Option.bind_eq_some_iff.mp hFix
        exact ⟨call, given, hCall, ⟨reported, hReported, hGiven⟩, hMapped⟩
      · split at hd
        · rw [fix_of_mem_badIndent hd] at hFix
          cases hFix
        · cases hd

/-- A fix that linting returns lies in one script and changes nothing outside it. In HTML it can be applied if the
analyzer cut no character. -/
theorem fixes_stay_in_scripts (linter : Linter) (analyzer : Analyzer) (source filename : String) {out : List Diagnostic}
    (hSize : (Utf8.encode source).length < wordLimit)
    (hMark : (linter.scanOptions filename).mode = .xml →
      ¬Xml.byteOrderMark <+: (Document.mk (Utf8.encode source)).text)
    (hLint : linter.lint analyzer (Utf8.encode source) filename = .ok out) :
    let raw := Utf8.encode source
    ∀ d ∈ out, ∀ fix, d.fix = some fix → ∃ p, linter.prepare raw filename = .ok p ∧
      (∃ block ∈ p.blocks, block.offset ≤ fix.range.start ∧ fix.range.start ≤ fix.range.stop ∧
        fix.range.stop ≤ block.endOffset ∧
        ∀ fixed, fix.apply raw = some fixed →
          ∃ middle, fixed = raw.take block.offset ++ middle ++ raw.drop block.endOffset) ∧
      (∃ call given, linter.Origin analyzer p filename call given fix) ∧
      (p.mode = .html → ∀ call given, linter.Origin analyzer p filename call given fix →
        Utf8.isBoundary call.2.text given.range.start = true → Utf8.isBoundary call.2.text given.range.stop = true →
        (fix.apply raw).isSome = true) := by
  intro raw d hd fix hFix
  obtain ⟨p, hPrepare, call, given, hOrigin⟩ := exists_origin hLint hd hFix
  have hPlain : (Document.mk raw).IsPlain (linter.scanOptions filename).mode := Document.isPlain_encode hSize hMark
  obtain ⟨blocks, hScan, rfl⟩ := prepare_eq_ok hPrepare
  obtain ⟨hBlocks, hMode⟩ := Document.scan_arranged hPlain hScan
  refine ⟨_, hPrepare, ?_, ⟨call, given, hOrigin⟩, ?_⟩
  · obtain ⟨part, hPart, hSource⟩ := exists_ofBlocks_of_mem_sources hPrepare hOrigin.mem
    have hMapped := (Remapper.fix?_eq_some hOrigin.mapped).1
    rw [hSource] at hMapped
    obtain ⟨block, hBlock, hStart, hForward, hStop, hLength⟩ := Remapper.range_inside (hBlocks.sublist hPart) hMapped
    refine ⟨block, hPart.subset hBlock, hStart, hForward, hStop, ?_⟩
    intro fixed hFixed
    exact Fix.exists_middle_of_apply_eq_some hStart hStop hFixed
  · intro hHtml other given' hOther hGivenStart hGivenStop
    obtain ⟨part, hPart, hSource⟩ := exists_ofBlocks_of_mem_sources hPrepare hOther.mem
    obtain ⟨hMapped, hForward⟩ := Remapper.fix?_eq_some hOther.mapped
    rw [hSource] at hMapped hGivenStart hGivenStop
    obtain ⟨hRawStart, hRawStop⟩ := Remapper.range_isBoundary (hBlocks.sublist hPart) hPlain.isText
      (fun block hBlock => (hMode block (hPart.subset hBlock)).trans hHtml) hMapped hGivenStart hGivenStop
    rw [Fix.apply_eq_splice?]
    exact Fix.isSome_splice? hForward (Utf8.isBoundary_le hRawStop) hRawStart hRawStop

theorem fixes_stay_in_scripts_indented :
    let linter : Linter := { dispatch := .perBlock }
    let report : Diagnostic := { line := 2, column := 1, message := "", fix := some (Fix.delete 2 4) }
    let analyzer : Analyzer := fun _ _ => [report]
    let raw := Utf8.encode "é<script>\r\n  é;\r\n</script>"
    let remapped : Diagnostic := { report with column := 3, fix := some (Fix.delete 14 16) }
    linter.lint analyzer raw "a.html" = .ok [remapped] ∧
      ∃ p, linter.prepare raw "a.html" = .ok p ∧ (∃ block ∈ p.blocks, block.offset ≤ 14 ∧ 16 ≤ block.endOffset) ∧
        ((Fix.delete 14 16).apply raw).isSome = true := by
  intro linter report analyzer raw remapped
  obtain ⟨p, hPrepare⟩ : ∃ p, linter.prepare raw "a.html" = .ok p := ⟨_, rfl⟩
  have hFound : linter.report analyzer p.document (linter.sources p "a.html") = .ok [remapped] := by
    cases hPrepare
    exact eq_ok_of_toOption (by decide +kernel)
  have hLint : linter.lint analyzer raw "a.html" = .ok [remapped] := by
    rw [lint, hPrepare]
    simp only [hFound]
    exact congrArg _ (List.mergeSort_singleton _)
  have hOrigin : linter.Origin analyzer p "a.html" ("a.html.0.js", p.blockSource 0) (Fix.delete 2 4)
      (Fix.delete 14 16) := by
    cases hPrepare
    exact ⟨by decide +kernel, ⟨report, List.mem_cons_self, rfl⟩, by decide +kernel⟩
  obtain ⟨_, hSame, ⟨block, hBlock, hStart, -, hStop, -⟩, -, hApply⟩ :=
    fixes_stay_in_scripts linter analyzer _ "a.html" (by decide +kernel) nofun hLint remapped List.mem_cons_self _ rfl
  cases hPrepare.symm.trans hSame
  refine ⟨hLint, p, hPrepare, ⟨block, hBlock, hStart, hStop⟩, ?_⟩
  cases hPrepare
  exact hApply rfl _ _ hOrigin (by decide +kernel) (by decide +kernel)

end Linter
end ScriptLint
