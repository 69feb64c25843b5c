import ScriptLint.Proofs.Diagnostic.Fix
import ScriptLint.Proofs.Lint.LongLine
import ScriptLint.Proofs.Lint.RangeContent

/-!
# The order of remapped ranges

Ranges that follow each other in the virtual source follow each other in the document, with one exception. A range that
ends at the start of a line without covering whole lines leaves the indentation of that line behind it, and a range of
whole lines from there on takes the same indentation in.
-/
namespace ScriptLint
set_option autoImplicit false

/-- Both ranges take in the indentation that is lost where the one ends and the other begins. -/
def VirtualSource.Clash (source : VirtualSource) (blocks : List ScriptBlock) (plans : List IndentPlan)
    (a b : OffsetRange) : Prop :=
  a.stop = b.start ∧ (source.lineIndex.position a.start).character ≠ 0 ∧
    (source.lineIndex.position b.start).character = 0 ∧ (source.lineIndex.position b.stop).character = 0 ∧
    VirtualSource.lostIndent blocks plans (source.lineIndex.position b.start).line ≠ []

instance (source : VirtualSource) (blocks : List ScriptBlock) (plans : List IndentPlan) (a b : OffsetRange) :
    Decidable (source.Clash blocks plans a b) :=
  inferInstanceAs (Decidable (_ ∧ _ ∧ _ ∧ _ ∧ _))

namespace Remapper

variable {document : Document} {blocks : List ScriptBlock} {indent : Indent}

theorem edgeColumn_le {p q e : Position} {run : Run} {o : Nat} (h : run.Edge document indent blocks p q e o) :
    run.edgeColumn indent blocks p q e ≤ e.character + VirtualSource.shift indent blocks e.line := by
  have hStart := h.start_le
  rw [Run.documentStart] at hStart
  rw [Run.edgeColumn]
  split <;> omega

/-- Where one range ends and another begins at the same virtual position, their columns in the document are in order
unless the first alone leaves lost indentation behind it. -/
theorem edgeColumn_le_edgeColumn_iff (hBlocks : ScriptBlock.Arranged document blocks) {p q e : Position}
    {last first : Run} {j i : Nat} (hLast : last.Edge document indent blocks p e e j)
    (hFirst : first.Edge document indent blocks e q e i) :
    last.edgeColumn indent blocks p e e ≤ first.edgeColumn indent blocks e q e ↔
      ¬(p.character ≠ 0 ∧ e.character = 0 ∧ q.character = 0 ∧
        VirtualSource.lostIndent blocks (blocks.map fun block => IndentPlan.ofBlock block indent) e.line ≠ []) := by
  have hEq : last = first := (VirtualSource.separated_runs hBlocks indent e.line).eq_of_column hLast.mem hFirst.mem
    hLast.start_le hLast.le_stop hFirst.start_le hFirst.le_stop
  subst hEq
  have hStart := hLast.start_le
  rw [Run.edgeColumn, Run.edgeColumn]
  by_cases he : e.character = 0
  · rw [he, Nat.zero_add] at hStart
    have hLineStart : last.lineStart ≤ last.documentStart := Nat.le_add_right _ _
    obtain ⟨more, hRuns⟩ :=
      VirtualSource.exists_runs_eq_cons hBlocks hLast.mem (Nat.le_trans hLineStart hStart)
    have hShift := VirtualSource.shift_eq_of_first hRuns
    have hLost : last.lost ≠ [] ↔ last.lineStart < VirtualSource.shift indent blocks e.line := by
      rw [hShift, Run.documentStart, ← List.length_pos_iff]
      omega
    rw [VirtualSource.lostIndent_of_first hBlocks hRuns, hLost, he, Nat.zero_add]
    by_cases hp : p.character = 0
    · by_cases hq : q.character = 0
      · simp [hp, hq]
      · simpa [hp, hq] using Nat.le_trans hLineStart hStart
    · by_cases hq : q.character = 0 <;> simp [hp, hq]
  · simp [he]

/-- Remapped ranges keep the order of the virtual source exactly if they do not clash. -/
theorem stop_le_start_iff (hBlocks : ScriptBlock.Arranged document blocks) {a b a' b' : OffsetRange}
    (ha : (Remapper.mk document (VirtualSource.ofBlocks document.newline indent blocks)).range a = .ok a')
    (hb : (Remapper.mk document (VirtualSource.ofBlocks document.newline indent blocks)).range b = .ok b')
    (hOrder : a.stop ≤ b.start) :
    a'.stop ≤ b'.start ↔ ¬(VirtualSource.ofBlocks document.newline indent blocks).Clash blocks
      (blocks.map fun block => IndentPlan.ofBlock block indent) a b := by
  obtain ⟨_, _, _, _, haAccepts, -⟩ := range_eq_ok_iff.mp ha
  obtain ⟨_, _, _, _, hbAccepts, -⟩ := range_eq_ok_iff.mp hb
  have haLength := haAccepts.inside
  have hbLe := hbAccepts.forward
  have hbLength := hbAccepts.inside
  have hbStart := Nat.le_trans hbLe hbLength
  obtain ⟨aFirst, last, _, j, hLastBlock, -, -, hLast, rfl⟩ := range_ofBlocks hBlocks ha rfl rfl
  obtain ⟨first, bLast, i, _, -, -, hFirst, -, rfl⟩ := range_ofBlocks hBlocks hb rfl rfl
  rw [← hLastBlock]
  have hPlacedLast := (VirtualSource.isPlaced_of_mem_runs hBlocks hLast.mem).2.block
  have hPlacedFirst := (VirtualSource.isPlaced_of_mem_runs hBlocks hFirst.mem).2.block
  have hj := hPlacedLast.start_add_le_length hLast.le_length
  have hi := hPlacedFirst.start_add_le_length hFirst.le_length
  have hDocument := Bytes.place_lt_place_iff hi hj
  rw [hLast.document, hFirst.document, Position.lt_iff] at hDocument
  simp only at hDocument
  rw [Document.toRawOffset_le_iff hBlocks.isSmall hj hi, ← Nat.not_lt, ← hDocument]
  rcases Nat.lt_or_eq_of_le hOrder with hLt | hEq
  · refine iff_of_true ?_ (fun hClash => Nat.ne_of_lt hLt hClash.1)
    -- the second range does not begin at a line start if it begins on the line where the first ends
    have hVirtual := Bytes.place_lt_place hLt hbStart
    rw [← place_ofBlocks hBlocks haLength, ← place_ofBlocks hBlocks hbStart, Position.lt_iff] at hVirtual
    have hLe := edgeColumn_le hLast
    rintro (hLine | ⟨hLine, hColumn⟩)
    · omega
    · obtain ⟨-, hCharacter⟩ := hVirtual.resolve_left (by omega)
      rw [Run.edgeColumn, if_neg (fun hWhole => by omega), hLine] at hColumn
      omega
  · rw [hEq] at hLast
    rw [hEq, VirtualSource.Clash]
    simp only [Nat.lt_irrefl, false_or, true_and, Nat.not_lt, hEq]
    exact edgeColumn_le_edgeColumn_iff hBlocks hLast hFirst

end Remapper

namespace Document

/-- Remapped ranges keep their order unless they clash, so fixes that are apart and do not clash stay apart. -/
theorem mapped_ranges_in_order (source : String) (options : ScanOptions) (indent : Indent) {blocks : List ScriptBlock}
    (hSize : (Utf8.encode source).length < wordLimit)
    (hMark : options.mode = .xml → ¬Xml.byteOrderMark <+: (Document.mk (Utf8.encode source)).text)
    (hScan : (Document.mk (Utf8.encode source)).scan options = .ok blocks) :
    let document : Document := ⟨Utf8.encode source⟩
    let plans := blocks.map fun block => IndentPlan.ofBlock block indent
    let virtual := VirtualSource.build document.newline blocks plans
    let remapper : Remapper := ⟨document, virtual⟩
    (∀ a b a' b', remapper.range a = .ok a' → remapper.range b = .ok b' → a.stop ≤ b.start →
      (a'.stop ≤ b'.start ↔ ¬virtual.Clash blocks plans a b)) ∧
    ∀ fixes : List Fix,
      (fixes.Pairwise fun f g =>
        f.range.stop ≤ g.range.start ∧ ¬virtual.Clash blocks plans f.range g.range ∨
        g.range.stop ≤ f.range.start ∧ ¬virtual.Clash blocks plans g.range f.range) →
      Fix.inSequence (Fix.sort (fixes.filterMap remapper.fix?)) = true := by
  intro document plans virtual remapper
  obtain ⟨hBlocks, -⟩ := scan_arranged (isPlain_encode hSize hMark) hScan
  refine ⟨fun a b a' b' ha hb hOrder => Remapper.stop_le_start_iff hBlocks ha hb hOrder, ?_⟩
  intro fixes hApart
  apply Fix.inSequence_sort
  · intro fix hFix
    obtain ⟨virtualFix, -, hMapped⟩ := List.mem_filterMap.mp hFix
    exact (Remapper.fix?_eq_some hMapped).2
  · rw [List.pairwise_filterMap]
    refine hApart.imp ?_
    intro f g hOrder f' hf g' hg
    obtain ⟨hf, -⟩ := Remapper.fix?_eq_some hf
    obtain ⟨hg, -⟩ := Remapper.fix?_eq_some hg
    rcases hOrder with ⟨hOrder, hClash⟩ | ⟨hOrder, hClash⟩
    · exact .inl ((Remapper.stop_le_start_iff hBlocks hf hg hOrder).mpr hClash)
    · exact .inr ((Remapper.stop_le_start_iff hBlocks hg hf hOrder).mpr hClash)

theorem mapped_ranges_in_order_wholeLines :
    let document : Document := ⟨Utf8.encode "<script>\n  a\n  b\n</script>"⟩
    ∃ blocks, document.scan {} = .ok blocks ∧
      let plans := blocks.map fun block => IndentPlan.ofBlock block .auto
      let remapper : Remapper := ⟨document, VirtualSource.build document.newline blocks plans⟩
      remapper.fix? (Fix.delete 3 5) = some (Fix.delete 13 17) ∧ remapper.fix? (Fix.delete 1 3) = some (Fix.delete 9 13) ∧
        Fix.inSequence (Fix.sort ([Fix.delete 3 5, Fix.delete 1 3].filterMap remapper.fix?)) = true := by
  intro document
  have hSize : document.raw.length < wordLimit := by decide +kernel
  refine ⟨_, rfl, ?_⟩
  intro plans remapper
  refine ⟨by decide +kernel, by decide +kernel, (mapped_ranges_in_order _ {} .auto hSize nofun rfl).2 _ ?_⟩
  refine .cons ?_ (List.pairwise_singleton _ _)
  intro other hOther
  rw [List.mem_singleton.mp hOther]
  exact .inr (by decide +kernel)

/-- Ranges that follow each other can overlap in the document: where they clash, after a byte order mark in XML, where
offsets are counted wrong, and on lines whose columns do not fit 32 bits. -/
theorem mapped_ranges_overlap :
    (let document : Document := ⟨Utf8.encode "<script>\n  a\n  b\n</script>"⟩
      ∃ blocks, document.scan {} = .ok blocks ∧
        let plans := blocks.map fun block => IndentPlan.ofBlock block .auto
        let remapper : Remapper := ⟨document, VirtualSource.build document.newline blocks plans⟩
        remapper.range ⟨2, 3⟩ = .ok ⟨12, 15⟩ ∧ remapper.range ⟨3, 5⟩ = .ok ⟨13, 17⟩ ∧
          Fix.inSequence (Fix.sort ([Fix.delete 2 3, Fix.delete 3 5].filterMap remapper.fix?)) = false) ∧
    (let document : Document :=
        ⟨Utf8.encode "\uFEFF<script>😀<b/>😀<b/>😀<b/>😀<b/>😀<b/>😀<b/>😀<b/>😀<b/>😀<b/></script><script>x</script>"⟩
      ∃ blocks, document.scan { mode := .xml } = .ok blocks ∧
        let plans := blocks.map fun block => IndentPlan.ofBlock block .auto
        let remapper : Remapper := ⟨document, VirtualSource.build document.newline blocks plans⟩
        remapper.range ⟨0, 90⟩ = .ok ⟨8, 98⟩ ∧ remapper.range ⟨91, 92⟩ = .ok ⟨97, 98⟩) ∧
    (let document : Document :=
        ⟨Utf8.encode ("<script>" ++ String.ofList (List.replicate (wordLimit + 100) 'a'))⟩
      ∃ blocks, document.scan {} = .ok blocks ∧
        let plans := blocks.map fun block => IndentPlan.ofBlock block .auto
        let remapper : Remapper := ⟨document, VirtualSource.build document.newline blocks plans⟩
        remapper.range ⟨0, 100⟩ = .ok ⟨8, 108⟩ ∧
          remapper.range ⟨wordLimit + 20, wordLimit + 30⟩ = .ok ⟨28, 38⟩) := by
  refine ⟨?_, ?_, ?_⟩
  · intro document
    refine ⟨_, rfl, ?_⟩
    intro plans remapper
    have hMapped : [Fix.delete 2 3, Fix.delete 3 5].filterMap remapper.fix? = [Fix.delete 12 15, Fix.delete 13 17] := by
      decide +kernel
    refine ⟨eq_ok_of_toOption (by decide +kernel), eq_ok_of_toOption (by decide +kernel), ?_⟩
    rw [hMapped, Fix.sort, List.mergeSort_of_pairwise (by decide)]
    rfl
  · intro document
    refine ⟨(document.scan { mode := .xml }).toOption.getD [], eq_ok_of_toOption (by decide +kernel), ?_⟩
    exact ⟨eq_ok_of_toOption (by decide +kernel), eq_ok_of_toOption (by decide +kernel)⟩
  · rw [← ofScript_replicate]
    have hLength : (List.replicate (wordLimit + 100) (0x61 : UInt8)).length = wordLimit + 100 := List.length_replicate
    obtain ⟨blocks, hScan, hRange⟩ := Remapper.exists_scan_range_ofScript (Bytes.isFlat_replicate (wordLimit + 100))
      (ofScript (List.replicate (wordLimit + 100) 0x61)).newline .auto
    rw [hLength] at hRange
    refine ⟨blocks, hScan, ?_, ?_⟩
    · exact hRange ⟨0, 100⟩ (by decide) (by decide) (by decide) (by decide)
    · exact hRange ⟨wordLimit + 20, wordLimit + 30⟩ (by decide) (by decide) (by decide) (by decide)

end Document
end ScriptLint
