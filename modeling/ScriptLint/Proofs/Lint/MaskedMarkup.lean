import ScriptLint.Proofs.Lint.LongLine
import ScriptLint.Proofs.Lint.RangeExtent

/-!
# Edits of masked markup

Markup inside a script reaches the analyzer as spaces. A remapped range has such markup in it only where the range
itself has these spaces, or goes on to a line that lost them as indentation, or across a line break of the markup.
-/
namespace ScriptLint
set_option autoImplicit false

/-- Whether a byte of the stored text belongs to markup that a scan masks in a script. -/
def Document.isMasked (document : Document) (mode : MarkupMode) (o : Nat) : Bool :=
  match document.elements mode with
  | .ok elements => elements.any fun element => element.masks.any fun mask =>
      document.toRawOffset mask.start ≤ o && o < document.toRawOffset mask.stop
  | .error _ => false

namespace Document

variable {document : Document} {options : ScanOptions} {blocks : List ScriptBlock}

theorem exists_mask_of_isMasked {mode : MarkupMode} (hPlain : document.IsPlain mode) {o : Nat}
    (h : document.isMasked mode o = true) :
    ∃ elements, document.elements mode = .ok elements ∧ ∃ element ∈ elements, ∃ mask ∈ element.masks,
      document.toRawOffset mask.start ≤ o ∧ o < document.toRawOffset mask.stop ∧
        element.content.start ≤ mask.start ∧ mask.stop ≤ element.content.stop ∧
        mask.start ≤ document.text.length ∧ mask.stop ≤ document.text.length := by
  rw [isMasked] at h
  split at h
  · rename_i elements hElements
    obtain ⟨element, hElement, h⟩ := List.any_eq_true.mp h
    obtain ⟨mask, hMask, h⟩ := List.any_eq_true.mp h
    rw [Bool.and_eq_true, decide_eq_true_iff, decide_eq_true_iff] at h
    have hPlaced := ((elements_placed hPlain hElements).1 element hElement).1
    obtain ⟨hStart, hStop⟩ := hPlaced.masks_inside mask hMask
    obtain ⟨b, hFirst, -⟩ := (hPlaced.masks mask hMask).first
    exact ⟨elements, hElements, element, hElement, mask, hMask, h.1, h.2, hStart, hStop,
      Nat.le_of_lt (List.getElem?_eq_some_iff.mp hFirst).1, Nat.le_trans hStop hPlaced.stop_le_length⟩
  · cases h

theorem lt_length_of_isMasked {mode : MarkupMode} (hPlain : document.IsPlain mode) {o : Nat}
    (h : document.isMasked mode o = true) : o < document.raw.length := by
  obtain ⟨-, -, -, -, mask, -, -, hUpper, -, -, -, hLast⟩ := exists_mask_of_isMasked hPlain h
  exact Nat.lt_of_lt_of_le hUpper (cut_toRawOffset hPlain.isSmall hLast).le_length

/-- Scripts have a space for each masked byte that is not part of a line break. -/
theorem getElem?_of_isMasked (hPlain : document.IsPlain options.mode) (hScan : document.scan options = .ok blocks)
    {o : Nat} (h : document.isMasked options.mode o = true) (hBreak : document.isBreak o = false) {block : ScriptBlock}
    (hBlock : block ∈ blocks) {x : Nat} (hx : x < block.text.length)
    (ho : document.toRawOffset (block.content.start + x) = o) : block.text[x]? = some Byte.space := by
  have hSmall := hPlain.isSmall
  obtain ⟨elements, hElements, masked, hMasked, mask, hMask, hLower, hUpper, hStart, hStop, hFirst, hLast⟩ :=
    exists_mask_of_isMasked hPlain h
  obtain ⟨element, hElement, hContent, hText⟩ := exists_element_of_scan hPlain hElements hScan hBlock
  have hPlaced := (scan_arranged hPlain hScan).1.isPlaced block hBlock
  have hInside := hPlaced.start_add_le_length (Nat.le_of_lt hx)
  have hEnd := hPlaced.content_start_add_length
  subst ho
  rw [toRawOffset_le_iff hSmall hFirst hInside] at hLower
  rw [toRawOffset_lt_iff hSmall hInside hLast] at hUpper
  -- contents of two elements have no byte in common
  obtain rfl : masked = element := by
    rw [hContent] at hEnd hLower hUpper
    rcases eq_or_rel_of_pairwise (elements_placed hPlain hElements).2 hMasked hElement with hSame | hApart | hApart
    · exact hSame
    · omega
    · omega
  have ht : block.content.start + x < document.text.length := by omega
  have hByte := List.getElem?_eq_getElem ht
  have hNoBreak : document.text[block.content.start + x] ≠ Byte.lineFeed := by
    intro hFeed
    rw [hFeed, ← isBreak_toRawOffset hSmall ht, hBreak] at hByte
    cases hByte
  have hContains : masked.masks.any (·.contains (block.content.start + x)) = true := by
    refine List.any_eq_true.mpr ⟨mask, hMask, ?_⟩
    rw [OffsetRange.contains, Bool.and_eq_true, decide_eq_true_iff, decide_eq_true_iff]
    exact ⟨hLower, hUpper⟩
  rw [hText, ScriptBlock.getElem?_blank, Element.contentText, ← hContent, List.getElem?_drop,
    List.getElem?_take_of_lt (by omega), hByte, Option.map_some, if_pos ⟨hNoBreak, hContains⟩]

/-- Masked markup is in a remapped range only as spaces of the range, as line breaks that it crosses and as indentation
that it takes in. -/
theorem masked_in_range_iff (source : String) (options : ScanOptions) (indent : Indent) {blocks : List ScriptBlock}
    {range mapped : OffsetRange} (hSize : (Utf8.encode source).length < wordLimit)
    (hMark : options.mode = .xml → ¬Xml.byteOrderMark <+: (Document.mk (Utf8.encode source)).text)
    (hScan : (Document.mk (Utf8.encode source)).scan options = .ok blocks)
    (hRange : (Remapper.mk ⟨Utf8.encode source⟩ (VirtualSource.build (Document.mk (Utf8.encode source)).newline blocks
      (blocks.map fun block => IndentPlan.ofBlock block indent))).range range = .ok mapped) :
    let document : Document := ⟨Utf8.encode source⟩
    let plans := blocks.map fun block => IndentPlan.ofBlock block indent
    let remapper : Remapper := ⟨document, VirtualSource.build document.newline blocks plans⟩
    let p := remapper.place range.start
    let q := remapper.place range.stop
    (∀ o, document.isMasked options.mode o = true → ∃ e, document.rawOffset? e = some o ∧
      (mapped.start ≤ o ∧ o < mapped.stop ↔ remapper.ShowsAt range Byte.space e ∨
        (document.isBreak o = true ∧ p.line ≤ e.line ∧ e.line < q.line) ∨
        (e.character < (VirtualSource.lostIndent blocks plans e.line).length ∧ p.TakesIndent q e.line))) ∧
    ((∀ v, range.start ≤ v → v < range.stop →
        remapper.source.text[v]? ≠ some Byte.space ∧ remapper.source.text[v]? ≠ some Byte.lineFeed) →
      ∀ o, mapped.start ≤ o → o < mapped.stop → document.isMasked options.mode o = false) := by
  intro document plans remapper p q
  have hPlain := isPlain_encode hSize hMark
  obtain ⟨hBlocks, -⟩ := scan_arranged hPlain hScan
  have hIff (o : Nat) (hMasked : document.isMasked options.mode o = true) :=
    Remapper.mem_mapped_iff (p := p) (q := q) (b := Byte.space) hBlocks hRange rfl rfl
      (lt_length_of_isMasked hPlain hMasked) rfl (by decide)
      (fun hBreak block hBlock x hx hRaw => getElem?_of_isMasked hPlain hScan hMasked hBreak hBlock hx hRaw)
  refine ⟨fun o hMasked => ⟨document.raw.place o, ?_, hIff o hMasked⟩, ?_⟩
  · exact rawOffset?_eq_some_iff.mpr ⟨Nat.le_of_lt (lt_length_of_isMasked hPlain hMasked), rfl⟩
  · intro hPure o hStart hStop
    have hLine : q.line ≤ p.line :=
      Remapper.line_le_of_noBreak hBlocks hRange (fun v hv hv' => (hPure v hv hv').2)
    apply Bool.eq_false_iff.mpr
    intro hMasked
    rcases (hIff o hMasked).mp ⟨hStart, hStop⟩ with ⟨v, hv, hv', hSpace, -⟩ | ⟨-, hLower, hUpper⟩ | ⟨-, hTakes⟩
    · exact (hPure v hv hv').1 hSpace
    · exact Nat.not_lt_of_le hLine (Nat.lt_of_le_of_lt hLower hUpper)
    · exact Nat.not_lt_of_le hLine hTakes.line_lt

theorem masked_in_range_iff_besideMarker :
    let document : Document := ⟨Utf8.encode "<script>\r\n  <![CDATA[a()\r\n  b() ]]>\r\n</script>"⟩
    ∃ blocks, document.scan { mode := .xml } = .ok blocks ∧
      let plans := blocks.map fun block => IndentPlan.ofBlock block .auto
      let remapper : Remapper := ⟨document, VirtualSource.build document.newline blocks plans⟩
      remapper.source.text = Utf8.encode "\r\na()\r\n  b()    \r\n" ∧ remapper.range ⟨2, 5⟩ = .ok ⟨21, 24⟩ ∧
        document.isMasked .xml 20 = true ∧
        (∃ e, document.rawOffset? e = some 20 ∧ ¬remapper.ShowsAt ⟨2, 5⟩ Byte.space e) ∧
        ∀ o, 21 ≤ o → o < 24 → document.isMasked .xml o = false := by
  intro document
  have hScan : document.scan { mode := .xml } = .ok ((document.scan { mode := .xml }).toOption.getD []) :=
    eq_ok_of_toOption (by decide +kernel)
  have hMarker : document.isMasked .xml 20 = true := by decide +kernel
  refine ⟨_, hScan, ?_⟩
  intro plans remapper
  have hRange : remapper.range ⟨2, 5⟩ = .ok ⟨21, 24⟩ := eq_ok_of_toOption (by decide +kernel)
  obtain ⟨hIff, hPure⟩ := masked_in_range_iff _ { mode := .xml } .auto (by decide +kernel)
    (fun _ => by decide +kernel) hScan hRange
  refine ⟨by decide +kernel, hRange, hMarker, ?_, ?_⟩
  · obtain ⟨e, hOffset, hCovered⟩ := hIff 20 hMarker
    refine ⟨e, hOffset, fun hShown => ?_⟩
    exact absurd (hCovered.mpr (.inl hShown)).1 (by decide)
  · apply hPure
    intro v hv hv'
    have hCases : v = 2 ∨ v = 3 ∨ v = 4 := by
      simp only at hv hv'
      omega
    rcases hCases with rfl | rfl | rfl <;> decide +kernel

theorem isMasked_withChild {script : Bytes} (h : script.IsFlat) (hText : Utf8.IsText (withChild script).raw) :
    (withChild script).isMasked .xml 8 = true := by
  have hReturn : Byte.carriageReturn ∉ (withChild script).raw := notMem_withChild (by decide) h.noReturn
  have hLine : Byte.lineFeed ∉ (withChild script).raw := notMem_withChild (by decide) h.noBreak
  have hRaw : ∀ o ≤ 12, (withChild script).toRawOffset o = wrapWord o := by
    intro o ho
    refine toRawOffset_of_noBreak hReturn hLine ?_
    rw [length_withChild]
    omega
  rw [isMasked, (scan_withChild h hText).1]
  simp only [List.any_cons, List.any_nil, Bool.or_false, hRaw 8 (by decide), hRaw 12 (by decide)]
  decide

theorem masked_markup_in_range :
    (let document : Document := ⟨Utf8.encode "<script>a<b/>c</script>"⟩
      ∃ blocks, document.scan { mode := .xml } = .ok blocks ∧
        let plans := blocks.map fun block => IndentPlan.ofBlock block .auto
        let remapper : Remapper := ⟨document, VirtualSource.build document.newline blocks plans⟩
        remapper.source.text = Utf8.encode "a    c" ∧ remapper.range ⟨0, 6⟩ = .ok ⟨8, 14⟩ ∧
          document.isMasked .xml 9 = true) ∧
    (let document : Document := ⟨Utf8.encode "<script><!--\n--></script>"⟩
      ∃ blocks, document.scan { mode := .xml } = .ok blocks ∧
        let plans := blocks.map fun block => IndentPlan.ofBlock block .auto
        let remapper : Remapper := ⟨document, VirtualSource.build document.newline blocks plans⟩
        remapper.source.text = Utf8.encode "    \n   " ∧ remapper.range ⟨4, 5⟩ = .ok ⟨12, 13⟩ ∧
          document.isMasked .xml 12 = true) ∧
    (let document : Document := ⟨Utf8.encode "<script>\n<b/>c\n</script>"⟩
      ∃ blocks, document.scan { mode := .xml } = .ok blocks ∧
        let plans := blocks.map fun block => IndentPlan.ofBlock block .auto
        let remapper : Remapper := ⟨document, VirtualSource.build document.newline blocks plans⟩
        remapper.source.text = Utf8.encode "\nc\n" ∧ remapper.range ⟨0, 2⟩ = .ok ⟨8, 14⟩ ∧
          document.isMasked .xml 9 = true) ∧
    (let document : Document :=
        ⟨Utf8.encode ("<script><b/>" ++ String.ofList (List.replicate wordLimit 'a') ++ "</script>")⟩
      ∃ blocks, document.scan { mode := .xml } = .ok blocks ∧
        let plans := blocks.map fun block => IndentPlan.ofBlock block .auto
        let remapper : Remapper := ⟨document, VirtualSource.build document.newline blocks plans⟩
        remapper.source.text[wordLimit]? = some 0x61 ∧ remapper.range ⟨wordLimit, wordLimit + 1⟩ = .ok ⟨8, 9⟩ ∧
          document.isMasked .xml 8 = true) := by
  refine ⟨?_, ?_, ?_, ?_⟩
  · intro document
    refine ⟨(document.scan { mode := .xml }).toOption.getD [], eq_ok_of_toOption (by decide +kernel), ?_⟩
    exact ⟨by decide +kernel, eq_ok_of_toOption (by decide +kernel), by decide +kernel⟩
  · intro document
    refine ⟨(document.scan { mode := .xml }).toOption.getD [], eq_ok_of_toOption (by decide +kernel), ?_⟩
    exact ⟨by decide +kernel, eq_ok_of_toOption (by decide +kernel), by decide +kernel⟩
  · intro document
    refine ⟨(document.scan { mode := .xml }).toOption.getD [], eq_ok_of_toOption (by decide +kernel), ?_⟩
    exact ⟨by decide +kernel, eq_ok_of_toOption (by decide +kernel), by decide +kernel⟩
  · rw [← withChild_replicate]
    have hFlat := Bytes.isFlat_replicate wordLimit
    have hText := isText_withChild_replicate wordLimit
    have hLength : (List.replicate wordLimit (0x61 : UInt8)).length = wordLimit := List.length_replicate
    obtain ⟨blocks, hScan, hSource, hRange⟩ := Remapper.exists_scan_range_withChild hFlat hText
      (withChild (List.replicate wordLimit 0x61)).newline .auto
    rw [hLength] at hRange
    refine ⟨blocks, hScan, ?_⟩
    intro plans remapper
    refine ⟨?_, ?_, isMasked_withChild hFlat hText⟩
    · have hSeen : remapper.source.text = List.replicate 4 Byte.space ++ List.replicate wordLimit 0x61 := hSource
      rw [hSeen, List.getElem?_append_right (by decide), List.getElem?_replicate_of_lt (by decide)]
    · exact hRange ⟨wordLimit, wordLimit + 1⟩ (by decide) (by decide) (by decide) (by decide)

end Document
end ScriptLint
