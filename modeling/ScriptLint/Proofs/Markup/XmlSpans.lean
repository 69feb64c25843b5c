import ScriptLint.Proofs.Markup.Collector

/-!
# What XML contents stand between

The content of a script stands between the `>` of its opening tag and the `</script` that closes it. A byte order mark is
not counted, so in a text that begins with one every content is found that much too early, and may be cut inside a
character.
-/
namespace ScriptLint
set_option autoImplicit false

namespace Xml

def closingMark : Bytes := Byte.less :: Byte.slash :: scriptName

theorem isPrefix_trimEnd (s : Bytes) : trimEnd s <+: s := by
  rw [trimEnd]
  split
  · exact List.prefix_refl s
  · rw [← List.reverse_suffix, List.reverse_reverse]
    exact List.dropWhile_suffix _

theorem declarationAt_ne_closing {s content name : Bytes} : declarationAt s ≠ .ok (.closing name, content) := by
  intro h
  simp only [declarationAt] at h
  repeat' split at h
  all_goals cases h

theorem markupAt_closing {s content name : Bytes} (h : markupAt s = .ok (.closing name, content)) :
    Byte.slash :: name <+: s := by
  obtain ⟨⟨rest, hSplit⟩, -⟩ := markupAt_reads h
  rw [markupAt.eq_def] at h
  split at h
  · cases h
  · rename_i b more
    split at h
    · exact absurd h declarationAt_ne_closing
    · split at h
      · repeat' split at h
        all_goals cases h
      · split at h
        · cases h
        · split at h
          · rename_i hSlash
            cases h
            cases content with
            | nil =>
              cases hSplit
              exact absurd hSlash (by decide)
            | cons c inner =>
              cases hSplit
              rw [hSlash]
              exact (List.cons_prefix_cons.mpr ⟨rfl, (isPrefix_trimEnd inner).trans (List.prefix_append _ _)⟩)
          · split at h <;> cases h

/-- Only the closing tag of a script ends an element, and the content ends where the tag begins. -/
theorem step_found {start stop : Nat} {markup : Markup} {state next : State} {element : Element}
    (h : step start stop markup state = .ok (next, some element)) :
    markup = .closing scriptName ∧ element.content.stop = start := by
  cases markup with
  | closing name =>
    simp only [step, close] at h
    split at h
    · cases h
    · split at h
      · cases h
      · split at h
        · cases h
        · split at h
          · rename_i hName
            cases h
            exact ⟨congrArg _ hName, rfl⟩
          · cases h
  | opening content =>
    simp only [step] at h
    repeat' split at h
    all_goals cases h
  | empty content =>
    simp only [step] at h
    split at h <;> cases h
  | cdata => cases h
  | hidden => cases h

theorem closingMark_of_mem {text source : Bytes} (offset : Nat) (state : State) (rest : Bytes) {found : List Element}
    (hSource : source.drop offset = rest) (h : elementsFrom text offset state rest = .ok found) :
    ∀ element ∈ found, closingMark <+: source.drop element.content.stop := by
  fun_induction elementsFrom text offset state rest generalizing found with
  | case1 => cases h
  | case2 => cases h
  | case3 =>
    cases h
    exact fun _ h => absurd h List.not_mem_nil
  | case4 => cases h
  | case5 => cases h
  | case6 => cases h
  | case7 offset state hStray after markup content hMarkup next ended hStep more hMore ih =>
    cases h
    intro element hMem
    rcases List.mem_append.mp hMem with hMem | hMem
    · obtain rfl := Option.mem_toList.mp hMem
      obtain ⟨rfl, hStop⟩ := step_found hStep
      rw [hStop, hSource]
      exact List.cons_prefix_cons.mpr ⟨rfl, markupAt_closing hMarkup⟩
    · refine ih ?_ hMore element hMem
      rw [show offset + content.length + 2 = offset + (content.length + 1 + 1) by omega, ← List.drop_drop, hSource]
      rfl
  | case8 offset state hStray b after hLess length =>
    rename_i ih
    refine ih ?_ h
    rw [Nat.add_assoc, ← List.drop_drop, hSource, Nat.add_comm 1]
    rfl

end Xml

def OffsetRange.moved (r : OffsetRange) (n : Nat) : OffsetRange := ⟨r.start + n, r.stop + n⟩

theorem Element.IsPlaced.isContent_moved {text : Bytes} {element : Element} {n : Nat} (hn : n ≤ text.length)
    (h : element.IsPlaced (text.drop n)) (hText : Utf8.IsText text) : (element.content.moved n).IsContent text := by
  have hLength : (text.drop n).length = text.length - n := List.length_drop
  have hGet (i : Nat) : (text.drop n)[i]? = text[i + n]? := by rw [List.getElem?_drop, Nat.add_comm]
  have hStop := h.stop_le_length
  obtain ⟨i, hStart, hGreater⟩ := h.opened
  rw [hGet] at hGreater
  refine ⟨Nat.add_le_add_right h.start_le_stop n, by simp only [OffsetRange.moved]; omega, ?_, ?_, i + n, ?_, hGreater⟩
  · rw [OffsetRange.moved, hStart, Nat.add_right_comm]
    exact hText.isBoundary_succ hGreater (by decide)
  · rcases h.closed with hEnd | hLess
    · rw [OffsetRange.moved, hEnd, hLength, Nat.sub_add_cancel hn]
      exact Utf8.isBoundary_length text
    · rw [hGet] at hLess
      exact Utf8.isBoundary_of_not_tail hLess (by decide)
  · rw [OffsetRange.moved, hStart, Nat.add_right_comm]

/-- A block whose content is what stands between the tags of its script, with a text to match. -/
structure ScriptBlock.IsDelimited (text : Bytes) (block : ScriptBlock) : Prop where
  isContent : block.content.IsContent text
  closed : Xml.closingMark <+: text.drop block.content.stop
  sameBreaks : Bytes.SameBreaks block.text ((text.take block.content.stop).drop block.content.start)

namespace Xml

theorem markLength_le (text : Bytes) : markLength text ≤ text.length := by
  rw [markLength]
  split
  · rename_i hMark
    exact (List.isPrefixOf_iff_prefix.mp hMark).length_le
  · exact Nat.zero_le _

theorem not_closingMark_twice {text : Bytes} {o : Nat} (h : closingMark <+: text.drop o)
    (hLater : closingMark <+: text.drop (o + 3)) : False := by
  obtain ⟨rest, hRest⟩ := h
  rw [← List.drop_drop, ← hRest] at hLater
  have hHead := (List.cons_prefix_cons.mp hLater).1
  exact absurd hHead (by decide)

end Xml

namespace Document

theorem framed_of_mem_xml_scan {document : Document} {mediaTypes : List String} {blocks : List ScriptBlock}
    {block : ScriptBlock} (hText : Utf8.IsText document.text)
    (hScan : document.scan { mode := .xml, mediaTypes } = .ok blocks) (hBlock : block ∈ blocks) :
    (block.content.moved (Xml.markLength document.text)).IsContent document.text ∧
      Xml.closingMark <+: document.text.drop (block.content.stop + Xml.markLength document.text) := by
  obtain ⟨elements, hElements, rfl⟩ := scan_eq_ok hScan
  obtain ⟨element, hMem, i, -, rfl⟩ := ScriptBlock.exists_of_mem_number hBlock
  have hElement := (List.mem_filter.mp hMem).1
  have hRead : Xml.elementsFrom document.text 0 ⟨0, none⟩ (document.text.drop (Xml.markLength document.text)) =
      .ok elements := (Xml.elements_eq document.text).symm.trans hElements
  have hClosed := Xml.closingMark_of_mem 0 _ _ rfl hRead element hElement
  rw [List.drop_drop, Nat.add_comm] at hClosed
  exact ⟨((Xml.elements_placed hElements).1 element hElement).isContent_moved (Xml.markLength_le _) hText, hClosed⟩

theorem isDelimited_of_mem_xml_scan {document : Document} {mediaTypes : List String} {blocks : List ScriptBlock}
    {block : ScriptBlock} (hText : Utf8.IsText document.text) (hMark : ¬Xml.byteOrderMark <+: document.text)
    (hScan : document.scan { mode := .xml, mediaTypes } = .ok blocks) (hBlock : block ∈ blocks) :
    block.IsDelimited document.text := by
  have hFramed := framed_of_mem_xml_scan hText hScan hBlock
  rw [Xml.markLength_of_no_mark hMark] at hFramed
  obtain ⟨elements, hElements, rfl⟩ := scan_eq_ok hScan
  obtain ⟨element, hMem, i, -, rfl⟩ := ScriptBlock.exists_of_mem_number hBlock
  have hPlaced := (Xml.elements_placed_of_no_mark hMark hElements).1 element (List.mem_filter.mp hMem).1
  refine ⟨hFramed.1, hFramed.2, ?_⟩
  change Bytes.SameBreaks (ScriptBlock.scriptText document.text element) _
  rw [hPlaced.scriptText_eq hText]
  exact ScriptBlock.sameBreaks_blank _ _ _

/-- An XML scan finds what stands between the tags of each script, once a byte order mark is counted again. As they are,
its blocks are delimited so exactly if there is no such mark or no block. -/
theorem xml_contents_delimited (source : String) (mediaTypes : List String) {blocks : List ScriptBlock}
    (hScan : (Document.mk (Utf8.encode source)).scan { mode := .xml, mediaTypes } = .ok blocks) :
    let text := (Document.mk (Utf8.encode source)).text
    let skipped := Xml.markLength text
    (∀ block ∈ blocks, (block.content.moved skipped).IsContent text ∧
      Xml.closingMark <+: text.drop (block.content.stop + skipped)) ∧
    (blocks.Pairwise fun a b => a.content.stop < b.content.start) ∧
    ((∀ block ∈ blocks, block.IsDelimited text) ↔ ¬Xml.byteOrderMark <+: text ∨ blocks = []) := by
  intro text skipped
  have hText : Utf8.IsText text := Newline.isText_normalize (Utf8.isText_encode source)
  refine ⟨fun block hBlock => framed_of_mem_xml_scan hText hScan hBlock, ?_, ?_⟩
  · obtain ⟨elements, hElements, rfl⟩ := scan_eq_ok hScan
    apply (ScriptBlock.inOrder_number _).imp And.left
    exact (Xml.elements_placed hElements).2.sublist List.filter_sublist
  · constructor
    · intro hAll
      apply Classical.or_iff_not_imp_left.mpr
      intro hMark
      apply List.eq_nil_iff_forall_not_mem.mpr
      intro block hBlock
      -- the closing tag cannot stand at the counted offset and at the real one
      have hReal := (framed_of_mem_xml_scan hText hScan hBlock).2
      rw [Xml.markLength_of_mark (Classical.not_not.mp hMark)] at hReal
      exact Xml.not_closingMark_twice (hAll block hBlock).closed hReal
    · rintro (hMark | rfl) block hBlock
      · exact isDelimited_of_mem_xml_scan hText hMark hScan hBlock
      · exact absurd hBlock List.not_mem_nil

theorem xml_contents_delimited_cdata :
    let document : Document := ⟨Utf8.encode "<r>é\r\n<script a='>'><![CDATA[é < 1]]>\r\n</script ></r>"⟩
    ∃ blocks, document.scan { mode := .xml } = .ok blocks ∧ ¬Xml.byteOrderMark <+: document.text ∧ blocks ≠ [] ∧
      ∀ block ∈ blocks, block.IsDelimited document.text := by
  intro document
  have hScan : document.scan { mode := .xml } = .ok ((document.scan { mode := .xml }).toOption.getD []) :=
    eq_ok_of_toOption (by decide +kernel)
  have hMark : ¬Xml.byteOrderMark <+: document.text := by decide +kernel
  refine ⟨_, hScan, hMark, by decide +kernel, ?_⟩
  exact (xml_contents_delimited _ _ hScan).2.2.mpr (.inl hMark)

theorem xml_content_after_byteOrderMark :
    let document : Document := ⟨Utf8.encode "\uFEFF<script>a</script>"⟩
    ∃ blocks, document.scan { mode := .xml } = .ok blocks ∧
      ∃ block ∈ blocks, block.content = ⟨8, 9⟩ ∧ document.text[7]? = some 0x69 ∧ block.text = [0x70] ∧
        ¬block.IsDelimited document.text := by
  intro document
  refine ⟨(document.scan { mode := .xml }).toOption.getD [], eq_ok_of_toOption (by decide +kernel), ?_⟩
  have hBlock : ((document.scan { mode := .xml }).toOption.getD []).map (fun block => (block.content, block.text)) =
      [(⟨8, 9⟩, [0x70])] := by decide +kernel
  obtain ⟨block, hMem, hFields⟩ := List.exists_of_mem_map (hBlock ▸ List.mem_singleton_self _)
  obtain ⟨hContent, hScript⟩ := Prod.mk.inj hFields
  refine ⟨block, hMem, hContent, by decide +kernel, hScript, ?_⟩
  intro hDelimited
  have hClosed := hDelimited.closed
  rw [hContent] at hClosed
  exact absurd hClosed (by decide +kernel)

/-- Counted from the mark, the content would start at the second byte of `é`. -/
theorem xml_collect_after_byteOrderMark :
    let document : Document := ⟨Utf8.encode "\uFEFF<script a='é'>x</script>"⟩
    (document.scan { mode := .xml }).isOk = true ∧ document.collect { mode := .xml } = none := by
  intro document
  exact ⟨by decide +kernel, Option.isNone_iff_eq_none.mp (by decide +kernel)⟩

end Document
end ScriptLint
