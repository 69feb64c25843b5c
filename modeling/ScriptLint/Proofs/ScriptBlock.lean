import ScriptLint.ScriptBlock
import ScriptLint.Proofs.Document
import ScriptLint.Proofs.Markup.Html
import ScriptLint.Proofs.Markup.Xml

/-!
# Script blocks in their document

A block that a scan finds has a text as long as its content, with the line feeds of the content, so an offset of the one
is an offset of the other. Blanking markup replaces whole characters, and nothing has to be repaired.
-/
namespace ScriptLint
set_option autoImplicit false

theorem eq_ok_of_toOption {ε α : Type} {x : Except ε α} {a : α} (h : x.toOption = some a) : x = .ok a := by
  cases x with
  | error e => cases h
  | ok b => exact congrArg _ (Option.some.inj h)

theorem eq_or_rel_of_pairwise {α : Type} {R : α → α → Prop} {l : List α} (h : l.Pairwise R) {a b : α} (ha : a ∈ l)
    (hb : b ∈ l) : a = b ∨ R a b ∨ R b a := by
  induction l with
  | nil => cases ha
  | cons first more ih =>
    obtain ⟨hFirst, hMore⟩ := List.pairwise_cons.mp h
    rcases List.mem_cons.mp ha with hA | hA <;> rcases List.mem_cons.mp hb with hB | hB
    · exact .inl (hA.trans hB.symm)
    · exact .inr (.inl (hA ▸ hFirst b hB))
    · exact .inr (.inr (hB ▸ hFirst a hA))
    · exact ih hMore hA hB

namespace ScriptBlock

theorem sameBreaks_blank (masks : List OffsetRange) (offset : Nat) (s : Bytes) :
    Bytes.SameBreaks (blank masks offset s) s := by
  induction s generalizing offset with
  | nil => rfl
  | cons b s ih =>
    rw [blank, Bytes.SameBreaks.cons_iff]
    refine ⟨?_, ih (offset + 1)⟩
    split
    · rename_i hMasked
      exact iff_of_false (by decide) hMasked.1
    · rfl

theorem blank_append (masks : List OffsetRange) (offset : Nat) (s t : Bytes) :
    blank masks offset (s ++ t) = blank masks offset s ++ blank masks (offset + s.length) t := by
  induction s generalizing offset with
  | nil => rfl
  | cons b s ih =>
    rw [List.cons_append, blank, blank, ih, List.cons_append, List.length_cons, Nat.add_assoc offset, Nat.add_comm 1]

theorem getElem?_blank (masks : List OffsetRange) (offset : Nat) (s : Bytes) (i : Nat) :
    (blank masks offset s)[i]? = s[i]?.map fun b =>
      if b ≠ Byte.lineFeed ∧ masks.any (·.contains (offset + i)) then Byte.space else b := by
  induction s generalizing offset i with
  | nil => rfl
  | cons b s ih =>
    cases i with
    | zero => rfl
    | succ i =>
      rw [blank, List.getElem?_cons_succ, List.getElem?_cons_succ, ih, Nat.add_assoc offset, Nat.add_comm 1]

/-- No mask of a text at `offset` begins or ends inside a character. -/
def KeepsCharacters (masks : List OffsetRange) (offset : Nat) (s : Bytes) : Prop :=
  ∀ mask ∈ masks, ∀ i, i < s.length → mask.start = offset + i ∨ mask.stop = offset + i → Utf8.isBoundary s i = true

theorem KeepsCharacters.drop {masks : List OffsetRange} {offset : Nat} {s t : Bytes}
    (h : KeepsCharacters masks offset (s ++ t)) : KeepsCharacters masks (offset + s.length) t := by
  intro mask hMask i hi hEnd
  rcases Nat.eq_zero_or_pos i with rfl | hPos
  · rfl
  · rw [← Utf8.isBoundary_append hPos]
    apply h mask hMask _ (by rw [List.length_append]; omega)
    omega

theorem KeepsCharacters.any_contains {masks : List OffsetRange} {offset j : Nat} {lead : UInt8} {tails rest : Bytes}
    (h : KeepsCharacters masks offset (lead :: (tails ++ rest))) (hTails : ∀ b ∈ tails, Utf8.isTail b = true)
    (hj : j ≤ tails.length) : masks.any (·.contains (offset + j)) = masks.any (·.contains offset) := by
  have hInside : ∀ mask ∈ masks, ∀ i, 0 < i → i ≤ tails.length → mask.start ≠ offset + i ∧ mask.stop ≠ offset + i := by
    intro mask hMask i hPos hi
    obtain ⟨k, rfl⟩ := Nat.exists_eq_succ_of_ne_zero (Nat.ne_of_gt hPos)
    have hNot : ¬Utf8.isBoundary (lead :: (tails ++ rest)) (k + 1) = true := by
      intro hBoundary
      have hLead := ((Utf8.isBoundary_iff (Nat.succ_pos k)).mp hBoundary).2
      have hGet : (lead :: (tails ++ rest))[k + 1]? = some tails[k] := by
        rw [List.getElem?_cons_succ, List.getElem?_append_left hi, List.getElem?_eq_getElem hi]
      exact absurd (hLead _ hGet) (by rw [hTails _ (List.getElem_mem hi)]; decide)
    have hLength : k + 1 < (lead :: (tails ++ rest)).length := by simp; omega
    exact ⟨fun hStart => hNot (h mask hMask _ hLength (.inl hStart)),
      fun hStop => hNot (h mask hMask _ hLength (.inr hStop))⟩
  rw [Bool.eq_iff_iff, List.any_eq_true, List.any_eq_true]
  apply exists_congr
  intro mask
  apply and_congr_right
  intro hMask
  simp only [OffsetRange.contains_iff]
  have hStart := hInside mask hMask (mask.start - offset)
  have hStop := hInside mask hMask (mask.stop - offset)
  omega

theorem blank_eq_self {masks : List OffsetRange} {offset : Nat} {s : Bytes}
    (h : ∀ j < s.length, masks.any (·.contains (offset + j)) = false) : blank masks offset s = s := by
  induction s generalizing offset with
  | nil => rfl
  | cons b s ih =>
    have hHead := h 0 (Nat.succ_pos _)
    rw [Nat.add_zero] at hHead
    rw [blank, hHead, ih, if_neg (by simp)]
    intro j hj
    rw [Nat.add_assoc, Nat.add_comm 1]
    exact h (j + 1) (Nat.succ_lt_succ hj)

theorem ascii_of_mem_blank {masks : List OffsetRange} {offset : Nat} {s : Bytes}
    (h : ∀ j < s.length, masks.any (·.contains (offset + j)) = true) : ∀ b ∈ blank masks offset s, b.toNat < 0x80 := by
  induction s generalizing offset with
  | nil => exact fun b hb => absurd hb List.not_mem_nil
  | cons b s ih =>
    have hHead := h 0 (Nat.succ_pos _)
    rw [Nat.add_zero] at hHead
    intro c hc
    rw [blank, hHead] at hc
    rcases List.mem_cons.mp hc with rfl | hc
    · split
      · decide
      · rename_i hFeed
        have hFeed : b = Byte.lineFeed := by simpa using hFeed
        rw [hFeed]
        decide
    · refine ih (fun j hj => ?_) c hc
      rw [Nat.add_assoc, Nat.add_comm 1]
      exact h (j + 1) (Nat.succ_lt_succ hj)

theorem isText_blank {masks : List OffsetRange} {offset : Nat} {s : Bytes} (hs : Utf8.IsText s)
    (h : KeepsCharacters masks offset s) : Utf8.IsText (blank masks offset s) := by
  induction hs generalizing offset with
  | nil => exact .nil
  | @cons c lead tails rest hEncodes hRest ih =>
    have hAny := fun j (hj : j < (lead :: tails).length) =>
      h.any_contains (j := j) hEncodes.tails_tail (Nat.le_of_lt_succ hj)
    rw [← List.cons_append] at h ⊢
    rw [blank_append]
    refine Utf8.IsText.append ?_ (ih h.drop)
    cases hMasked : masks.any (·.contains offset) with
    | true => exact .of_ascii (ascii_of_mem_blank fun j hj => (hAny j hj).trans hMasked)
    | false =>
      rw [blank_eq_self fun j hj => (hAny j hj).trans hMasked, ← List.append_nil tails]
      exact .cons hEncodes .nil

end ScriptBlock

namespace Element

def contentText (text : Bytes) (element : Element) : Bytes :=
  (text.take element.content.stop).drop element.content.start

namespace IsPlaced

variable {text : Bytes} {element : Element}

theorem isBoundary_start (h : element.IsPlaced text) (hText : Utf8.IsText text) :
    Utf8.isBoundary text element.content.start = true := by
  obtain ⟨i, hi, hGreater⟩ := h.opened
  rw [hi]
  exact hText.isBoundary_succ hGreater (by decide)

theorem isBoundary_stop (h : element.IsPlaced text) : Utf8.isBoundary text element.content.stop = true := by
  rcases h.closed with hEnd | hLess
  · rw [hEnd]
    exact Utf8.isBoundary_length text
  · exact Utf8.isBoundary_of_not_tail hLess (by decide)

theorem isContent (h : element.IsPlaced text) (hText : Utf8.IsText text) : element.content.IsContent text :=
  ⟨h.start_le_stop, h.stop_le_length, h.isBoundary_start hText, h.isBoundary_stop, h.opened⟩

theorem isText_content (h : element.IsPlaced text) (hText : Utf8.IsText text) :
    Utf8.IsText (element.contentText text) :=
  hText.slice h.start_le_stop (h.isBoundary_start hText) h.isBoundary_stop

theorem keepsCharacters (h : element.IsPlaced text) (hText : Utf8.IsText text) :
    ScriptBlock.KeepsCharacters element.masks element.content.start (element.contentText text) := by
  intro mask hMask i hi hEnd
  obtain ⟨⟨first, hFirst, hFirstAscii⟩, ⟨j, last, hStop, hLast, hLastAscii⟩⟩ := h.masks mask hMask
  have hBoundary : Utf8.isBoundary text (element.content.start + i) = true := by
    rcases hEnd with hStart | hEnd
    · rw [← hStart]
      exact Utf8.isBoundary_of_not_tail hFirst ((Utf8.isTail_eq_false_iff first).mpr (.inl hFirstAscii))
    · rw [← hEnd, hStop]
      exact hText.isBoundary_succ hLast hLastAscii
  exact Utf8.isBoundary_slice hBoundary hi

theorem scriptText_eq (h : element.IsPlaced text) (hText : Utf8.IsText text) :
    ScriptBlock.scriptText text element =
      ScriptBlock.blank element.masks element.content.start (element.contentText text) := by
  rw [ScriptBlock.scriptText, ScriptBlock.shown]
  split
  · rename_i hMasks
    rw [List.isEmpty_iff.mp hMasks, ScriptBlock.blank_eq_self (by simp)]
    rfl
  · exact (ScriptBlock.isText_blank (h.isText_content hText) (h.keepsCharacters hText)).repair_eq

end IsPlaced
end Element

/-- What a document says of a script: where its content stands, its text and its attributes. -/
structure Extract where
  content : OffsetRange
  text : Bytes
  attributes : List Attribute
  deriving DecidableEq

def ScriptBlock.extract (block : ScriptBlock) : Extract := ⟨block.content, block.text, block.attributes⟩

def Element.extract (text : Bytes) (element : Element) : Extract :=
  ⟨element.content, ScriptBlock.scriptText text element, element.attributes⟩

namespace ScriptBlock

/-- A block whose fields describe one stretch of its document. -/
structure IsPlaced (document : Document) (block : ScriptBlock) : Prop where
  start_le_stop : block.content.start ≤ block.content.stop
  stop_le_length : block.content.stop ≤ document.text.length
  opened : ∃ i, block.content.start = i + 1 ∧ document.text[i]? = some Byte.greater
  closed : block.content.stop = document.text.length ∨ document.text[block.content.stop]? = some Byte.less
  offset_eq : block.offset = document.toRawOffset block.content.start
  endOffset_eq : block.endOffset = document.toRawOffset block.content.stop
  start_eq : block.start = document.text.place block.content.start
  isText : Utf8.IsText block.text
  sameBreaks : Bytes.SameBreaks block.text ((document.text.take block.content.stop).drop block.content.start)
  html : block.mode = .html → block.text = (document.text.take block.content.stop).drop block.content.start

namespace IsPlaced

variable {document : Document} {block : ScriptBlock}

theorem content_start_add_length (h : block.IsPlaced document) :
    block.content.start + block.text.length = block.content.stop := by
  have hLe := h.start_le_stop
  have hStop := h.stop_le_length
  rw [h.sameBreaks.length_eq, List.length_drop, List.length_take]
  omega

theorem start_add_le_length (h : block.IsPlaced document) {o : Nat} (ho : o ≤ block.text.length) :
    block.content.start + o ≤ document.text.length := by
  have hLength := h.content_start_add_length
  have hStop := h.stop_le_length
  omega

theorem place_add (h : block.IsPlaced document) {o : Nat} (ho : o ≤ block.text.length) :
    document.text.place (block.content.start + o) = block.start.after (block.text.take o) := by
  have hLength := h.content_start_add_length
  rw [Bytes.place_add, h.start_eq, Position.after_of_sameBreaks (h.sameBreaks.take o), List.drop_take, List.take_take,
    Nat.min_eq_left (by omega)]

theorem isBoundary_add (h : block.IsPlaced document) (hText : Utf8.IsText document.text) (hHtml : block.mode = .html)
    {o : Nat} (ho : Utf8.isBoundary block.text o = true) :
    Utf8.isBoundary document.text (block.content.start + o) = true := by
  have hLength := h.content_start_add_length
  rcases Nat.eq_zero_or_pos o with rfl | hPos
  · obtain ⟨i, hi, hGreater⟩ := h.opened
    rw [Nat.add_zero, hi]
    exact hText.isBoundary_succ hGreater (by decide)
  · rcases Nat.lt_or_eq_of_le (Utf8.isBoundary_le ho) with hLt | hEq
    · rw [Utf8.isBoundary_iff hPos] at ho
      rw [Utf8.isBoundary_iff (Nat.add_pos_right _ hPos)]
      refine ⟨h.start_add_le_length (Nat.le_of_lt hLt), ?_⟩
      intro b hb
      refine ho.2 b ?_
      rw [h.html hHtml, List.getElem?_drop, List.getElem?_take_of_lt (by omega), hb]
    · rw [hEq, hLength]
      rcases h.closed with hEnd | hLess
      · rw [hEnd]
        exact Utf8.isBoundary_length _
      · exact Utf8.isBoundary_of_not_tail hLess (by decide)

end IsPlaced

/-- Blocks whose contents follow each other, each apart from the next, with growing indices. -/
def InOrder (blocks : List ScriptBlock) : Prop :=
  blocks.Pairwise fun a b => a.content.stop < b.content.start ∧ a.index < b.index

theorem InOrder.eq_of_index {blocks : List ScriptBlock} (h : InOrder blocks) {a b : ScriptBlock} (ha : a ∈ blocks)
    (hb : b ∈ blocks) (hIndex : a.index = b.index) : a = b := by
  rcases eq_or_rel_of_pairwise h ha hb with hEq | ⟨-, hLt⟩ | ⟨-, hLt⟩
  · exact hEq
  · omega
  · omega

/-- Blocks of one document in their order: all of them or some. -/
structure Arranged (document : Document) (blocks : List ScriptBlock) : Prop where
  isSmall : document.IsSmall
  isPlaced : ∀ block ∈ blocks, block.IsPlaced document
  inOrder : InOrder blocks

theorem Arranged.sublist {document : Document} {blocks part : List ScriptBlock} (h : Arranged document blocks)
    (hPart : part.Sublist blocks) : Arranged document part :=
  ⟨h.isSmall, fun block hBlock => h.isPlaced block (hPart.subset hBlock), h.inOrder.sublist hPart⟩

theorem endOffset_ofElement {document : Document} {element : Element} (hSmall : document.IsSmall)
    (h : element.IsPlaced document.text) (mode : MarkupMode) (index : Nat) :
    (ofElement document mode index element).endOffset = document.toRawOffset element.content.stop := by
  have hStart := Document.cut_toRawOffset hSmall (Nat.le_trans h.start_le_stop h.stop_le_length)
  have hStop := Document.cut_toRawOffset hSmall h.stop_le_length
  have hRaw : document.raw.length < offsetLimit := Nat.lt_trans hSmall (by decide)
  exact wrapOffset_add_offsetDistance (Nat.lt_of_le_of_lt hStart.le_length hRaw)
    (Nat.lt_of_le_of_lt hStop.le_length hRaw)

theorem isPlaced_ofElement {document : Document} {mode : MarkupMode} {index : Nat} {element : Element}
    (hSmall : document.IsSmall) (hText : Utf8.IsText document.text) (h : element.IsPlaced document.text)
    (hHtml : mode = .html → element.masks = []) : (ofElement document mode index element).IsPlaced document := by
  have hScript : (ofElement document mode index element).text =
      blank element.masks element.content.start (element.contentText document.text) := h.scriptText_eq hText
  have hStart : element.content.start ≤ document.text.length := Nat.le_trans h.start_le_stop h.stop_le_length
  refine ⟨h.start_le_stop, h.stop_le_length, h.opened, h.closed, rfl, endOffset_ofElement hSmall h mode index,
    Document.position_eq_place hSmall hStart, ?_, ?_, ?_⟩
  · rw [hScript]
    exact isText_blank (h.isText_content hText) (h.keepsCharacters hText)
  · rw [hScript]
    exact sameBreaks_blank _ _ _
  · intro hMode
    rw [hScript, hHtml hMode, blank_eq_self (by simp)]
    rfl

theorem exists_of_mem_number {document : Document} {mode : MarkupMode} {index : Nat} {elements : List Element}
    {block : ScriptBlock} (h : block ∈ number document mode index elements) :
    ∃ element ∈ elements, ∃ i ≥ index, block = ofElement document mode i element := by
  induction elements generalizing index with
  | nil => cases h
  | cons element more ih =>
    rcases List.mem_cons.mp h with rfl | h
    · exact ⟨element, List.mem_cons_self, index, Nat.le_refl _, rfl⟩
    · obtain ⟨other, hMem, i, hi, hEq⟩ := ih h
      exact ⟨other, List.mem_cons_of_mem _ hMem, i, Nat.le_of_succ_le hi, hEq⟩

theorem index_of_getElem?_number {document : Document} {mode : MarkupMode} {index i : Nat} {elements : List Element}
    {block : ScriptBlock} (h : (number document mode index elements)[i]? = some block) : block.index = index + i := by
  induction elements generalizing index i with
  | nil => cases h
  | cons element more ih =>
    cases i with
    | zero =>
      cases h
      rfl
    | succ i =>
      rw [ih h]
      omega

theorem inOrder_number {document : Document} {mode : MarkupMode} {index : Nat} {elements : List Element}
    (h : Element.InOrder elements) : InOrder (number document mode index elements) := by
  induction elements generalizing index with
  | nil => exact .nil
  | cons element more ih =>
    obtain ⟨hFirst, hMore⟩ := List.pairwise_cons.mp h
    refine .cons ?_ (ih hMore)
    intro block hBlock
    obtain ⟨other, hMem, i, hi, rfl⟩ := exists_of_mem_number hBlock
    exact ⟨hFirst other hMem, hi⟩

theorem map_extract_number (document : Document) (mode : MarkupMode) (index : Nat) (elements : List Element) :
    (number document mode index elements).map ScriptBlock.extract = elements.map (Element.extract document.text) := by
  induction elements generalizing index with
  | nil => rfl
  | cons element more ih =>
    rw [number, List.map_cons, ih, List.map_cons]
    rfl

end ScriptBlock

namespace Document

/-- A document that a scan counts right: one of characters, and in XML without a byte order mark. -/
structure IsPlain (document : Document) (mode : MarkupMode) : Prop where
  isSmall : document.IsSmall
  isText : Utf8.IsText document.raw
  noMark : mode = .xml → ¬Xml.byteOrderMark <+: document.text

theorem isPlain_encode {source : String} {mode : MarkupMode} (hSize : (Utf8.encode source).length < wordLimit)
    (hMark : mode = .xml → ¬Xml.byteOrderMark <+: (Document.mk (Utf8.encode source)).text) :
    (Document.mk (Utf8.encode source)).IsPlain mode :=
  ⟨hSize, Utf8.isText_encode source, hMark⟩

theorem elements_placed {document : Document} {mode : MarkupMode} {elements : List Element}
    (hPlain : document.IsPlain mode) (h : document.elements mode = .ok elements) :
    (∀ element ∈ elements, element.IsPlaced document.text ∧ (mode = .html → element.masks = [])) ∧
      Element.InOrder elements := by
  cases mode with
  | html =>
    cases h
    exact ⟨fun element hMem => ⟨Html.elements_placed _ element hMem, fun _ => Html.masks_eq_nil hMem⟩,
      Html.elements_inOrder _⟩
  | xml =>
    obtain ⟨hPlaced, hOrder⟩ := Xml.elements_placed_of_no_mark (hPlain.noMark rfl) h
    exact ⟨fun element hMem => ⟨hPlaced element hMem, fun hMode => nomatch hMode⟩, hOrder⟩

theorem scan_arranged {document : Document} {options : ScanOptions} {blocks : List ScriptBlock}
    (hPlain : document.IsPlain options.mode) (h : document.scan options = .ok blocks) :
    ScriptBlock.Arranged document blocks ∧ ∀ block ∈ blocks, block.mode = options.mode := by
  rw [scan] at h
  split at h
  · cases h
  · rename_i elements hElements
    cases h
    obtain ⟨hPlaced, hOrder⟩ := elements_placed hPlain hElements
    refine ⟨⟨hPlain.isSmall, ?_, ScriptBlock.inOrder_number (hOrder.sublist List.filter_sublist)⟩, ?_⟩
    · intro block hBlock
      obtain ⟨element, hMem, i, -, rfl⟩ := ScriptBlock.exists_of_mem_number hBlock
      obtain ⟨hElement, hMasks⟩ := hPlaced element (List.mem_filter.mp hMem).1
      exact ScriptBlock.isPlaced_ofElement hPlain.isSmall (Newline.isText_normalize hPlain.isText) hElement hMasks
    · intro block hBlock
      obtain ⟨element, -, i, -, rfl⟩ := ScriptBlock.exists_of_mem_number hBlock
      rfl

theorem exists_element_of_scan {document : Document} {options : ScanOptions} {blocks : List ScriptBlock}
    {elements : List Element} {block : ScriptBlock} (hPlain : document.IsPlain options.mode)
    (hElements : document.elements options.mode = .ok elements) (h : document.scan options = .ok blocks)
    (hBlock : block ∈ blocks) :
    ∃ element ∈ elements, block.content = element.content ∧
      block.text = ScriptBlock.blank element.masks element.content.start (element.contentText document.text) := by
  rw [scan, hElements] at h
  cases h
  obtain ⟨element, hMem, i, -, rfl⟩ := ScriptBlock.exists_of_mem_number hBlock
  have hElement := (List.mem_filter.mp hMem).1
  refine ⟨element, hElement, rfl, ?_⟩
  exact ((elements_placed hPlain hElements).1 element hElement).1.scriptText_eq (Newline.isText_normalize hPlain.isText)

theorem scan_eq_ok {document : Document} {options : ScanOptions} {blocks : List ScriptBlock}
    (h : document.scan options = .ok blocks) :
    ∃ elements, document.elements options.mode = .ok elements ∧
      blocks = ScriptBlock.number document options.mode 0 (elements.filter fun element =>
        Attribute.denoteScript options.mode options.mediaTypes element.attributes) := by
  rw [scan] at h
  split at h
  · cases h
  · rename_i elements hElements
    cases h
    exact ⟨elements, hElements, rfl⟩

theorem index_of_scan {document : Document} {options : ScanOptions} {blocks : List ScriptBlock} {i : Nat}
    {block : ScriptBlock} (h : document.scan options = .ok blocks) (hBlock : blocks[i]? = some block) :
    block.index = i := by
  rw [scan] at h
  split at h
  · cases h
  · cases h
    rw [ScriptBlock.index_of_getElem?_number hBlock, Nat.zero_add]

theorem scan_extracts (document : Document) (options : ScanOptions) {elements : List Element}
    (h : document.elements options.mode = .ok elements) :
    ∃ blocks, document.scan options = .ok blocks ∧
      blocks.map ScriptBlock.extract = (elements.map (Element.extract document.text)).filter (fun found =>
        Attribute.denoteScript options.mode options.mediaTypes found.attributes) ∧
      ∀ (i : Nat) (block : ScriptBlock), blocks[i]? = some block → block.index = i := by
  have hScan : document.scan options = .ok (ScriptBlock.number document options.mode 0 (elements.filter fun element =>
      Attribute.denoteScript options.mode options.mediaTypes element.attributes)) := by
    rw [scan, h]
  refine ⟨_, hScan, ?_, fun i block hBlock => index_of_scan hScan hBlock⟩
  rw [ScriptBlock.map_extract_number, List.filter_map]
  rfl

end Document
end ScriptLint
