import ScriptLint.Proofs.Lint.Range
import ScriptLint.Proofs.Markup.HtmlStep

/-!
# Scripts of one long line

A script that is not closed and has no line break fills one virtual line, whatever its length, alone or after another
script. Columns are kept in 32 bits, so a range far out on that line is mapped to where the low bits of its ends point.
-/
namespace ScriptLint
set_option autoImplicit false

/-- A text on one line, without markup. -/
structure Bytes.IsFlat (s : Bytes) : Prop where
  noMarkup : Byte.less ∉ s
  noBreak : Byte.lineFeed ∉ s
  noReturn : Byte.carriageReturn ∉ s

theorem Bytes.place_of_noBreak {s : Bytes} (h : Byte.lineFeed ∉ s) {o : Nat} (ho : o ≤ s.length) :
    s.place o = ⟨0, o⟩ := by
  rw [place, Position.after_of_notMem _ (fun hMem => h (List.mem_of_mem_take hMem)), List.length_take,
    Nat.min_eq_left ho, Nat.zero_add]

theorem LineIndex.position_of_noBreak {s : Bytes} (h : Byte.lineFeed ∉ s) {o : Nat} (ho : o ≤ s.length) :
    (ofBytes s).position o = ⟨0, wrapWord o⟩ := by
  rw [position, lineColumn_ofBytes ho, Bytes.place_of_noBreak h ho]
  rfl

theorem Bytes.isFlat_replicate (n : Nat) : IsFlat (List.replicate n 0x61) := by
  refine ⟨?_, ?_, ?_⟩ <;> exact fun hMem => absurd (List.eq_of_mem_replicate hMem) (by decide)

namespace Document

variable {document : Document}

theorem text_of_noReturn (hReturn : Byte.carriageReturn ∉ document.raw) : document.text = document.raw := by
  have hText := Newline.normalize_append_of_notMem hReturn []
  rwa [List.append_nil, Newline.normalize, List.append_nil] at hText

variable (hReturn : Byte.carriageReturn ∉ document.raw) (hLine : Byte.lineFeed ∉ document.raw)
include hReturn hLine

theorem position_of_noBreak {o : Nat} (ho : o ≤ document.raw.length) : document.position o = ⟨0, wrapWord o⟩ := by
  rw [position, lines, text_of_noReturn hReturn]
  exact LineIndex.position_of_noBreak hLine ho

theorem toRawOffset_of_noBreak {o : Nat} (ho : o ≤ document.raw.length) : document.toRawOffset o = wrapWord o := by
  rw [toRawOffset, position_of_noBreak hReturn hLine ho]
  exact Nat.zero_add _

end Document

namespace Html

def scriptTag : Bytes := Byte.less :: (scriptName ++ [Byte.greater])

theorem contentLength_of_noMarkup (name : Bytes) {s : Bytes} (h : Byte.less ∉ s) : contentLength name s = s.length := by
  apply Nat.le_antisymm (contentLength_le name s)
  rcases head?_drop_contentLength name s with hEnd | hMarkup
  · exact List.drop_eq_nil_iff.mp hEnd
  · exact absurd (List.mem_of_mem_drop (List.mem_of_head? hMarkup)) h

theorem constructAt_scriptTag (after : Bytes) :
    let length := contentLength scriptName after
    constructAt (scriptName ++ Byte.greater :: after) =
      .script [] 7 length (7 + length + closingLength scriptName (after.drop length)) := by
  intro length
  have hElement : constructAt (scriptName ++ Byte.greater :: after) = elementAt (scriptName ++ Byte.greater :: after) :=
    rfl
  have hName : (scriptName ++ Byte.greater :: after).takeWhile isNameByte = scriptName := rfl
  have hTag : (scriptName ++ Byte.greater :: after).length - after.length = 7 := by
    have hScript : scriptName.length = 6 := rfl
    rw [List.length_append, List.length_cons]
    omega
  have hScript : Bytes.eqIgnoreCase scriptName scriptName = true := by decide
  rw [hElement, elementAt]
  simp only [hName, List.drop_left, attributes?_greater, hTag, hScript, if_true]
  rfl

/-- A script that is not closed runs to the end of the text. -/
theorem elementsFrom_scriptTag {script : Bytes} (h : Byte.less ∉ script) (offset : Nat) :
    elementsFrom offset (scriptTag ++ script) = [⟨offset, ⟨offset + 8, offset + 8 + script.length⟩, [], []⟩] := by
  have hText : scriptTag ++ script = Byte.less :: (scriptName ++ Byte.greater :: script) := rfl
  have hConstruct : constructAt (scriptName ++ Byte.greater :: script) =
      .script [] 7 script.length (7 + script.length) := by
    rw [constructAt_scriptTag, contentLength_of_noMarkup scriptName h, List.drop_length]
    rfl
  have hEnd : (scriptName ++ Byte.greater :: script).drop (7 + script.length) = [] := by
    rw [Nat.add_comm]
    exact List.drop_length
  rw [hText, elementsFrom_less, hConstruct, Construct.length, hEnd, elementsFrom]
  rfl

end Html

namespace Xml

def childTag : Bytes := [Byte.less, 0x62, Byte.slash, Byte.greater]

def closingTag : Bytes := Byte.less :: Byte.slash :: (scriptName ++ [Byte.greater])

def withChild (script : Bytes) : Bytes := Html.scriptTag ++ (childTag ++ (script ++ closingTag))

theorem elements_withChild {script : Bytes} (h : Byte.less ∉ script) :
    elements (withChild script) = .ok [⟨0, ⟨8, 12 + script.length⟩, [], [⟨8, 12⟩]⟩] := by
  have hMark : byteOrderMark.isPrefixOf (withChild script) = false := rfl
  have hScript : (withChild script).drop 12 = script ++ closingTag := rfl
  have hClosing : (withChild script).drop (12 + script.length) = closingTag := by
    rw [← List.drop_drop, hScript, List.drop_left]
  have hEnd : (withChild script).drop (12 + script.length + 9) = [] := by
    rw [← List.drop_drop, hClosing]
    rfl
  have hTag : markupAt (scriptName ++ Byte.greater :: (childTag ++ (script ++ closingTag))) =
      .ok (.opening scriptName, scriptName) := rfl
  have hChild : markupAt (0x62 :: Byte.slash :: Byte.greater :: (script ++ closingTag)) =
      .ok (.empty [0x62], [0x62, Byte.slash]) := rfl
  have hClose : markupAt (Byte.slash :: (scriptName ++ [Byte.greater])) =
      .ok (.closing scriptName, Byte.slash :: scriptName) := rfl
  have hOpened : step 0 8 (.opening scriptName) ⟨0, none⟩ = .ok (⟨1, some ⟨0, 8, [], 0, []⟩⟩, none) :=
    eq_ok_of_toOption (by decide +kernel)
  have hMasked : step 8 12 (.empty [0x62]) ⟨1, some ⟨0, 8, [], 0, []⟩⟩ =
      .ok (⟨1, some ⟨0, 8, [], 0, [⟨8, 12⟩]⟩⟩, none) :=
    eq_ok_of_toOption (by decide +kernel)
  have hClosed : step (12 + script.length) (12 + script.length + 9) (.closing scriptName)
      ⟨1, some ⟨0, 8, [], 0, [⟨8, 12⟩]⟩⟩ =
      .ok (⟨0, none⟩, some ⟨0, ⟨8, 12 + script.length⟩, [], [⟨8, 12⟩]⟩) := rfl
  have hRest : elementsFrom (withChild script) (12 + script.length + 9) ⟨0, none⟩ [] = .ok [] := by
    rw [elementsFrom.eq_def, hEnd]
    rfl
  -- from the closing tag back to the start
  have hLast := (elementsFrom_markup hClosing rfl hClose hClosed).trans (congrArg _ hRest)
  have hInside := (elementsFrom_text _ h hScript).trans hLast
  have hBefore := (elementsFrom_markup rfl rfl hChild hMasked).trans (congrArg _ hInside)
  rw [elements, hMark, if_neg Bool.false_ne_true]
  exact (elementsFrom_markup rfl rfl hTag hOpened).trans (congrArg _ hBefore)

theorem contentText_withChild (script : Bytes) :
    Element.contentText (withChild script) ⟨0, ⟨8, 12 + script.length⟩, [], [⟨8, 12⟩]⟩ = childTag ++ script := by
  have hSplit : withChild script = (Html.scriptTag ++ (childTag ++ script)) ++ closingTag := by
    simp only [withChild, List.append_assoc]
  have hTake : (withChild script).take (12 + script.length) = Html.scriptTag ++ (childTag ++ script) := by
    rw [hSplit]
    apply List.take_left'
    rw [List.length_append, List.length_append, ← Nat.add_assoc]
    rfl
  rw [Element.contentText, hTake]
  rfl

theorem blank_withChild (script : Bytes) :
    ScriptBlock.blank [⟨8, 12⟩] 8 (childTag ++ script) = List.replicate 4 Byte.space ++ script := by
  have hChild : ScriptBlock.blank [⟨8, 12⟩] 8 childTag = List.replicate 4 Byte.space := by decide
  have hRest : ScriptBlock.blank [⟨8, 12⟩] 12 script = script := by
    apply ScriptBlock.blank_eq_self
    intro j _
    simp [OffsetRange.contains]
  rw [ScriptBlock.blank_append, hChild]
  exact congrArg _ hRest

end Xml

/-- The document that is one script, which is not closed. -/
def Document.ofScript (script : Bytes) : Document := ⟨Html.scriptTag ++ script⟩

theorem Utf8.flatMap_replicate (n : Nat) :
    (String.ofList (List.replicate n 'a')).toList.flatMap String.utf8EncodeChar = List.replicate n 0x61 := by
  have hLetter : String.utf8EncodeChar 'a' = [0x61] := by decide
  rw [String.toList_ofList, List.flatMap_replicate, hLetter, List.flatten_replicate_singleton]

theorem Document.ofScript_replicate (n : Nat) :
    ofScript (List.replicate n 0x61) = ⟨Utf8.encode ("<script>" ++ String.ofList (List.replicate n 'a'))⟩ := by
  rw [ofScript, Utf8.encode, String.toList_append, List.flatMap_append, Utf8.flatMap_replicate]
  rfl

namespace Document

variable {script : Bytes}

theorem notMem_ofScript {b : UInt8} (hb : b ∉ Html.scriptTag) (h : b ∉ script) : b ∉ (ofScript script).raw := by
  rw [ofScript, List.mem_append, not_or]
  exact ⟨hb, h⟩

theorem scan_ofScript (h : script.IsFlat) : ∃ block, (ofScript script).scan {} = .ok [block] ∧ block.index = 0 ∧
    block.text = script ∧ block.start = ⟨0, 8⟩ := by
  have hReturn : Byte.carriageReturn ∉ (ofScript script).raw := notMem_ofScript (by decide) h.noReturn
  have hLine : Byte.lineFeed ∉ (ofScript script).raw := notMem_ofScript (by decide) h.noBreak
  have hText : (ofScript script).text = Html.scriptTag ++ script := text_of_noReturn hReturn
  have hElements : Html.elements (ofScript script).text = [⟨0, ⟨8, 8 + script.length⟩, [], []⟩] := by
    rw [hText]
    exact Html.elementsFrom_scriptTag h.noMarkup 0
  refine ⟨ScriptBlock.ofElement (ofScript script) .html 0 ⟨0, ⟨8, 8 + script.length⟩, [], []⟩, ?_, rfl, ?_, ?_⟩
  · rw [scan, elements]
    simp only [hElements]
    rfl
  · have hAll : (Html.scriptTag ++ script).take (8 + script.length) = Html.scriptTag ++ script :=
      List.take_of_length_le (Nat.le_of_eq List.length_append)
    change ((ofScript script).text.take (8 + script.length)).drop 8 = script
    rw [hText, hAll]
    rfl
  · refine position_of_noBreak hReturn hLine ?_
    rw [ofScript, List.length_append]
    exact Nat.le_add_right _ _

end Document

/-- A script that begins at column eight, as the only line of a virtual source. -/
def VirtualSource.ofLine (script : Bytes) (newline : Newline) : VirtualSource :=
  ⟨[⟨script, [⟨0, 0, 8, 8, script.length⟩]⟩], newline⟩

theorem VirtualSource.build_eq_ofLine {block : ScriptBlock} (hBreak : Byte.lineFeed ∉ block.text)
    (hIndex : block.index = 0) (hStart : block.start = ⟨0, 8⟩) (newline : Newline) (indent : Indent) :
    build newline [block] [IndentPlan.ofBlock block indent] = ofLine block.text newline := by
  have hLines : block.lines = [block.text] := Bytes.lines_of_notMem hBreak
  have hPlan : (IndentPlan.ofBlock block indent).lines = [⟨.first, 0⟩] := by
    rw [IndentPlan.ofBlock, hLines]
    rfl
  have hSeen : (IndentPlan.ofBlock block indent).transformed block = [block.text] := by
    rw [IndentPlan.transformed, hLines, hPlan]
    rfl
  change VirtualSource.mk (placeBlock [] block (IndentPlan.ofBlock block indent)) newline = _
  rw [placeBlock, hSeen, hPlan, hStart, hIndex]
  rfl

namespace Remapper

variable {document : Document} {script : Bytes}

theorem virtualPosition_ofLine (document : Document) (hBreak : Byte.lineFeed ∉ script) (newline : Newline) {o : Nat}
    (ho : o ≤ script.length) :
    (Remapper.mk document (.ofLine script newline)).virtualPosition o = .ok ⟨0, wrapWord o⟩ := by
  have hText : (VirtualSource.ofLine script newline).text = script := rfl
  rw [virtualPosition, VirtualSource.lineIndex, hText, LineIndex.length_ofBytes, if_neg (Nat.not_lt.mpr ho),
    LineIndex.position_of_noBreak hBreak ho]

theorem segment_ofLine (document : Document) (newline : Newline) {c : Nat} (hc : c ≤ script.length) :
    (Remapper.mk document (.ofLine script newline)).segment ⟨0, c⟩ = .ok ⟨0, 0, 8, 8, script.length⟩ := by
  simp [segment, VirtualSource.segments, VirtualSource.ofLine, Segment.contains, Segment.virtualEnd, hc]

theorem rawOffset_of_noBreak (hLine : Byte.lineFeed ∉ document.raw) (source : VirtualSource) {c : Nat}
    (hFits : c < wordLimit) (hc : c ≤ document.raw.length) : (Remapper.mk document source).rawOffset 0 c = .ok c := by
  have hOffset : document.rawOffset? ⟨0, c⟩ = some c :=
    Document.rawOffset?_eq_some_iff.mpr ⟨hc, Bytes.place_of_noBreak hLine hc⟩
  simp only [rawOffset, clampWord_of_lt hFits, hOffset]

theorem range_ofLine (hLine : Byte.lineFeed ∉ document.raw) (hInside : 8 + script.length ≤ document.raw.length)
    (hBreak : Byte.lineFeed ∉ script) (newline : Newline) {range : OffsetRange} (hLe : range.start ≤ range.stop)
    (hLength : range.stop ≤ script.length) (hOrder : wrapWord range.start ≤ wrapWord range.stop)
    (hFits : 8 + wrapWord range.stop < wordLimit) :
    (Remapper.mk document (.ofLine script newline)).range range =
      .ok ⟨8 + wrapWord range.start, 8 + wrapWord range.stop⟩ := by
  have hStop : wrapWord range.stop ≤ script.length := Nat.le_trans (Nat.mod_le _ _) hLength
  have hStart := Nat.le_trans hOrder hStop
  rw [Remapper.range, if_neg (Nat.not_lt.mpr hLe),
    virtualPosition_ofLine document hBreak newline (Nat.le_trans hLe hLength),
    virtualPosition_ofLine document hBreak newline hLength]
  have hBetween : (Remapper.mk document (.ofLine script newline)).holdsBetween 0 0 0 = true := rfl
  -- whole lines or not, the line loses no indentation
  have hColumn : ∀ {c}, (wrapWord range.start = 0 ∧ wrapWord range.stop = 0 → c = 0) →
      (if wrapWord range.start = 0 ∧ wrapWord range.stop = 0 then 8
        else (Segment.mk 0 0 8 8 script.length).toDocument c) = 8 + c := by
    intro c hc
    split
    · rename_i hWhole
      rw [hc hWhole]
    · rfl
  simp only [bind, Except.bind, segment_ofLine document newline hStart, segment_ofLine document newline hStop, hBetween,
    ne_eq, not_true_eq_false, Bool.not_true, Bool.false_eq_true, or_self, if_false, hColumn And.left, hColumn And.right,
    rawOffset_of_noBreak hLine _ (c := 8 + wrapWord range.start) (by omega) (by omega),
    rawOffset_of_noBreak hLine _ (c := 8 + wrapWord range.stop) hFits (by omega)]
  rw [Nat.max_eq_left (Nat.add_le_add_left hOrder 8)]

/-- However long its one line, the ranges of a script are mapped by the low bits of their ends. -/
theorem range_ofBlock (hLine : Byte.lineFeed ∉ document.raw) {block : ScriptBlock}
    (hInside : 8 + block.text.length ≤ document.raw.length) (hBreak : Byte.lineFeed ∉ block.text)
    (hIndex : block.index = 0) (hStart : block.start = ⟨0, 8⟩) (newline : Newline) (indent : Indent)
    {range : OffsetRange} (hLe : range.start ≤ range.stop) (hLength : range.stop ≤ block.text.length)
    (hOrder : wrapWord range.start ≤ wrapWord range.stop) (hFits : 8 + wrapWord range.stop < wordLimit) :
    (Remapper.mk document (.ofBlocks newline indent [block])).range range =
      .ok ⟨8 + wrapWord range.start, 8 + wrapWord range.stop⟩ := by
  have hSource : VirtualSource.ofBlocks newline indent [block] = .ofLine block.text newline :=
    VirtualSource.build_eq_ofLine hBreak hIndex hStart newline indent
  rw [hSource]
  exact range_ofLine hLine hInside hBreak newline hLe hLength hOrder hFits

theorem exists_scan_range_ofScript (h : script.IsFlat) (newline : Newline) (indent : Indent) :
    ∃ blocks, (Document.ofScript script).scan {} = .ok blocks ∧
    ∀ range : OffsetRange, range.start ≤ range.stop → range.stop ≤ script.length →
      wrapWord range.start ≤ wrapWord range.stop → 8 + wrapWord range.stop < wordLimit →
      (Remapper.mk (.ofScript script) (.ofBlocks newline indent blocks)).range range =
        .ok ⟨8 + wrapWord range.start, 8 + wrapWord range.stop⟩ := by
  obtain ⟨block, hScan, hIndex, rfl, hStart⟩ := Document.scan_ofScript h
  refine ⟨[block], hScan, ?_⟩
  intro range
  refine range_ofBlock (Document.notMem_ofScript (by decide) h.noBreak) ?_ h.noBreak hIndex hStart newline indent
  rw [Document.ofScript, List.length_append]
  exact Nat.le_refl _

end Remapper

def Document.withChild (script : Bytes) : Document := ⟨Xml.withChild script⟩

theorem Document.withChild_replicate (n : Nat) : withChild (List.replicate n 0x61) =
    ⟨Utf8.encode ("<script><b/>" ++ String.ofList (List.replicate n 'a') ++ "</script>")⟩ := by
  rw [withChild, Utf8.encode, String.toList_append, String.toList_append, List.flatMap_append, List.flatMap_append,
    Utf8.flatMap_replicate]
  rfl

theorem Document.isText_withChild_replicate (n : Nat) : Utf8.IsText (withChild (List.replicate n 0x61)).raw := by
  rw [withChild_replicate]
  exact Utf8.isText_encode _

namespace Document

variable {script : Bytes}

theorem notMem_withChild {b : UInt8} (hb : b ∉ Html.scriptTag ++ Xml.childTag ++ Xml.closingTag) (h : b ∉ script) :
    b ∉ (withChild script).raw := by
  simp only [List.mem_append, not_or] at hb
  simp only [withChild, Xml.withChild, List.mem_append, not_or]
  exact ⟨hb.1.1, hb.1.2, h, hb.2⟩

theorem length_withChild (script : Bytes) : (withChild script).raw.length = 8 + (4 + (script.length + 9)) := by
  rw [withChild, Xml.withChild, List.length_append, List.length_append, List.length_append]
  rfl

/-- The empty element is masked, and the text stays as it is. -/
theorem scan_withChild (h : script.IsFlat) (hText : Utf8.IsText (withChild script).raw) :
    (withChild script).elements .xml = .ok [⟨0, ⟨8, 12 + script.length⟩, [], [⟨8, 12⟩]⟩] ∧
    ∃ block, (withChild script).scan { mode := .xml } = .ok [block] ∧ block.index = 0 ∧
      block.text = List.replicate 4 Byte.space ++ script ∧ block.start = ⟨0, 8⟩ := by
  have hReturn : Byte.carriageReturn ∉ (withChild script).raw := notMem_withChild (by decide) h.noReturn
  have hLine : Byte.lineFeed ∉ (withChild script).raw := notMem_withChild (by decide) h.noBreak
  have hRaw : (withChild script).text = Xml.withChild script := text_of_noReturn hReturn
  have hElements : Xml.elements (withChild script).text = .ok [⟨0, ⟨8, 12 + script.length⟩, [], [⟨8, 12⟩]⟩] := by
    rw [hRaw]
    exact Xml.elements_withChild h.noMarkup
  refine ⟨hElements, ScriptBlock.ofElement (withChild script) .xml 0 ⟨0, ⟨8, 12 + script.length⟩, [], [⟨8, 12⟩]⟩,
    ?_, rfl, ?_, ?_⟩
  · rw [scan, elements]
    simp only [hElements]
    rfl
  · have hMark : ¬Xml.byteOrderMark <+: (withChild script).text := by
      rw [hRaw, ← List.isPrefixOf_iff_prefix]
      exact Bool.false_ne_true
    have hPlaced := (Xml.elements_placed_of_no_mark hMark hElements).1 _ List.mem_cons_self
    refine (hPlaced.scriptText_eq (Newline.isText_normalize hText)).trans ?_
    rw [hRaw, Xml.contentText_withChild]
    exact Xml.blank_withChild script
  · refine position_of_noBreak hReturn hLine ?_
    rw [length_withChild]
    exact Nat.le_add_right _ _

end Document

theorem Remapper.exists_scan_range_withChild {script : Bytes} (h : script.IsFlat)
    (hText : Utf8.IsText (Document.withChild script).raw) (newline : Newline) (indent : Indent) :
    ∃ blocks, (Document.withChild script).scan { mode := .xml } = .ok blocks ∧
    (VirtualSource.ofBlocks newline indent blocks).text = List.replicate 4 Byte.space ++ script ∧
    ∀ range : OffsetRange, range.start ≤ range.stop → range.stop ≤ 4 + script.length →
      wrapWord range.start ≤ wrapWord range.stop → 8 + wrapWord range.stop < wordLimit →
      (Remapper.mk (.withChild script) (.ofBlocks newline indent blocks)).range range =
        .ok ⟨8 + wrapWord range.start, 8 + wrapWord range.stop⟩ := by
  obtain ⟨-, block, hScan, hIndex, hBlock, hStart⟩ := Document.scan_withChild h hText
  have hBreak : Byte.lineFeed ∉ block.text := by
    rw [hBlock, List.mem_append, not_or]
    exact ⟨by decide, h.noBreak⟩
  have hLength : block.text.length = 4 + script.length := by rw [hBlock, List.length_append, List.length_replicate]
  refine ⟨[block], hScan, ?_, ?_⟩
  · have hSource : VirtualSource.ofBlocks newline indent [block] = .ofLine block.text newline :=
      VirtualSource.build_eq_ofLine hBreak hIndex hStart newline indent
    rw [hSource, ← hBlock]
    rfl
  · intro range hLe hStop
    rw [← hLength] at hStop
    refine range_ofBlock (Document.notMem_withChild (by decide) h.noBreak) ?_ hBreak hIndex hStart newline indent hLe
      hStop
    rw [hLength, Document.length_withChild]
    omega

namespace Html

def closedScript : Bytes := scriptTag ++ (0x61 :: Xml.closingTag)

theorem elements_closedScript {script : Bytes} (h : Byte.less ∉ script) :
    elements (closedScript ++ (scriptTag ++ script)) =
      [⟨0, ⟨8, 9⟩, [], []⟩, ⟨18, ⟨26, 26 + script.length⟩, [], []⟩] := by
  have hText : closedScript ++ (scriptTag ++ script) =
      Byte.less :: (scriptName ++ Byte.greater :: 0x61 :: (Xml.closingTag ++ (scriptTag ++ script))) := rfl
  have hConstruct : constructAt (scriptName ++ Byte.greater :: 0x61 :: (Xml.closingTag ++ (scriptTag ++ script))) =
      .script [] 7 1 17 := constructAt_scriptTag _
  rw [elements, hText, elementsFrom_less, hConstruct]
  exact congrArg (_ :: ·) (elementsFrom_scriptTag h 18)

end Html

def Document.afterScript (script : Bytes) : Document := ⟨Html.closedScript ++ (Html.scriptTag ++ script)⟩

theorem Document.afterScript_replicate (n : Nat) : afterScript (List.replicate n 0x61) =
    ⟨Utf8.encode ("<script>a</script><script>" ++ String.ofList (List.replicate n 'a'))⟩ := by
  rw [afterScript, Utf8.encode, String.toList_append, List.flatMap_append, Utf8.flatMap_replicate]
  rfl

namespace Document

variable {script : Bytes}

theorem notMem_afterScript {b : UInt8} (hb : b ∉ Html.closedScript ++ Html.scriptTag) (h : b ∉ script) :
    b ∉ (afterScript script).raw := by
  simp only [List.mem_append, not_or] at hb
  simp only [afterScript, List.mem_append, not_or]
  exact ⟨hb.1, hb.2, h⟩

theorem length_afterScript (script : Bytes) : (afterScript script).raw.length = 26 + script.length := by
  rw [afterScript, List.length_append, List.length_append, ← Nat.add_assoc]
  rfl

theorem scan_afterScript (h : script.IsFlat) :
    ∃ first second, (afterScript script).scan {} = .ok [first, second] ∧ first.text = [0x61] ∧
      first.span = ⟨⟨0, 8⟩, ⟨0, 9⟩⟩ ∧ second.text = script ∧ second.span = ⟨⟨0, 26⟩, ⟨0, wrapWord (26 + script.length)⟩⟩ := by
  have hReturn : Byte.carriageReturn ∉ (afterScript script).raw := notMem_afterScript (by decide) h.noReturn
  have hLine : Byte.lineFeed ∉ (afterScript script).raw := notMem_afterScript (by decide) h.noBreak
  have hLength := length_afterScript script
  have hPosition {o : Nat} (ho : o ≤ 26 + script.length) : (afterScript script).position o = ⟨0, wrapWord o⟩ :=
    position_of_noBreak hReturn hLine (by omega)
  have hText : (afterScript script).text = Html.closedScript ++ (Html.scriptTag ++ script) := text_of_noReturn hReturn
  have hElements : Html.elements (afterScript script).text =
      [⟨0, ⟨8, 9⟩, [], []⟩, ⟨18, ⟨26, 26 + script.length⟩, [], []⟩] := by
    rw [hText]
    exact Html.elements_closedScript h.noMarkup
  refine ⟨ScriptBlock.ofElement (afterScript script) .html 0 ⟨0, ⟨8, 9⟩, [], []⟩,
    ScriptBlock.ofElement (afterScript script) .html 1 ⟨18, ⟨26, 26 + script.length⟩, [], []⟩, ?_, ?_, ?_, ?_, ?_⟩
  · rw [scan, elements]
    simp only [hElements]
    rfl
  · change ((afterScript script).text.take 9).drop 8 = [0x61]
    rw [hText]
    rfl
  · exact (Span.mk.injEq ..).mpr ⟨hPosition (o := 8) (by omega), hPosition (o := 9) (by omega)⟩
  · have hAll : (afterScript script).text.take (26 + script.length) = (afterScript script).text :=
      List.take_of_length_le (Nat.le_of_eq ((congrArg List.length hText).trans hLength))
    change ((afterScript script).text.take (26 + script.length)).drop 26 = script
    rw [hAll, hText]
    rfl
  · exact (Span.mk.injEq ..).mpr ⟨hPosition (o := 26) (by omega), hPosition (Nat.le_refl _)⟩

end Document

end ScriptLint
