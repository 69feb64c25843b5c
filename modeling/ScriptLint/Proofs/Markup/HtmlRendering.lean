import ScriptLint.Proofs.ScriptBlock
import ScriptLint.Proofs.Text.Crlf
import ScriptLint.Proofs.Text.Occurrence
import ScriptLint.Proofs.Markup.HtmlStep

/-!
# Scanning rendered HTML

Documents as lists of nodes, and how they are written. A scan of the written document finds the scripts of the list,
each with its attributes and where its content was written.
-/
namespace ScriptLint
set_option autoImplicit false

namespace Html

structure TagName where
  bytes : Bytes
  starts : bytes.head?.any Byte.isLetter = true
  clean : ∀ b ∈ bytes, b ∉ spaces ++ [Byte.slash, Byte.greater, Byte.less]

inductive Quote where
  | double
  | single

def Quote.byte : Quote → UInt8
  | double => Byte.doubleQuote
  | single => Byte.singleQuote

inductive WrittenValue where
  | absent
  | quoted (quote : Quote) (s : Bytes) (clean : quote.byte ∉ s)

structure WrittenAttribute where
  name : Bytes
  value : WrittenValue
  nonempty : name ≠ []
  clean : ∀ b ∈ name, b ∉ spaces ++ [Byte.slash, Byte.greater, Byte.less, Byte.equals]

structure OpeningTag where
  name : TagName
  attributes : List WrittenAttribute

/-- An element of that name, in any case, whose content is raw text. -/
structure RawElement (name : Bytes) where
  tag : OpeningTag
  content : Bytes
  /-- The name in the closing tag. -/
  closing : Bytes
  opens : Bytes.eqIgnoreCase tag.name.bytes name = true
  closes : Bytes.eqIgnoreCase closing name = true
  clean : ¬Byte.less :: Byte.slash :: name.toLower <:+: content.toLower

inductive Node where
  | text (s : Bytes) (clean : Byte.less ∉ s)
  | comment (s : Bytes) (clean : ¬[Byte.dash, Byte.dash, Byte.greater] <:+: s)
  | closing (name : TagName)
  | opening (tag : OpeningTag) (noScript : Bytes.eqIgnoreCase tag.name.bytes scriptName = false)
    (noStyle : Bytes.eqIgnoreCase tag.name.bytes styleName = false)
  | style (element : RawElement styleName)
  | script (element : RawElement scriptName)

namespace WrittenValue

def render : WrittenValue → Bytes
  | absent => []
  | quoted quote s _ => Byte.equals :: quote.byte :: (s ++ [quote.byte])

def read : WrittenValue → Option Bytes
  | absent => none
  | quoted _ s _ => some s

end WrittenValue

namespace WrittenAttribute

def render (attr : WrittenAttribute) : Bytes := Byte.space :: (attr.name ++ attr.value.render)

def read (attr : WrittenAttribute) : Attribute := ⟨attr.name, attr.value.read⟩

end WrittenAttribute

namespace OpeningTag

def body (tag : OpeningTag) : Bytes :=
  tag.name.bytes ++ (tag.attributes.flatMap WrittenAttribute.render ++ [Byte.greater])

def render (tag : OpeningTag) : Bytes := Byte.less :: tag.body

def read (tag : OpeningTag) : List Attribute := tag.attributes.map WrittenAttribute.read

end OpeningTag

namespace RawElement

variable {name : Bytes}

def body (element : RawElement name) : Bytes :=
  element.tag.body ++ (element.content ++ Byte.less :: Byte.slash :: (element.closing ++ [Byte.greater]))

def render (element : RawElement name) : Bytes := Byte.less :: element.body

end RawElement

def Node.render : Node → Bytes
  | text s _ => s
  | comment s _ => Byte.less :: Byte.bang :: Byte.dash :: Byte.dash :: (s ++ [Byte.dash, Byte.dash, Byte.greater])
  | closing name => Byte.less :: Byte.slash :: (name.bytes ++ [Byte.greater])
  | opening tag _ _ => tag.render
  | style element => element.render
  | script element => element.render

def render (nodes : List Node) : Bytes := nodes.flatMap Node.render

theorem isNameByte_iff (b : UInt8) : isNameByte b = true ↔ b ∉ spaces ++ [Byte.slash, Byte.greater, Byte.less] := by
  simp [isNameByte, ← isSpace_iff, and_assoc]

theorem isAttributeByte_iff (b : UInt8) :
    isAttributeByte b = true ↔ b ∉ spaces ++ [Byte.slash, Byte.greater, Byte.less, Byte.equals] := by
  simp [isAttributeByte, isNameByte, ← isSpace_iff, and_assoc]

theorem attributes?_dropWhile (s : Bytes) : attributes? (s.dropWhile isSpace) = attributes? s := by
  have hHead := List.head?_dropWhile_not isSpace s
  cases hs : s.dropWhile isSpace with
  | nil => rw [attributes?_nil hs, attributes?_nil rfl]
  | cons b rest =>
    rw [hs] at hHead
    have hb : (b :: rest).dropWhile isSpace = b :: rest := by
      rw [List.dropWhile_cons, if_neg (by simpa using hHead)]
    rw [attributes?_eq hs, attributes?_eq hb]

theorem WrittenAttribute.dropWhile_render (attr : WrittenAttribute) :
    ∃ b tail, attr.name = b :: tail ∧
      ∀ rest, (attr.render ++ rest).dropWhile isSpace = b :: (tail ++ (attr.value.render ++ rest)) := by
  cases hName : attr.name with
  | nil => exact absurd hName attr.nonempty
  | cons b tail =>
    refine ⟨b, tail, rfl, fun rest => ?_⟩
    have hb := attr.clean b (by rw [hName]; exact List.mem_cons_self)
    have hSpace : isSpace b ≠ true := fun h => hb (List.mem_append_left _ ((isSpace_iff b).mp h))
    simp only [WrittenAttribute.render, hName, List.cons_append, List.append_assoc]
    rw [List.dropWhile_cons, if_pos (by rfl), List.dropWhile_cons, if_neg hSpace]

theorem attributes_rest (attributes : List WrittenAttribute) (rest : Bytes) :
    ∃ d after c next, attributes.flatMap WrittenAttribute.render ++ Byte.greater :: rest = d :: after ∧
      isNameByte d = false ∧ (d :: after).dropWhile isSpace = c :: next ∧ c ≠ Byte.equals := by
  cases attributes with
  | nil => exact ⟨_, _, Byte.greater, rest, rfl, rfl, rfl, by decide⟩
  | cons attr more =>
    obtain ⟨c, tail, hName, hDrop⟩ := attr.dropWhile_render
    have hc := attr.clean c (by rw [hName]; exact List.mem_cons_self)
    refine ⟨Byte.space, _, c, _, by rw [List.flatMap_cons, List.append_assoc]; rfl, rfl, hDrop _, ?_⟩
    rintro rfl
    exact hc (by decide)

theorem attribute?_render (attr : WrittenAttribute) {b d c : UInt8} {tail after next : Bytes}
    (hName : attr.name = b :: tail) (hd : isNameByte d = false) (hNext : (d :: after).dropWhile isSpace = c :: next)
    (hc : c ≠ Byte.equals) :
    ∃ left, attribute? b (tail ++ (attr.value.render ++ d :: after)) = some (attr.read, left) ∧
      attributes? left = attributes? (d :: after) := by
  have hBytes : ∀ e ∈ b :: tail, isAttributeByte e = true := by
    intro e he
    exact (isAttributeByte_iff e).mpr (attr.clean e (hName ▸ he))
  have hStop : ∀ e, (attr.value.render ++ d :: after).head? = some e → isAttributeByte e = false := by
    intro e he
    cases hValue : attr.value with
    | absent =>
      rw [hValue] at he
      cases he
      simp [isAttributeByte, hd]
    | quoted quote s clean =>
      rw [hValue] at he
      cases he
      rfl
  have hTail : (tail ++ (attr.value.render ++ d :: after)).takeWhile isAttributeByte = tail :=
    Bytes.takeWhile_run (fun e he => hBytes e (List.mem_cons_of_mem b he)) hStop
  simp only [attribute?, hBytes b List.mem_cons_self, if_true, hTail, List.drop_left]
  cases hValue : attr.value with
  | absent =>
    -- the space before the next attribute is gone, but it would be skipped anyway
    refine ⟨c :: next, ?_, ?_⟩
    · simp only [WrittenValue.render, List.nil_append, hNext, if_neg hc, WrittenAttribute.read, hName, hValue,
        WrittenValue.read]
    · rw [← hNext, attributes?_dropWhile]
  | quoted quote s clean =>
    refine ⟨d :: after, ?_, rfl⟩
    have hQuote : (quote.byte :: (s ++ quote.byte :: d :: after)).dropWhile isSpace =
        quote.byte :: (s ++ quote.byte :: d :: after) := by cases quote <;> rfl
    have hRead : value? (quote.byte :: (s ++ quote.byte :: d :: after)) = some (s, d :: after) := by
      rw [value?, if_pos (by cases quote <;> simp [Quote.byte]), Bytes.splitAt?_append clean]
    have hEquals : (Byte.equals :: quote.byte :: (s ++ quote.byte :: d :: after)).dropWhile isSpace =
        Byte.equals :: quote.byte :: (s ++ quote.byte :: d :: after) := rfl
    simp only [WrittenValue.render, List.cons_append, List.append_assoc, List.nil_append, hEquals, if_true, hQuote,
      hRead, Option.map_some, WrittenAttribute.read, hName, hValue, WrittenValue.read]

theorem attributes?_render (attributes : List WrittenAttribute) (rest : Bytes) :
    attributes? (attributes.flatMap WrittenAttribute.render ++ Byte.greater :: rest) =
      some (attributes.map WrittenAttribute.read, rest) := by
  induction attributes with
  | nil => exact attributes?_greater rest
  | cons attr more ih =>
    obtain ⟨d, after, c, next, hAfter, hd, hNext, hc⟩ := attributes_rest more rest
    obtain ⟨b, tail, hName, hDrop⟩ := attr.dropWhile_render
    obtain ⟨left, hRead, hLeft⟩ := attribute?_render attr hName hd hNext hc
    have hb := attr.clean b (by rw [hName]; exact List.mem_cons_self)
    simp only [List.mem_append, List.mem_cons, List.not_mem_nil, or_false, not_or] at hb
    rw [hAfter] at ih
    rw [List.flatMap_cons, List.append_assoc, hAfter, attributes?_eq (hDrop _), if_neg hb.2.2.1,
      if_neg (not_or.mpr ⟨hb.2.1, hb.2.2.2.2⟩), hRead, Option.bind_some, hLeft, ih]
    rfl

theorem TagName.starts_letter (name : TagName) : ∃ b tail, name.bytes = b :: tail ∧ Byte.isLetter b = true := by
  have hStarts := name.starts
  cases hName : name.bytes with
  | nil =>
    rw [hName] at hStarts
    cases hStarts
  | cons b tail =>
    rw [hName] at hStarts
    exact ⟨b, tail, rfl, hStarts⟩

theorem TagName.takeWhile_append (name : TagName) {b : UInt8} (hb : isNameByte b = false) (rest : Bytes) :
    (name.bytes ++ b :: rest).takeWhile isNameByte = name.bytes := by
  apply Bytes.takeWhile_run
  · intro c hc
    exact (isNameByte_iff c).mpr (name.clean c hc)
  · rintro c ⟨⟩
    exact hb

theorem isNameStart_of_isLetter {b : UInt8} (hb : Byte.isLetter b = true) : isNameStart b = true := by
  simp [isNameStart, hb]

theorem constructAt_of_isLetter {b : UInt8} (hb : Byte.isLetter b = true) (rest : Bytes) :
    constructAt (b :: rest) = elementAt (b :: rest) := by
  have hNot (c : UInt8) := Byte.ne_of_isLetter (c := c) hb
  have hBang := hNot Byte.bang rfl
  rw [constructAt, if_neg (by simp [Ne.symm hBang]), if_neg hBang, if_neg (hNot Byte.question rfl),
    if_neg (hNot Byte.slash rfl), if_pos (isNameStart_of_isLetter hb)]

/-- What a written opening tag begins: its attributes are read back, and the name decides what follows. -/
theorem constructAt_tag (tag : OpeningTag) (rest : Bytes) :
    constructAt (tag.body ++ rest) =
      if Bytes.eqIgnoreCase tag.name.bytes scriptName then
        .script tag.read tag.body.length (contentLength scriptName rest) (tag.body.length +
          contentLength scriptName rest + closingLength scriptName (rest.drop (contentLength scriptName rest)))
      else if Bytes.eqIgnoreCase tag.name.bytes styleName then
        .plain (tag.body.length + contentLength styleName rest +
          closingLength styleName (rest.drop (contentLength styleName rest)))
      else .plain tag.body.length := by
  obtain ⟨d, after, -, -, hAfter, hd, -, -⟩ := attributes_rest tag.attributes rest
  have hBody : tag.body ++ rest = tag.name.bytes ++ d :: after := by
    rw [← hAfter]
    simp [OpeningTag.body]
  have hAttributes : attributes? (d :: after) = some (tag.read, rest) := by
    rw [← hAfter]
    exact attributes?_render tag.attributes rest
  have hLength : (tag.name.bytes ++ d :: after).length - rest.length = tag.body.length := by
    rw [← hBody, List.length_append, Nat.add_sub_cancel]
  obtain ⟨b, tail, hName, hb⟩ := tag.name.starts_letter
  have hElement : constructAt (tag.body ++ rest) = elementAt (tag.body ++ rest) := by
    rw [hBody, hName, List.cons_append]
    exact constructAt_of_isLetter hb _
  rw [hElement, hBody, elementAt, tag.name.takeWhile_append hd, List.drop_left]
  simp only [hAttributes, hLength]

theorem Closes.prefix_toLower {name s : Bytes} (h : Closes name s) :
    Byte.less :: Byte.slash :: name.toLower <+: s.toLower := by
  obtain ⟨written, after, rfl, hName, -⟩ := h
  have hLower : Bytes.toLower written = Bytes.toLower name := by simpa [Bytes.eqIgnoreCase] using hName
  refine ⟨Bytes.toLower after, ?_⟩
  rw [← hLower]
  simp only [Bytes.toLower, List.map_cons, List.map_append]
  rfl

section RawText

variable {name content closing : Bytes} (hClosing : Bytes.eqIgnoreCase closing name = true) (rest : Bytes)
include hClosing

/-- Raw text without a closing tag runs to the closing tag that is written after it. -/
theorem contentLength_append (hLess : Byte.less ∉ name.toLower)
    (hClean : ¬Byte.less :: Byte.slash :: name.toLower <:+: content.toLower) :
    contentLength name (content ++ Byte.less :: Byte.slash :: (closing ++ Byte.greater :: rest)) = content.length := by
  induction content with
  | nil =>
    have hCloses : Closes name (Byte.less :: Byte.slash :: (closing ++ Byte.greater :: rest)) :=
      ⟨_, _, rfl, hClosing, by rintro b ⟨⟩; exact .inr (.inr rfl)⟩
    rw [List.nil_append, contentLength, if_pos ((closes_iff _ _).mpr hCloses)]
    rfl
  | cons b content ih =>
    have hNot : ¬Closes name (b :: (content ++ Byte.less :: Byte.slash :: (closing ++ Byte.greater :: rest))) := by
      intro hCloses
      have hPrefix := hCloses.prefix_toLower
      have hAppend : Bytes.toLower (b :: content ++ Byte.less :: Byte.slash :: (closing ++ Byte.greater :: rest)) =
          Bytes.toLower (b :: content) ++
            Byte.less :: Bytes.toLower (Byte.slash :: (closing ++ Byte.greater :: rest)) := List.map_append
      rw [← List.cons_append, hAppend] at hPrefix
      -- a closing tag that begins in the content would end in it, since it has no second `<`
      have hMark : Byte.less ∉ Byte.slash :: name.toLower := by
        rw [List.mem_cons, not_or]
        exact ⟨by decide, hLess⟩
      exact hClean (Bytes.prefix_left (List.cons_ne_nil _ _) hMark hPrefix).isInfix
    rw [List.cons_append, contentLength, if_neg (fun h => hNot ((closes_iff _ _).mp h)),
      ih (fun h => hClean (List.infix_cons h)), List.length_cons]

theorem closingLength_append :
    closingLength name (Byte.less :: Byte.slash :: (closing ++ Byte.greater :: rest)) = 2 + closing.length + 1 := by
  have hDrop : (Byte.less :: Byte.slash :: (closing ++ Byte.greater :: rest)).drop (2 + closing.length) =
      Byte.greater :: rest := by
    rw [Nat.add_comm]
    simp
  rw [closingLength, ← length_of_eqIgnoreCase hClosing, hDrop]
  · rfl
  · simp

end RawText

theorem elementsFrom_plain {body rest : Bytes} (h : constructAt (body ++ rest) = .plain body.length) (offset : Nat) :
    elementsFrom offset (Byte.less :: (body ++ rest)) = elementsFrom (offset + (Byte.less :: body).length) rest := by
  rw [elementsFrom_less, h]
  simp only [Construct.element?, Construct.length, Option.toList_none, List.nil_append, List.drop_left,
    List.length_cons]
  rw [Nat.add_assoc, Nat.add_comm 1]

theorem constructAt_comment {s : Bytes} (hs : ¬[Byte.dash, Byte.dash, Byte.greater] <:+: s) (rest : Bytes) :
    constructAt (Byte.bang :: Byte.dash :: Byte.dash :: (s ++ Byte.dash :: Byte.dash :: Byte.greater :: rest)) =
      .plain (s.length + 6) := by
  have hThrough : Bytes.lengthThrough [Byte.dash, Byte.dash, Byte.greater]
      (s ++ Byte.dash :: Byte.dash :: Byte.greater :: rest) = s.length + 3 :=
    Bytes.lengthThrough_append [Byte.dash, Byte.dash] (by decide) hs rest
  rw [constructAt, if_pos (by rfl), List.drop_succ_cons, List.drop_succ_cons, List.drop_succ_cons, List.drop_zero,
    hThrough]
  congr 1
  omega

theorem constructAt_closing (name : TagName) (rest : Bytes) :
    constructAt (Byte.slash :: (name.bytes ++ Byte.greater :: rest)) = .plain (name.bytes.length + 2) := by
  obtain ⟨b, tail, hName, hb⟩ := name.starts_letter
  have hStarts : startsName (name.bytes ++ Byte.greater :: rest) = true := by
    rw [hName]
    exact isNameStart_of_isLetter hb
  have hComment : ¬[Byte.bang, Byte.dash, Byte.dash].isPrefixOf
      (Byte.slash :: (name.bytes ++ Byte.greater :: rest)) = true := by
    intro hPrefix
    exact absurd (List.cons_prefix_cons.mp (List.isPrefixOf_iff_prefix.mp hPrefix)).1 (by decide)
  rw [constructAt, if_neg hComment, if_neg (by decide), if_neg (by decide), if_pos rfl, if_pos hStarts]
  have hThrough : Bytes.lengthThrough [Byte.greater] (Byte.greater :: rest) = 1 := by simp [Bytes.lengthThrough]
  simp only [name.takeWhile_append (b := Byte.greater) rfl, List.drop_left, hThrough]
  congr 1
  omega

def Node.extract? (offset : Nat) : Node → Option Extract
  | script element =>
    let start := offset + element.tag.render.length
    some ⟨⟨start, start + element.content.length⟩, element.content, element.tag.read⟩
  | _ => none

def scripts (offset : Nat) : List Node → List Extract
  | [] => []
  | node :: more => (node.extract? offset).toList ++ scripts (offset + node.render.length) more

namespace RawElement

variable {name : Bytes} (element : RawElement name) (rest : Bytes)

def after : Bytes := element.content ++ Byte.less :: Byte.slash :: (element.closing ++ Byte.greater :: rest)

theorem body_append : element.body ++ rest = element.tag.body ++ element.after rest := by
  simp [body, after]

theorem contentLength_after (hLess : Byte.less ∉ name.toLower) :
    contentLength name (element.after rest) = element.content.length :=
  contentLength_append element.closes rest hLess element.clean

theorem length_body : element.tag.body.length + element.content.length +
    closingLength name ((element.after rest).drop element.content.length) = element.body.length := by
  rw [after, List.drop_left, closingLength_append element.closes]
  simp only [body, List.length_append, List.length_cons, List.length_nil]
  omega

end RawElement

theorem constructAt_style (element : RawElement styleName) (rest : Bytes) :
    constructAt (element.body ++ rest) = .plain element.body.length := by
  have hLower : Bytes.toLower element.tag.name.bytes = Bytes.toLower styleName := by
    simpa [Bytes.eqIgnoreCase] using element.opens
  have hNot : Bytes.eqIgnoreCase element.tag.name.bytes scriptName = false := by
    rw [Bytes.eqIgnoreCase, hLower]
    decide
  rw [element.body_append, constructAt_tag, hNot, element.opens, element.contentLength_after rest (by decide),
    element.length_body]
  rfl

theorem constructAt_script_render (element : RawElement scriptName) (rest : Bytes) :
    constructAt (element.body ++ rest) =
      .script element.tag.read element.tag.body.length element.content.length element.body.length := by
  rw [element.body_append, constructAt_tag, element.opens, element.contentLength_after rest (by decide),
    element.length_body]
  rfl

/-- One step of the scan goes over one written node. -/
theorem elementsFrom_node {text rest : Bytes} (node : Node) (offset : Nat)
    (hText : text.drop offset = node.render ++ rest) :
    (elementsFrom offset (node.render ++ rest)).map (Element.extract text) =
      (node.extract? offset).toList ++
        (elementsFrom (offset + node.render.length) rest).map (Element.extract text) := by
  have hPlain (body : Bytes) (hRender : node.render = Byte.less :: body) (hScript : node.extract? offset = none)
      (h : constructAt (body ++ rest) = .plain body.length) :
      (elementsFrom offset (node.render ++ rest)).map (Element.extract text) =
        (node.extract? offset).toList ++
          (elementsFrom (offset + node.render.length) rest).map (Element.extract text) := by
    rw [hScript, hRender, List.cons_append, elementsFrom_plain h]
    rfl
  cases node with
  | text s clean =>
    rw [Node.render, elementsFrom_text clean]
    rfl
  | comment s clean =>
    refine hPlain _ rfl rfl ?_
    simpa using constructAt_comment clean rest
  | closing name =>
    refine hPlain _ rfl rfl ?_
    simpa using constructAt_closing name rest
  | opening tag noScript noStyle =>
    refine hPlain _ rfl rfl ?_
    rw [constructAt_tag, noScript, noStyle]
    rfl
  | style element => exact hPlain _ rfl rfl (constructAt_style element rest)
  | script element =>
    have hRender : text.drop offset = element.tag.render ++ element.after rest := by
      rw [hText, Node.render, RawElement.render, List.cons_append, element.body_append]
      rfl
    have hTag : offset + 1 + element.tag.body.length = offset + element.tag.render.length := by
      rw [OpeningTag.render, List.length_cons, Nat.add_assoc, Nat.add_comm 1]
    have hNext : offset + 1 + element.body.length = offset + (Node.script element).render.length := by
      rw [Node.render, RawElement.render, List.length_cons, Nat.add_assoc, Nat.add_comm 1]
    have hContent := Bytes.slice_of_drop hRender
    rw [← hNext, Node.render, RawElement.render, List.cons_append, elementsFrom_less, constructAt_script_render]
    simp only [Construct.element?, Construct.length, hTag, List.drop_left, Option.toList_some, List.map_append,
      List.map_cons, List.map_nil, Node.extract?, Element.extract, ScriptBlock.scriptText, ScriptBlock.shown,
      List.isEmpty_nil, if_true, hContent]

/-- A scan goes over the written nodes one by one. -/
theorem elementsFrom_render {text : Bytes} (nodes : List Node) (offset : Nat)
    (hText : text.drop offset = render nodes) :
    (elementsFrom offset (render nodes)).map (Element.extract text) = scripts offset nodes := by
  induction nodes generalizing offset with
  | nil =>
    rw [render, List.flatMap_nil, elementsFrom]
    rfl
  | cons node more ih =>
    have hRender : render (node :: more) = node.render ++ render more := List.flatMap_cons
    rw [hRender] at hText ⊢
    rw [elementsFrom_node node offset hText, ih _ (Bytes.drop_of_drop hText), scripts]

theorem slice_of_mem_scripts {nodes : List Node} {found : Extract} (h : found ∈ scripts 0 nodes) :
    ((render nodes).take found.content.stop).drop found.content.start = found.text := by
  rw [← elementsFrom_render nodes 0 (List.drop_zero (l := render nodes))] at h
  obtain ⟨element, hMem, rfl⟩ := List.mem_map.mp h
  simp only [Element.extract, ScriptBlock.scriptText, ScriptBlock.shown, masks_eq_nil hMem, List.isEmpty_nil, if_true]

end Html

namespace Document

/-- Scanning undoes writing: the scripts of a written document are found in order, each with its attributes, its text
and where its content was written, and nothing else is found. -/
theorem html_scan_render (nodes : List Html.Node) (mediaTypes : List String)
    (hPairs : ¬[Byte.carriageReturn, Byte.lineFeed] <:+: Html.render nodes) :
    ∃ blocks, (⟨Html.render nodes⟩ : Document).scan { mode := .html, mediaTypes } = .ok blocks ∧
      blocks.map ScriptBlock.extract = (Html.scripts 0 nodes).filter (fun found =>
        Attribute.denoteScript .html mediaTypes found.attributes) ∧
      (∀ (i : Nat) (block : ScriptBlock), blocks[i]? = some block → block.index = i) ∧
      ∀ found ∈ Html.scripts 0 nodes,
        ((Html.render nodes).take found.content.stop).drop found.content.start = found.text := by
  have hText : (⟨Html.render nodes⟩ : Document).text = Html.render nodes := Newline.normalize_eq_self hPairs
  have hScripts := Html.elementsFrom_render nodes 0 (List.drop_zero (l := Html.render nodes))
  obtain ⟨blocks, hScan, hBlocks, hIndex⟩ := scan_extracts ⟨Html.render nodes⟩ { mode := .html, mediaTypes } rfl
  refine ⟨blocks, hScan, ?_, hIndex, fun found => Html.slice_of_mem_scripts⟩
  rw [hBlocks, hText, Html.elements, hScripts]

theorem html_scan_render_mixed :
    let scriptTag : Html.OpeningTag := ⟨⟨Utf8.encode "SCRIPT", by decide, by decide +kernel⟩,
      [⟨Utf8.encode "defer", .absent, by decide, by decide +kernel⟩,
        ⟨Utf8.encode "data-é", .quoted .single (Utf8.encode "\">") (by decide), by decide, by decide +kernel⟩]⟩
    let nodes : List Html.Node :=
      [.text (Utf8.encode "é > 1\n") (by decide),
       .comment (Utf8.encode "<script>") (by decide +kernel),
       .style ⟨⟨⟨Utf8.encode "style", by decide, by decide +kernel⟩, []⟩, Utf8.encode "</script>", Utf8.encode "STYLE",
         by decide, by decide, by decide +kernel⟩,
       .script ⟨scriptTag, Utf8.encode "a < '</scrip'\r", Utf8.encode "Script", by decide, by decide,
         by decide +kernel⟩,
       .closing ⟨Utf8.encode "p", by decide, by decide +kernel⟩]
    ¬[Byte.carriageReturn, Byte.lineFeed] <:+: Html.render nodes ∧
      ∃ blocks, (⟨Html.render nodes⟩ : Document).scan { mode := .html } = .ok blocks ∧
        blocks.map ScriptBlock.extract = [⟨⟨73, 87⟩, Utf8.encode "a < '</scrip'\r",
          [⟨Utf8.encode "defer", none⟩, ⟨Utf8.encode "data-é", some (Utf8.encode "\">")⟩]⟩] := by
  intro scriptTag nodes
  have hPairs : ¬[Byte.carriageReturn, Byte.lineFeed] <:+: Html.render nodes := by decide +kernel
  obtain ⟨blocks, hScan, hBlocks, -⟩ := html_scan_render nodes defaultMediaTypes hPairs
  refine ⟨hPairs, blocks, hScan, ?_⟩
  rw [hBlocks]
  decide +kernel

end Document
end ScriptLint
