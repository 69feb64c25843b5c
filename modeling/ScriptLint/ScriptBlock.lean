import ScriptLint.Document
import ScriptLint.Markup.Html
import ScriptLint.Markup.Xml

/-!
Script blocks: the script elements of a document that hold JavaScript, with their text and their place in the document.
-/
namespace ScriptLint
set_option autoImplicit false

/-- The media types that denote JavaScript unless others are given. -/
def defaultMediaTypes : List String :=
  ["text/javascript", "application/javascript", "text/babel", "module", "text/jsx", "application/x-javascript",
   "text/ecmascript", "application/ecmascript"]

structure ScanOptions where
  mode : MarkupMode := .html
  mediaTypes : List String := defaultMediaTypes
  deriving DecidableEq, Repr

structure ScriptBlock where
  index : Nat
  mode : MarkupMode
  -- the content in the scanned text
  content : OffsetRange
  -- the content in the stored text
  offset : Nat
  length : Nat
  span : Span
  rawText : Bytes
  /-- The script itself: the scanned content with markup blanked. -/
  text : Bytes
  tagLineIndent : Bytes
  attributes : List Attribute
  deriving DecidableEq, Repr

namespace ScriptBlock

def endOffset (block : ScriptBlock) : Nat := wrapOffset (block.offset + block.length)

def start (block : ScriptBlock) : Position := block.span.start

/-- The lines of the script; the first is the rest of the line that holds the opening tag. -/
def lines (block : ScriptBlock) : List Bytes := Bytes.lines block.text

def lineCount (block : ScriptBlock) : Nat := block.text.count Byte.lineFeed + 1

def attribute? (block : ScriptBlock) (name : Bytes) : Option Attribute :=
  Attribute.find? block.mode block.attributes name

/-- A text that begins at `offset`, with a space for every masked byte that is no line feed. -/
def blank (masks : List OffsetRange) (offset : Nat) : Bytes → Bytes
  | [] => []
  | b :: rest =>
    (if b ≠ Byte.lineFeed ∧ masks.any (·.contains offset) then Byte.space else b) :: blank masks (offset + 1) rest

/-- What an element shows of its content: all but the masks, with whatever they tear apart repaired. -/
def shown (element : Element) (content : Bytes) : Bytes :=
  if element.masks.isEmpty then content else Utf8.repair (blank element.masks element.content.start content)

def scriptText (text : Bytes) (element : Element) : Bytes :=
  shown element ((text.take element.content.stop).drop element.content.start)

/-- The script text, unless a character straddles an end of the content. -/
def scriptText? (text : Bytes) (element : Element) : Option Bytes :=
  (Utf8.slice? text element.content.start element.content.stop).map (shown element)

def ofElement (document : Document) (mode : MarkupMode) (index : Nat) (element : Element) : ScriptBlock :=
  let offset := document.toRawOffset element.content.start
  let endOffset := document.toRawOffset element.content.stop
  { index
    mode
    content := element.content
    offset
    length := offsetDistance offset endOffset
    span := ⟨document.position element.content.start, document.position element.content.stop⟩
    rawText := (Utf8.slice? document.raw offset endOffset).getD []
    text := scriptText document.text element
    tagLineIndent := document.lineIndent (document.position element.tagStart).line
    attributes := element.attributes }

def number (document : Document) (mode : MarkupMode) (index : Nat) : List Element → List ScriptBlock
  | [] => []
  | element :: more => ofElement document mode index element :: number document mode (index + 1) more

@[simp] theorem length_blank (masks : List OffsetRange) (offset : Nat) (s : Bytes) :
    (blank masks offset s).length = s.length := by
  induction s generalizing offset with
  | nil => rfl
  | cons b rest ih => simp [blank, ih]

end ScriptBlock

namespace Document

def elements (document : Document) (mode : MarkupMode) : Except ScanError (List Element) :=
  match mode with
  | .html => .ok (Html.elements document.text)
  | .xml => Xml.elements document.text

/-- The script blocks in document order, or the first fatal error. A text that would be cut inside a character is cut
all the same; `collect` is the scan that breaks off there. -/
def scan (document : Document) (options : ScanOptions) : Except ScanError (List ScriptBlock) :=
  match document.elements options.mode with
  | .error error => .error error
  | .ok elements =>
    .ok (ScriptBlock.number document options.mode 0
      (elements.filter fun element => Attribute.denoteScript options.mode options.mediaTypes element.attributes))

end Document
end ScriptLint
