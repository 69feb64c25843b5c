import ScriptLint.Markup.Element

/-!
# Where script elements stand

The content of a script element stands right after a `>` and runs to a `<` or to the end of the text. What is masked lies
in it, begins with an ASCII byte and ends with one, and the elements of a text follow each other.
-/
namespace ScriptLint
set_option autoImplicit false

/-- A stretch of text that begins and ends with ASCII bytes. -/
structure OffsetRange.IsAsciiBounded (text : Bytes) (r : OffsetRange) : Prop where
  first : ∃ b, text[r.start]? = some b ∧ b.toNat < 0x80
  last : ∃ i b, r.stop = i + 1 ∧ text[i]? = some b ∧ b.toNat < 0x80

/-- A stretch of whole characters right after a `>`. -/
structure OffsetRange.IsContent (text : Bytes) (r : OffsetRange) : Prop where
  start_le_stop : r.start ≤ r.stop
  stop_le_length : r.stop ≤ text.length
  isBoundary_start : Utf8.isBoundary text r.start = true
  isBoundary_stop : Utf8.isBoundary text r.stop = true
  opened : ∃ i, r.start = i + 1 ∧ text[i]? = some Byte.greater

namespace Element

structure IsPlaced (text : Bytes) (element : Element) : Prop where
  start_le_stop : element.content.start ≤ element.content.stop
  stop_le_length : element.content.stop ≤ text.length
  opened : ∃ i, element.content.start = i + 1 ∧ text[i]? = some Byte.greater
  closed : element.content.stop = text.length ∨ text[element.content.stop]? = some Byte.less
  masks : ∀ mask ∈ element.masks, mask.IsAsciiBounded text
  masks_inside : ∀ mask ∈ element.masks, element.content.start ≤ mask.start ∧ mask.stop ≤ element.content.stop

def InOrder (elements : List Element) : Prop := elements.Pairwise fun a b => a.content.stop < b.content.start

end Element
end ScriptLint
