import ScriptLint.Text.Utf8
import ScriptLint.Location.OffsetRange

/-!
Text edits. Several edits are applied to one text if their ranges do not overlap; the last range goes first, so that the
offsets of the others stay valid.
-/
namespace ScriptLint
set_option autoImplicit false

structure Fix where
  range : OffsetRange
  text : String
  deriving DecidableEq, Repr

namespace Fix

def delete (start stop : Nat) : Fix := ⟨⟨start, stop⟩, ""⟩

def insert (offset : Nat) (text : String) : Fix := ⟨OffsetRange.point offset, text⟩

def le (a b : Fix) : Bool :=
  a.range.start < b.range.start || (a.range.start == b.range.start && a.range.stop ≤ b.range.stop)

def inSequence : List Fix → Bool
  | a :: b :: more => a.range.stop ≤ b.range.start && inSequence (b :: more)
  | _ => true

/-- The text with one range replaced; none if the range is reversed, out of bounds or cuts a character. -/
def splice? (fix : Fix) (source : Bytes) : Option Bytes :=
  if fix.range.start ≤ fix.range.stop && fix.range.stop ≤ source.length &&
      Utf8.isBoundary source fix.range.start && Utf8.isBoundary source fix.range.stop then
    some (source.take fix.range.start ++ Utf8.encode fix.text ++ source.drop fix.range.stop)
  else none

/-- Fixes in order of their ranges; those with the same range keep their order. -/
def sort (fixes : List Fix) : List Fix := fixes.mergeSort le

/-- The text with all ranges replaced; none if one is invalid or two overlap. -/
def applyAll (fixes : List Fix) (source : Bytes) : Option Bytes :=
  if inSequence (sort fixes) then (sort fixes).foldr (fun fix text => text.bind fix.splice?) (some source) else none

def apply (fix : Fix) (source : Bytes) : Option Bytes := applyAll [fix] source

end Fix
end ScriptLint
