import ScriptLint.Proofs.Lint.IndentRule
import ScriptLint.Proofs.Lint.Layout

/-!
# The lines of a block as lines of the document

Every line of an HTML script after the first is a line of the document, but for the last one, which the closing tag ends.
So a line has content in the one where it has content in the other, and then both begin with the same indentation.
-/
namespace ScriptLint
set_option autoImplicit false

theorem LineIndex.lineEnd?_ofBytes {s line : Bytes} {n start : Nat} (hLine : (Bytes.lines s)[n]? = some line)
    (hStart : (ofBytes s).lineStart? n = some start) : (ofBytes s).lineEnd? n = some (start + line.length) := by
  obtain ⟨stop, hStop⟩ : ∃ stop, (ofBytes s).lineEnd? n = some stop := ⟨_, lineEnd?_of_lineStart? hStart⟩
  have hOffset : ∀ x, (ofBytes s).offset? ⟨n, x⟩ = if start + x ≤ stop then some (start + x) else none := by
    intro x
    simp only [offset?, hStart, hStop]
  have hInside : ∀ x, start + x ≤ stop ↔ x ≤ line.length := by
    intro x
    have hExists := exists_offset?_iff (s := s) (p := ⟨n, x⟩)
    simp only [hOffset, hLine, Option.some.injEq, exists_eq_left'] at hExists
    rw [← hExists]
    constructor
    · intro hLe
      exact ⟨_, if_pos hLe⟩
    · rintro ⟨o, ho⟩
      split at ho
      · assumption
      · cases ho
  have hLast := (hInside line.length).mpr (Nat.le_refl _)
  have hNext := (hInside (stop - start)).mp (by omega)
  rw [hStop]
  exact congrArg some (by omega)

namespace Bytes

theorem eq_lineFeed_of_place {s : Bytes} {i n : Nat} {b : UInt8} (hb : s[i]? = some b) (h : s.place (i + 1) = ⟨n, 0⟩) :
    b = Byte.lineFeed := by
  rw [place_succ hb, Position.step] at h
  split at h
  · assumption
  · cases h

theorem isBoundary_of_place {s : Bytes} (hs : Utf8.IsText s) {i n : Nat} (hi : i ≤ s.length) (h : s.place i = ⟨n, 0⟩) :
    Utf8.isBoundary s i = true := by
  cases i with
  | zero => rfl
  | succ i =>
    have hByte := List.getElem?_eq_getElem (Nat.lt_of_succ_le hi)
    have hFeed := eq_lineFeed_of_place hByte h
    exact hs.isBoundary_succ hByte (by rw [hFeed]; decide)

theorem leadingBlank_append_of_content {s : Bytes} (h : isBlank s = false) (t : Bytes) :
    leadingBlank (s ++ t) = leadingBlank s := by
  rw [leadingBlank, List.takeWhile_append, if_neg]
  · rfl
  · intro hLength
    have hAll : leadingBlank s = s := (List.takeWhile_prefix _).eq_of_length hLength
    have hBlank := isBlank_leadingBlank s
    rw [hAll, h] at hBlank
    cases hBlank

end Bytes

namespace Document

variable {document : Document} {block : ScriptBlock}

theorem lineText?_of_getElem? (hText : Utf8.IsText document.text) {n : Nat} {line : Bytes}
    (hLine : (Bytes.lines document.text)[n]? = some line) : document.lineText? n = some line := by
  obtain ⟨before, rest, hSplit, hAfter, hRest⟩ := Bytes.exists_line_split hLine
  have hBefore : Position.after ⟨0, 0⟩ before = ⟨n, 0⟩ := by simp [hAfter]
  have hStart : document.lines.lineStart? n = some before.length := by
    rw [lines, hSplit]
    exact LineIndex.lineStart?_append hBefore
  have hStop : document.lines.lineEnd? n = some (before.length + line.length) :=
    LineIndex.lineEnd?_ofBytes hLine hStart
  have hLength : before.length + (line.length + rest.length) = document.text.length := by simp [hSplit]
  have hPlace : document.text.place before.length = ⟨n, 0⟩ := by
    rw [Bytes.place, hSplit, List.take_left, hBefore]
  have hFirst := Bytes.isBoundary_of_place hText (by omega) hPlace
  have hLast : Utf8.isBoundary document.text (before.length + line.length) = true := by
    rcases hRest with ⟨rfl, -⟩ | ⟨hFeed, -⟩
    · rw [show before.length + line.length = document.text.length from hLength]
      exact Utf8.isBoundary_length _
    · have hAt : document.text[before.length + line.length]? = some Byte.lineFeed := by
        rw [hSplit, List.getElem?_append_right (Nat.le_add_right _ _), Nat.add_sub_cancel_left,
          List.getElem?_append_right (Nat.le_refl _), Nat.sub_self, ← List.head?_eq_getElem?, hFeed]
      exact Utf8.isBoundary_of_not_tail hAt (by decide)
  have hCut : (document.text.take (before.length + line.length)).drop before.length = line := by
    rw [hSplit, ← List.append_assoc, ← List.length_append, List.take_left, List.drop_left]
  simp only [lineText?, hStart, hStop, Option.bind_eq_bind, Option.bind_some, Utf8.slice?, hFirst, hLast, hCut,
    Nat.le_add_right, decide_true, Bool.and_true, if_true]

theorem lineText?_eq (hText : Utf8.IsText document.text) (n : Nat) :
    document.lineText? n = (Bytes.lines document.text)[n]? := by
  cases hLine : (Bytes.lines document.text)[n]? with
  | none =>
    have hStart : document.lines.lineStart? n = none := by
      rw [List.getElem?_eq_none_iff, ← LineIndex.lineCount_ofBytes] at hLine
      exact List.getElem?_eq_none_iff.mpr hLine
    rw [lineText?, hStart]
    rfl
  | some line => exact lineText?_of_getElem? hText hLine

/-- The part of line `n` that lies in the content of a block. -/
def lineWithin (document : Document) (block : ScriptBlock) (n : Nat) : Bytes :=
  Bytes.piece (fun n => (document.lineText? n).getD []) block.span.start block.span.stop n

/-- Line `n` is one of the block's after the first and has more in the block than spaces and tabs. -/
def hasContent (document : Document) (block : ScriptBlock) (n : Nat) : Bool :=
  block.span.start.line < n && n ≤ block.span.stop.line && !Bytes.isBlank (document.lineWithin block n)

theorem lineWithin_prefix (document : Document) {block : ScriptBlock} {n : Nat} (h : block.span.start.line < n) :
    document.lineWithin block n <+: (document.lineText? n).getD [] := by
  rw [lineWithin, Bytes.piece, if_neg (Nat.ne_of_gt h), List.drop_zero]
  split
  · exact List.take_prefix _ _
  · exact List.prefix_rfl

theorem lineIndent_eq_leadingBlank (document : Document) (n : Nat) :
    document.lineIndent n = Bytes.leadingBlank ((document.lineText? n).getD []) := by
  rw [lineIndent]
  cases document.lineText? n <;> rfl

section Html

variable (hPlaced : block.IsPlaced document) (hText : Utf8.IsText document.text) (hHtml : block.mode = .html)
  (hStop : block.span.stop = document.text.place block.content.stop)
include hPlaced hText hHtml hStop

theorem lines_eq_lineWithin :
    block.lines = (List.range' block.start.line (block.span.stop.line + 1 - block.start.line)).map
      (document.lineWithin block) := by
  have hLines : (fun n => (document.lineText? n).getD []) = fun n => (Bytes.lines document.text)[n]?.getD [] := by
    funext n
    rw [lineText?_eq hText]
  have hStart : block.span.start = document.text.place block.content.start := hPlaced.start_eq
  rw [ScriptBlock.lines, hPlaced.html hHtml, Bytes.lines_slice hPlaced.start_le_stop, ← hStart, ← hStop, ← hLines]
  rfl

theorem getElem?_lines_eq (k : Nat) :
    block.lines[k]? = if block.start.line + k ≤ block.span.stop.line then
      some (document.lineWithin block (block.start.line + k)) else none := by
  rw [lines_eq_lineWithin hPlaced hText hHtml hStop, List.getElem?_map]
  split
  · rw [List.getElem?_range' (by omega), Option.map_some, Nat.one_mul]
  · rw [List.getElem?_eq_none (by rw [List.length_range']; omega)]
    rfl

theorem hasContent_add (k : Nat) : document.hasContent block (block.start.line + k) = block.hasContent k := by
  have hLater : block.span.start.line < block.start.line + k ↔ 0 < k := Nat.lt_add_right_iff_pos
  rw [hasContent, ScriptBlock.hasContent, getElem?_lines_eq hPlaced hText hHtml hStop, decide_eq_decide.mpr hLater,
    Bool.and_assoc]
  split
  · rename_i hInside
    rw [decide_eq_true hInside, Bool.true_and, Option.any_some]
  · rename_i hOutside
    rw [decide_eq_false hOutside, Bool.false_and, Option.any_none]

omit hPlaced hText hHtml hStop in
theorem lt_of_hasContent {n : Nat} (h : document.hasContent block n = true) : block.start.line < n := by
  simp only [hasContent, Bool.and_eq_true, decide_eq_true_eq] at h
  exact h.1.1

theorem holdsFirst_add (k : Nat) :
    holdsFirst (document.hasContent block) (block.start.line + k) = holdsFirst block.hasContent k := by
  have hAt := hasContent_add hPlaced hText hHtml hStop
  rw [Bool.eq_iff_iff, holdsFirst_iff, holdsFirst_iff, hAt]
  apply and_congr_right
  intro _
  constructor
  · intro hEarlier j hj
    rw [← hAt]
    exact hEarlier _ (Nat.add_lt_add_left hj _)
  · intro hEarlier n hn
    apply Bool.eq_false_iff.mpr
    intro hContent
    obtain ⟨j, rfl⟩ := Nat.exists_eq_add_of_lt (lt_of_hasContent hContent)
    rw [Nat.add_assoc] at hContent hn
    rw [hAt, hEarlier (j + 1) (Nat.lt_of_add_lt_add_left hn)] at hContent
    cases hContent

theorem lineIndent_eq {k : Nat} {line : Bytes} (hk : 0 < k) (hLine : block.lines[k]? = some line)
    (hContent : Bytes.isBlank line = false) : document.lineIndent (block.start.line + k) = Bytes.leadingBlank line := by
  rw [getElem?_lines_eq hPlaced hText hHtml hStop] at hLine
  split at hLine
  · obtain rfl := Option.some.inj hLine
    have hLater : block.span.start.line < block.start.line + k := Nat.lt_add_of_pos_right hk
    obtain ⟨rest, hRest⟩ := lineWithin_prefix document hLater
    rw [lineIndent_eq_leadingBlank, ← hRest, Bytes.leadingBlank_append_of_content hContent]
  · cases hLine

end Html

end Document
end ScriptLint
