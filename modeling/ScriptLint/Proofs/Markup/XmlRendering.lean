import ScriptLint.Proofs.ScriptBlock
import ScriptLint.Proofs.Text.Crlf
import ScriptLint.Proofs.Markup.XmlWritten

/-!
# Scanning rendered XML

Documents as lists of trees, and how they are written. A scan of the written document finds the outermost scripts, and
shows of each what its children write outside of markup.
-/
namespace ScriptLint
set_option autoImplicit false

namespace Xml

/-- A stretch of a written document: script text or markup. -/
inductive Piece where
  | shown (s : Bytes)
  | hidden (s : Bytes)

namespace Piece

def render : Piece → Bytes
  | shown s => s
  | hidden s => s

/-- What a script shows of it: of markup only the line feeds. -/
def visible : Piece → Bytes
  | shown s => s
  | hidden s => s.map fun b => if b = Byte.lineFeed then b else Byte.space

/-- Where the markup stands in pieces that are written from an offset on. -/
def masks (offset : Nat) : List Piece → List OffsetRange
  | [] => []
  | shown s :: more => masks (offset + s.length) more
  | hidden s :: more => ⟨offset, offset + s.length⟩ :: masks (offset + s.length) more

theorem masks_append (offset : Nat) (pieces more : List Piece) :
    masks offset (pieces ++ more) =
      masks offset pieces ++ masks (offset + (pieces.flatMap render).length) more := by
  induction pieces generalizing offset with
  | nil => rfl
  | cons piece pieces ih =>
    cases piece with
    | shown s => simp only [List.cons_append, masks, ih, List.flatMap_cons, render, List.length_append, Nat.add_assoc]
    | hidden s => simp only [List.cons_append, masks, ih, List.flatMap_cons, render, List.length_append, Nat.add_assoc]

theorem le_start_of_mem_masks {offset : Nat} {pieces : List Piece} {mask : OffsetRange}
    (h : mask ∈ masks offset pieces) : offset ≤ mask.start := by
  induction pieces generalizing offset with
  | nil => cases h
  | cons piece pieces ih =>
    cases piece with
    | shown s => exact Nat.le_trans (Nat.le_add_right _ _) (ih h)
    | hidden s =>
      rcases List.mem_cons.mp h with rfl | h
      · exact Nat.le_refl _
      · exact Nat.le_trans (Nat.le_add_right _ _) (ih h)

theorem length_visible (pieces : List Piece) :
    (pieces.flatMap visible).length = (pieces.flatMap render).length := by
  induction pieces with
  | nil => rfl
  | cons piece pieces ih => cases piece <;> simp [visible, render, ih]

end Piece

theorem blank_eq_visible {masks : List OffsetRange} {offset : Nat} {s : Bytes}
    (h : ∀ j < s.length, masks.any (·.contains (offset + j)) = true) :
    ScriptBlock.blank masks offset s = (Piece.hidden s).visible := by
  apply List.ext_getElem?
  intro i
  rw [ScriptBlock.getElem?_blank, Piece.visible, List.getElem?_map]
  cases hi : s[i]? with
  | none => rfl
  | some b =>
    have hMasked := h i (List.getElem?_eq_some_iff.mp hi).1
    simp only [Option.map_some, hMasked, and_true, ite_not]

/-- Blanking the markup leaves what is visible. Masks that end earlier do no harm. -/
theorem blank_masks (pieces : List Piece) (offset : Nat) (before : List OffsetRange)
    (hBefore : ∀ mask ∈ before, mask.stop ≤ offset) :
    ScriptBlock.blank (before ++ Piece.masks offset pieces) offset (pieces.flatMap Piece.render) =
      pieces.flatMap Piece.visible := by
  induction pieces generalizing offset before with
  | nil => rfl
  | cons piece pieces ih =>
    rw [List.flatMap_cons, List.flatMap_cons, ScriptBlock.blank_append]
    cases piece with
    | shown s =>
      congr 1
      · apply ScriptBlock.blank_eq_self
        intro j (hj : j < s.length)
        rw [List.any_eq_false]
        intro mask hMask
        rw [OffsetRange.contains_iff]
        rcases List.mem_append.mp hMask with hMask | hMask
        · have hStop := hBefore mask hMask
          omega
        · have hStart : offset + s.length ≤ mask.start := Piece.le_start_of_mem_masks hMask
          omega
      · exact ih _ before fun mask hMask => Nat.le_trans (hBefore mask hMask) (Nat.le_add_right _ _)
    | hidden s =>
      congr 1
      · apply blank_eq_visible
        intro j hj
        rw [List.any_eq_true]
        refine ⟨⟨offset, offset + s.length⟩, by simp [Piece.masks], ?_⟩
        rw [OffsetRange.contains_iff]
        exact ⟨Nat.le_add_right _ _, Nat.add_lt_add_left hj _⟩
      · rw [Piece.masks, List.append_cons]
        apply ih
        intro mask hMask
        rcases List.mem_append.mp hMask with hMask | hMask
        · exact Nat.le_trans (hBefore mask hMask) (Nat.le_add_right _ _)
        · cases List.mem_singleton.mp hMask
          exact Nat.le_refl _

/-- A list of trees: none, or the first of them and the trees that follow it. -/
inductive Forest where
  | nil
  | leaf (first : Leaf) (more : Forest)
  | element (tag : Tag) (children more : Forest)

/-- Text and the payload of a CDATA section are script text, and all else is markup. -/
def Leaf.pieces : Leaf → List Piece
  | text s _ => [.shown s]
  | comment s _ => [.hidden (Byte.less :: (commentMark ++ (s ++ [Byte.dash, Byte.dash]) ++ [Byte.greater]))]
  | cdata s _ => [.hidden (Byte.less :: cdataMark), .shown s,
      .hidden [Byte.bracketClose, Byte.bracketClose, Byte.greater]]
  | instruction name s _ => [.hidden (Byte.less :: ((Byte.question :: (name.bytes ++ [Byte.space])) ++
      (s ++ [Byte.question]) ++ [Byte.greater]))]
  | empty tag => [.hidden (Byte.less :: (tag.body ++ [Byte.slash] ++ [Byte.greater]))]

def Leaf.render (leaf : Leaf) : Bytes := leaf.pieces.flatMap Piece.render

namespace Forest

def pieces : Forest → List Piece
  | nil => []
  | leaf first more => first.pieces ++ more.pieces
  | element tag children more => .hidden tag.opening :: (children.pieces ++ .hidden tag.closing :: more.pieces)

def render (forest : Forest) : Bytes := forest.pieces.flatMap Piece.render

def visible (forest : Forest) : Bytes := forest.pieces.flatMap Piece.visible

theorem render_leaf (first : Leaf) (more : Forest) : (leaf first more).render = first.render ++ more.render := by
  rw [render, pieces, List.flatMap_append]
  rfl

theorem render_element (tag : Tag) (children more : Forest) :
    (element tag children more).render = tag.opening ++ (children.render ++ (tag.closing ++ more.render)) := by
  rw [render, pieces, List.flatMap_cons, List.flatMap_append, List.flatMap_cons]
  rfl

theorem render_element_append (tag : Tag) (children more : Forest) (rest : Bytes) :
    (element tag children more).render ++ rest =
      tag.opening ++ (children.render ++ (tag.closing ++ (more.render ++ rest))) := by
  rw [render_element, List.append_assoc, List.append_assoc, List.append_assoc]

theorem stop_element (offset : Nat) (tag : Tag) (children more : Forest) :
    offset + (element tag children more).render.length =
      offset + tag.opening.length + children.render.length + tag.closing.length + more.render.length := by
  simp only [render_element, List.length_append, Nat.add_assoc]

end Forest

/-- A script element that is written at an offset. -/
structure WrittenScript where
  offset : Nat
  tag : Tag
  children : Forest

namespace WrittenScript

def start (script : WrittenScript) : Nat := script.offset + script.tag.opening.length

def content (script : WrittenScript) : OffsetRange := ⟨script.start, script.start + script.children.render.length⟩

def extract (script : WrittenScript) : Extract := ⟨script.content, script.children.visible, script.tag.read⟩

def element (script : WrittenScript) : Element :=
  ⟨script.offset, script.content, script.tag.read, Piece.masks script.start script.children.pieces⟩

end WrittenScript

def Forest.scripts (offset : Nat) : Forest → List WrittenScript
  | nil => []
  | leaf first more => more.scripts (offset + first.render.length)
  | element tag children more =>
    let start := offset + tag.opening.length
    (if tag.name.bytes = scriptName then [⟨offset, tag, children⟩] else children.scripts start) ++
      more.scripts (start + children.render.length + tag.closing.length)

/-! ## Steps over written markup -/

def State.mask (masks : List OffsetRange) (state : State) : State :=
  ⟨state.opened, state.script.map fun script => { script with masks := script.masks ++ masks }⟩

theorem map_none_append {ε α : Type} (x : Except ε (List α)) : x.map ((none : Option α).toList ++ ·) = x := by
  cases x <;> rfl

theorem map_append_append {ε α : Type} (a b : List α) (x : Except ε (List α)) :
    (x.map (b ++ ·)).map (a ++ ·) = x.map ((a ++ b) ++ ·) := by
  cases x with
  | error e => rfl
  | ok c => exact congrArg Except.ok (List.append_assoc a b c).symm

theorem startsStray_of_isLetter {b : UInt8} (hb : Byte.isLetter b = true) (rest : Bytes) :
    startsStray (Byte.less :: b :: rest) = false := by
  simp [startsStray, isNameStart, hb]

section Steps

variable {text : Bytes} {offset : Nat} {state next : State} {found : Option Element} {rest : Bytes}

theorem elementsFrom_written {content : Bytes} {markup : Markup}
    (hText : text.drop offset = Byte.less :: (content ++ Byte.greater :: rest))
    (hStray : startsStray (Byte.less :: (content ++ Byte.greater :: rest)) = false)
    (hMarkup : markupAt (content ++ Byte.greater :: rest) = .ok (markup, content))
    (hStep : step offset (offset + content.length + 2) markup state = .ok (next, found)) :
    elementsFrom text offset state (Byte.less :: (content ++ Byte.greater :: rest)) =
      (elementsFrom text (offset + content.length + 2) next rest).map (found.toList ++ ·) := by
  rw [elementsFrom_markup hText hStray hMarkup hStep, List.drop_length_add_append]
  rfl

theorem elementsFrom_opening (tag : Tag) {stop : Nat} (hStop : offset + tag.opening.length = stop)
    (hText : text.drop offset = tag.opening ++ rest)
    (hStep : step offset stop (.opening tag.body) state = .ok (next, found)) :
    elementsFrom text offset state (tag.opening ++ rest) =
      (elementsFrom text stop next rest).map (found.toList ++ ·) := by
  have hOpening : tag.opening ++ rest = Byte.less :: (tag.body ++ Byte.greater :: rest) := by simp [Tag.opening]
  have hLength : offset + tag.opening.length = offset + tag.body.length + 2 := by simp [Tag.opening, Nat.add_assoc]
  rw [hOpening] at hText ⊢
  rw [← hStop, hLength] at hStep ⊢
  refine elementsFrom_written hText ?_ (markupAt_opening tag rest) hStep
  obtain ⟨b, tail, hBody, hb⟩ := tag.starts_letter
  rw [hBody]
  exact startsStray_of_isLetter hb _

theorem elementsFrom_closing (tag : Tag) {stop : Nat} (hStop : offset + tag.closing.length = stop)
    (hText : text.drop offset = tag.closing ++ rest)
    (hClose : close offset stop tag.name.bytes state = .ok (next, found)) :
    elementsFrom text offset state (tag.closing ++ rest) =
      (elementsFrom text stop next rest).map (found.toList ++ ·) := by
  have hClosing : tag.closing ++ rest = Byte.less :: (Byte.slash :: tag.name.bytes ++ Byte.greater :: rest) := by
    simp [Tag.closing]
  have hLength : offset + tag.closing.length = offset + (Byte.slash :: tag.name.bytes).length + 2 := by
    simp [Tag.closing, Nat.add_assoc]
  rw [hClosing] at hText ⊢
  rw [← hStop, hLength] at hClose ⊢
  exact elementsFrom_written hText rfl (markupAt_closing_name tag.name rest) hClose

theorem elementsFrom_hidden {content : Bytes} {markup : Markup}
    (hText : text.drop offset = Byte.less :: (content ++ [Byte.greater]) ++ rest)
    (hStray : startsStray (Byte.less :: (content ++ Byte.greater :: rest)) = false)
    (hMarkup : markupAt (content ++ Byte.greater :: rest) = .ok (markup, content))
    (hStep : ∀ stop, step offset stop markup state = .ok (state.mask [⟨offset, stop⟩], none)) :
    elementsFrom text offset state (Byte.less :: (content ++ [Byte.greater]) ++ rest) =
      elementsFrom text (offset + (Byte.less :: (content ++ [Byte.greater])).length)
        (state.mask [⟨offset, offset + (Byte.less :: (content ++ [Byte.greater])).length⟩]) rest := by
  have hWritten : Byte.less :: (content ++ [Byte.greater]) ++ rest =
      Byte.less :: (content ++ Byte.greater :: rest) := by simp
  have hStop : offset + (Byte.less :: (content ++ [Byte.greater])).length = offset + content.length + 2 := by
    simp [Nat.add_assoc]
  rw [hWritten] at hText ⊢
  rw [hStop, elementsFrom_written hText hStray hMarkup (hStep _)]
  exact map_none_append _

theorem step_cdata (start stop : Nat) :
    step start stop .cdata state = .ok (state.mask [⟨start, start + 9⟩, ⟨stop - 3, stop⟩], none) := by
  obtain ⟨opened, script⟩ := state
  cases script with
  | none => rfl
  | some script => simp [step, State.mask, OpenScript.mask]

theorem elementsFrom_cdata {s : Bytes} (clean : ¬[Byte.bracketClose, Byte.bracketClose, Byte.greater] <:+: s)
    (hText : text.drop offset = (Leaf.cdata s clean).render ++ rest) :
    elementsFrom text offset state ((Leaf.cdata s clean).render ++ rest) =
      elementsFrom text (offset + (Leaf.cdata s clean).render.length)
        (state.mask (Piece.masks offset (Leaf.cdata s clean).pieces)) rest := by
  have hRender : (Leaf.cdata s clean).render ++ rest = Byte.less ::
      (cdataMark ++ (s ++ [Byte.bracketClose, Byte.bracketClose]) ++ Byte.greater :: rest) := by
    simp [Leaf.render, Leaf.pieces, Piece.render]
  have hLength : (cdataMark ++ (s ++ [Byte.bracketClose, Byte.bracketClose])).length = s.length + 10 := by
    simp only [List.length_append]
    exact Nat.add_comm 8 _
  have hStop : (Leaf.cdata s clean).render.length = s.length + 12 := by
    simp only [Leaf.render, Leaf.pieces, Piece.render, List.flatMap_cons, List.flatMap_nil, List.length_append]
    exact Nat.add_comm 9 _
  have hMasks : Piece.masks offset (Leaf.cdata s clean).pieces =
      [⟨offset, offset + 9⟩, ⟨offset + (s.length + 12) - 3, offset + (s.length + 12)⟩] := by
    have hLast : offset + (s.length + 12) - 3 = offset + 9 + s.length := by omega
    have hEnd : offset + (s.length + 12) = offset + 9 + s.length + 3 := by omega
    rw [hLast, hEnd]
    rfl
  rw [hRender] at hText ⊢
  rw [hStop, hMasks, elementsFrom_written hText rfl (markupAt_cdata clean rest) (step_cdata _ _), hLength]
  exact map_none_append _

/-- A leaf masks its markup in the script that is open. -/
theorem elementsFrom_leaf (leaf : Leaf) (hText : text.drop offset = leaf.render ++ rest) :
    elementsFrom text offset state (leaf.render ++ rest) =
      elementsFrom text (offset + leaf.render.length) (state.mask (Piece.masks offset leaf.pieces)) rest := by
  cases leaf with
  | text s clean =>
    have hRender : (Leaf.text s clean).render = s := List.flatMap_singleton _ _
    have hMask : state.mask [] = state := by
      obtain ⟨opened, script⟩ := state
      cases script <;> simp [State.mask]
    rw [hRender] at hText ⊢
    rw [elementsFrom_text state clean hText, Leaf.pieces, Piece.masks, Piece.masks, hMask]
  | comment s clean =>
    rw [Leaf.render, Leaf.pieces, List.flatMap_singleton, Piece.render] at hText ⊢
    exact elementsFrom_hidden hText rfl (markupAt_comment clean rest) fun _ => rfl
  | cdata s clean => exact elementsFrom_cdata clean hText
  | instruction name s clean =>
    rw [Leaf.render, Leaf.pieces, List.flatMap_singleton, Piece.render] at hText ⊢
    exact elementsFrom_hidden hText rfl (markupAt_instruction name clean rest) fun _ => rfl
  | empty tag =>
    rw [Leaf.render, Leaf.pieces, List.flatMap_singleton, Piece.render] at hText ⊢
    refine elementsFrom_hidden hText ?_ (markupAt_empty tag rest) fun stop => ?_
    · obtain ⟨b, tail, hBody, hb⟩ := tag.starts_letter
      rw [hBody]
      exact startsStray_of_isLetter hb _
    · rw [step, tag.attributes_body]
      rfl

end Steps

/-! ## Runs over written trees -/

theorem State.mask_mask (a b : List OffsetRange) (state : State) : (state.mask a).mask b = state.mask (a ++ b) := by
  obtain ⟨opened, script⟩ := state
  cases script <;> simp [State.mask]

/-- Inside a script nothing is found, the children are closed again and their markup is masked. -/
theorem elementsFrom_inside {text : Bytes} (forest : Forest) {offset opened : Nat} {rest : Bytes} (script : OpenScript)
    (hText : text.drop offset = forest.render ++ rest) :
    elementsFrom text offset ⟨opened, some script⟩ (forest.render ++ rest) =
      elementsFrom text (offset + forest.render.length)
        (State.mask (Piece.masks offset forest.pieces) ⟨opened, some script⟩) rest := by
  induction forest generalizing offset opened rest script with
  | nil => simp [Forest.render, Forest.pieces, Piece.masks, State.mask]
  | leaf first more ih =>
    rw [Forest.render_leaf, List.append_assoc] at hText ⊢
    have hMasks : Piece.masks offset (Forest.leaf first more).pieces =
        Piece.masks offset first.pieces ++ Piece.masks (offset + first.render.length) more.pieces :=
      Piece.masks_append _ _ _
    rw [elementsFrom_leaf first hText, hMasks, ← State.mask_mask, List.length_append, ← Nat.add_assoc]
    exact ih _ (Bytes.drop_of_drop hText)
  | element tag children more ihChildren ihMore =>
    rw [Forest.render_element_append] at hText ⊢
    have hChildren := Bytes.drop_of_drop hText
    have hClosing := Bytes.drop_of_drop hChildren
    have hMore := Bytes.drop_of_drop hClosing
    have hMasks : Piece.masks offset (Forest.element tag children more).pieces =
        ⟨offset, offset + tag.opening.length⟩ :: (Piece.masks (offset + tag.opening.length) children.pieces ++
          ⟨offset + tag.opening.length + children.render.length,
            offset + tag.opening.length + children.render.length + tag.closing.length⟩ ::
          Piece.masks (offset + tag.opening.length + children.render.length + tag.closing.length) more.pieces) := by
      rw [Forest.pieces, Piece.masks, Piece.masks_append]
      rfl
    rw [Forest.stop_element, hMasks]
    generalize hStart : offset + tag.opening.length = start at *
    generalize hStop : start + children.render.length = stop at *
    generalize hEnd : stop + tag.closing.length = last at *
    -- one child more is open until the closing tag comes
    have hOpen : step offset start (.opening tag.body) ⟨opened, some script⟩ =
        .ok (⟨opened + 1, some ({ script with depth := script.depth + 1 }.mask offset start)⟩, none) := by
      rw [step, tag.attributes_body]
    have hClose : close stop last tag.name.bytes (State.mask (Piece.masks start children.pieces)
          ⟨opened + 1, some ({ script with depth := script.depth + 1 }.mask offset start)⟩) =
        .ok (State.mask (⟨offset, start⟩ :: (Piece.masks start children.pieces ++ [⟨stop, last⟩]))
          ⟨opened, some script⟩, none) := by
      simp [close, State.mask, OpenScript.mask]
    rw [elementsFrom_opening tag hStart hText hOpen, map_none_append, ihChildren _ hChildren, hStop,
      elementsFrom_closing tag hEnd hClosing hClose, map_none_append]
    have hAll : State.mask (⟨offset, start⟩ :: (Piece.masks start children.pieces ++ ⟨stop, last⟩ ::
          Piece.masks last more.pieces)) ⟨opened, some script⟩ =
        State.mask (Piece.masks last more.pieces) (State.mask (⟨offset, start⟩ ::
          (Piece.masks start children.pieces ++ [⟨stop, last⟩])) ⟨opened, some script⟩) := by
      rw [State.mask_mask]
      simp
    rw [hAll]
    exact ihMore _ hMore

/-- Outside of scripts the outermost ones are found, and the trees leave nothing open. -/
theorem elementsFrom_outside {text : Bytes} (forest : Forest) {offset opened : Nat} {rest : Bytes}
    (hText : text.drop offset = forest.render ++ rest) :
    elementsFrom text offset ⟨opened, none⟩ (forest.render ++ rest) =
      (elementsFrom text (offset + forest.render.length) ⟨opened, none⟩ rest).map
        ((forest.scripts offset).map WrittenScript.element ++ ·) := by
  induction forest generalizing offset opened rest with
  | nil => exact (map_none_append _).symm
  | leaf first more ih =>
    rw [Forest.render_leaf, List.append_assoc] at hText ⊢
    rw [elementsFrom_leaf first hText, List.length_append, ← Nat.add_assoc]
    exact ih (Bytes.drop_of_drop hText)
  | element tag children more ihChildren ihMore =>
    rw [Forest.render_element_append] at hText ⊢
    have hChildren := Bytes.drop_of_drop hText
    have hClosing := Bytes.drop_of_drop hChildren
    have hMore := Bytes.drop_of_drop hClosing
    rw [Forest.stop_element, Forest.scripts]
    by_cases hName : tag.name.bytes = scriptName
    · have hOpen : step offset (offset + tag.opening.length) (.opening tag.body) ⟨opened, none⟩ =
          .ok (⟨opened + 1, some ⟨offset, offset + tag.opening.length, tag.read, 0, []⟩⟩, none) := by
        simp only [step, tag.attributes_body, tag.tagName_body, if_pos hName]
      have hClose : close (offset + tag.opening.length + children.render.length)
            (offset + tag.opening.length + children.render.length + tag.closing.length) tag.name.bytes
            (State.mask (Piece.masks (offset + tag.opening.length) children.pieces)
              ⟨opened + 1, some ⟨offset, offset + tag.opening.length, tag.read, 0, []⟩⟩) =
          .ok (⟨opened, none⟩, some (WrittenScript.element ⟨offset, tag, children⟩)) := by
        simp [close, State.mask, hName, WrittenScript.element, WrittenScript.content, WrittenScript.start]
      rw [elementsFrom_opening tag rfl hText hOpen, map_none_append, elementsFrom_inside children _ hChildren,
        elementsFrom_closing tag rfl hClosing hClose, ihMore hMore, map_append_append, if_pos hName, List.map_append]
      rfl
    · have hOpen : step offset (offset + tag.opening.length) (.opening tag.body) ⟨opened, none⟩ =
          .ok (⟨opened + 1, none⟩, none) := by
        simp only [step, tag.attributes_body, tag.tagName_body, if_neg hName]
      rw [elementsFrom_opening tag rfl hText hOpen, map_none_append, ihChildren hChildren,
        elementsFrom_closing tag rfl hClosing rfl, map_none_append, ihMore hMore, map_append_append, if_neg hName,
        List.map_append]

theorem elementsFrom_end (text : Bytes) (opened : Nat) : elementsFrom text text.length ⟨opened, none⟩ [] = .ok [] := by
  rw [elementsFrom.eq_def, List.drop_length]
  rfl

theorem elements_render {forest : Forest} (hMark : ¬byteOrderMark <+: forest.render) :
    elements forest.render = .ok ((forest.scripts 0).map WrittenScript.element) := by
  have hRun : elementsFrom forest.render 0 ⟨0, none⟩ (forest.render ++ []) = _ :=
    elementsFrom_outside forest (by rw [List.drop_zero, List.append_nil])
  rw [List.append_nil, Nat.zero_add, elementsFrom_end] at hRun
  rw [elements_eq, markLength_of_no_mark hMark, List.drop_zero, hRun, Except.map, List.append_nil]

theorem drop_script {text : Bytes} {forest : Forest} {offset : Nat} {rest : Bytes} {script : WrittenScript}
    (hText : text.drop offset = forest.render ++ rest) (h : script ∈ forest.scripts offset) :
    ∃ after, text.drop script.offset = script.tag.opening ++ (script.children.render ++ after) := by
  induction forest generalizing offset rest with
  | nil => cases h
  | leaf first more ih =>
    rw [Forest.render_leaf, List.append_assoc] at hText
    exact ih (Bytes.drop_of_drop hText) h
  | element tag children more ihChildren ihMore =>
    rw [Forest.render_element_append] at hText
    have hChildren := Bytes.drop_of_drop hText
    rcases List.mem_append.mp h with h | h
    · split at h
      · rw [List.mem_singleton.mp h]
        exact ⟨_, hText⟩
      · exact ihChildren hChildren h
    · exact ihMore (Bytes.drop_of_drop (Bytes.drop_of_drop hChildren)) h

theorem slice_script {forest : Forest} {script : WrittenScript} (h : script ∈ forest.scripts 0) :
    (forest.render.take script.content.stop).drop script.content.start = script.children.render := by
  have hText : forest.render.drop 0 = forest.render ++ [] := by rw [List.drop_zero, List.append_nil]
  obtain ⟨after, hAfter⟩ := drop_script hText h
  exact Bytes.slice_of_drop hAfter

theorem extract_element {forest : Forest} {script : WrittenScript} (hText : Utf8.IsText forest.render)
    (hMark : ¬byteOrderMark <+: forest.render) (h : script ∈ forest.scripts 0) :
    script.element.extract forest.render = script.extract := by
  have hPlaced := (elements_placed_of_no_mark hMark (elements_render hMark)).1 _ (List.mem_map_of_mem h)
  have hContent : script.element.contentText forest.render = script.children.render := slice_script h
  have hBlank : ScriptBlock.blank script.element.masks script.start script.children.render = script.children.visible :=
    blank_masks script.children.pieces script.start [] (fun _ h => absurd h List.not_mem_nil)
  rw [Element.extract, hPlaced.scriptText_eq hText, hContent]
  exact congrArg (Extract.mk script.content · script.tag.read) hBlank

end Xml

namespace Document

/-- Scanning undoes writing: the outermost scripts of a written document are found in order, each with its attributes
and where its children were written, and shown without the markup of its children. -/
theorem xml_scan_render (forest : Xml.Forest) (mediaTypes : List String) (hText : Utf8.IsText forest.render)
    (hPairs : ¬[Byte.carriageReturn, Byte.lineFeed] <:+: forest.render)
    (hMark : ¬Xml.byteOrderMark <+: forest.render) :
    ∃ blocks, (⟨forest.render⟩ : Document).scan { mode := .xml, mediaTypes } = .ok blocks ∧
      blocks.map ScriptBlock.extract = ((forest.scripts 0).map Xml.WrittenScript.extract).filter (fun found =>
        Attribute.denoteScript .xml mediaTypes found.attributes) ∧
      (∀ (i : Nat) (block : ScriptBlock), blocks[i]? = some block → block.index = i) ∧
      ∀ script ∈ forest.scripts 0,
        (forest.render.take script.content.stop).drop script.content.start = script.children.render ∧
        script.children.visible.length = script.children.render.length := by
  have hSelf : (⟨forest.render⟩ : Document).text = forest.render := Newline.normalize_eq_self hPairs
  have hElements : (⟨forest.render⟩ : Document).elements .xml =
      .ok ((forest.scripts 0).map Xml.WrittenScript.element) := by
    rw [elements, hSelf]
    exact Xml.elements_render hMark
  obtain ⟨blocks, hScan, hBlocks, hIndex⟩ := scan_extracts ⟨forest.render⟩ { mode := .xml, mediaTypes } hElements
  refine ⟨blocks, hScan, ?_, hIndex, fun script hScript => ⟨Xml.slice_script hScript, Xml.Piece.length_visible _⟩⟩
  rw [hBlocks, hSelf, List.map_map]
  congr 1
  exact List.map_congr_left fun script hScript => Xml.extract_element hText hMark hScript

theorem xml_scan_render_nested :
    let scriptTag : Xml.Tag := ⟨⟨Utf8.encode "script", by decide, by decide +kernel⟩, [], by decide⟩
    let childTag : Xml.Tag := ⟨⟨Utf8.encode "b", by decide, by decide +kernel⟩,
      [⟨⟨Utf8.encode "x", by decide, by decide +kernel⟩, Utf8.encode "'>", by decide⟩], by decide⟩
    let children : Xml.Forest :=
      .leaf (.text (Utf8.encode "é") (by decide))
        (.element childTag (.leaf (.cdata (Utf8.encode "a<b]]") (by decide +kernel)) .nil)
          (.leaf (.comment (Utf8.encode "é\n") (by decide +kernel))
            (.element scriptTag (.leaf (.text (Utf8.encode "1") (by decide)) .nil) .nil)))
    let forest : Xml.Forest := .element childTag (.element scriptTag children .nil) (.leaf (.empty scriptTag) .nil)
    Utf8.IsText forest.render ∧ ¬[Byte.carriageReturn, Byte.lineFeed] <:+: forest.render ∧
      ¬Xml.byteOrderMark <+: forest.render ∧
      ∃ blocks, (⟨forest.render⟩ : Document).scan { mode := .xml } = .ok blocks ∧
        blocks.map ScriptBlock.extract = [⟨⟨18, 79⟩, Utf8.encode "é" ++ List.replicate 19 Byte.space ++
          Utf8.encode "a<b]]" ++ List.replicate 13 Byte.space ++ [Byte.lineFeed] ++ List.replicate 11 Byte.space ++
          Utf8.encode "1" ++ List.replicate 9 Byte.space, []⟩] := by
  intro scriptTag childTag children forest
  have hSource : forest.render = Utf8.encode
      ("<b x=\"'>\"><script>é<b x=\"'>\"><![CDATA[a<b]]]]></b><!--é\n--><script>1</script></script></b><script/>") := by
    decide +kernel
  have hText : Utf8.IsText forest.render := hSource ▸ Utf8.isText_encode _
  have hPairs : ¬[Byte.carriageReturn, Byte.lineFeed] <:+: forest.render := by decide +kernel
  have hMark : ¬Xml.byteOrderMark <+: forest.render := by decide +kernel
  obtain ⟨blocks, hScan, hBlocks, -⟩ := xml_scan_render forest defaultMediaTypes hText hPairs hMark
  refine ⟨hText, hPairs, hMark, blocks, hScan, ?_⟩
  rw [hBlocks]
  decide +kernel

end Document
end ScriptLint
