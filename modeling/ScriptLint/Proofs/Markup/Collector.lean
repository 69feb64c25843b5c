import ScriptLint.Collector
import ScriptLint.Proofs.ScriptBlock

/-!
# Collecting scripts in one pass

A collector that takes every script element as it is met ends up with what it would make of the list of them all. So a
scan in one pass returns what `Document.scan` says, unless it breaks off, and it only ever breaks off in XML after a byte
order mark.
-/
namespace ScriptLint
set_option autoImplicit false

namespace Html

theorem collectFrom_eq_foldl {σ : Type} (take : σ → Element → σ) (offset : Nat) (collected : σ) (s : Bytes) :
    collectFrom take offset collected s = (elementsFrom offset s).foldl take collected := by
  fun_induction collectFrom take offset collected s with
  | case1 => rw [elementsFrom, List.foldl_nil]
  | case2 offset collected rest length hPlain ih =>
    rw [ih, elementsFrom, if_pos rfl, hPlain]
  | case3 offset collected rest attributes tagLength contentLength length hScript ih =>
    rw [ih, elementsFrom, if_pos rfl, hScript, List.foldl_cons]
  | case4 offset collected b rest hLess ih =>
    rw [ih, elementsFrom, if_neg hLess]

end Html

namespace Xml

variable {σ : Type} (take : σ → Element → σ) (text : Bytes)

/-- The result is that of the scan, and if there is one, all elements have been collected. -/
theorem collectFrom_eq_foldl (offset : Nat) (state : State) (collected : σ) (rest : Bytes) :
    (collectFrom take text offset state collected rest).2 = (elementsFrom text offset state rest).map (fun _ => ()) ∧
      ∀ elements, elementsFrom text offset state rest = .ok elements →
        (collectFrom take text offset state collected rest).1 = elements.foldl take collected := by
  fun_induction collectFrom take text offset state collected rest with
  | case1 offset state collected rest hStray =>
    rw [elementsFrom.eq_def, if_pos hStray]
    constructor
    · rfl
    · rintro _ ⟨⟩
  | case2 offset state collected hStray script hScript =>
    rw [elementsFrom.eq_def, if_neg hStray]
    simp only [hScript]
    constructor
    · rfl
    · rintro _ ⟨⟩
  | case3 offset state collected hStray hScript =>
    rw [elementsFrom.eq_def, if_neg hStray]
    simp only [hScript]
    constructor
    · rfl
    · rintro elements ⟨⟩
      rfl
  | case4 offset state collected hStray after failure hMarkup =>
    rw [elementsFrom.eq_def, if_neg hStray]
    simp only [if_true, hMarkup]
    constructor
    · rfl
    · rintro _ ⟨⟩
  | case5 offset state collected hStray after markup content hMarkup error hStep =>
    rw [elementsFrom.eq_def, if_neg hStray]
    simp only [if_true, hMarkup, hStep]
    constructor
    · rfl
    · rintro _ ⟨⟩
  | case6 offset state collected hStray after markup content hMarkup next found hStep ih =>
    rw [elementsFrom.eq_def, if_neg hStray]
    simp only [if_true, hMarkup, hStep]
    obtain ⟨hResult, hCollected⟩ := ih
    cases hMore : elementsFrom text (offset + content.length + 2) next (after.drop (content.length + 1)) with
    | error error =>
      rw [hMore] at hResult
      constructor
      · exact hResult
      · rintro _ ⟨⟩
    | ok more =>
      rw [hMore] at hResult
      constructor
      · exact hResult
      · rintro elements ⟨⟩
        rw [hCollected more hMore, List.foldl_append]
  | case7 offset state collected hStray b after hLess length ih =>
    rw [elementsFrom.eq_def, if_neg hStray]
    simp only [if_neg hLess]
    exact ih

/-- What a collector keeps while it takes elements as they stand in a text, it keeps to the end or up to a failure. -/
theorem collectFrom_keeps {source : Bytes} {take : σ → Element → σ} {kept : σ → Prop}
    (hTake : ∀ collected element, element.IsPlaced source → kept collected → kept (take collected element))
    (offset : Nat) (state : State) (collected : σ) (rest : Bytes) (hText : source.drop offset = rest)
    (hState : state.IsPlaced source offset) (hKept : kept collected) :
    kept (collectFrom take text offset state collected rest).1 := by
  fun_induction collectFrom take text offset state collected rest with
  | case1 | case2 | case3 | case4 | case5 => exact hKept
  | case6 offset state collected hStray after markup content hMarkup next found hStep ih =>
    have hAdvances := step_advances (holds_of_reads hText (markupAt_reads hMarkup)) hState hStep
    refine ih ?_ hAdvances.isPlaced ?_
    · rw [show offset + content.length + 2 = offset + (content.length + 1 + 1) by omega, ← List.drop_drop, hText]
      rfl
    · cases found with
      | none => exact hKept
      | some element => exact hTake _ _ (hAdvances.found element rfl).1 hKept
  | case7 offset state collected hStray b after hLess length ih =>
    refine ih ?_ (fun script hs => (hState script hs).mono (by omega)) hKept
    rw [Nat.add_assoc, ← List.drop_drop, hText, Nat.add_comm 1]
    rfl

end Xml

namespace ScriptBlock

variable {document : Document} {options : ScanOptions}

theorem scriptText?_eq_some {text script : Bytes} {element : Element} (h : scriptText? text element = some script) :
    script = scriptText text element := by
  obtain ⟨content, hContent, rfl⟩ := Option.map_eq_some_iff.mp h
  rw [Utf8.slice?] at hContent
  split at hContent
  · cases hContent
    rfl
  · cases hContent

theorem scriptText?_of_isPlaced {text : Bytes} {element : Element} (h : element.IsPlaced text)
    (hText : Utf8.IsText text) : scriptText? text element = some (scriptText text element) :=
  congrArg (Option.map (shown element))
    (Utf8.slice?_of_boundaries h.start_le_stop (h.isBoundary_start hText) h.isBoundary_stop)

theorem collect_some (blocks : List ScriptBlock) (element : Element) :
    collect document options (some blocks) element =
      if Attribute.denoteScript options.mode options.mediaTypes element.attributes then
        (scriptText? document.text element).map fun _ =>
          blocks ++ [ofElement document options.mode blocks.length element]
      else some blocks := by
  rw [collect]
  split
  · rw [Option.bind_some]
    cases hText : scriptText? document.text element with
    | none => rfl
    | some text => rw [scriptText?_eq_some hText]; rfl
  · rfl

theorem foldl_collect_none (elements : List Element) : elements.foldl (collect document options) none = none := by
  induction elements with
  | nil => rfl
  | cons element more ih =>
    have hNone : collect document options none element = none := by
      rw [collect]
      split <;> rfl
    rw [List.foldl_cons, hNone, ih]

theorem foldl_collect (document : Document) (options : ScanOptions) (elements : List Element)
    (blocks : List ScriptBlock) :
    elements.foldl (collect document options) (some blocks) = none ∨
      elements.foldl (collect document options) (some blocks) =
        some (blocks ++ number document options.mode blocks.length (elements.filter fun element =>
          Attribute.denoteScript options.mode options.mediaTypes element.attributes)) := by
  induction elements generalizing blocks with
  | nil => exact .inr (by rw [List.foldl_nil, List.filter_nil, number, List.append_nil])
  | cons element more ih =>
    rw [List.foldl_cons, collect_some, List.filter_cons]
    split
    · cases scriptText? document.text element with
      | none => exact .inl (foldl_collect_none more)
      | some text =>
        have hMore := ih (blocks ++ [ofElement document options.mode blocks.length element])
        rwa [List.length_append, List.append_assoc] at hMore
    · exact ih blocks

theorem isSome_collect {collected : Option (List ScriptBlock)} {element : Element} (hText : Utf8.IsText document.text)
    (h : element.IsPlaced document.text) (hSome : collected.isSome = true) :
    (collect document options collected element).isSome = true := by
  obtain ⟨blocks, rfl⟩ := Option.isSome_iff_exists.mp hSome
  rw [collect, scriptText?_of_isPlaced h hText]
  split <;> rfl

end ScriptBlock

namespace Document

variable {options : ScanOptions}

theorem collect_html (document : Document) (hMode : options.mode = .html) :
    document.collect options =
      ((Html.elements document.text).foldl (ScriptBlock.collect document options) (some [])).map .ok := by
  simp only [collect, hMode, Html.collectFrom_eq_foldl]
  rfl

theorem collect_xml (document : Document) (hMode : options.mode = .xml) :
    let found := Xml.collectFrom (ScriptBlock.collect document options) document.text 0 ⟨0, none⟩ (some [])
      (document.text.drop (Xml.markLength document.text))
    document.collect options = found.1.map fun blocks => found.2.map fun _ => blocks := by
  simp only [collect, hMode, Xml.markLength]
  split <;> rfl

/-- A scan in one pass breaks off or returns what a scan does. -/
theorem collect_eq_none_or (document : Document) (options : ScanOptions) :
    document.collect options = none ∨ document.collect options = some (document.scan options) := by
  cases hMode : options.mode with
  | html =>
    rw [collect_html document hMode, scan, hMode]
    rcases ScriptBlock.foldl_collect document options (Html.elements document.text) [] with hNone | hSome
    · rw [hNone]
      exact .inl rfl
    · rw [hSome, hMode]
      exact .inr rfl
  | xml =>
    obtain ⟨hResult, hCollected⟩ := Xml.collectFrom_eq_foldl (ScriptBlock.collect document options) document.text 0
      ⟨0, none⟩ (some []) (document.text.drop (Xml.markLength document.text))
    rw [← Xml.elements_eq] at hResult hCollected
    rw [collect_xml document hMode, scan, hMode]
    simp only [elements, hResult]
    cases hElements : Xml.elements document.text with
    | error error =>
      cases (Xml.collectFrom (ScriptBlock.collect document options) document.text 0 ⟨0, none⟩ (some [])
        (document.text.drop (Xml.markLength document.text))).1 with
      | none => exact .inl rfl
      | some blocks => exact .inr rfl
    | ok elements =>
      rw [hCollected elements hElements]
      rcases ScriptBlock.foldl_collect document options elements [] with hNone | hSome
      · rw [hNone]
        exact .inl rfl
      · rw [hSome, hMode]
        exact .inr rfl

theorem isSome_collect (document : Document) (options : ScanOptions) (hText : Utf8.IsText document.text)
    (hMark : options.mode = .xml → ¬Xml.byteOrderMark <+: document.text) :
    (document.collect options).isSome = true := by
  have hTake : ∀ collected element, element.IsPlaced document.text → collected.isSome = true →
      (ScriptBlock.collect document options collected element).isSome = true :=
    fun _ _ => ScriptBlock.isSome_collect hText
  cases hMode : options.mode with
  | html =>
    rw [collect_html document hMode, Option.isSome_map]
    refine List.foldlRecOn (motive := fun collected => Option.isSome collected = true) _ _ Option.isSome_some ?_
    intro collected hSome element hElement
    exact hTake collected element (Html.elements_placed _ element hElement) hSome
  | xml =>
    rw [collect_xml document hMode, Option.isSome_map]
    refine Xml.collectFrom_keeps _ hTake 0 _ _ _ ?_ (Xml.State.isPlaced_none _ _ _) rfl
    rw [Xml.markLength_of_no_mark (hMark hMode)]

/-- A scan in one pass never breaks off in HTML, nor in XML without a byte order mark. -/
theorem collect_eq_scan (source : String) (options : ScanOptions)
    (hMark : options.mode = .xml → ¬Xml.byteOrderMark <+: (Document.mk (Utf8.encode source)).text) :
    (Document.mk (Utf8.encode source)).collect options = some ((Document.mk (Utf8.encode source)).scan options) := by
  have hText := Newline.isText_normalize (Utf8.isText_encode source)
  have hSome := isSome_collect (Document.mk (Utf8.encode source)) options hText hMark
  apply (collect_eq_none_or _ _).resolve_left
  intro hNone
  rw [hNone] at hSome
  cases hSome

end Document
end ScriptLint
