import ScriptLint.Markup.Html
import ScriptLint.Proofs.Markup.Element

/-!
# Where HTML script elements stand
-/
namespace ScriptLint.Html
set_option autoImplicit false

theorem splitAt?_suffix {b : UInt8} {s before after : Bytes} (h : Bytes.splitAt? b s = some (before, after)) :
    after <:+ s := by
  rw [Bytes.splitAt?_eq_some h]
  exact ⟨before ++ [b], by simp⟩

theorem value?_suffix {s value after : Bytes} (h : value? s = some (value, after)) : after <:+ s := by
  cases s with
  | nil => cases h
  | cons b rest =>
    simp only [value?] at h
    split at h
    · exact (splitAt?_suffix h).trans (List.suffix_cons b rest)
    · cases h
      exact List.dropWhile_suffix _

theorem attribute?_suffix {b : UInt8} {rest after : Bytes} {attr : Attribute}
    (h : attribute? b rest = some (attr, after)) : after <:+ rest := by
  simp only [attribute?] at h
  generalize (if isAttributeByte b then rest.takeWhile isAttributeByte else []) = tail at h
  have hSpace : (rest.drop tail.length).dropWhile isSpace <:+ rest :=
    (List.dropWhile_suffix _).trans (List.drop_suffix _ _)
  split at h
  · cases h
    exact List.nil_suffix
  · rename_i c next hNext
    rw [hNext] at hSpace
    split at h
    · obtain ⟨found, hFound, hEq⟩ := Option.map_eq_some_iff.mp h
      cases hEq
      have hValue : found.2 <:+ next.dropWhile isSpace := value?_suffix hFound
      exact hValue.trans ((List.dropWhile_suffix _).trans ((List.suffix_cons c next).trans hSpace))
    · cases h
      exact hSpace

theorem attributes?_eq {s rest : Bytes} {b : UInt8} (hs : s.dropWhile isSpace = b :: rest) :
    attributes? s =
      if b = Byte.greater then some ([], rest)
      else if b = Byte.slash ∨ b = Byte.equals then attributes? rest
      else (attribute? b rest).bind fun read =>
        (attributes? read.2).map fun found => (read.1 :: found.1, found.2) := by
  rw [attributes?.eq_def]
  split
  · rename_i hNil
    rw [hs] at hNil
    cases hNil
  · rename_i hCons
    rw [hs] at hCons
    cases hCons
    congr 2
    split
    · rename_i hNone
      rw [hNone]
      rfl
    · rename_i hSome
      rw [hSome]
      rfl

theorem attributes?_nil {s : Bytes} (hs : s.dropWhile isSpace = []) : attributes? s = none := by
  rw [attributes?.eq_def]
  split
  · rfl
  · rename_i hCons
    rw [hs] at hCons
    cases hCons

theorem attributes?_greater (s : Bytes) : attributes? (Byte.greater :: s) = some ([], s) :=
  (attributes?_eq rfl).trans (if_pos rfl)

theorem attributes?_suffix {s after : Bytes} {attrs : List Attribute} (h : attributes? s = some (attrs, after)) :
    Byte.greater :: after <:+ s := by
  fun_induction attributes? s generalizing attrs with
  | case1 s hs => cases h
  | case2 s rest hs =>
    cases h
    rw [← hs]
    exact List.dropWhile_suffix _
  | case3 s b rest hs hGreater hSkip ih =>
    have hRest : b :: rest <:+ s := hs ▸ List.dropWhile_suffix _
    exact (ih h).trans ((List.suffix_cons b rest).trans hRest)
  | case4 s b rest hs hGreater hSkip hNone => cases h
  | case5 s b rest hs hGreater hSkip attr next hAttr ih =>
    obtain ⟨found, hFound, hEq⟩ := Option.map_eq_some_iff.mp h
    cases hEq
    have hRest : b :: rest <:+ s := hs ▸ List.dropWhile_suffix _
    exact (ih hFound).trans ((attribute?_suffix hAttr).trans ((List.suffix_cons b rest).trans hRest))

theorem closes_head {name s : Bytes} (h : closes name s = true) : s.head? = some Byte.less := by
  rw [closes.eq_def] at h
  split at h
  · simp only [Bool.and_eq_true, beq_iff_eq] at h
    simp [h.1.1.1]
  · cases h

theorem contentLength_le (name s : Bytes) : contentLength name s ≤ s.length := by
  induction s with
  | nil => exact Nat.le_refl 0
  | cons b rest ih =>
    rw [contentLength]
    split
    · exact Nat.zero_le _
    · exact Nat.succ_le_succ ih

/-- The content of an element ends at a closing tag or with the text. -/
theorem head?_drop_contentLength (name s : Bytes) :
    s.drop (contentLength name s) = [] ∨ (s.drop (contentLength name s)).head? = some Byte.less := by
  induction s with
  | nil => exact .inl rfl
  | cons b rest ih =>
    rw [contentLength]
    split
    · rename_i hCloses
      exact .inr (closes_head hCloses)
    · rw [List.drop_succ_cons]
      exact ih

theorem elementAt_of_constructAt {rest : Bytes} {attrs : List Attribute} {tag content length : Nat}
    (h : constructAt rest = .script attrs tag content length) : elementAt rest = .script attrs tag content length := by
  rw [constructAt.eq_def] at h
  split at h
  · cases h
  · split at h
    · cases h
    · split at h
      · cases h
      · split at h
        · cases h
        · split at h
          · split at h <;> cases h
          · split at h
            · exact h
            · cases h

/-- A script element is a tag with its `>`, a content, and whatever closes it. -/
theorem constructAt_script {rest : Bytes} {attrs : List Attribute} {tag content length : Nat}
    (h : constructAt rest = .script attrs tag content length) :
    ∃ used after, rest = used ++ Byte.greater :: after ∧ tag = used.length + 1 ∧
      content = contentLength scriptName after ∧ tag + content ≤ length := by
  have hElement := elementAt_of_constructAt h
  simp only [elementAt] at hElement
  split at hElement
  · cases hElement
  · rename_i attributes after hAttributes
    split at hElement
    · cases hElement
      obtain ⟨used, hUsed⟩ := (attributes?_suffix hAttributes).trans (List.drop_suffix _ _)
      refine ⟨used, after, hUsed.symm, ?_, rfl, Nat.le_add_right _ _⟩
      rw [← hUsed, List.length_append, List.length_cons]
      omega
    · split at hElement <;> cases hElement

theorem isPlaced_of_split {text used after : Bytes} {attrs : List Attribute} {offset content : Nat}
    (hText : text.drop offset = Byte.less :: (used ++ Byte.greater :: after)) (hContent : content ≤ after.length)
    (hClosed : after.drop content = [] ∨ (after.drop content).head? = some Byte.less) :
    Element.IsPlaced text ⟨offset, ⟨offset + 1 + (used.length + 1), offset + 1 + (used.length + 1) + content⟩,
      attrs, []⟩ := by
  have hGet : ∀ i, text[offset + i]? = (Byte.less :: (used ++ Byte.greater :: after))[i]? := by
    intro i
    rw [← hText, List.getElem?_drop]
  have hAfter : ∀ i, text[offset + 1 + (used.length + 1) + i]? = after[i]? := by
    intro i
    have h := hGet (1 + (used.length + 1 + i))
    rw [Nat.add_comm 1, List.getElem?_cons_succ, List.getElem?_append_right (by omega)] at h
    rw [show offset + 1 + (used.length + 1) + i = offset + (used.length + 1 + i + 1) by omega, h,
      show used.length + 1 + i - used.length = i + 1 by omega, List.getElem?_cons_succ]
  have hLength : text.length = offset + 1 + (used.length + 1) + after.length := by
    have h := congrArg List.length hText
    simp only [List.length_drop, List.length_cons, List.length_append] at h
    omega
  refine ⟨Nat.le_add_right _ _, by simp only [hLength]; omega, ?_, ?_, fun _ h => absurd h List.not_mem_nil,
    fun _ h => absurd h List.not_mem_nil⟩
  · refine ⟨offset + (used.length + 1), by simp only; omega, ?_⟩
    rw [hGet, List.getElem?_cons_succ, List.getElem?_append_right (Nat.le_refl _), Nat.sub_self]
    rfl
  · rcases hClosed with hNil | hHead
    · have := List.drop_eq_nil_iff.mp hNil
      exact .inl (by simp only [hLength]; omega)
    · exact .inr (by simp only [hAfter]; rwa [← List.head?_drop])

/-- The elements found from an offset on stand in the text and follow each other and that offset. -/
theorem elementsFrom_placed {text : Bytes} (offset : Nat) (s : Bytes) (hText : text.drop offset = s) :
    (∀ element ∈ elementsFrom offset s, element.IsPlaced text ∧ offset < element.content.start) ∧
      Element.InOrder (elementsFrom offset s) := by
  fun_induction elementsFrom offset s with
  | case1 => exact ⟨fun _ h => absurd h List.not_mem_nil, List.Pairwise.nil⟩
  | case2 offset rest length hConstruct ih =>
    obtain ⟨hPlaced, hOrder⟩ := ih (by rw [Nat.add_assoc, ← List.drop_drop, hText, Nat.add_comm 1]; rfl)
    refine ⟨fun element hMem => ⟨(hPlaced element hMem).1, ?_⟩, hOrder⟩
    have := (hPlaced element hMem).2
    omega
  | case3 offset rest attributes tag content length hConstruct ih =>
    obtain ⟨hPlaced, hOrder⟩ := ih (by rw [Nat.add_assoc, ← List.drop_drop, hText, Nat.add_comm 1]; rfl)
    obtain ⟨used, after, rfl, rfl, rfl, hLength⟩ := constructAt_script hConstruct
    constructor
    · intro element hMem
      rcases List.mem_cons.mp hMem with rfl | hMem
      · exact ⟨isPlaced_of_split hText (contentLength_le _ _) (head?_drop_contentLength _ _), by simp only; omega⟩
      · refine ⟨(hPlaced element hMem).1, ?_⟩
        have := (hPlaced element hMem).2
        omega
    · refine List.Pairwise.cons ?_ hOrder
      intro element hMem
      have := (hPlaced element hMem).2
      simp only
      omega
  | case4 offset b rest hLess ih =>
    obtain ⟨hPlaced, hOrder⟩ := ih (by rw [← List.drop_drop, hText]; rfl)
    refine ⟨fun element hMem => ⟨(hPlaced element hMem).1, ?_⟩, hOrder⟩
    have := (hPlaced element hMem).2
    omega

/-- Nothing in an HTML script is markup. -/
theorem masks_eq_nil {text : Bytes} {element : Element} (h : element ∈ elements text) : element.masks = [] := by
  rw [elements] at h
  generalize 0 = offset at h
  fun_induction elementsFrom offset text with
  | case1 => cases h
  | case2 offset rest length hConstruct ih => exact ih h
  | case3 offset rest attributes tag content length hConstruct ih =>
    rcases List.mem_cons.mp h with rfl | h
    · rfl
    · exact ih h
  | case4 offset b rest hLess ih => exact ih h

theorem elements_placed (text : Bytes) : ∀ element ∈ elements text, element.IsPlaced text :=
  fun element hMem => ((elementsFrom_placed 0 text rfl).1 element hMem).1

theorem elements_inOrder (text : Bytes) : Element.InOrder (elements text) := (elementsFrom_placed 0 text rfl).2

end ScriptLint.Html
