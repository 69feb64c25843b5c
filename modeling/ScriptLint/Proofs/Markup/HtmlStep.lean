import ScriptLint.Proofs.Markup.Html

/-!
# Steps of an HTML scan

At every `<` a scan takes one step over the construct that begins there. No construct reaches beyond the text, and the
content of a script ends at the first closing tag after it.
-/
namespace ScriptLint.Html
set_option autoImplicit false

def spaces : Bytes := [Byte.space, Byte.tab, Byte.lineFeed, Byte.carriageReturn, Byte.formFeed]

theorem isSpace_iff (b : UInt8) : isSpace b = true ↔ b ∈ spaces := by
  simp [isSpace, spaces, or_assoc]

theorem lengthThrough_le (needle s : Bytes) : Bytes.lengthThrough needle s ≤ s.length := by
  induction s with
  | nil => exact Nat.le_refl 0
  | cons b s ih =>
    rw [Bytes.lengthThrough]
    split
    · rename_i hPrefix
      exact (List.isPrefixOf_iff_prefix.mp hPrefix).length_le
    · exact Nat.succ_le_succ ih

theorem declarationLength_le (depth : Nat) (s : Bytes) : declarationLength depth s ≤ s.length := by
  induction s generalizing depth with
  | nil => exact Nat.le_refl 0
  | cons b s ih =>
    simp only [declarationLength]
    split
    · exact Nat.succ_le_succ (ih _)
    · split
      · exact Nat.succ_le_succ (ih _)
      · split
        · exact Nat.succ_le_succ (Nat.zero_le _)
        · exact Nat.succ_le_succ (ih _)

/-- A closing tag of that name at the start of a text: the name in any case, and what ends a name. -/
def Closes (name s : Bytes) : Prop :=
  ∃ written after, s = Byte.less :: Byte.slash :: (written ++ after) ∧ Bytes.eqIgnoreCase written name = true ∧
    ∀ b, after.head? = some b → b ∈ spaces ∨ b = Byte.slash ∨ b = Byte.greater

theorem length_of_eqIgnoreCase {s t : Bytes} (h : Bytes.eqIgnoreCase s t = true) : s.length = t.length := by
  have hLower : Bytes.toLower s = Bytes.toLower t := by simpa [Bytes.eqIgnoreCase] using h
  simpa [Bytes.toLower] using congrArg List.length hLower

theorem closes_iff (name s : Bytes) : closes name s = true ↔ Closes name s := by
  constructor
  · intro h
    rw [closes.eq_def] at h
    split at h
    · rename_i a b rest
      simp only [Bool.and_eq_true, beq_iff_eq] at h
      obtain ⟨⟨⟨rfl, rfl⟩, hName⟩, hEnd⟩ := h
      refine ⟨rest.take name.length, rest.drop name.length, by rw [List.take_append_drop], hName, ?_⟩
      intro c hc
      split at hEnd
      · rename_i hNil
        rw [hNil] at hc
        cases hc
      · rename_i d after hAfter
        rw [hAfter] at hc
        cases hc
        simpa [isSpace_iff, or_assoc] using hEnd
    · cases h
  · rintro ⟨written, after, rfl, hName, hEnd⟩
    have hLength := length_of_eqIgnoreCase hName
    simp only [closes, ← hLength, List.take_left, List.drop_left, hName, beq_self_eq_true, Bool.true_and]
    cases after with
    | nil => rfl
    | cons b after => simpa [isSpace_iff, or_assoc] using hEnd b rfl

theorem Closes.length_le {name s : Bytes} (h : Closes name s) : 2 + name.length ≤ s.length := by
  obtain ⟨written, after, rfl, hName, -⟩ := h
  have hLength := length_of_eqIgnoreCase hName
  simp only [List.length_cons, List.length_append]
  omega

/-- The content of an element ends at a closing tag or with the text. -/
theorem closes_drop_contentLength (name s : Bytes) :
    s.drop (contentLength name s) = [] ∨ Closes name (s.drop (contentLength name s)) := by
  induction s with
  | nil => exact .inl rfl
  | cons b s ih =>
    rw [contentLength]
    split
    · rename_i hCloses
      exact .inr ((closes_iff _ _).mp hCloses)
    · exact ih

theorem contentLength_le_of_closes {name s : Bytes} {p : Nat} (h : Closes name (s.drop p)) :
    contentLength name s ≤ p := by
  induction s generalizing p with
  | nil => exact Nat.zero_le p
  | cons b s ih =>
    rw [contentLength]
    split
    · exact Nat.zero_le p
    · rename_i hCloses
      cases p with
      | zero => exact absurd ((closes_iff _ _).mpr h) hCloses
      | succ p => exact Nat.succ_le_succ (ih h)

theorem closingLength_le {name s : Bytes} (h : s = [] ∨ Closes name s) : closingLength name s ≤ s.length := by
  rcases h with rfl | h
  · exact Nat.le_refl 0
  · cases s with
    | nil => exact Nat.le_refl 0
    | cons b s =>
      have hLength := h.length_le
      have hThrough := lengthThrough_le [Byte.greater] ((b :: s).drop (2 + name.length))
      rw [List.length_drop] at hThrough
      rw [closingLength.eq_def]
      simp only
      omega

theorem elementAt_length_le (rest : Bytes) : (elementAt rest).length ≤ rest.length := by
  simp only [elementAt]
  split
  · exact Nat.le_refl _
  · rename_i attributes after hAttributes
    have hAfter := ((attributes?_suffix hAttributes).trans (List.drop_suffix _ _)).length_le
    rw [List.length_cons] at hAfter
    have hElement (name : Bytes) : rest.length - after.length + contentLength name after +
        closingLength name (after.drop (contentLength name after)) ≤ rest.length := by
      have hContent := contentLength_le name after
      have hClosing := closingLength_le (closes_drop_contentLength name after)
      rw [List.length_drop] at hClosing
      omega
    split
    · exact hElement _
    · split
      · exact hElement _
      · exact Nat.sub_le _ _

theorem constructAt_length_le (rest : Bytes) : (constructAt rest).length ≤ rest.length := by
  have hThrough (needle : Bytes) (n : Nat) := lengthThrough_le needle (rest.drop n)
  simp only [List.length_drop] at hThrough
  cases rest with
  | nil => exact Nat.le_refl 0
  | cons b after =>
    simp only [constructAt]
    split
    · rename_i hMark
      have hMark := (List.isPrefixOf_iff_prefix.mp hMark).length_le
      have hEnd := hThrough [Byte.dash, Byte.dash, Byte.greater] 3
      simp only [Construct.length, List.length_cons, List.length_nil] at hMark hEnd ⊢
      omega
    · split
      · have hEnd := declarationLength_le 0 after
        simp only [Construct.length, List.length_cons]
        omega
      · split
        · have hEnd := lengthThrough_le [Byte.greater] after
          simp only [Construct.length, List.length_cons]
          omega
        · split
          · split
            · have hName := (List.takeWhile_prefix isNameByte (l := after)).length_le
              have hEnd := lengthThrough_le [Byte.greater] (after.drop (after.takeWhile isNameByte).length)
              simp only [Construct.length, List.length_cons, List.length_drop] at hEnd ⊢
              omega
            · exact Nat.zero_le _
          · split
            · exact elementAt_length_le _
            · exact Nat.zero_le _

def Construct.element? (offset : Nat) : Construct → Option Element
  | plain _ => none
  | script attributes tagLength contentLength _ =>
    some ⟨offset, ⟨offset + 1 + tagLength, offset + 1 + tagLength + contentLength⟩, attributes, []⟩

theorem elementsFrom_less (offset : Nat) (rest : Bytes) :
    elementsFrom offset (Byte.less :: rest) = ((constructAt rest).element? offset).toList ++
      elementsFrom (offset + 1 + (constructAt rest).length) (rest.drop (constructAt rest).length) := by
  rw [elementsFrom, if_pos rfl]
  cases constructAt rest <;> rfl

theorem elementsFrom_text {s : Bytes} (hs : Byte.less ∉ s) (offset : Nat) (rest : Bytes) :
    elementsFrom offset (s ++ rest) = elementsFrom (offset + s.length) rest := by
  induction s generalizing offset with
  | nil => rfl
  | cons b s ih =>
    rw [List.mem_cons, not_or] at hs
    rw [List.cons_append, elementsFrom, if_neg (Ne.symm hs.1), ih hs.2, List.length_cons, Nat.add_assoc, Nat.add_comm 1]

/-- Every element is the construct at some `<` of the text. -/
theorem exists_construct_of_mem {text : Bytes} {element : Element} (offset : Nat) (s : Bytes)
    (hText : text.drop offset = s) (h : element ∈ elementsFrom offset s) :
    ∃ lt rest, text.drop lt = Byte.less :: rest ∧ (constructAt rest).element? lt = some element := by
  fun_induction elementsFrom offset s with
  | case1 => cases h
  | case2 offset rest length hConstruct ih =>
    refine ih ?_ h
    rw [Nat.add_assoc, ← List.drop_drop, hText, Nat.add_comm 1]
    rfl
  | case3 offset rest attributes tag content length hConstruct ih =>
    rcases List.mem_cons.mp h with rfl | h
    · exact ⟨offset, rest, hText, by rw [hConstruct]; rfl⟩
    · refine ih ?_ h
      rw [Nat.add_assoc, ← List.drop_drop, hText, Nat.add_comm 1]
      rfl
  | case4 offset b rest hLess ih =>
    refine ih ?_ h
    rw [← List.drop_drop, hText]
    rfl

/-- Where a script ends that starts at an offset: at its first closing tag, and with the text when it has none. -/
def IsScriptEnd (text : Bytes) (start stop : Nat) : Prop :=
  (start ≤ stop ∧ Closes scriptName (text.drop stop) ∧
    ∀ p, start ≤ p → Closes scriptName (text.drop p) → stop ≤ p) ∨
  (stop = text.length ∧ ∀ p, start ≤ p → ¬Closes scriptName (text.drop p))

theorem isScriptEnd_contentLength (text : Bytes) (start : Nat) (hStart : start ≤ text.length) :
    IsScriptEnd text start (start + contentLength scriptName (text.drop start)) := by
  have hLeast (p : Nat) (hp : start ≤ p) (hCloses : Closes scriptName (text.drop p)) :
      start + contentLength scriptName (text.drop start) ≤ p := by
    obtain ⟨k, rfl⟩ := Nat.exists_eq_add_of_le hp
    rw [← List.drop_drop] at hCloses
    exact Nat.add_le_add_left (contentLength_le_of_closes hCloses) start
  rcases closes_drop_contentLength scriptName (text.drop start) with hEnd | hCloses
  · have hLength := contentLength_le scriptName (text.drop start)
    rw [List.drop_eq_nil_iff] at hEnd
    rw [List.length_drop] at hEnd hLength
    refine .inr ⟨by omega, fun p hp hCloses => ?_⟩
    have hStop := hLeast p hp hCloses
    have hShort := hCloses.length_le
    rw [List.length_drop] at hShort
    omega
  · rw [List.drop_drop] at hCloses
    exact .inl ⟨Nat.le_add_right _ _, hCloses, hLeast⟩

theorem isScriptEnd_of_mem {text : Bytes} {element : Element} (h : element ∈ elements text) :
    IsScriptEnd text element.content.start element.content.stop := by
  obtain ⟨lt, rest, hText, hElement⟩ := exists_construct_of_mem 0 text rfl h
  cases hConstruct : constructAt rest with
  | plain length =>
    rw [hConstruct] at hElement
    cases hElement
  | script attributes tag content length =>
    rw [hConstruct] at hElement
    cases hElement
    obtain ⟨used, after, rfl, rfl, rfl, -⟩ := constructAt_script hConstruct
    have hAfter : text.drop (lt + 1 + (used.length + 1)) = after := by
      rw [Nat.add_assoc, ← List.drop_drop, hText, Nat.add_comm 1, List.drop_succ_cons, List.drop_length_add_append]
      rfl
    have hLength := congrArg List.length hText
    simp only [List.length_drop, List.length_cons, List.length_append] at hLength
    have hEnd := isScriptEnd_contentLength text (lt + 1 + (used.length + 1)) (by omega)
    rwa [hAfter] at hEnd

end ScriptLint.Html
