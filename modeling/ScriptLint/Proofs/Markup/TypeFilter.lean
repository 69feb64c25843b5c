import ScriptLint.Proofs.ScriptBlock
import ScriptLint.Proofs.Text.Occurrence
import ScriptLint.Proofs.Text.WhiteSpace

/-!
# Which elements hold JavaScript

The `type` of an element decides whether it is a block. Which elements there are does not depend on that, so other media
types select other blocks of the same document and change nothing else.
-/
namespace ScriptLint
set_option autoImplicit false

namespace Attribute

variable {mode : MarkupMode} {mediaTypes : List String} {attributes : List Attribute}

def NamesType (mode : MarkupMode) (attr : Attribute) : Prop :=
  match mode with
  | .html => attr.name.toLower = Bytes.ofAscii ['t', 'y', 'p', 'e']
  | .xml => attr.name = Bytes.ofAscii ['t', 'y', 'p', 'e']

/-- A text that is one of the media types, but for white space around them and the case of ASCII letters. -/
def IsListed (mediaTypes : List String) (s : List Char) : Prop :=
  ∃ known ∈ mediaTypes, ∃ t, WhiteSpace.Trims known.toList t ∧ t.map Char.toLower = s.map Char.toLower

/-- A value with nothing or one of the media types before its parameters. -/
def IsTyped (mediaTypes : List String) (value : Bytes) : Prop :=
  ∃ main parameters s, value = main ++ parameters ∧ Byte.semicolon ∉ main ∧
    (parameters = [] ∨ parameters.head? = some Byte.semicolon) ∧ WhiteSpace.Trims (Utf8.chars main) s ∧
    (s = [] ∨ IsListed mediaTypes s)

/-- The first attribute named `type`, if there is one with a value, has a value with one of the media types. -/
def Accepts (mode : MarkupMode) (mediaTypes : List String) (attributes : List Attribute) : Prop :=
  ∀ before attr after, attributes = before ++ attr :: after → attr.NamesType mode →
    (∀ other ∈ before, ¬other.NamesType mode) → ∀ value, attr.value = some value → IsTyped mediaTypes value

theorem namesMatch_typeName {attr : Attribute} : mode.namesMatch attr.name typeName = true ↔ attr.NamesType mode := by
  cases mode with
  | html =>
    have hLower : Bytes.toLower typeName = typeName := by decide +kernel
    rw [MarkupMode.namesMatch, Bytes.eqIgnoreCase, hLower, beq_iff_eq]
    rfl
  | xml => exact beq_iff_eq

theorem find?_typeName_eq_some_iff {attr : Attribute} :
    find? mode attributes typeName = some attr ↔ attr.NamesType mode ∧
      ∃ before after, attributes = before ++ attr :: after ∧ ∀ other ∈ before, ¬other.NamesType mode := by
  rw [find?, List.find?_eq_some_iff_append, namesMatch_typeName]
  simp only [Bool.not_eq_true', ← Bool.not_eq_true, namesMatch_typeName]

theorem isListed_iff {s : List Char} :
    (mediaTypes.any fun known => lowerAscii (WhiteSpace.trimChars known.toList) == lowerAscii s) = true ↔
      IsListed mediaTypes s := by
  simp only [List.any_eq_true, beq_iff_eq, IsListed, ← WhiteSpace.trimChars_eq_iff, lowerAscii, exists_eq_left']

theorem isScriptType_iff {value : Bytes} : isScriptType mediaTypes value = true ↔ IsTyped mediaTypes value := by
  rw [isScriptType, Bool.or_eq_true, isListed_iff, List.isEmpty_iff]
  constructor
  · intro h
    refine ⟨value.takeWhile (· != Byte.semicolon), value.dropWhile (· != Byte.semicolon), essence value,
      List.takeWhile_append_dropWhile.symm, ?_, ?_, WhiteSpace.trims_trimChars _, h⟩
    · intro hMem
      have hOther := List.all_eq_true.mp List.all_takeWhile _ hMem
      exact absurd rfl (bne_iff_ne.mp hOther)
    · have hNot := List.head?_dropWhile_not (· != Byte.semicolon) value
      cases hDrop : value.dropWhile (· != Byte.semicolon) with
      | nil => exact .inl rfl
      | cons b rest =>
        rw [hDrop] at hNot
        exact .inr (congrArg some (bne_eq_false_iff_eq.mp hNot))
  · rintro ⟨main, parameters, s, rfl, hMain, hParameters, hTrims, h⟩
    have hTake : (main ++ parameters).takeWhile (· != Byte.semicolon) = main := by
      apply Bytes.takeWhile_run
      · intro b hb
        exact bne_iff_ne.mpr fun hEq => hMain (hEq ▸ hb)
      · intro b hb
        rcases hParameters with rfl | hHead
        · cases hb
        · rw [Option.some.inj (hb.symm.trans hHead)]
          rfl
    rw [essence, hTake, WhiteSpace.trimChars_eq_iff.mpr hTrims]
    exact h

theorem denoteScript_iff : denoteScript mode mediaTypes attributes = true ↔ Accepts mode mediaTypes attributes := by
  rw [denoteScript]
  constructor
  · rintro h before attr after rfl hType hBefore value hValue
    have hFind : find? mode (before ++ attr :: after) typeName = some attr :=
      find?_typeName_eq_some_iff.mpr ⟨hType, before, after, rfl, hBefore⟩
    rw [hFind, Option.bind_some, hValue] at h
    exact isScriptType_iff.mp h
  · intro h
    split
    · rfl
    · rename_i value hValue
      obtain ⟨attr, hFind, hAttr⟩ := Option.bind_eq_some_iff.mp hValue
      obtain ⟨hType, before, after, hSplit, hBefore⟩ := find?_typeName_eq_some_iff.mp hFind
      exact isScriptType_iff.mpr (h before attr after hSplit hType hBefore value hAttr)

instance (mode : MarkupMode) (mediaTypes : List String) (attributes : List Attribute) :
    Decidable (Accepts mode mediaTypes attributes) :=
  decidable_of_iff _ denoteScript_iff

theorem decide_accepts (mode : MarkupMode) (mediaTypes : List String) (attributes : List Attribute) :
    decide (Accepts mode mediaTypes attributes) = denoteScript mode mediaTypes attributes := by
  rw [Bool.eq_iff_iff, decide_eq_true_iff, denoteScript_iff]

theorem accepts_append (more : List String) (h : Accepts mode mediaTypes attributes) :
    Accepts mode (mediaTypes ++ more) attributes := by
  intro before attr after hSplit hType hBefore value hValue
  obtain ⟨main, parameters, s, hParts, hMain, hParameters, hTrims, hListed⟩ :=
    h before attr after hSplit hType hBefore value hValue
  refine ⟨main, parameters, s, hParts, hMain, hParameters, hTrims, hListed.imp_right ?_⟩
  rintro ⟨known, hKnown, hEqual⟩
  exact ⟨known, List.mem_append_left more hKnown, hEqual⟩

theorem filter_denoteScript (mode : MarkupMode) (mediaTypes more : List String) (elements : List Element) :
    (elements.filter fun element => denoteScript mode (mediaTypes ++ more) element.attributes).filter
        (fun element => denoteScript mode mediaTypes element.attributes) =
      elements.filter fun element => denoteScript mode mediaTypes element.attributes := by
  rw [List.filter_filter]
  apply List.filter_congr
  intro element _
  rw [Bool.and_eq_left_iff_imp]
  intro h
  exact denoteScript_iff.mpr (accepts_append more (denoteScript_iff.mp h))

end Attribute

theorem ScriptBlock.number_filter (document : Document) (mode : MarkupMode) (p : List Attribute → Bool)
    (elements : List Element) (index other : Nat) :
    number document mode index (elements.filter fun element => p element.attributes) =
      ((number document mode other elements).filter fun block => p block.attributes).mapIdx fun i block =>
        { block with index := index + i } := by
  induction elements generalizing index other with
  | nil => rfl
  | cons element more ih =>
    rw [number, List.filter_cons, List.filter_cons]
    cases hp : p element.attributes with
    | true =>
      have hNext : ∀ i, index + 1 + i = index + (i + 1) := fun i => Nat.add_right_comm index 1 i
      simp only [ofElement, hp, if_true, number, List.mapIdx_cons, Nat.add_zero, ih (index + 1) (other + 1), hNext]
    | false =>
      simp only [ofElement, hp, Bool.false_eq_true, if_false]
      exact ih index (other + 1)

namespace Document

/-- Fewer media types select some of the blocks, in order and with new indices, and fail where more do. -/
theorem scan_selects (source : String) (mode : MarkupMode) (mediaTypes more : List String) :
    let document : Document := ⟨Utf8.encode source⟩
    document.scan ⟨mode, mediaTypes⟩ = (document.scan ⟨mode, mediaTypes ++ more⟩).map fun blocks =>
      (blocks.filter fun block => Attribute.Accepts mode mediaTypes block.attributes).mapIdx fun i block =>
        { block with index := i } := by
  intro document
  simp only [scan, Attribute.decide_accepts]
  cases document.elements mode with
  | error error => rfl
  | ok elements =>
    have hBlocks := ScriptBlock.number_filter document mode (Attribute.denoteScript mode mediaTypes)
      (elements.filter fun element => Attribute.denoteScript mode (mediaTypes ++ more) element.attributes) 0 0
    rw [Attribute.filter_denoteScript] at hBlocks
    simp only [Nat.zero_add] at hBlocks
    exact congrArg Except.ok hBlocks

end Document
end ScriptLint
