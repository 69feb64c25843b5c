import ScriptLint.Proofs.ScriptBlock
import ScriptLint.Proofs.Markup.HtmlStep

/-!
# What reading HTML cuts out of a text

The names and values of a tag are cut out of the text where they stand. Every cut is next to an ASCII byte or at the end
of the text, so it falls between two characters, whatever the tag looks like.
-/
namespace ScriptLint
set_option autoImplicit false

namespace Utf8

/-- The stretch of a text between two of its ends. -/
def between (text s t : Bytes) : OffsetRange := ⟨text.length - s.length, text.length - t.length⟩

theorem slice?_between {text s t : Bytes} (hSuffix : s ++ t <:+ text) (hs : IsText (s ++ t)) (ht : IsText t) :
    slice? text (between text (s ++ t) t).start (between text (s ++ t) t).stop = some s := by
  obtain ⟨before, rfl⟩ := hSuffix
  have hStart : (before ++ (s ++ t)).length - (s ++ t).length = before.length := by
    rw [List.length_append]
    omega
  have hStop : (before ++ (s ++ t)).length - t.length = (before ++ s).length := by
    simp only [List.length_append]
    omega
  have hFirst := isBoundary_left hs before
  have hLast := isBoundary_left ht (before ++ s)
  rw [List.append_assoc] at hLast
  rw [between, hStart, hStop, slice?_of_boundaries (by simp) hFirst hLast, ← List.append_assoc, List.take_left,
    List.drop_left]

end Utf8

namespace Html

def valueCuts (text s : Bytes) : List OffsetRange :=
  match s with
  | [] => []
  | b :: rest =>
    if b = Byte.doubleQuote ∨ b = Byte.singleQuote then
      match Bytes.splitAt? b rest with
      | none => []
      | some (_, after) => [Utf8.between text rest (b :: after)]
    else [Utf8.between text s (s.dropWhile isUnquotedByte)]

def attributeCuts (text : Bytes) (b : UInt8) (rest : Bytes) : List OffsetRange :=
  let tail := if isAttributeByte b then rest.takeWhile isAttributeByte else []
  Utf8.between text (b :: rest) (rest.drop tail.length) ::
    match (rest.drop tail.length).dropWhile isSpace with
    | [] => []
    | c :: after => if c = Byte.equals then valueCuts text (after.dropWhile isSpace) else []

/-- What reading the attributes of a tag cuts out, in the order of reading. The tag need not have an end. -/
def attributesCuts (text s : Bytes) : List OffsetRange :=
  match _hs : s.dropWhile isSpace with
  | [] => []
  | b :: rest =>
    if b = Byte.greater then []
    else if b = Byte.slash ∨ b = Byte.equals then attributesCuts text rest
    else
      match _ha : attribute? b rest with
      | none => attributeCuts text b rest
      | some (_, after) => attributeCuts text b rest ++ attributesCuts text after
termination_by s.length
decreasing_by
  all_goals
    have hLength := Bytes.length_dropWhile_le isSpace s
    rw [_hs, List.length_cons] at hLength
  · omega
  · have hAfter := attribute?_length _ha
    omega

def tagCuts (text rest : Bytes) : List OffsetRange :=
  let after := rest.dropWhile isNameByte
  Utf8.between text rest after :: attributesCuts text after

/-- Cuts of a text that stand between characters and give these pieces. -/
def Cuts (text : Bytes) (cuts : List OffsetRange) (pieces : List Bytes) : Prop :=
  cuts.map (fun cut => Utf8.slice? text cut.start cut.stop) = pieces.map some

theorem Cuts.append {text : Bytes} {cuts more : List OffsetRange} {pieces others : List Bytes}
    (h : Cuts text cuts pieces) (hMore : Cuts text more others) : Cuts text (cuts ++ more) (pieces ++ others) := by
  rw [Cuts, List.map_append, h, hMore, List.map_append]

theorem cuts_between {text s t whole : Bytes} (hSplit : s ++ t = whole) (hSuffix : whole <:+ text)
    (hWhole : Utf8.IsText whole) (ht : Utf8.IsText t) : Cuts text [Utf8.between text whole t] [s] := by
  subst hSplit
  exact congrArg (fun piece => [piece]) (Utf8.slice?_between hSuffix hWhole ht)

theorem ascii_of_isSpace {b : UInt8} (h : isSpace b = true) : b.toNat < 0x80 := by
  rw [isSpace_iff, spaces] at h
  simp only [List.mem_cons, List.not_mem_nil, or_false] at h
  rcases h with rfl | rfl | rfl | rfl | rfl
  all_goals decide

theorem ascii_of_isUnquotedByte {b : UInt8} (h : isUnquotedByte b = false) : b.toNat < 0x80 := by
  simp only [isUnquotedByte, Bool.and_eq_false_iff, Bool.not_eq_false', bne_eq_false_iff_eq] at h
  rcases h with h | rfl
  · exact ascii_of_isSpace h
  · decide

theorem ascii_of_isNameByte {b : UInt8} (h : isNameByte b = false) : b.toNat < 0x80 := by
  simp only [isNameByte, Bool.and_eq_false_iff, Bool.not_eq_false', bne_eq_false_iff_eq] at h
  rcases h with ((h | rfl) | rfl) | rfl
  · exact ascii_of_isSpace h
  all_goals decide

theorem ascii_of_isAttributeByte {b : UInt8} (h : isAttributeByte b = false) : b.toNat < 0x80 := by
  simp only [isAttributeByte, Bool.and_eq_false_iff, bne_eq_false_iff_eq] at h
  rcases h with h | rfl
  · exact ascii_of_isNameByte h
  · decide

theorem valueCuts_spec {text s : Bytes} (hSuffix : s <:+ text) (hs : Utf8.IsText s) :
    ∃ pieces, Cuts text (valueCuts text s) pieces ∧
      ∀ value after, value? s = some (value, after) → pieces = [value] ∧ Utf8.IsText after := by
  cases s with
  | nil => exact ⟨[], rfl, fun _ _ h => nomatch h⟩
  | cons b rest =>
    simp only [valueCuts, value?]
    split
    · rename_i hQuote
      have hAscii : b.toNat < 0x80 := by rcases hQuote with rfl | rfl <;> decide
      split
      · rename_i hNone
        refine ⟨[], rfl, fun value after h => ?_⟩
        rw [hNone] at h
        cases h
      · rename_i value after hSplit
        obtain rfl := Bytes.splitAt?_eq_some hSplit
        have hRest := hs.of_cons hAscii
        have hAfter := (hRest.append_ascii hAscii).2
        refine ⟨[value], cuts_between rfl ((List.suffix_cons b _).trans hSuffix) hRest hAfter, ?_⟩
        rintro value' after' hSome
        rw [hSplit] at hSome
        cases hSome
        exact ⟨rfl, hAfter.of_cons hAscii⟩
    · have hSplit := (b :: rest).takeWhile_append_dropWhile (p := isUnquotedByte)
      have hAfter := hs.dropWhile_until_ascii (p := isUnquotedByte) fun c => ascii_of_isUnquotedByte
      refine ⟨_, cuts_between hSplit hSuffix hs hAfter, ?_⟩
      rintro value after hSome
      cases hSome
      exact ⟨rfl, hAfter⟩

def pieces (attr : Attribute) : List Bytes := attr.name :: attr.value.toList

theorem drop_length_takeWhile (p : UInt8 → Bool) (s : Bytes) : s.drop (s.takeWhile p).length = s.dropWhile p := by
  induction s with
  | nil => rfl
  | cons b s ih => by_cases hb : p b = true <;> simp [hb, ih]

/-- The name of an attribute ends at an ASCII byte, or it is one. -/
theorem isText_afterName {b : UInt8} {rest : Bytes} (hText : Utf8.IsText (b :: rest)) :
    let tail := if isAttributeByte b then rest.takeWhile isAttributeByte else []
    (b :: tail) ++ rest.drop tail.length = b :: rest ∧ Utf8.IsText (rest.drop tail.length) := by
  intro tail
  by_cases hb : isAttributeByte b = true
  · have hDrop := hText.dropWhile_until_ascii (p := isAttributeByte) fun c => ascii_of_isAttributeByte
    rw [List.dropWhile_cons, if_pos hb] at hDrop
    simp only [tail, if_pos hb, drop_length_takeWhile, List.cons_append, List.takeWhile_append_dropWhile]
    exact ⟨trivial, hDrop⟩
  · simp only [tail, if_neg hb]
    exact ⟨rfl, hText.of_cons (ascii_of_isAttributeByte (by simpa using hb))⟩

theorem attributeCuts_spec {text : Bytes} {b : UInt8} {rest : Bytes} (hSuffix : b :: rest <:+ text)
    (hText : Utf8.IsText (b :: rest)) :
    ∃ found, Cuts text (attributeCuts text b rest) found ∧
      ∀ attr after, attribute? b rest = some (attr, after) → found = pieces attr ∧ Utf8.IsText after := by
  obtain ⟨hSplit, hAfter⟩ := isText_afterName hText
  simp only [attributeCuts, attribute?]
  generalize (if isAttributeByte b then rest.takeWhile isAttributeByte else []) = tail at hSplit hAfter
  have hName := cuts_between hSplit hSuffix hText hAfter
  have hSpace := hAfter.dropWhile_ascii (p := isSpace) fun c => ascii_of_isSpace
  have hSpaceSuffix : (rest.drop tail.length).dropWhile isSpace <:+ text :=
    ((List.dropWhile_suffix _).trans (List.drop_suffix _ _)).trans ((List.suffix_cons b rest).trans hSuffix)
  cases hNext : (rest.drop tail.length).dropWhile isSpace with
  | nil =>
    refine ⟨_, hName, ?_⟩
    intro attr after hSome
    cases hSome
    exact ⟨rfl, .nil⟩
  | cons c next =>
    rw [hNext] at hSpace hSpaceSuffix
    by_cases hEquals : c = Byte.equals
    · simp only [if_pos hEquals]
      have hValueText := (hSpace.of_cons (by rw [hEquals]; decide)).dropWhile_ascii (p := isSpace)
        fun c => ascii_of_isSpace
      obtain ⟨found, hFound, hValue⟩ := valueCuts_spec
        ((List.dropWhile_suffix _).trans ((List.suffix_cons c next).trans hSpaceSuffix)) hValueText
      refine ⟨_, hName.append hFound, ?_⟩
      intro attr after hSome
      obtain ⟨⟨value, rest'⟩, hRead, hEq⟩ := Option.map_eq_some_iff.mp hSome
      cases hEq
      obtain ⟨rfl, hEnd⟩ := hValue value rest' hRead
      exact ⟨rfl, hEnd⟩
    · simp only [if_neg hEquals]
      refine ⟨_, hName, ?_⟩
      intro attr after hSome
      cases hSome
      exact ⟨rfl, hSpace⟩

theorem attributesCuts_spec {text s : Bytes} (hSuffix : s <:+ text) (hs : Utf8.IsText s) :
    ∃ found, Cuts text (attributesCuts text s) found ∧
      ∀ attrs after, attributes? s = some (attrs, after) → found = attrs.flatMap pieces := by
  have hSpaceText := hs.dropWhile_ascii (p := isSpace) fun c => ascii_of_isSpace
  have hSpaceSuffix := (List.dropWhile_suffix isSpace (l := s)).trans hSuffix
  fun_induction attributesCuts text s with
  | case1 s hNil =>
    refine ⟨[], rfl, fun attrs after h => ?_⟩
    rw [attributes?_nil hNil] at h
    cases h
  | case2 s rest hCons =>
    refine ⟨[], rfl, fun attrs after h => ?_⟩
    rw [attributes?_eq hCons, if_pos rfl] at h
    cases h
    rfl
  | case3 s b rest hCons hGreater hSkip ih =>
    rw [hCons] at hSpaceText hSpaceSuffix
    have hRest := (List.suffix_cons b rest).trans hSpaceSuffix
    have hAscii : b.toNat < 0x80 := by rcases hSkip with rfl | rfl <;> decide
    have hRestText := hSpaceText.of_cons hAscii
    simp only [attributes?_eq hCons, if_neg hGreater, if_pos hSkip]
    exact ih hRest hRestText (hRestText.dropWhile_ascii fun c => ascii_of_isSpace)
      ((List.dropWhile_suffix _).trans hRest)
  | case4 s b rest hCons hGreater hSkip hNone =>
    rw [hCons] at hSpaceText hSpaceSuffix
    obtain ⟨found, hFound, -⟩ := attributeCuts_spec hSpaceSuffix hSpaceText
    refine ⟨found, hFound, ?_⟩
    intro attrs after h
    rw [attributes?_eq hCons, if_neg hGreater, if_neg hSkip, hNone] at h
    cases h
  | case5 s b rest hCons hGreater hSkip attr next hAttr ih =>
    rw [hCons] at hSpaceText hSpaceSuffix
    obtain ⟨found, hFound, hRead⟩ := attributeCuts_spec hSpaceSuffix hSpaceText
    obtain ⟨rfl, hNext⟩ := hRead attr next hAttr
    have hNextSuffix := (attribute?_suffix hAttr).trans ((List.suffix_cons b rest).trans hSpaceSuffix)
    obtain ⟨more, hMore, hPieces⟩ := ih hNextSuffix hNext (hNext.dropWhile_ascii fun c => ascii_of_isSpace)
      ((List.dropWhile_suffix _).trans hNextSuffix)
    refine ⟨pieces attr ++ more, hFound.append hMore, ?_⟩
    intro attrs after h
    rw [attributes?_eq hCons, if_neg hGreater, if_neg hSkip, hAttr, Option.bind_some] at h
    obtain ⟨⟨others, rest'⟩, hOthers, hEq⟩ := Option.map_eq_some_iff.mp h
    cases hEq
    rw [List.flatMap_cons, hPieces others rest' hOthers]

theorem tagCuts_spec {text rest : Bytes} (hSuffix : rest <:+ text) (hText : Utf8.IsText rest) :
    ∃ found, Cuts text (tagCuts text rest) found ∧
      ∀ attrs after, attributes? (rest.dropWhile isNameByte) = some (attrs, after) →
        found = rest.takeWhile isNameByte :: attrs.flatMap pieces := by
  have hSplit := rest.takeWhile_append_dropWhile (p := isNameByte)
  have hAfter := hText.dropWhile_until_ascii (p := isNameByte) fun c => ascii_of_isNameByte
  have hName := cuts_between hSplit hSuffix hText hAfter
  obtain ⟨found, hFound, hPieces⟩ := attributesCuts_spec ((List.dropWhile_suffix _).trans hSuffix) hAfter
  refine ⟨_, hName.append hFound, ?_⟩
  intro attrs after hRead
  rw [hPieces attrs after hRead]
  rfl

end Html

namespace Document

/-- An HTML scan makes progress at every `<`, cuts the text between characters only, and finds script contents that are
whole, numbered, in order and closed by their first closing tag. -/
theorem html_scan_wellFormed (source : String) (mediaTypes : List String) :
    let document : Document := ⟨Utf8.encode source⟩
    let text := document.text
    (∀ lt, text[lt]? = some Byte.less →
      let rest := text.drop (lt + 1)
      let resume := lt + 1 + (Html.constructAt rest).length
      (lt < resume ∧ resume ≤ text.length) ∧
      Html.elementsFrom lt (text.drop lt) =
        ((Html.constructAt rest).element? lt).toList ++ Html.elementsFrom resume (text.drop resume) ∧
      ∃ found, Html.Cuts text (Html.tagCuts text rest) found ∧
        ∀ attributes after, Html.attributes? (rest.dropWhile Html.isNameByte) = some (attributes, after) →
          found = rest.takeWhile Html.isNameByte :: attributes.flatMap Html.pieces) ∧
    ∃ blocks, document.scan { mode := .html, mediaTypes } = .ok blocks ∧
      (∀ (i : Nat) (block : ScriptBlock), blocks[i]? = some block → block.index = i) ∧
      (∀ block ∈ blocks, block.content.IsContent text ∧
        Html.IsScriptEnd text block.content.start block.content.stop) ∧
      blocks.Pairwise fun a b => a.content.stop < b.content.start := by
  intro document text
  have hText : Utf8.IsText text := Newline.isText_normalize (Utf8.isText_encode source)
  refine ⟨?_, _, rfl, ?_, ?_, ?_⟩
  · intro lt hLess rest resume
    have hAt : text.drop lt = Byte.less :: rest := by
      obtain ⟨hLength, hGet⟩ := List.getElem?_eq_some_iff.mp hLess
      rw [List.drop_eq_getElem_cons hLength, hGet]
    have hRest : Utf8.IsText rest := (hText.cut (hText.isBoundary_succ hLess (by decide))).2
    refine ⟨⟨by omega, ?_⟩, ?_, Html.tagCuts_spec (List.drop_suffix _ _) hRest⟩
    · have hReach := Html.constructAt_length_le rest
      have hLength := congrArg List.length hAt
      simp only [List.length_drop, List.length_cons] at hLength
      omega
    · rw [hAt, Html.elementsFrom_less, List.drop_drop]
  · intro i block hBlock
    rw [ScriptBlock.index_of_getElem?_number hBlock, Nat.zero_add]
  · intro block hBlock
    obtain ⟨element, hMem, i, -, rfl⟩ := ScriptBlock.exists_of_mem_number hBlock
    have hElement := (List.mem_filter.mp hMem).1
    exact ⟨(Html.elements_placed text element hElement).isContent hText, Html.isScriptEnd_of_mem hElement⟩
  · apply (ScriptBlock.inOrder_number _).imp And.left
    exact (Html.elements_inOrder text).sublist List.filter_sublist

end Document
end ScriptLint
