import ScriptLint.Proofs.Markup.Xml
import ScriptLint.Proofs.Text.Occurrence

/-!
# Written XML markup

Tags, comments, CDATA sections and processing instructions as they are written. Each is read back as one piece of
markup, whatever follows it.
-/
namespace ScriptLint.Xml
set_option autoImplicit false

structure Name where
  bytes : Bytes
  nonempty : bytes ≠ []
  letters : ∀ b ∈ bytes, Byte.isLetter b = true

structure WrittenAttribute where
  name : Name
  value : Bytes
  clean : Byte.doubleQuote ∉ value

structure Tag where
  name : Name
  attributes : List WrittenAttribute
  distinct : (attributes.map (·.name.bytes)).Nodup

/-- Markup without children, and text. -/
inductive Leaf where
  | text (s : Bytes) (clean : Byte.less ∉ s)
  | comment (s : Bytes) (clean : ¬[Byte.dash, Byte.dash, Byte.greater] <:+: s)
  | cdata (s : Bytes) (clean : ¬[Byte.bracketClose, Byte.bracketClose, Byte.greater] <:+: s)
  | instruction (name : Name) (s : Bytes) (clean : ¬[Byte.question, Byte.greater] <:+: s)
  | empty (tag : Tag)

namespace WrittenAttribute

def render (attr : WrittenAttribute) : Bytes :=
  Byte.space :: (attr.name.bytes ++ Byte.equals :: Byte.doubleQuote :: (attr.value ++ [Byte.doubleQuote]))

def read (attr : WrittenAttribute) : Attribute := ⟨attr.name.bytes, some attr.value⟩

end WrittenAttribute

namespace Tag

def body (tag : Tag) : Bytes := tag.name.bytes ++ tag.attributes.flatMap WrittenAttribute.render

def opening (tag : Tag) : Bytes := Byte.less :: (tag.body ++ [Byte.greater])

def closing (tag : Tag) : Bytes := Byte.less :: Byte.slash :: (tag.name.bytes ++ [Byte.greater])

def read (tag : Tag) : List Attribute := tag.attributes.map WrittenAttribute.read

end Tag

theorem isSpace_of_isLetter {b : UInt8} (hb : Byte.isLetter b = true) : isSpace b = false := by
  have hNe (c : UInt8) := Byte.ne_of_isLetter (c := c) hb
  simp [isSpace, hNe Byte.space rfl, hNe Byte.tab rfl, hNe Byte.lineFeed rfl, hNe Byte.carriageReturn rfl]

theorem Name.starts_letter (name : Name) : ∃ b tail, name.bytes = b :: tail ∧ Byte.isLetter b = true := by
  cases hName : name.bytes with
  | nil => exact absurd hName name.nonempty
  | cons b tail => exact ⟨b, tail, rfl, name.letters b (by rw [hName]; exact List.mem_cons_self)⟩

/-! ## Enclosed by marks -/

theorem contentBefore?_append {before s : Bytes} {least : Nat} (seen rest : Bytes)
    (hBefore : before <:+ seen.reverse ++ s) (hLeast : least ≤ (seen.reverse ++ s).length)
    (hFirst : ∀ t u, s = t ++ Byte.greater :: u → before <:+ seen.reverse ++ t →
      ¬least ≤ (seen.reverse ++ t).length) :
    contentBefore? before least seen (s ++ Byte.greater :: rest) = some (seen.reverse ++ s) := by
  induction s generalizing seen with
  | nil =>
    rw [List.append_nil] at hBefore hLeast ⊢
    rw [List.length_reverse] at hLeast
    have hPrefix : before.reverse.isPrefixOf seen = true := by
      rwa [List.isPrefixOf_iff_prefix, ← List.reverse_suffix, List.reverse_reverse]
    rw [List.nil_append, contentBefore?, if_pos ⟨rfl, hPrefix, hLeast⟩]
  | cons b s ih =>
    have hSeen (t : Bytes) : (b :: seen).reverse ++ t = seen.reverse ++ b :: t := by simp
    have hNot : ¬(b = Byte.greater ∧ before.reverse.isPrefixOf seen = true ∧ least ≤ seen.length) := by
      rintro ⟨rfl, hPrefix, hLength⟩
      rw [List.isPrefixOf_iff_prefix, ← List.reverse_suffix, List.reverse_reverse] at hPrefix
      refine hFirst [] s rfl ?_ ?_
      · rwa [List.append_nil]
      · rwa [List.append_nil, List.length_reverse]
    rw [List.cons_append, contentBefore?, if_neg hNot, ih, hSeen]
    · rwa [hSeen]
    · rwa [hSeen]
    · intro t u hs
      rw [hSeen]
      exact hFirst (b :: t) u (by rw [hs]; rfl)

/-- What stands between two marks is read up to the second, which may not begin in the first. -/
theorem contentBefore?_enclosed {first s before : Bytes} {least : Nat} (hGreater : Byte.greater ∉ first ++ before)
    (hs : ¬before ++ [Byte.greater] <:+: s) (hLeast : least ≤ first.length + before.length)
    (hOwn : ∀ t, before <:+ first ++ t → least ≤ (first ++ t).length → before <:+ t) (rest : Bytes) :
    contentBefore? before least [] ((first ++ (s ++ before)) ++ Byte.greater :: rest) =
      some (first ++ (s ++ before)) := by
  rw [List.mem_append, not_or] at hGreater
  apply contentBefore?_append
  · exact (List.suffix_append s before).trans (List.suffix_append first _)
  · simp only [List.reverse_nil, List.nil_append, List.length_append]
    omega
  · intro t u hSplit hBefore hLength
    rw [List.reverse_nil, List.nil_append] at hBefore hLength
    obtain ⟨v, rfl, hInner⟩ := Bytes.split_right hGreater.1 hSplit
    obtain ⟨w, rfl⟩ := Bytes.split_left hGreater.2 hInner
    obtain ⟨x, rfl⟩ := hOwn v hBefore hLength
    exact hs ⟨x, w, by simp⟩

theorem markupAt_comment {s : Bytes} (hs : ¬[Byte.dash, Byte.dash, Byte.greater] <:+: s) (rest : Bytes) :
    let content := commentMark ++ (s ++ [Byte.dash, Byte.dash])
    markupAt (content ++ Byte.greater :: rest) = .ok (.hidden, content) := by
  intro content
  have hContent : contentBefore? [Byte.dash, Byte.dash] 5 [] (content ++ Byte.greater :: rest) = some content := by
    apply contentBefore?_enclosed (by decide) hs (by decide)
    -- at least two bytes of the comment come before its end
    intro t hSuffix hLength
    apply List.suffix_of_suffix_length_le hSuffix (List.suffix_append _ t)
    simp only [commentMark, List.length_append, List.length_cons, List.length_nil] at hLength ⊢
    omega
  have hMark : commentMark.isPrefixOf content = true := List.isPrefixOf_iff_prefix.mpr (List.prefix_append _ _)
  have hDeclaration : markupAt (content ++ Byte.greater :: rest) =
      declarationAt (content ++ Byte.greater :: rest) := rfl
  rw [hDeclaration, declarationAt]
  simp only [hContent, hMark]
  rfl

theorem markupAt_cdata {s : Bytes} (hs : ¬[Byte.bracketClose, Byte.bracketClose, Byte.greater] <:+: s)
    (rest : Bytes) :
    let content := cdataMark ++ (s ++ [Byte.bracketClose, Byte.bracketClose])
    markupAt (content ++ Byte.greater :: rest) = .ok (.cdata, content) := by
  intro content
  have hContent : contentBefore? [Byte.bracketClose, Byte.bracketClose] 0 [] (content ++ Byte.greater :: rest) =
      some content := by
    apply contentBefore?_enclosed (by decide) hs (by decide)
    intro t hSuffix _
    have hSplit : cdataMark ++ t = cdataMark.dropLast ++ Byte.bracketOpen :: t := rfl
    rw [hSplit] at hSuffix
    exact Bytes.suffix_right hSuffix (by decide)
  have hMark : cdataMark.isPrefixOf content = true := List.isPrefixOf_iff_prefix.mpr (List.prefix_append _ _)
  have hDeclaration : markupAt (content ++ Byte.greater :: rest) =
      declarationAt (content ++ Byte.greater :: rest) := rfl
  rw [hDeclaration, declarationAt]
  simp only [hContent, hMark]
  rfl

theorem markupAt_instruction (name : Name) {s : Bytes} (hs : ¬[Byte.question, Byte.greater] <:+: s) (rest : Bytes) :
    let content := (Byte.question :: (name.bytes ++ [Byte.space])) ++ (s ++ [Byte.question])
    markupAt (content ++ Byte.greater :: rest) = .ok (.hidden, content) := by
  intro content
  have hGreater : Byte.greater ∉ name.bytes := fun h => absurd (name.letters _ h) (by decide)
  have hContent : contentBefore? [Byte.question] 0 [] (content ++ Byte.greater :: rest) = some content := by
    apply contentBefore?_enclosed (by simp [hGreater]; decide) hs (Nat.zero_le _)
    intro t hSuffix _
    have hSplit : Byte.question :: (name.bytes ++ [Byte.space]) ++ t =
        (Byte.question :: name.bytes) ++ Byte.space :: t := by simp
    rw [hSplit] at hSuffix
    exact Bytes.suffix_right hSuffix (by decide)
  have hLength : content.length ≠ 1 := by simp [content]
  have hStart : content ++ Byte.greater :: rest =
      Byte.question :: (name.bytes ++ [Byte.space] ++ (s ++ [Byte.question]) ++ Byte.greater :: rest) := rfl
  rw [hStart] at hContent ⊢
  rw [markupAt, if_neg (by decide), if_pos rfl]
  simp only [hContent, if_neg hLength]

/-! ## Tags -/

/-- Bytes without a `>` that would end a tag, and with every quote closed. -/
def Skipped (s : Bytes) : Prop := ∀ t, tagContent? none (s ++ t) = (tagContent? none t).map (s ++ ·)

theorem Skipped.append {s t : Bytes} (hs : Skipped s) (ht : Skipped t) : Skipped (s ++ t) := by
  intro u
  rw [List.append_assoc, hs, ht, Option.map_map]
  congr 1
  funext v
  rw [Function.comp_apply, List.append_assoc]

theorem skipped_of_plain {s : Bytes} (hs : ∀ b ∈ s, b ∉ [Byte.greater, Byte.doubleQuote, Byte.singleQuote]) :
    Skipped s := by
  induction s with
  | nil =>
    intro t
    simp
  | cons b s ih =>
    intro t
    have hb := hs b List.mem_cons_self
    simp only [List.mem_cons, List.not_mem_nil, or_false, not_or] at hb
    rw [List.cons_append, tagContent?.eq_def]
    simp only [if_neg hb.1, if_neg (not_or.mpr hb.2)]
    rw [ih (fun c hc => hs c (List.mem_cons_of_mem b hc)), Option.map_map]
    rfl

theorem skipped_singleton {b : UInt8} (hb : b ∉ [Byte.greater, Byte.doubleQuote, Byte.singleQuote]) : Skipped [b] := by
  apply skipped_of_plain
  intro c hc
  rwa [List.mem_singleton.mp hc]

theorem tagContent?_quoted {q : UInt8} {s : Bytes} (hs : q ∉ s) (t : Bytes) :
    tagContent? (some q) (s ++ q :: t) = (tagContent? none t).map (s ++ q :: ·) := by
  induction s with
  | nil =>
    rw [List.nil_append, tagContent?.eq_def]
    simp
  | cons b s ih =>
    rw [List.mem_cons, not_or] at hs
    rw [List.cons_append, tagContent?.eq_def]
    simp only [if_neg (Ne.symm hs.1)]
    rw [ih hs.2, Option.map_map]
    rfl

theorem skipped_quoted {s : Bytes} (hs : Byte.doubleQuote ∉ s) :
    Skipped (Byte.doubleQuote :: (s ++ [Byte.doubleQuote])) := by
  intro t
  have hQuote : Byte.doubleQuote ≠ Byte.greater := by decide
  rw [List.cons_append, List.append_assoc, List.singleton_append, tagContent?.eq_def]
  simp only [if_neg hQuote, true_or, if_true]
  rw [tagContent?_quoted hs, Option.map_map]
  congr 1
  funext u
  simp

theorem Name.skipped (name : Name) : Skipped name.bytes := by
  apply skipped_of_plain
  intro b hb hMem
  have hLetter := name.letters b hb
  simp only [List.mem_cons, List.not_mem_nil, or_false] at hMem
  rcases hMem with rfl | rfl | rfl <;> cases hLetter

theorem WrittenAttribute.skipped (attr : WrittenAttribute) : Skipped attr.render := by
  have hSpace : Skipped [Byte.space] := skipped_singleton (by decide)
  have hEquals : Skipped [Byte.equals] := skipped_singleton (by decide)
  exact hSpace.append (attr.name.skipped.append (hEquals.append (skipped_quoted attr.clean)))

theorem skipped_attributes (attributes : List WrittenAttribute) :
    Skipped (attributes.flatMap WrittenAttribute.render) := by
  induction attributes with
  | nil => exact skipped_of_plain (by simp)
  | cons attr more ih =>
    rw [List.flatMap_cons]
    exact attr.skipped.append ih

theorem Tag.skipped (tag : Tag) : Skipped tag.body := tag.name.skipped.append (skipped_attributes tag.attributes)

theorem tagContent?_of_skipped {s : Bytes} (hs : Skipped s) (rest : Bytes) :
    tagContent? none (s ++ Byte.greater :: rest) = some s := by
  rw [hs, tagContent?.eq_def]
  simp

/-- A tag ends with its name or with a quote, so a slash there is not part of it. -/
theorem Tag.getLast?_body (tag : Tag) : tag.body.getLast? ≠ some Byte.slash := by
  intro hLast
  rcases List.eq_nil_or_concat tag.attributes with hNone | ⟨init, attr, hSome⟩
  · rw [Tag.body, hNone, List.flatMap_nil, List.append_nil] at hLast
    exact absurd (tag.name.letters _ (List.mem_of_getLast? hLast)) (by decide)
  · have hBody : tag.body = (tag.name.bytes ++ (init.flatMap WrittenAttribute.render ++ Byte.space ::
        (attr.name.bytes ++ Byte.equals :: Byte.doubleQuote :: attr.value))) ++ [Byte.doubleQuote] := by
      simp [Tag.body, hSome, WrittenAttribute.render]
    rw [hBody, List.getLast?_concat] at hLast
    exact absurd hLast (by decide)

theorem Tag.starts_letter (tag : Tag) : ∃ b tail, tag.body = b :: tail ∧ Byte.isLetter b = true := by
  obtain ⟨b, tail, hName, hb⟩ := tag.name.starts_letter
  exact ⟨b, _, by rw [Tag.body, hName]; rfl, hb⟩

theorem markupAt_of_skipped {b : UInt8} {s : Bytes} (hb : Byte.isLetter b = true) (hs : Skipped (b :: s))
    (rest : Bytes) :
    markupAt (b :: s ++ Byte.greater :: rest) =
      if (b :: s).getLast? = some Byte.slash then .ok (.empty (b :: s).dropLast, b :: s)
      else .ok (.opening (b :: s), b :: s) := by
  have hContent := tagContent?_of_skipped hs rest
  rw [List.cons_append] at hContent ⊢
  rw [markupAt, if_neg (Byte.ne_of_isLetter hb rfl), if_neg (Byte.ne_of_isLetter hb rfl)]
  simp only [hContent, if_neg (Byte.ne_of_isLetter (c := Byte.slash) hb rfl)]

theorem markupAt_opening (tag : Tag) (rest : Bytes) :
    markupAt (tag.body ++ Byte.greater :: rest) = .ok (.opening tag.body, tag.body) := by
  have hSkipped := tag.skipped
  have hLast := tag.getLast?_body
  obtain ⟨b, tail, hBody, hb⟩ := tag.starts_letter
  rw [hBody] at hSkipped hLast ⊢
  rw [markupAt_of_skipped hb hSkipped, if_neg hLast]

theorem markupAt_empty (tag : Tag) (rest : Bytes) :
    markupAt ((tag.body ++ [Byte.slash]) ++ Byte.greater :: rest) =
      .ok (.empty tag.body, tag.body ++ [Byte.slash]) := by
  have hSlash : Skipped [Byte.slash] := skipped_singleton (by decide)
  have hSkipped := tag.skipped.append hSlash
  obtain ⟨b, tail, hBody, hb⟩ := tag.starts_letter
  rw [hBody, List.cons_append] at hSkipped ⊢
  rw [markupAt_of_skipped hb hSkipped, ← List.cons_append, if_pos List.getLast?_concat, List.dropLast_concat]

theorem trimEnd_eq_self {s : Bytes} (hs : ∀ b ∈ s, isSpace b = false) : trimEnd s = s := by
  rw [trimEnd]
  split
  · rfl
  · have hLast : s.reverse.dropWhile isSpace = s.reverse := by
      apply Bytes.dropWhile_run (s := [])
      · simp
      · intro b hb
        exact hs b (List.mem_reverse.mp (List.mem_of_mem_head? hb))
    rw [hLast, List.reverse_reverse]

theorem markupAt_closing_name (name : Name) (rest : Bytes) :
    markupAt ((Byte.slash :: name.bytes) ++ Byte.greater :: rest) =
      .ok (.closing name.bytes, Byte.slash :: name.bytes) := by
  have hSlash : Skipped [Byte.slash] := skipped_singleton (by decide)
  have hContent : tagContent? none ((Byte.slash :: name.bytes) ++ Byte.greater :: rest) =
      some (Byte.slash :: name.bytes) := tagContent?_of_skipped (hSlash.append name.skipped) rest
  rw [List.cons_append] at hContent ⊢
  rw [markupAt, if_neg (by decide), if_neg (by decide)]
  simp only [hContent, if_true, List.drop_succ_cons, List.drop_zero,
    trimEnd_eq_self fun b hb => isSpace_of_isLetter (name.letters b hb)]

/-! ## Attributes -/

theorem isKeyByte_of_isLetter {b : UInt8} (hb : Byte.isLetter b = true) : isKeyByte b = true := by
  simp [isKeyByte, isSpace_of_isLetter hb, Byte.ne_of_isLetter (c := Byte.equals) hb rfl]

theorem Name.takeWhile_key (name : Name) {b : UInt8} {tail : Bytes} (hName : name.bytes = b :: tail) (rest : Bytes) :
    (tail ++ Byte.equals :: rest).takeWhile isKeyByte = tail ∧
      (tail ++ Byte.equals :: rest).dropWhile isKeyByte = Byte.equals :: rest := by
  have hTail : ∀ c ∈ tail, isKeyByte c = true := by
    intro c hc
    exact isKeyByte_of_isLetter (name.letters c (by rw [hName]; exact List.mem_cons_of_mem b hc))
  have hEquals : ∀ c, (Byte.equals :: rest).head? = some c → isKeyByte c = false := by
    rintro c ⟨⟩
    rfl
  exact ⟨Bytes.takeWhile_run hTail hEquals, Bytes.dropWhile_run hTail hEquals⟩

theorem valueAt_quoted {s : Bytes} (hs : Byte.doubleQuote ∉ s) (position : Nat) (rest : Bytes) :
    valueAt position (Byte.doubleQuote :: (s ++ Byte.doubleQuote :: rest)) = .ok (s, rest) := by
  have hStart : (Byte.doubleQuote :: (s ++ Byte.doubleQuote :: rest)).dropWhile isSpace =
      Byte.doubleQuote :: (s ++ Byte.doubleQuote :: rest) := rfl
  simp only [valueAt, hStart, true_or, if_true, Bytes.splitAt?_append hs]

theorem attributeAt_render (attr : WrittenAttribute) {seen : List (Bytes × Nat)} {b : UInt8} {tail : Bytes}
    (hName : attr.name.bytes = b :: tail) (hSeen : ∀ entry ∈ seen, entry.1 ≠ attr.name.bytes) (position : Nat)
    (rest : Bytes) :
    attributeAt seen position b
        (tail ++ Byte.equals :: Byte.doubleQuote :: (attr.value ++ Byte.doubleQuote :: rest)) =
      .ok (attr.read, rest) := by
  have hNone : seen.find? (·.1 == b :: tail) = none := by
    rw [← hName, List.find?_eq_none]
    intro entry hEntry
    simpa using hSeen entry hEntry
  have hEquals (s : Bytes) : (Byte.equals :: s).dropWhile isSpace = Byte.equals :: s := rfl
  obtain ⟨hKey, hRest⟩ := attr.name.takeWhile_key hName
    (Byte.doubleQuote :: (attr.value ++ Byte.doubleQuote :: rest))
  simp only [attributeAt, hKey, hRest, hEquals, if_true, hNone, valueAt_quoted attr.clean, WrittenAttribute.read, hName]

theorem attributesFrom_nil (seen : List (Bytes × Nat)) (position : Nat) : attributesFrom seen position [] = .ok [] := by
  rw [attributesFrom.eq_def]
  rfl

theorem attributesFrom_eq {seen : List (Bytes × Nat)} {position : Nat} {s rest after : Bytes} {b : UInt8}
    {attr : Attribute} (hs : s.dropWhile isSpace = b :: rest)
    (hAttr : attributeAt seen (position + (s.length - (rest.length + 1))) b rest = .ok (attr, after)) :
    attributesFrom seen position s =
      (attributesFrom (seen ++ [(attr.name, position + (s.length - (rest.length + 1)))])
        (position + (s.length - after.length)) after).map (attr :: ·) := by
  rw [attributesFrom.eq_def]
  split
  · rename_i hNil
    rw [hs] at hNil
    cases hNil
  · rename_i c next hNext
    rw [hs] at hNext
    cases hNext
    simp only
    split
    · rename_i hError
      rw [hAttr] at hError
      cases hError
    · rename_i other left hOther
      rw [hAttr] at hOther
      cases hOther
      split <;> rename_i hMore <;> rw [hMore] <;> rfl

theorem attributesFrom_render {attributes : List WrittenAttribute} {seen : List (Bytes × Nat)} (position : Nat)
    (hDistinct : (seen.map (·.1) ++ attributes.map (·.name.bytes)).Nodup) :
    attributesFrom seen position (attributes.flatMap WrittenAttribute.render) =
      .ok (attributes.map WrittenAttribute.read) := by
  induction attributes generalizing seen position with
  | nil => exact attributesFrom_nil seen position
  | cons attr more ih =>
    obtain ⟨b, tail, hName, hb⟩ := attr.name.starts_letter
    have hSeen : ∀ entry ∈ seen, entry.1 ≠ attr.name.bytes := by
      intro entry hEntry
      exact (List.nodup_append.mp hDistinct).2.2 _ (List.mem_map_of_mem hEntry) _ List.mem_cons_self
    have hStart : ((attr :: more).flatMap WrittenAttribute.render).dropWhile isSpace =
        b :: (tail ++ Byte.equals :: Byte.doubleQuote ::
          (attr.value ++ Byte.doubleQuote :: more.flatMap WrittenAttribute.render)) := by
      have hSpace : isSpace b ≠ true := by rw [isSpace_of_isLetter hb]; decide
      simp only [List.flatMap_cons, WrittenAttribute.render, hName, List.cons_append, List.append_assoc,
        List.nil_append]
      rw [List.dropWhile_cons, if_pos (by rfl), List.dropWhile_cons, if_neg hSpace]
    rw [attributesFrom_eq hStart (attributeAt_render attr hName hSeen _ _), ih]
    · rfl
    · simpa [WrittenAttribute.read] using hDistinct

theorem Tag.tagName_body (tag : Tag) : tagName tag.body = tag.name.bytes := by
  apply Bytes.takeWhile_run
  · intro b hb
    rw [isSpace_of_isLetter (tag.name.letters b hb)]
    rfl
  · intro b hb
    cases hAttributes : tag.attributes with
    | nil =>
      rw [hAttributes] at hb
      cases hb
    | cons attr more =>
      rw [hAttributes, List.flatMap_cons] at hb
      cases hb
      rfl

theorem Tag.attributes_body (tag : Tag) : Xml.attributes tag.body = .ok tag.read := by
  rw [Xml.attributes, tag.tagName_body, Tag.body, List.drop_left]
  exact attributesFrom_render _ (by simpa using tag.distinct)

end ScriptLint.Xml
