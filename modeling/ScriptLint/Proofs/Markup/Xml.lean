import ScriptLint.Markup.Xml
import ScriptLint.Proofs.Markup.Element

/-!
# Where XML script elements stand

Every piece of markup runs from a `<` to a `>`, so what a scan masks is bounded by ASCII bytes. The invariant of a scan
says this of the script that is open.
-/
namespace ScriptLint.Xml
set_option autoImplicit false

theorem tagContent?_eq_some {quote : Option UInt8} {s content : Bytes} (h : tagContent? quote s = some content) :
    ∃ rest, s = content ++ Byte.greater :: rest := by
  induction s generalizing quote content with
  | nil => cases h
  | cons b s ih =>
    rw [tagContent?.eq_def] at h
    cases quote with
    | some q =>
      obtain ⟨inner, hInner, rfl⟩ := Option.map_eq_some_iff.mp h
      obtain ⟨rest, rfl⟩ := ih hInner
      exact ⟨rest, rfl⟩
    | none =>
      simp only at h
      split at h
      · rename_i hb
        cases h
        exact ⟨s, by rw [hb, List.nil_append]⟩
      · obtain ⟨inner, hInner, rfl⟩ := Option.map_eq_some_iff.mp h
        obtain ⟨rest, rfl⟩ := ih hInner
        exact ⟨rest, rfl⟩

theorem balancedContent?_eq_some {depth : Nat} {s content : Bytes} (h : balancedContent? depth s = some content) :
    ∃ rest, s = content ++ Byte.greater :: rest := by
  induction s generalizing depth content with
  | nil => cases h
  | cons b s ih =>
    rw [balancedContent?.eq_def] at h
    simp only at h
    split at h
    · rename_i hb
      split at h
      · cases h
        exact ⟨s, by rw [hb, List.nil_append]⟩
      · obtain ⟨inner, hInner, rfl⟩ := Option.map_eq_some_iff.mp h
        obtain ⟨rest, rfl⟩ := ih hInner
        exact ⟨rest, rfl⟩
    · obtain ⟨inner, hInner, rfl⟩ := Option.map_eq_some_iff.mp h
      obtain ⟨rest, rfl⟩ := ih hInner
      exact ⟨rest, rfl⟩

theorem contentBefore?_eq_some {before : Bytes} {least : Nat} {seen s content : Bytes}
    (h : contentBefore? before least seen s = some content) :
    ∃ more rest, content = seen.reverse ++ more ∧ s = more ++ Byte.greater :: rest ∧ before <:+ content := by
  induction s generalizing seen with
  | nil => cases h
  | cons b s ih =>
    rw [contentBefore?] at h
    split at h
    · rename_i hEnd
      cases h
      refine ⟨[], s, by simp, by simp [hEnd.1], ?_⟩
      have hPrefix : before.reverse <+: seen := List.isPrefixOf_iff_prefix.mp hEnd.2.1
      rwa [← List.reverse_prefix, List.reverse_reverse]
    · obtain ⟨more, rest, hContent, hs, hBefore⟩ := ih h
      refine ⟨b :: more, rest, ?_, by rw [hs, List.cons_append], hBefore⟩
      rw [hContent, List.reverse_cons, List.append_assoc, List.singleton_append]

/-- What `markupAt` reads: all up to a `>`, with the marks of its own for a CDATA section. -/
structure Reads (s content : Bytes) (markup : Markup) : Prop where
  split : ∃ rest, s = content ++ Byte.greater :: rest
  cdata : markup = .cdata → cdataMark <+: content ∧ [Byte.bracketClose, Byte.bracketClose] <:+ content

theorem reads_of_contentBefore? {before : Bytes} {least : Nat} {s content : Bytes} {markup : Markup}
    (h : contentBefore? before least [] s = some content) (hMarkup : markup ≠ .cdata) : Reads s content markup := by
  obtain ⟨more, rest, hContent, hs, -⟩ := contentBefore?_eq_some h
  rw [List.reverse_nil, List.nil_append] at hContent
  exact ⟨⟨rest, by rw [hs, hContent]⟩, fun h => absurd h hMarkup⟩

theorem declarationAt_reads {s content : Bytes} {markup : Markup} (h : declarationAt s = .ok (markup, content)) :
    Reads s content markup := by
  simp only [declarationAt] at h
  split at h
  · cases h
  · split at h
    · split at h
      · rename_i hContent
        split at h
        · rename_i hMark
          cases h
          obtain ⟨more, rest, hMore, hs, hBefore⟩ := contentBefore?_eq_some hContent
          rw [List.reverse_nil, List.nil_append] at hMore
          exact ⟨⟨rest, by rw [hs, hMore]⟩, fun _ => ⟨List.isPrefixOf_iff_prefix.mp hMark, hBefore⟩⟩
        · cases h
      · cases h
    · split at h
      · split at h
        · rename_i hContent
          split at h
          · cases h
            exact reads_of_contentBefore? hContent (by simp)
          · cases h
        · cases h
      · split at h
        · split at h
          · rename_i hContent
            split at h
            · split at h
              · cases h
              · cases h
                exact ⟨balancedContent?_eq_some hContent, by simp⟩
            · cases h
          · cases h
        · cases h

theorem markupAt_reads {s content : Bytes} {markup : Markup} (h : markupAt s = .ok (markup, content)) :
    Reads s content markup := by
  rw [markupAt.eq_def] at h
  split at h
  · cases h
  · split at h
    · exact declarationAt_reads h
    · split at h
      · split at h
        · rename_i hContent
          split at h
          · cases h
          · cases h
            exact reads_of_contentBefore? hContent (by simp)
        · cases h
      · split at h
        · cases h
        · rename_i hContent
          split at h
          · cases h
            exact ⟨tagContent?_eq_some hContent, by simp⟩
          · split at h
            · cases h
              exact ⟨tagContent?_eq_some hContent, by simp⟩
            · cases h
              exact ⟨tagContent?_eq_some hContent, by simp⟩

/-- A piece of markup that the text holds between two offsets. -/
structure Holds (text : Bytes) (start stop : Nat) (markup : Markup) : Prop where
  lt : start < stop
  le_length : stop ≤ text.length
  first : text[start]? = some Byte.less
  last : text[stop - 1]? = some Byte.greater
  cdata : markup = .cdata → start + 9 ≤ stop ∧ (OffsetRange.mk start (start + 9)).IsAsciiBounded text ∧
    (OffsetRange.mk (stop - 3) stop).IsAsciiBounded text

theorem holds_of_reads {text after content : Bytes} {start : Nat} {markup : Markup}
    (hText : text.drop start = Byte.less :: after) (hReads : Reads after content markup) :
    Holds text start (start + content.length + 2) markup := by
  obtain ⟨rest, rfl⟩ := hReads.split
  have hGet : ∀ i, text[start + i]? = (Byte.less :: (content ++ Byte.greater :: rest))[i]? := by
    intro i
    rw [← hText, List.getElem?_drop]
  have hContent : ∀ i, i < content.length → text[start + (i + 1)]? = content[i]? := by
    intro i hi
    rw [hGet, List.getElem?_cons_succ, List.getElem?_append_left hi]
  have hLast : text[start + (content.length + 1)]? = some Byte.greater := by
    rw [hGet, List.getElem?_cons_succ, List.getElem?_append_right (Nat.le_refl _), Nat.sub_self]
    rfl
  have hLength : start + content.length + 2 ≤ text.length := by
    have h := congrArg List.length hText
    simp only [List.length_drop, List.length_cons, List.length_append] at h
    omega
  refine ⟨by omega, hLength, hGet 0, ?_, ?_⟩
  · rw [show start + content.length + 2 - 1 = start + (content.length + 1) by omega]
    exact hLast
  · intro hMarkup
    obtain ⟨⟨more, hMark⟩, ⟨inner, hClose⟩⟩ := hReads.cdata hMarkup
    have hMarkLength : 8 ≤ content.length := by
      rw [← hMark, List.length_append]
      exact Nat.le_add_right 8 more.length
    refine ⟨by omega, ?_, ?_⟩
    · refine ⟨⟨Byte.less, hGet 0, by decide⟩, ⟨start + 8, Byte.bracketOpen, rfl, ?_, by decide⟩⟩
      rw [hContent 7 (by omega), ← hMark, List.getElem?_append_left (by decide)]
      rfl
    · refine ⟨⟨Byte.bracketClose, ?_, by decide⟩, ⟨start + (content.length + 1), Byte.greater, by simp only; omega, hLast,
        by decide⟩⟩
      have hInner : content.length = inner.length + 2 := by rw [← hClose, List.length_append]; rfl
      simp only
      rw [show start + content.length + 2 - 3 = start + (inner.length + 1) by omega, hContent _ (by omega), ← hClose,
        List.getElem?_append_right (Nat.le_refl _), Nat.sub_self]
      rfl

theorem Holds.bounded {text : Bytes} {start stop : Nat} {markup : Markup} (h : Holds text start stop markup) :
    (OffsetRange.mk start stop).IsAsciiBounded text := by
  refine ⟨⟨Byte.less, h.first, by decide⟩, ⟨stop - 1, Byte.greater, ?_, h.last, by decide⟩⟩
  have := h.lt
  simp only
  omega

/-- What holds of the script that is open at an offset. -/
structure OpenScript.IsPlaced (text : Bytes) (offset : Nat) (script : OpenScript) : Prop where
  start_le : script.contentStart ≤ offset
  opened : ∃ i, script.contentStart = i + 1 ∧ text[i]? = some Byte.greater
  masks : ∀ mask ∈ script.masks, mask.IsAsciiBounded text
  masks_inside : ∀ mask ∈ script.masks, script.contentStart ≤ mask.start ∧ mask.stop ≤ offset

theorem OpenScript.IsPlaced.mask {text : Bytes} {offset start stop : Nat} {script : OpenScript}
    (h : script.IsPlaced text offset) (hMask : (OffsetRange.mk start stop).IsAsciiBounded text)
    (hStart : script.contentStart ≤ start) (hStop : stop ≤ offset) : (script.mask start stop).IsPlaced text offset := by
  refine ⟨h.start_le, h.opened, ?_, ?_⟩
  · intro mask hMem
    rcases List.mem_append.mp hMem with hMem | hMem
    · exact h.masks mask hMem
    · rw [List.mem_singleton.mp hMem]
      exact hMask
  · intro mask hMem
    rcases List.mem_append.mp hMem with hMem | hMem
    · exact h.masks_inside mask hMem
    · rw [List.mem_singleton.mp hMem]
      exact ⟨hStart, hStop⟩

theorem OpenScript.IsPlaced.withDepth {text : Bytes} {offset : Nat} {script : OpenScript}
    (h : script.IsPlaced text offset) (depth : Nat) : { script with depth := depth }.IsPlaced text offset :=
  ⟨h.start_le, h.opened, h.masks, h.masks_inside⟩

theorem OpenScript.IsPlaced.mono {text : Bytes} {offset offset' : Nat} {script : OpenScript}
    (h : script.IsPlaced text offset) (hLe : offset ≤ offset') : script.IsPlaced text offset' := by
  refine ⟨Nat.le_trans h.start_le hLe, h.opened, h.masks, ?_⟩
  intro mask hMem
  exact ⟨(h.masks_inside mask hMem).1, Nat.le_trans (h.masks_inside mask hMem).2 hLe⟩

theorem OpenScript.IsPlaced.maskAll {text : Bytes} {start stop : Nat} {markup : Markup} {script : OpenScript}
    (h : script.IsPlaced text start) (hHolds : Holds text start stop markup) :
    (script.mask start stop).IsPlaced text stop :=
  (h.mono (Nat.le_of_lt hHolds.lt)).mask hHolds.bounded h.start_le (Nat.le_refl stop)

namespace State

def IsPlaced (text : Bytes) (offset : Nat) (state : State) : Prop :=
  ∀ script, state.script = some script → script.IsPlaced text offset

/-- No content that is found later starts before this offset. -/
def bound (offset : Nat) (state : State) : Nat :=
  match state.script with
  | some script => script.contentStart
  | none => offset + 1

theorem isPlaced_none (text : Bytes) (offset opened : Nat) : IsPlaced text offset ⟨opened, none⟩ :=
  fun _ h => nomatch h

theorem isPlaced_some {text : Bytes} {offset opened : Nat} {script : OpenScript} (h : script.IsPlaced text offset) :
    IsPlaced text offset ⟨opened, some script⟩ := by
  intro other hOther
  cases hOther
  exact h

end State

/-- What one piece of markup does to a scan: the open script stays placed, and an element that ends is placed between
what was found and what will be. -/
structure Advances (text : Bytes) (start stop : Nat) (state next : State) (found : Option Element) : Prop where
  isPlaced : next.IsPlaced text stop
  bound_le : state.bound start ≤ next.bound stop
  found : ∀ element, found = some element →
    element.IsPlaced text ∧ state.bound start ≤ element.content.start ∧ element.content.stop < next.bound stop

/-- Markup that ends no script masks some of an open one. -/
theorem advances_of_masked {text : Bytes} {start stop opened : Nat} {state : State} (masked : OpenScript → OpenScript)
    (hLt : start < stop) (hState : state.IsPlaced text start) (hStart : ∀ s, (masked s).contentStart = s.contentStart)
    (hMasked : ∀ s : OpenScript, s.IsPlaced text start → (masked s).IsPlaced text stop) :
    Advances text start stop state ⟨opened, state.script.map masked⟩ none := by
  obtain ⟨count, script⟩ := state
  cases script with
  | none =>
    refine ⟨State.isPlaced_none _ _ _, ?_, fun _ h => nomatch h⟩
    simp only [State.bound, Option.map_none]
    omega
  | some script =>
    refine ⟨State.isPlaced_some (hMasked script (hState script rfl)), ?_, fun _ h => nomatch h⟩
    simp only [State.bound, Option.map_some, hStart]
    exact Nat.le_refl _

theorem close_advances {text name : Bytes} {start stop : Nat} {state next : State} {found : Option Element}
    {markup : Markup} (hHolds : Holds text start stop markup) (hState : state.IsPlaced text start)
    (h : close start stop name state = .ok (next, found)) : Advances text start stop state next found := by
  obtain ⟨count, script⟩ := state
  have hLt := hHolds.lt
  cases count with
  | zero => cases h
  | succ count =>
    cases script with
    | none =>
      cases h
      exact advances_of_masked id hLt hState (fun _ => rfl) (fun _ hs => hs.mono (Nat.le_of_lt hLt))
    | some script =>
      simp only [close] at h
      split at h
      · rename_i depth hDepth
        cases h
        exact advances_of_masked (fun s => { s with depth := depth }.mask start stop) hLt hState
          (fun _ => rfl) (fun _ hs => (hs.withDepth _).maskAll hHolds)
      · split at h
        · cases h
          have hScript := hState script rfl
          refine ⟨State.isPlaced_none _ _ _, ?_, ?_⟩
          · have := hScript.start_le
            simp only [State.bound]
            omega
          · intro element hElement
            cases hElement
            refine ⟨⟨hScript.start_le, ?_, hScript.opened, .inr hHolds.first, hScript.masks, hScript.masks_inside⟩,
              Nat.le_refl _, ?_⟩
            · have := hHolds.le_length
              simp only
              omega
            · simp only [State.bound]
              omega
        · cases h

theorem step_advances {text : Bytes} {start stop : Nat} {markup : Markup} {state next : State}
    {found : Option Element} (hHolds : Holds text start stop markup) (hState : state.IsPlaced text start)
    (h : step start stop markup state = .ok (next, found)) : Advances text start stop state next found := by
  have hLt := hHolds.lt
  cases markup with
  | opening content =>
    simp only [step] at h
    split at h
    · cases h
    · rename_i attributes hAttributes
      obtain ⟨count, script⟩ := state
      cases script with
      | some script =>
        cases h
        exact advances_of_masked (fun s => { s with depth := script.depth + 1 }.mask start stop) hLt hState
          (fun _ => rfl) (fun _ hs => (hs.withDepth _).maskAll hHolds)
      | none =>
        simp only at h
        split at h
        · cases h
          refine ⟨State.isPlaced_some ⟨Nat.le_refl _, ⟨stop - 1, ?_, hHolds.last⟩, fun _ h => absurd h List.not_mem_nil,
            fun _ h => absurd h List.not_mem_nil⟩, ?_, ?_⟩
          · simp only
            omega
          · simp only [State.bound]
            omega
          · intro element hElement
            cases hElement
        · cases h
          exact advances_of_masked id hLt hState (fun _ => rfl) (fun _ hs => hs.mono (Nat.le_of_lt hLt))
  | empty content =>
    simp only [step] at h
    split at h
    · cases h
    · cases h
      exact advances_of_masked (·.mask start stop) hLt hState (fun _ => rfl) (fun _ hs => hs.maskAll hHolds)
  | closing name => exact close_advances hHolds hState h
  | cdata =>
    cases h
    obtain ⟨hLength, hOpen, hClose⟩ := hHolds.cdata rfl
    refine advances_of_masked (fun s => (s.mask start (start + 9)).mask (stop - 3) stop) hLt hState (fun _ => rfl) ?_
    intro script hs
    have hStart := hs.start_le
    refine ((hs.mono (Nat.le_of_lt hLt)).mask hOpen hStart hLength).mask hClose ?_ (Nat.le_refl stop)
    simp only [OpenScript.mask]
    omega
  | hidden =>
    cases h
    exact advances_of_masked (·.mask start stop) hLt hState (fun _ => rfl) (fun _ hs => hs.maskAll hHolds)

theorem elementsFrom_markup {text after content : Bytes} {offset : Nat} {state next : State} {markup : Markup}
    {found : Option Element} (hText : text.drop offset = Byte.less :: after)
    (hStray : startsStray (Byte.less :: after) = false) (hMarkup : markupAt after = .ok (markup, content))
    (hStep : step offset (offset + content.length + 2) markup state = .ok (next, found)) :
    elementsFrom text offset state (Byte.less :: after) =
      (elementsFrom text (offset + content.length + 2) next (after.drop (content.length + 1))).map
        (found.toList ++ ·) := by
  rw [elementsFrom.eq_def, hText, hStray, if_neg Bool.false_ne_true]
  simp only [if_true, hMarkup, hStep]
  cases elementsFrom text (offset + content.length + 2) next (after.drop (content.length + 1)) <;> rfl

theorem elementsFrom_run {text rest : Bytes} {b : UInt8} {offset : Nat} (state : State) (hb : b ≠ Byte.less)
    (hText : text.drop offset = b :: rest) :
    elementsFrom text offset state (b :: rest) =
      elementsFrom text (offset + 1 + (rest.takeWhile (· != Byte.less)).length) state
        (rest.drop (rest.takeWhile (· != Byte.less)).length) := by
  have hStray : startsStray (b :: rest) = false := by
    simp [startsStray.eq_def, hb]
  rw [elementsFrom.eq_def, hText, hStray, if_neg Bool.false_ne_true]
  simp only [if_neg hb]

theorem elementsFrom_cons {text rest : Bytes} {b : UInt8} {offset : Nat} (state : State) (hb : b ≠ Byte.less)
    (hText : text.drop offset = b :: rest) :
    elementsFrom text offset state (b :: rest) = elementsFrom text (offset + 1) state rest := by
  have hNext : text.drop (offset + 1) = rest := by
    rw [← List.drop_drop, hText]
    rfl
  rw [elementsFrom_run state hb hText]
  -- the run goes on with the next byte unless that is a `<`
  cases rest with
  | nil => rfl
  | cons c rest =>
    by_cases hc : c = Byte.less
    · simp [hc]
    · rw [elementsFrom_run state hc hNext]
      simp only [List.takeWhile_cons, bne_iff_ne.mpr hc, if_true, List.length_cons, List.drop_succ_cons]
      congr 1
      omega

theorem elementsFrom_text {text s rest : Bytes} {offset : Nat} (state : State) (hs : Byte.less ∉ s)
    (hText : text.drop offset = s ++ rest) :
    elementsFrom text offset state (s ++ rest) = elementsFrom text (offset + s.length) state rest := by
  induction s generalizing offset with
  | nil => rfl
  | cons b s ih =>
    rw [List.mem_cons, not_or] at hs
    rw [List.cons_append] at hText ⊢
    have hNext : text.drop (offset + 1) = s ++ rest := by
      rw [← List.drop_drop, hText]
      rfl
    rw [elementsFrom_cons state (Ne.symm hs.1) hText, ih hs.2 hNext, List.length_cons, Nat.add_assoc, Nat.add_comm 1]

/-- A scan that goes on from a placed state finds placed elements in order, none before its bound. What it reads may be
another text than the one in which it looks for a stray `<`. -/
theorem elementsFrom_placed {text source : Bytes} (offset : Nat) (state : State) (rest : Bytes) {found : List Element}
    (hText : source.drop offset = rest) (hState : state.IsPlaced source offset)
    (h : elementsFrom text offset state rest = .ok found) :
    (∀ element ∈ found, element.IsPlaced source ∧ state.bound offset ≤ element.content.start) ∧
      Element.InOrder found := by
  fun_induction elementsFrom text offset state rest generalizing found with
  | case1 => cases h
  | case2 => cases h
  | case3 =>
    cases h
    exact ⟨fun _ h => absurd h List.not_mem_nil, List.Pairwise.nil⟩
  | case4 => cases h
  | case5 => cases h
  | case6 => cases h
  | case7 offset state hStray after markup content hMarkup next ended hStep more hMore ih =>
    cases h
    have hAdvances := step_advances (holds_of_reads hText (markupAt_reads hMarkup)) hState hStep
    have hRest : source.drop (offset + content.length + 2) = after.drop (content.length + 1) := by
      rw [show offset + content.length + 2 = offset + (content.length + 1 + 1) by omega, ← List.drop_drop, hText]
      rfl
    obtain ⟨hPlaced, hOrder⟩ := ih hRest hAdvances.isPlaced hMore
    constructor
    · intro element hMem
      rcases List.mem_append.mp hMem with hMem | hMem
      · have hFound := hAdvances.found element (Option.mem_toList.mp hMem)
        exact ⟨hFound.1, hFound.2.1⟩
      · exact ⟨(hPlaced element hMem).1, Nat.le_trans hAdvances.bound_le (hPlaced element hMem).2⟩
    · refine List.pairwise_append.mpr ⟨?_, hOrder, ?_⟩
      · cases ended <;> simp
      · intro a ha b hb
        have hFound := hAdvances.found a (Option.mem_toList.mp ha)
        exact Nat.lt_of_lt_of_le hFound.2.2 (hPlaced b hb).2
  | case8 offset state hStray b after hLess length =>
    rename_i ih
    have hRest : source.drop (offset + 1 + length) = after.drop length := by
      rw [Nat.add_assoc, ← List.drop_drop, hText, Nat.add_comm 1]
      rfl
    have hBound : state.bound offset ≤ state.bound (offset + 1 + length) := by
      simp only [State.bound]
      split <;> omega
    obtain ⟨hPlaced, hOrder⟩ := ih hRest (fun script hs => (hState script hs).mono (by omega)) h
    exact ⟨fun element hMem => ⟨(hPlaced element hMem).1, Nat.le_trans hBound (hPlaced element hMem).2⟩, hOrder⟩

/-- How much of a text is neither read nor counted: its byte order mark. -/
def markLength (text : Bytes) : Nat := if byteOrderMark.isPrefixOf text then 3 else 0

theorem elements_eq (text : Bytes) : elements text = elementsFrom text 0 ⟨0, none⟩ (text.drop (markLength text)) := by
  rw [elements, markLength]
  split <;> rfl

theorem markLength_of_no_mark {text : Bytes} (hMark : ¬byteOrderMark <+: text) : markLength text = 0 :=
  if_neg fun hPrefix => hMark (List.isPrefixOf_iff_prefix.mp hPrefix)

theorem markLength_of_mark {text : Bytes} (hMark : byteOrderMark <+: text) : markLength text = 3 :=
  if_pos (List.isPrefixOf_iff_prefix.mpr hMark)

theorem elements_placed {text : Bytes} {found : List Element} (h : elements text = .ok found) :
    (∀ element ∈ found, element.IsPlaced (text.drop (markLength text))) ∧ Element.InOrder found := by
  rw [elements_eq] at h
  obtain ⟨hPlaced, hOrder⟩ := elementsFrom_placed 0 _ _ rfl (State.isPlaced_none _ _ _) h
  exact ⟨fun element hMem => (hPlaced element hMem).1, hOrder⟩

theorem elements_placed_of_no_mark {text : Bytes} {found : List Element} (hMark : ¬byteOrderMark <+: text)
    (h : elements text = .ok found) : (∀ element ∈ found, element.IsPlaced text) ∧ Element.InOrder found := by
  have hPlaced := elements_placed h
  rwa [markLength_of_no_mark hMark] at hPlaced

end ScriptLint.Xml
