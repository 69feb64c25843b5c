import Mathlib.Control.Monad.Basic
import Mathlib.Logic.Relation
import ScriptLint.Proofs.Markup.Xml
import ScriptLint.ScriptBlock

/-!
# Where a failed XML scan points

A text is read as one event after another, and the error of a scan that fails stands where an event starts. The reader's
own steps are stated without the scan: which offsets start an event, and how many children of a script are open there.
-/
namespace ScriptLint.Xml
set_option autoImplicit false

open Relation

/-- An event that the reader finds between two offsets: a run of text, or a piece of markup. -/
inductive Event (text : Bytes) (start : Nat) : Option Markup → Nat → Prop where
  | run {b : UInt8} {rest : Bytes} (hText : text.drop start = b :: rest) (hb : b ≠ Byte.less) :
    Event text start none (start + 1 + (rest.takeWhile (· != Byte.less)).length)
  | markup {rest content : Bytes} {markup : Markup} (hText : text.drop start = Byte.less :: rest)
    (hMarkup : markupAt rest = .ok (markup, content)) : Event text start (some markup) (start + content.length + 2)

/-- How an event changes the number of open elements. A closing tag needs one. -/
inductive Nests : Option Markup → Nat → Nat → Prop where
  | run (depth : Nat) : Nests none depth depth
  | opening (content : Bytes) (depth : Nat) : Nests (some (.opening content)) depth (depth + 1)
  | empty (content : Bytes) (depth : Nat) : Nests (some (.empty content)) depth depth
  | closing (name : Bytes) (depth : Nat) : Nests (some (.closing name)) (depth + 1) depth
  | cdata (depth : Nat) : Nests (some .cdata) depth depth
  | hidden (depth : Nat) : Nests (some .hidden) depth depth

def Follows (text : Bytes) (start stop : Nat) : Prop := ∃ event, Event text start event stop

/-- The reader starts an event at this offset, or ends there. -/
def Starts (text : Bytes) (offset : Nat) : Prop := ReflTransGen (Follows text) 0 offset

/-- One event of the children of an element, from an offset and the depth there to the next. -/
def Descends (text : Bytes) (p q : Nat × Nat) : Prop := ∃ event, Event text p.1 event q.1 ∧ Nests event p.2 q.2

/-- A `<` with nothing after it that could go on with markup. -/
def IsStray (text : Bytes) (offset : Nat) : Prop :=
  text[offset]? = some Byte.less ∧ ∀ b, text[offset + 1]? = some b →
    isNameStart b = false ∧ b ≠ Byte.slash ∧ b ≠ Byte.bang ∧ b ≠ Byte.question

def OpensScript (text : Bytes) (start stop : Nat) : Prop :=
  Starts text start ∧ ∃ content, Event text start (some (.opening content)) stop ∧ tagName content = scriptName

namespace Event

theorem lt {text : Bytes} {start stop : Nat} {event : Option Markup} (h : Event text start event stop) :
    start < stop := by
  cases h <;> omega

theorem start_lt_length {text : Bytes} {start stop : Nat} {event : Option Markup} (h : Event text start event stop) :
    start < text.length := by
  have hLength : 0 < (text.drop start).length := by
    cases h with
    | run hText | markup hText => rw [hText, List.length_cons]; omega
  rw [List.length_drop] at hLength
  omega

theorem stop_le_length {text : Bytes} {start stop : Nat} {event : Option Markup} (h : Event text start event stop) :
    stop ≤ text.length := by
  cases h with
  | markup hText hMarkup => exact (holds_of_reads hText (markupAt_reads hMarkup)).le_length
  | run hText =>
    rename_i b rest _
    have hLength := congrArg List.length hText
    have hTake : (rest.takeWhile (· != Byte.less)).length ≤ rest.length := (List.takeWhile_prefix _).length_le
    rw [List.length_drop, List.length_cons] at hLength
    omega

theorem less {text : Bytes} {start stop : Nat} {markup : Markup} (h : Event text start (some markup) stop) :
    text[start]? = some Byte.less := by
  cases h with
  | markup hText => rw [← List.head?_drop, hText, List.head?_cons]

theorem unique {text : Bytes} {start stop stop' : Nat} {event event' : Option Markup}
    (h : Event text start event stop) (h' : Event text start event' stop') : event = event' ∧ stop = stop' := by
  cases h with
  | run hText hb =>
    cases h' with
    | run hText' =>
      cases hText.symm.trans hText'
      exact ⟨rfl, rfl⟩
    | markup hText' =>
      cases hText.symm.trans hText'
      exact absurd rfl hb
  | markup hText hMarkup =>
    cases h' with
    | run hText' hb =>
      cases hText.symm.trans hText'
      exact absurd rfl hb
    | markup hText' hMarkup' =>
      cases hText.symm.trans hText'
      cases hMarkup.symm.trans hMarkup'
      exact ⟨rfl, rfl⟩

end Event

theorem Nests.unique {event : Option Markup} {depth next next' : Nat} (h : Nests event depth next)
    (h' : Nests event depth next') : next = next' := by
  cases h <;> cases h' <;> rfl

theorem follows_rightUnique (text : Bytes) : Relator.RightUnique (Follows text) := by
  rintro start stop stop' ⟨event, h⟩ ⟨event', h'⟩
  exact (h.unique h').2

theorem descends_rightUnique (text : Bytes) : Relator.RightUnique (Descends text) := by
  rintro ⟨start, depth⟩ ⟨stop, next⟩ ⟨stop', next'⟩ ⟨event, h, hNests⟩ ⟨event', h', hNests'⟩
  obtain ⟨rfl, hStop⟩ := h.unique h'
  exact Prod.ext hStop (hNests.unique hNests')

theorem le_of_follows {text : Bytes} {start stop : Nat} (h : ReflTransGen (Follows text) start stop) :
    start ≤ stop := by
  induction h with
  | refl => exact Nat.le_refl _
  | tail _ hLast ih =>
    obtain ⟨event, hEvent⟩ := hLast
    exact Nat.le_trans ih (Nat.le_of_lt hEvent.lt)

/-- Children that are read to the end of the text leave no closing tag for the element they are in. -/
theorem not_closing_of_descends {text name : Bytes} {start offset stop depth : Nat}
    (hEnd : ReflTransGen (Descends text) (start, 0) (text.length, depth))
    (hReach : ReflTransGen (Descends text) (start, 0) (offset, 0)) :
    ¬Event text offset (some (.closing name)) stop := by
  intro hClosing
  have hStuck : ∀ q, ¬Descends text (offset, 0) q := by
    rintro ⟨next, count⟩ ⟨event, hEvent, hNests⟩
    obtain ⟨rfl, -⟩ := hEvent.unique hClosing
    cases hNests
  have hLast : ∀ q, ¬Descends text (text.length, depth) q := by
    rintro q ⟨event, hEvent, -⟩
    exact Nat.lt_irrefl _ hEvent.start_lt_length
  have hEq : offset = text.length := by
    rcases ReflTransGen.total_of_right_unique (descends_rightUnique text) hEnd hReach with h | h
    · rcases ReflTransGen.cases_head h with hEq | ⟨q, hq, -⟩
      · exact (congrArg Prod.fst hEq).symm
      · exact absurd hq (hLast q)
    · rcases ReflTransGen.cases_head h with hEq | ⟨q, hq, -⟩
      · exact congrArg Prod.fst hEq
      · exact absurd hq (hStuck q)
  exact absurd hClosing.start_lt_length (by omega)

theorem startsStray_iff {text : Bytes} {offset : Nat} :
    startsStray (text.drop offset) = true ↔ IsStray text offset := by
  have hGet (i : Nat) : text[offset + i]? = (text.drop offset)[i]? := List.getElem?_drop.symm
  rw [IsStray, hGet 1, show text[offset]? = _ from hGet 0]
  cases text.drop offset with
  | nil => simp [startsStray]
  | cons b rest =>
    cases rest with
    | nil => simp [startsStray]
    | cons c rest => simp [startsStray, and_assoc]

def Passes (text : Bytes) (start stop : Nat) : Prop := ¬IsStray text start ∧ Follows text start stop

theorem starts_of_passes {text : Bytes} {offset : Nat} (h : ReflTransGen (Passes text) 0 offset) :
    Starts text offset :=
  h.lift id fun _ _ hPass => hPass.2

theorem not_isStray_of_passes {text : Bytes} {start offset other : Nat} (hPass : ReflTransGen (Passes text) start offset)
    (hOther : ReflTransGen (Follows text) start other) (hLt : other < offset) : ¬IsStray text other := by
  induction hPass using ReflTransGen.head_induction_on with
  | refl => exact absurd (le_of_follows hOther) (by omega)
  | head hFirst _ ih =>
    rcases ReflTransGen.cases_head hOther with rfl | ⟨next, hNext, hRest⟩
    · exact hFirst.1
    · cases follows_rightUnique text hFirst.2 hNext
      exact ih hRest

/-- What an error says of the text, apart from the reason it gives. -/
structure Locates (text : Bytes) (error : ScanError) : Prop where
  less : (∀ fault offset, error ≠ .malformed fault offset) → text[error.offset]? = some Byte.less
  stray : ∀ offset, error = .unexpectedToken [Byte.less] offset →
    IsStray text offset ∧ ReflTransGen (Passes text) 0 offset
  unclosed : ∀ tag offset, error = .unclosedElement tag offset → tag = scriptName ∧
    ∃ stop depth, OpensScript text offset stop ∧ ReflTransGen (Descends text) (stop, 0) (text.length, depth)

/-- What a scan has read where it stands: no stray `<`, and only children of the script that is open. -/
structure Reading (text : Bytes) (offset : Nat) (state : State) : Prop where
  passes : ReflTransGen (Passes text) 0 offset
  script : ∀ script, state.script = some script → OpensScript text script.tagStart script.contentStart ∧
    ReflTransGen (Descends text) (script.contentStart, 0) (offset, script.depth)

/-- A script that is open after a piece of markup was opened by it, or was open before and had it as a child. -/
theorem step_script {start stop : Nat} {markup : Markup} {state next : State} {found : Option Element}
    {script : OpenScript} (h : step start stop markup state = .ok (next, found)) (hScript : next.script = some script) :
    (∃ content, markup = .opening content ∧ tagName content = scriptName ∧
      script.tagStart = start ∧ script.contentStart = stop ∧ script.depth = 0) ∨
    ∃ before, state.script = some before ∧ script.tagStart = before.tagStart ∧
      script.contentStart = before.contentStart ∧ Nests (some markup) before.depth script.depth := by
  obtain ⟨opened, current⟩ := state
  cases markup with
  | opening content =>
    simp only [step] at h
    split at h
    · cases h
    · cases current with
      | some before =>
        cases h
        cases hScript
        exact .inr ⟨before, rfl, rfl, rfl, .opening content before.depth⟩
      | none =>
        simp only at h
        split at h
        · rename_i hName
          cases h
          cases hScript
          exact .inl ⟨content, rfl, hName, rfl, rfl, rfl⟩
        · cases h
          cases hScript
  | empty content =>
    simp only [step] at h
    split at h
    · cases h
    · cases h
      obtain ⟨before, rfl, rfl⟩ := Option.map_eq_some_iff.mp hScript
      exact .inr ⟨before, rfl, rfl, rfl, .empty content before.depth⟩
  | closing name =>
    simp only [step, close] at h
    split at h
    · cases h
    · cases current with
      | none =>
        cases h
        cases hScript
      | some before =>
        simp only at h
        split at h
        · rename_i depth hDepth
          cases h
          cases hScript
          exact .inr ⟨before, rfl, rfl, rfl, hDepth ▸ .closing name depth⟩
        · split at h
          · cases h
            cases hScript
          · cases h
  | cdata =>
    cases h
    obtain ⟨before, rfl, rfl⟩ := Option.map_eq_some_iff.mp hScript
    exact .inr ⟨before, rfl, rfl, rfl, .cdata before.depth⟩
  | hidden =>
    cases h
    obtain ⟨before, rfl, rfl⟩ := Option.map_eq_some_iff.mp hScript
    exact .inr ⟨before, rfl, rfl, rfl, .hidden before.depth⟩

theorem step_error {start stop : Nat} {markup : Markup} {state : State} {error : ScanError}
    (h : step start stop markup state = .error error) :
    (∃ fault, error = .invalidAttribute fault start) ∨ (∃ fault, error = .malformed fault start) ∨
      ∃ name, error = .unexpectedToken ([Byte.less, Byte.slash] ++ name ++ [Byte.greater]) start := by
  cases markup with
  | opening content =>
    simp only [step] at h
    split at h
    · cases h
      exact .inl ⟨_, rfl⟩
    · repeat' split at h
      all_goals cases h
  | empty content =>
    simp only [step] at h
    split at h
    · cases h
      exact .inl ⟨_, rfl⟩
    · cases h
  | closing name =>
    simp only [step, close] at h
    split at h
    · cases h
      exact .inr (.inl ⟨_, rfl⟩)
    · repeat' split at h
      all_goals cases h
      exact .inr (.inr ⟨name, rfl⟩)
  | cdata => cases h
  | hidden => cases h

theorem locates_malformed (text : Bytes) (fault : MarkupFault) (offset : Nat) :
    Locates text (.malformed fault offset) := by
  constructor
  · intro h
    exact absurd rfl (h fault offset)
  · rintro _ ⟨⟩
  · rintro _ _ ⟨⟩

theorem locates_of_less {text : Bytes} {error : ScanError} (hLess : text[error.offset]? = some Byte.less)
    (hStray : ∀ offset, error ≠ .unexpectedToken [Byte.less] offset)
    (hUnclosed : ∀ tag offset, error ≠ .unclosedElement tag offset) : Locates text error :=
  ⟨fun _ => hLess, fun offset h => absurd h (hStray offset), fun tag offset h => absurd h (hUnclosed tag offset)⟩

theorem Failure.locates {text : Bytes} {offset : Nat} (failure : Failure) (hLess : text[offset]? = some Byte.less) :
    Locates text (failure.toScanError offset) := by
  cases failure with
  | malformed fault distance => exact locates_malformed text fault _
  | unterminated enclosure => exact locates_of_less hLess (by rintro _ ⟨⟩) (by rintro _ _ ⟨⟩)

theorem locates_of_step {text : Bytes} {start stop : Nat} {markup : Markup} {state : State} {error : ScanError}
    (hLess : text[start]? = some Byte.less) (h : step start stop markup state = .error error) :
    Locates text error := by
  obtain ⟨fault, rfl⟩ | ⟨fault, rfl⟩ | ⟨name, rfl⟩ := step_error h
  · exact locates_of_less hLess (by rintro _ ⟨⟩) (by rintro _ _ ⟨⟩)
  · exact locates_malformed text fault start
  · exact locates_of_less hLess (by rintro _ ⟨⟩) (by rintro _ _ ⟨⟩)

namespace Reading

theorem initial (text : Bytes) (opened : Nat) : Reading text 0 ⟨opened, none⟩ :=
  ⟨.refl, fun _ h => nomatch h⟩

theorem run {text : Bytes} {offset stop : Nat} {state : State} (hReading : Reading text offset state)
    (hStray : ¬IsStray text offset) (hEvent : Event text offset none stop) : Reading text stop state := by
  constructor
  · exact hReading.passes.tail ⟨hStray, none, hEvent⟩
  · intro script hScript
    obtain ⟨hOpens, hChildren⟩ := hReading.script script hScript
    exact ⟨hOpens, hChildren.tail ⟨none, hEvent, .run script.depth⟩⟩

theorem step {text : Bytes} {offset stop : Nat} {state next : State} {markup : Markup} {found : Option Element}
    (hReading : Reading text offset state) (hStray : ¬IsStray text offset)
    (hEvent : Event text offset (some markup) stop) (hStep : Xml.step offset stop markup state = .ok (next, found)) :
    Reading text stop next := by
  constructor
  · exact hReading.passes.tail ⟨hStray, _, hEvent⟩
  · intro script hScript
    obtain ⟨content, rfl, hName, hTag, hContent, hDepth⟩ | ⟨before, hBefore, hTag, hContent, hNests⟩ :=
      step_script hStep hScript
    · rw [hTag, hContent, hDepth]
      exact ⟨⟨starts_of_passes hReading.passes, content, hEvent, hName⟩, .refl⟩
    · obtain ⟨hOpens, hChildren⟩ := hReading.script before hBefore
      rw [hTag, hContent]
      exact ⟨hOpens, hChildren.tail ⟨_, hEvent, hNests⟩⟩

theorem unclosed {text : Bytes} {state : State} {script : OpenScript} (hReading : Reading text text.length state)
    (hScript : state.script = some script) : Locates text (.unclosedElement scriptName script.tagStart) := by
  obtain ⟨hOpens, hChildren⟩ := hReading.script script hScript
  constructor
  · intro _
    obtain ⟨-, content, hEvent, -⟩ := hOpens
    exact hEvent.less
  · rintro _ ⟨⟩
  · rintro _ _ ⟨⟩
    exact ⟨rfl, _, _, hOpens, hChildren⟩

end Reading

theorem elementsFrom_locates {text rest : Bytes} {offset : Nat} {state : State} {error : ScanError}
    (hText : text.drop offset = rest) (hReading : Reading text offset state) (hLe : offset ≤ text.length)
    (h : elementsFrom text offset state rest = .error error) : Locates text error := by
  fun_induction elementsFrom text offset state rest with
  | case1 offset state rest hStray =>
    cases h
    have hStray := startsStray_iff.mp hStray
    refine ⟨fun _ => hStray.1, ?_, ?_⟩
    · rintro _ ⟨⟩
      exact ⟨hStray, hReading.passes⟩
    · rintro _ _ ⟨⟩
  | case2 offset state hStray script hScript =>
    cases h
    have hEnd : offset = text.length := Nat.le_antisymm hLe (List.drop_eq_nil_iff.mp hText)
    exact (hEnd ▸ hReading).unclosed hScript
  | case3 => cases h
  | case4 offset state hStray after failure hMarkup =>
    cases h
    exact failure.locates (by rw [← List.head?_drop, hText, List.head?_cons])
  | case5 offset state hStray after markup content hMarkup stepError hStep =>
    cases h
    exact locates_of_step (Event.markup hText hMarkup).less hStep
  | case6 offset state hStray after markup content hMarkup next found hStep moreError hMore ih =>
    cases h
    have hEvent := Event.markup hText hMarkup
    refine ih ?_ (hReading.step (mt startsStray_iff.mpr hStray) hEvent hStep) hEvent.stop_le_length hMore
    rw [Nat.add_assoc, ← List.drop_drop, hText, List.drop_succ_cons]
  | case7 => cases h
  | case8 offset state hStray b after hLess length ih =>
    have hEvent := Event.run hText hLess
    refine ih ?_ (hReading.run (mt startsStray_iff.mpr hStray) hEvent) hEvent.stop_le_length h
    rw [Nat.add_assoc, ← List.drop_drop, hText, Nat.add_comm 1, List.drop_succ_cons]

end ScriptLint.Xml

namespace ScriptLint.Document
set_option autoImplicit false

open Relation Xml

theorem locates_of_scan {document : Document} {mediaTypes : List String} {error : ScanError}
    (hMark : ¬byteOrderMark <+: document.text) (hScan : document.scan ⟨.xml, mediaTypes⟩ = .error error) :
    Locates document.text error := by
  have hElements : Xml.elements document.text = .error error := by
    simp only [scan, Document.elements] at hScan
    split at hScan
    · cases hScan
      assumption
    · cases hScan
  rw [elements_eq, markLength_of_no_mark hMark] at hElements
  exact elementsFrom_locates rfl (Reading.initial _ _) (Nat.zero_le _) hElements

/-- An error of an XML document stands at a `<` of its text, unless it is that of the grammar. A stray `<` is the first
one, and a script without an end is a script whose closing tag the reader does not find. -/
theorem xml_error_points_at_fault (document : Document) (mediaTypes : List String) (error : ScanError)
    (hMark : ¬byteOrderMark <+: document.text) (hScan : document.scan ⟨.xml, mediaTypes⟩ = .error error) :
    ((∀ fault offset, error ≠ .malformed fault offset) →
      error.offset < document.text.length ∧ document.text[error.offset]? = some Byte.less) ∧
    (∀ offset, error = .unexpectedToken [Byte.less] offset →
      Starts document.text offset ∧ IsStray document.text offset ∧
        ∀ other, Starts document.text other → IsStray document.text other → offset ≤ other) ∧
    ∀ tag offset, error = .unclosedElement tag offset → tag = scriptName ∧
      ∃ stop, OpensScript document.text offset stop ∧
        (∃ depth, ReflTransGen (Descends document.text) (stop, 0) (document.text.length, depth)) ∧
        ∀ other name last, ReflTransGen (Descends document.text) (stop, 0) (other, 0) →
          ¬Event document.text other (some (.closing name)) last := by
  have hLocates := locates_of_scan hMark hScan
  refine ⟨?_, ?_, ?_⟩
  · intro hError
    have hLess := hLocates.less hError
    exact ⟨(List.getElem?_eq_some_iff.mp hLess).1, hLess⟩
  · intro offset hError
    obtain ⟨hStray, hPasses⟩ := hLocates.stray offset hError
    refine ⟨starts_of_passes hPasses, hStray, ?_⟩
    intro other hOther hOtherStray
    exact Nat.le_of_not_lt fun hLt => not_isStray_of_passes hPasses hOther hLt hOtherStray
  · intro tag offset hError
    obtain ⟨hTag, stop, depth, hOpens, hEnd⟩ := hLocates.unclosed tag offset hError
    exact ⟨hTag, stop, hOpens, ⟨depth, hEnd⟩, fun _ _ _ hReach => not_closing_of_descends hEnd hReach⟩

theorem xml_error_points_at_fault_stray_unclosed :
    let stray : Document := ⟨Utf8.encode "<p>1</p> < 2 <script x>"⟩
    let unclosed : Document := ⟨Utf8.encode "<p/><script><b>1</b><i/>"⟩
    (stray.scan ⟨.xml, []⟩ = .error (.unexpectedToken [Byte.less] 9) ∧ Starts stray.text 9 ∧
      ∀ other, Starts stray.text other → IsStray stray.text other → 9 ≤ other) ∧
    unclosed.scan ⟨.xml, []⟩ = .error (.unclosedElement scriptName 4) ∧ ∃ stop, OpensScript unclosed.text 4 stop := by
  intro stray unclosed
  constructor
  · have hScan : stray.scan ⟨.xml, []⟩ = .error (.unexpectedToken [Byte.less] 9) := by decide +kernel
    obtain ⟨-, hFirst, -⟩ := xml_error_points_at_fault stray [] _ (by decide +kernel) hScan
    exact ⟨hScan, (hFirst 9 rfl).1, (hFirst 9 rfl).2.2⟩
  · have hScan : unclosed.scan ⟨.xml, []⟩ = .error (.unclosedElement scriptName 4) := by decide +kernel
    obtain ⟨-, -, hUnclosed⟩ := xml_error_points_at_fault unclosed [] _ (by decide +kernel) hScan
    obtain ⟨-, stop, hOpens, -⟩ := hUnclosed scriptName 4 rfl
    exact ⟨hScan, stop, hOpens⟩

end ScriptLint.Document
