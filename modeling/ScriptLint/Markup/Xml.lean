import ScriptLint.Markup.Element

/-!
Script elements of XML. The text is read as a sequence of events, a run of text or one piece of markup each. Markup
that is not closed, a `<` that opens none and a malformed attribute are fatal. Inside a script everything that is not
text is masked, except what a CDATA section encloses. Children of a script are counted, not matched by name.

Two parts meet here. How the text falls into markup and a tag into attributes is the behaviour of a third-party event
reader: `isSpace`, `Markup`, `Failure` and all from `tagContent?` to `attributes`, the skipped `byteOrderMark`, and that a
closing tag without an opened element is malformed. The scanner's own are `isNameStart` and `startsStray`, its check for
a stray `<`, and from `OpenScript` to `step` what it does with each event.
-/
namespace ScriptLint.Xml
set_option autoImplicit false

def isSpace (b : UInt8) : Bool :=
  b == Byte.space || b == Byte.tab || b == Byte.lineFeed || b == Byte.carriageReturn

def isNameStart (b : UInt8) : Bool :=
  Byte.isLetter b || b == Byte.underscore || b == Byte.colon || Byte.isWide b

inductive Markup where
  | opening (content : Bytes)
  | empty (content : Bytes)
  | closing (name : Bytes)
  | cdata
  /-- A comment, a declaration or a processing instruction. -/
  | hidden
  deriving DecidableEq, Repr

inductive Failure where
  | unterminated (enclosure : Enclosure)
  /-- Markup outside the grammar, noticed that many bytes after the `<`. -/
  | malformed (fault : MarkupFault) (distance : Nat)
  deriving DecidableEq, Repr

def Failure.toScanError (offset : Nat) : Failure → ScanError
  | unterminated enclosure => .unterminated enclosure offset
  | malformed fault distance => .malformed fault (offset + distance)

/-- All before the first `>` outside quotes. `quote` is the quote that is open. -/
def tagContent? (quote : Option UInt8) : Bytes → Option Bytes
  | [] => none
  | b :: rest =>
    match quote with
    | some q => (tagContent? (if b = q then none else some q) rest).map (b :: ·)
    | none =>
      if b = Byte.greater then some []
      else
        (tagContent? (if b = Byte.doubleQuote ∨ b = Byte.singleQuote then some b else none) rest).map (b :: ·)

/-- All before the first `>` with `before` right ahead of it and at least `least` bytes in. `seen` holds the bytes
passed, the last one first. -/
def contentBefore? (before : Bytes) (least : Nat) (seen : Bytes) : Bytes → Option Bytes
  | [] => none
  | b :: rest =>
    if b = Byte.greater ∧ before.reverse.isPrefixOf seen ∧ least ≤ seen.length then some seen.reverse
    else contentBefore? before least (b :: seen) rest

/-- All before the `>` that balances, where every `<` asks for one more. -/
def balancedContent? (depth : Nat) : Bytes → Option Bytes
  | [] => none
  | b :: rest =>
    if b = Byte.greater then
      match depth with
      | 0 => some []
      | depth + 1 => (balancedContent? depth rest).map (b :: ·)
    else (balancedContent? (if b = Byte.less then depth + 1 else depth) rest).map (b :: ·)

/-- The name of a closing tag without the white space after it. A name of white space only stays as it is. -/
def trimEnd (s : Bytes) : Bytes := if s.all isSpace then s else (s.reverse.dropWhile isSpace).reverse

def cdataMark : Bytes := Bytes.ofAscii ['!', '[', 'C', 'D', 'A', 'T', 'A', '[']

def commentMark : Bytes := [Byte.bang, Byte.dash, Byte.dash]

def doctypeMark : Bytes := Bytes.ofAscii ['!', 'd', 'o', 'c', 't', 'y', 'p', 'e']

def declarationAt (s : Bytes) : Except Failure (Markup × Bytes) :=
  match s.drop 1 with
  | [] => .error (.malformed .unknown 0)
  | b :: _ =>
    if b = Byte.bracketOpen then
      match contentBefore? [Byte.bracketClose, Byte.bracketClose] 0 [] s with
      | some content =>
        if cdataMark.isPrefixOf content then .ok (.cdata, content) else .error (.unterminated .cdata)
      | none => .error (.unterminated .cdata)
    else if b = Byte.dash then
      match contentBefore? [Byte.dash, Byte.dash] 5 [] s with
      | some content =>
        if commentMark.isPrefixOf content then .ok (.hidden, content) else .error (.unterminated .comment)
      | none => .error (.unterminated .comment)
    else if Byte.toLower b = 0x64 then
      match balancedContent? 0 s with
      | some content =>
        if doctypeMark.isPrefixOf (Bytes.toLower content) then
          if (content.drop doctypeMark.length).all isSpace then
            .error (.malformed .namelessDoctype (content.length + 1))
          else .ok (.hidden, content)
        else .error (.unterminated .declaration)
      | none => .error (.unterminated .declaration)
    else .error (.malformed .unknown 0)

def markupAt (s : Bytes) : Except Failure (Markup × Bytes) :=
  match s with
  | [] => .error (.unterminated .tag)
  | b :: _ =>
    if b = Byte.bang then declarationAt s
    else if b = Byte.question then
      match contentBefore? [Byte.question] 0 [] s with
      | some content => if content.length = 1 then .error (.unterminated .instruction) else .ok (.hidden, content)
      | none => .error (.unterminated .instruction)
    else
      match tagContent? none s with
      | none => .error (.unterminated .tag)
      | some content =>
        if b = Byte.slash then .ok (.closing (trimEnd (content.drop 1)), content)
        else if content.getLast? = some Byte.slash then .ok (.empty content.dropLast, content)
        else .ok (.opening content, content)

def tagName (content : Bytes) : Bytes := content.takeWhile fun b => !isSpace b

def isKeyByte (b : UInt8) : Bool := b != Byte.equals && !isSpace b

def valueAt (position : Nat) (s : Bytes) : Except AttributeFault (Bytes × Bytes) :=
  match s.dropWhile isSpace with
  | [] => .error (.valueExpected (position + s.length))
  | q :: rest =>
    if q = Byte.doubleQuote ∨ q = Byte.singleQuote then
      match Bytes.splitAt? q rest with
      | some found => .ok found
      | none => .error (.quoteExpected (position + s.length) q)
    else .error (.unquoted (position + (s.length - (rest.length + 1))))

/-- The attribute whose key begins with byte `b` at `position`, and what follows it. `seen` holds the earlier keys with
their positions. -/
def attributeAt (seen : List (Bytes × Nat)) (position : Nat) (b : UInt8) (rest : Bytes) :
    Except AttributeFault (Attribute × Bytes) :=
  let key := b :: rest.takeWhile isKeyByte
  let stop := position + 1 + rest.length
  match (rest.dropWhile isKeyByte).dropWhile isSpace with
  | [] => .error (.equalsExpected stop)
  | c :: after =>
    if c = Byte.equals then
      match seen.find? (·.1 == key) with
      | some previous => .error (.duplicated position previous.2)
      | none =>
        match valueAt (stop - after.length) after with
        | .ok (value, next) => .ok (⟨key, some value⟩, next)
        | .error fault => .error fault
    else .error (.equalsExpected (stop - (after.length + 1)))

theorem valueAt_length {position : Nat} {s value after : Bytes} (h : valueAt position s = .ok (value, after)) :
    after.length ≤ s.length := by
  have hSpace := Bytes.length_dropWhile_le isSpace s
  simp only [valueAt] at h
  split at h
  · cases h
  · rename_i q rest hRest
    rw [hRest, List.length_cons] at hSpace
    split at h
    · split at h
      · rename_i found hFound
        cases h
        rw [Bytes.splitAt?_eq_some hFound] at hSpace
        simp only [List.length_append, List.length_cons] at hSpace
        omega
      · cases h
    · cases h

theorem attributeAt_length {seen : List (Bytes × Nat)} {position : Nat} {b : UInt8} {rest after : Bytes}
    {attr : Attribute} (h : attributeAt seen position b rest = .ok (attr, after)) : after.length ≤ rest.length := by
  have hKey := Bytes.length_dropWhile_le isKeyByte rest
  have hSpace := Bytes.length_dropWhile_le isSpace (rest.dropWhile isKeyByte)
  simp only [attributeAt] at h
  split at h
  · cases h
  · rename_i c next hNext
    rw [hNext, List.length_cons] at hSpace
    split at h
    · split at h
      · cases h
      · split at h
        · rename_i hValue
          cases h
          have := valueAt_length hValue
          omega
        · cases h
    · cases h

def attributesFrom (seen : List (Bytes × Nat)) (position : Nat) (s : Bytes) :
    Except AttributeFault (List Attribute) :=
  match _hs : s.dropWhile isSpace with
  | [] => .ok []
  | b :: rest =>
    let start := position + (s.length - (rest.length + 1))
    match _ha : attributeAt seen start b rest with
    | .error fault => .error fault
    | .ok (attr, after) =>
      match attributesFrom (seen ++ [(attr.name, start)]) (position + (s.length - after.length)) after with
      | .error fault => .error fault
      | .ok more => .ok (attr :: more)
termination_by s.length
decreasing_by
  have hSpace := Bytes.length_dropWhile_le isSpace s
  rw [_hs, List.length_cons] at hSpace
  have hAfter := attributeAt_length _ha
  omega

def attributes (content : Bytes) : Except AttributeFault (List Attribute) :=
  attributesFrom [] (tagName content).length (content.drop (tagName content).length)

structure OpenScript where
  tagStart : Nat
  contentStart : Nat
  attributes : List Attribute
  depth : Nat
  masks : List OffsetRange
  deriving DecidableEq, Repr

def OpenScript.mask (script : OpenScript) (start stop : Nat) : OpenScript :=
  { script with masks := script.masks ++ [⟨start, stop⟩] }

def scriptName : Bytes := Bytes.ofAscii ['s', 'c', 'r', 'i', 'p', 't']

structure State where
  opened : Nat
  script : Option OpenScript
  deriving DecidableEq, Repr

def close (start stop : Nat) (name : Bytes) (state : State) : Except ScanError (State × Option Element) :=
  match state.opened with
  | 0 => .error (.malformed (.unmatchedClose name) start)
  | opened + 1 =>
    match state.script with
    | none => .ok (⟨opened, none⟩, none)
    | some script =>
      match script.depth with
      | depth + 1 => .ok (⟨opened, some ({ script with depth := depth }.mask start stop)⟩, none)
      | 0 =>
        if name = scriptName then
          .ok (⟨opened, none⟩, some ⟨script.tagStart, ⟨script.contentStart, start⟩, script.attributes, script.masks⟩)
        else .error (.unexpectedToken ([Byte.less, Byte.slash] ++ name ++ [Byte.greater]) start)

def step (start stop : Nat) (markup : Markup) (state : State) : Except ScanError (State × Option Element) :=
  match markup with
  | .opening content =>
    match attributes content with
    | .error fault => .error (.invalidAttribute fault start)
    | .ok attributes =>
      match state.script with
      | some script =>
        .ok (⟨state.opened + 1, some ({ script with depth := script.depth + 1 }.mask start stop)⟩, none)
      | none =>
        if tagName content = scriptName then .ok (⟨state.opened + 1, some ⟨start, stop, attributes, 0, []⟩⟩, none)
        else .ok (⟨state.opened + 1, none⟩, none)
  | .empty content =>
    match attributes content with
    | .error fault => .error (.invalidAttribute fault start)
    | .ok _ => .ok (⟨state.opened, state.script.map (·.mask start stop)⟩, none)
  | .closing name => close start stop name state
  | .cdata =>
    .ok (⟨state.opened, state.script.map fun script => (script.mask start (start + 9)).mask (stop - 3) stop⟩, none)
  | .hidden => .ok (⟨state.opened, state.script.map (·.mask start stop)⟩, none)

def startsStray (s : Bytes) : Bool :=
  match s with
  | [] => false
  | b :: rest =>
    b == Byte.less &&
      match rest with
      | [] => true
      | c :: _ => !(isNameStart c || c == Byte.slash || c == Byte.bang || c == Byte.question)

/-- The script elements of what is left to read. `text` is what offsets refer to, and `offset` counts the bytes read. -/
def elementsFrom (text : Bytes) (offset : Nat) (state : State) (rest : Bytes) : Except ScanError (List Element) :=
  if startsStray (text.drop offset) then .error (.unexpectedToken [Byte.less] offset)
  else
    match rest with
    | [] =>
      match state.script with
      | some script => .error (.unclosedElement scriptName script.tagStart)
      | none => .ok []
    | b :: after =>
      if b = Byte.less then
        match markupAt after with
        | .error failure => .error (failure.toScanError offset)
        | .ok (markup, content) =>
          match step offset (offset + content.length + 2) markup state with
          | .error error => .error error
          | .ok (next, found) =>
            match elementsFrom text (offset + content.length + 2) next (after.drop (content.length + 1)) with
            | .error error => .error error
            | .ok more => .ok (found.toList ++ more)
      else
        let length := (after.takeWhile (· != Byte.less)).length
        elementsFrom text (offset + 1 + length) state (after.drop length)
termination_by rest.length
decreasing_by
  all_goals simp only [List.length_drop, List.length_cons]; omega

def byteOrderMark : Bytes := [0xEF, 0xBB, 0xBF]

/-- The script elements of a text. A byte order mark at its start is neither read nor counted, so offsets into such a
text are three bytes short. -/
def elements (text : Bytes) : Except ScanError (List Element) :=
  elementsFrom text 0 ⟨0, none⟩ (if byteOrderMark.isPrefixOf text then text.drop 3 else text)

end ScriptLint.Xml
