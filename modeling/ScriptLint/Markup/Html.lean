import ScriptLint.Markup.Element

/-!
Script elements of HTML. Nothing in HTML is fatal: a `<` that opens no markup is text, the content of `script` and
`style` runs to the first closing tag of that name, and what is not closed runs to the end of the text.
-/
namespace ScriptLint.Html
set_option autoImplicit false

def isSpace (b : UInt8) : Bool :=
  b == Byte.space || b == Byte.tab || b == Byte.lineFeed || b == Byte.carriageReturn || b == Byte.formFeed

def isNameStart (b : UInt8) : Bool := Byte.isLetter b || b == Byte.underscore || Byte.isWide b

def isNameByte (b : UInt8) : Bool := !isSpace b && b != Byte.slash && b != Byte.greater && b != Byte.less

def isAttributeByte (b : UInt8) : Bool := isNameByte b && b != Byte.equals

def isUnquotedByte (b : UInt8) : Bool := !isSpace b && b != Byte.greater

def startsName (s : Bytes) : Bool :=
  match s with
  | [] => false
  | b :: _ => isNameStart b

def value? (s : Bytes) : Option (Bytes × Bytes) :=
  match s with
  | [] => none
  | b :: rest =>
    if b = Byte.doubleQuote ∨ b = Byte.singleQuote then Bytes.splitAt? b rest
    else some (s.takeWhile isUnquotedByte, s.dropWhile isUnquotedByte)

/-- The attribute that begins with byte `b`, which is taken whatever it is, and what follows. -/
def attribute? (b : UInt8) (rest : Bytes) : Option (Attribute × Bytes) :=
  let tail := if isAttributeByte b then rest.takeWhile isAttributeByte else []
  match (rest.drop tail.length).dropWhile isSpace with
  | [] => some (⟨b :: tail, none⟩, [])
  | c :: after =>
    if c = Byte.equals then
      (value? (after.dropWhile isSpace)).map fun found => (⟨b :: tail, some found.1⟩, found.2)
    else some (⟨b :: tail, none⟩, c :: after)

theorem value?_length {s value after : Bytes} (h : value? s = some (value, after)) : after.length ≤ s.length := by
  cases s with
  | nil => simp [value?] at h
  | cons b rest =>
    simp only [value?] at h
    split at h
    · rw [Bytes.splitAt?_eq_some h]
      simp only [List.length_cons, List.length_append]
      omega
    · simp only [Option.some.injEq, Prod.mk.injEq] at h
      rw [← h.2]
      exact Bytes.length_dropWhile_le _ _

theorem attribute?_length {b : UInt8} {rest after : Bytes} {attr : Attribute}
    (h : attribute? b rest = some (attr, after)) : after.length ≤ rest.length := by
  simp only [attribute?] at h
  generalize hTail : (if isAttributeByte b then rest.takeWhile isAttributeByte else []) = tail at h
  have hDrop := Bytes.length_dropWhile_le isSpace (rest.drop tail.length)
  simp only [List.length_drop] at hDrop
  split at h
  · simp only [Option.some.injEq, Prod.mk.injEq] at h
    simp [← h.2]
  · rename_i c next hNext
    rw [hNext, List.length_cons] at hDrop
    split at h
    · obtain ⟨found, hFound, hEq⟩ := Option.map_eq_some_iff.mp h
      simp only [Prod.mk.injEq] at hEq
      have hValue : found.2.length ≤ (next.dropWhile isSpace).length := value?_length hFound
      have hSpace := Bytes.length_dropWhile_le isSpace next
      rw [← hEq.2]
      omega
    · simp only [Option.some.injEq, Prod.mk.injEq] at h
      rw [← h.2, List.length_cons]
      omega

def attributes? (s : Bytes) : Option (List Attribute × Bytes) :=
  match _hs : s.dropWhile isSpace with
  | [] => none
  | b :: rest =>
    if b = Byte.greater then some ([], rest)
    else if b = Byte.slash ∨ b = Byte.equals then attributes? rest
    else
      match _ha : attribute? b rest with
      | none => none
      | some (attr, after) => (attributes? after).map fun found => (attr :: found.1, found.2)
termination_by s.length
decreasing_by
  all_goals
    have hLength := Bytes.length_dropWhile_le isSpace s
    rw [_hs, List.length_cons] at hLength
  · omega
  · have hAfter := attribute?_length _ha
    omega

/-- How much of a declaration follows its `<!`; brackets hide a `>`. -/
def declarationLength (depth : Nat) : Bytes → Nat
  | [] => 0
  | b :: rest =>
    if b = Byte.bracketOpen then declarationLength (depth + 1) rest + 1
    else if b = Byte.bracketClose then declarationLength (depth - 1) rest + 1
    else if b = Byte.greater ∧ depth = 0 then 1
    else declarationLength depth rest + 1

def closes (name : Bytes) : Bytes → Bool
  | a :: b :: rest =>
    a == Byte.less && b == Byte.slash && Bytes.eqIgnoreCase (rest.take name.length) name &&
      match rest.drop name.length with
      | [] => true
      | c :: _ => isSpace c || c == Byte.slash || c == Byte.greater
  | _ => false

/-- How much text comes before the first closing tag of that name; all of it when there is none. -/
def contentLength (name : Bytes) : Bytes → Nat
  | [] => 0
  | b :: rest => if closes name (b :: rest) then 0 else contentLength name rest + 1

def closingLength (name : Bytes) : Bytes → Nat
  | [] => 0
  | rest => 2 + name.length + Bytes.lengthThrough [Byte.greater] (rest.drop (2 + name.length))

def scriptName : Bytes := Bytes.ofAscii ['s', 'c', 'r', 'i', 'p', 't']

def styleName : Bytes := Bytes.ofAscii ['s', 't', 'y', 'l', 'e']

/-- What a `<` begins. All lengths leave out that `<`. -/
inductive Construct where
  | plain (length : Nat)
  /-- A script element: its tag, its content, and all of it with the closing tag. -/
  | script (attributes : List Attribute) (tagLength contentLength length : Nat)
  deriving DecidableEq, Repr

def Construct.length : Construct → Nat
  | plain length => length
  | script _ _ _ length => length

def elementAt (rest : Bytes) : Construct :=
  let name := rest.takeWhile isNameByte
  match attributes? (rest.drop name.length) with
  | none => .plain rest.length
  | some (attributes, after) =>
    let tagLength := rest.length - after.length
    if Bytes.eqIgnoreCase name scriptName then
      let length := contentLength scriptName after
      .script attributes tagLength length (tagLength + length + closingLength scriptName (after.drop length))
    else if Bytes.eqIgnoreCase name styleName then
      let length := contentLength styleName after
      .plain (tagLength + length + closingLength styleName (after.drop length))
    else .plain tagLength

def constructAt (rest : Bytes) : Construct :=
  match rest with
  | [] => .plain 0
  | b :: after =>
    if [Byte.bang, Byte.dash, Byte.dash].isPrefixOf rest then
      .plain (3 + Bytes.lengthThrough [Byte.dash, Byte.dash, Byte.greater] (rest.drop 3))
    else if b = Byte.bang then .plain (1 + declarationLength 0 after)
    else if b = Byte.question then .plain (1 + Bytes.lengthThrough [Byte.greater] after)
    else if b = Byte.slash then
      if startsName after then
        let name := after.takeWhile isNameByte
        .plain (1 + name.length + Bytes.lengthThrough [Byte.greater] (after.drop name.length))
      else .plain 0
    else if isNameStart b then elementAt rest
    else .plain 0

def elementsFrom (offset : Nat) : Bytes → List Element
  | [] => []
  | b :: rest =>
    if b = Byte.less then
      match constructAt rest with
      | .plain length => elementsFrom (offset + 1 + length) (rest.drop length)
      | .script attributes tagLength contentLength length =>
        ⟨offset, ⟨offset + 1 + tagLength, offset + 1 + tagLength + contentLength⟩, attributes, []⟩ ::
          elementsFrom (offset + 1 + length) (rest.drop length)
    else elementsFrom (offset + 1) rest
termination_by s => s.length
decreasing_by
  all_goals simp only [List.length_drop, List.length_cons]; omega

def elements (text : Bytes) : List Element := elementsFrom 0 text

end ScriptLint.Html
