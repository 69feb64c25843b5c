import ScriptLint.Text.Base64
import ScriptLint.Text.Utf8
import ScriptLint.Text.WhiteSpace
import ScriptLint.Yaml.Node
import ScriptLint.Yaml.Scalar

/-!
Reading YAML texts that hold one document. Keys are texts and occur once in a mapping, which can take over the entries of
others. What follows the document does not matter as long as it does not begin another one.
-/
namespace ScriptLint.Yaml
set_option autoImplicit false

namespace Node

def isNull : Node → Bool
  | .scalar _ isPlain text => isPlain && Scalar.isNull text.toList
  | _ => false

def text? (tag : Option TagKind) (text : String) : Option String :=
  match tag with
  | some .typed => none
  | some .binary =>
    ((Base64.decode? (text.toList.filter fun c => !WhiteSpace.isMember c)).filter Utf8.isValid).map Utf8.decode
  | _ => some text

/-- The text of a key. Nothing is no key, unless it is said to be a text. -/
def keyText? : Node → Option String
  | .scalar tag isPlain text =>
    if tag = some .null ∨ ((Node.scalar tag isPlain text).isNull ∧ tag ≠ some .string) then none else text? tag text
  | _ => none

def keyName : Node → Option (Option TagKind × String)
  | .scalar tag _ text => some (tag, text)
  | _ => none

def isMerge : Node → Bool
  | .scalar none true text => text == "<<"
  | _ => false

/-- The value of a scalar. Nothing is nothing whatever its tag; else only a plain one without a tag that settles its kind
can be anything but a text. -/
def scalarValue? (tag : Option TagKind) (isPlain : Bool) (text : String) : Option Value :=
  if tag = some .null ∨ (Node.scalar tag isPlain text).isNull then some .null
  else if isPlain ∧ tag ≠ some .typed ∧ tag ≠ some .binary then some (Scalar.resolve text)
  else (text? tag text).map .string

abbrev Entry := Node × Option Value

/-- What a node stands for: its value, and the entries that a mapping gets that takes it over. -/
structure Meaning where
  value : Option Value
  merged : Option (List Entry)

structure Collected where
  keys : List (Option (Option TagKind × String)) := []
  entries : List (String × Value) := []

/-- Puts entries into an object. A key that it has already is passed over if it may be repeated, and a fault otherwise. -/
def collect? (mayRepeat : Bool) (object : Collected) : List Entry → Option Collected
  | [] => some object
  | (key, value) :: more =>
    if object.keys.contains key.keyName then
      if mayRepeat then collect? mayRepeat object more else none
    else do
      let name ← key.keyText?
      let value ← value
      collect? mayRepeat ⟨key.keyName :: object.keys, Value.putEntry name value object.entries⟩ more

/-- The object of its own entries and those taken over, which give way to them and to each other. -/
def object? (own others : List Entry) : Option Value := do
  let object ← collect? false {} own
  let object ← collect? true object others
  some (.object object.entries)

mutual

def meaning : Node → Meaning
  | .scalar tag isPlain text =>
    ⟨scalarValue? tag isPlain text, if (Node.scalar tag isPlain text).isNull then some [] else none⟩
  | .sequence items =>
    let found := itemMeanings items
    ⟨found.1.map .array, found.2⟩
  | .mapping entries =>
    match entryMeanings entries with
    | none => ⟨none, none⟩
    | some (own, others) => ⟨object? own others, some (own ++ others)⟩

def itemMeanings : List Node → Option (List Value) × Option (List Entry)
  | [] => (some [], some [])
  | item :: more =>
    let first := meaning item
    let rest := itemMeanings more
    (first.value.bind fun value => rest.1.map (value :: ·),
      first.merged.bind fun entries => rest.2.map (· ++ entries))

/-- The entries of a mapping, and those that it takes over, the ones asked for later first. -/
def entryMeanings : List (Node × Node) → Option (List Entry × List Entry)
  | [] => some ([], [])
  | (key, node) :: more =>
    let found := meaning node
    match entryMeanings more with
    | none => none
    | some (own, others) =>
      if key.isMerge then found.merged.map fun entries => (own, others ++ entries)
      else some ((key, found.value) :: own, others)

end

def value? (node : Node) : Option Value := node.meaning.value

end Node

namespace NodeReader

def skipEnds (fuel : Nat) : Step Unit :=
  match fuel with
  | 0 => failure
  | fuel + 1 => do
    match ← peek with
    | .documentEnd =>
      take
      skipEnds fuel
    | _ => pure ()

def directives (fuel : Nat) (hasVersion : Bool) : Step Unit :=
  match fuel with
  | 0 => failure
  | fuel + 1 => do
    match ← peek with
    | .directive isVersion =>
      if hasVersion && isVersion then failure
      take
      directives fuel (hasVersion || isVersion)
    | .handle name start =>
      if ((← get).handles.lookup name).isSome then failure
      take
      modify fun s => { s with handles := (name, start) :: s.handles }
      directives fuel hasVersion
    | _ => pure ()

def isDirective : Token → Bool
  | .directive _ => true
  | .handle _ _ => true
  | _ => false

def endsDocument (token : Token) : Bool :=
  isDirective token || token == .documentStart || token == .documentEnd || token == .streamEnd

def documentMark (fuel : Nat) : Step Unit := do
  modify fun s => { s with handles := [] }
  directives fuel false
  match ← peek with
  | .documentStart => take
  | _ => failure

/-- Reads the first document. A stream without documents is a missing value. -/
def document (fuel : Nat) : Step Node := do
  skipEnds fuel
  let token ← peek
  if token = .streamEnd then missing
  else if isDirective token ∨ token = .documentStart then
    documentMark fuel
    if endsDocument (← peek) then missing else node fuel .block
  else node fuel .block

def documentEnd : Step Bool := do
  let token ← peek
  if token = .documentEnd then
    take
    pure true
  else if isDirective token then failure
  else pure false

/-- Looks for the beginning of another document. After a mark it needs none of its own. -/
def anotherDocument (fuel : Nat) (afterMark : Bool) : Step Unit := do
  skipEnds fuel
  let token ← peek
  if isDirective token ∨ token = .documentStart then documentMark fuel
  else if token = .streamEnd ∨ !afterMark then failure
  else pure ()

def hasManyAliases (s : NodeReader) : Bool := 100 ≤ s.aliasCount && 10 * s.anchorCount < s.aliasCount

def onlyDocument (fuel : Nat) : Step Node := do
  let found ← document fuel
  let afterMark ← documentEnd
  if hasManyAliases (← get) then failure
  match (anotherDocument fuel afterMark).run (← get) with
  | some _ => failure
  | none => pure found

end NodeReader

/-- The characters that count: a byte order mark at the start does not, and a null character is the end. -/
def content (text : String) : List Char :=
  let s := text.toList
  let s := if s.head? = some (Char.ofNat 0xFEFF) then s.drop 1 else s
  s.takeWhile (· != Char.ofNat 0)

def parse? (text : String) : Option Value :=
  let s := content text
  match (NodeReader.onlyDocument (8 * s.length + 16)).run { tokens := .ofText s } with
  | some (node, _) => node.value?
  | none => none

end ScriptLint.Yaml
