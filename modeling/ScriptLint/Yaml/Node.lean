import ScriptLint.Yaml.TokenStream

/-!
The values of a YAML document before their kinds are known. An alias stands for the value with its anchor, which must be
complete by then.
-/
namespace ScriptLint.Yaml
set_option autoImplicit false

inductive TagKind where
  | null
  | string
  | binary
  | typed
  /-- Nothing, in so many words. -/
  | unspecific
  | other
  deriving DecidableEq, Repr

inductive Node where
  | scalar (tag : Option TagKind) (isPlain : Bool) (text : String)
  | sequence (items : List Node)
  | mapping (entries : List (Node × Node))

/-- A value with an anchor: an empty text, in quotes or not, counts as left out. -/
def Node.orMissing : Node → Node
  | .scalar tag isPlain text => .scalar tag (isPlain || text.isEmpty) text
  | node => node

structure NodeReader where
  tokens : TokenStream
  /-- The values with anchors and their sizes; those that are not complete have none yet. -/
  anchors : List (String × Option (Node × Nat)) := []
  handles : List (String × String) := []
  anchorCount : Nat := 0
  aliasCount : Nat := 0
  /-- The size of all that has been read: one for each scalar, two for each collection, and for each alias the size of
  what it stands for. -/
  size : Nat := 0
  aliasedSize : Nat := 0
  depth : Nat := 0

namespace NodeReader

abbrev Step := StateT NodeReader Option

def peek : Step Token := do
  let s ← get
  match s.tokens.peek? with
  | none => failure
  | some (token, tokens) =>
    set { s with tokens }
    pure token

def take : Step Unit := modify fun s => { s with tokens := s.tokens.take }

def setAnchor (name : String) (node : Option (Node × Nat)) : Step Unit :=
  modify fun s => { s with anchors := (name, node) :: s.anchors }

def countScalar : Step Unit := modify fun s => { s with size := s.size + 1 }

def coreTags : String := "tag:yaml.org,2002:"

def handleStart? (handles : List (String × String)) (handle : String) : Option String :=
  match handles.lookup handle with
  | some start => some start
  | none =>
    if handle = "!!" then some coreTags
    else if handle = "!" ∨ handle = "" then some handle
    else none

def namedKind (name : String) : TagKind :=
  if name = "null" then .null
  else if name = "str" then .string
  else if name = "binary" then .binary
  else if ["int", "float", "bool", "seq", "map", "timestamp", "time"].contains name then .typed
  else if name = "" then .unspecific
  else .other

/-- What a tag tells, given what its handle stands for and the rest of it. Names of the document's own are taken for the
common ones, with an exclamation mark more or without. -/
def tagKind (start suffix : String) : TagKind :=
  if start = coreTags then namedKind suffix
  else if start = "" ∨ start = "!" then namedKind (if suffix.startsWith "!" then (suffix.drop 1).toString else suffix)
  else .other

def readTag (handle suffix : String) : Step TagKind := do
  match handleStart? (← get).handles handle with
  | none => failure
  | some start => pure (tagKind start suffix)

def tag? : Step (Option TagKind) := do
  match ← peek with
  | .tag handle suffix =>
    take
    some <$> readTag handle suffix
  | _ => pure none

def anchor? : Step (Option String) := do
  match ← peek with
  | .anchor name =>
    take
    setAnchor name none
    modify fun s => { s with anchorCount := s.anchorCount + 1 }
    pure (some name)
  | _ => pure none

def properties : Step (Option String × Option TagKind) := do
  match ← anchor? with
  | some name => pure (some name, ← tag?)
  | none =>
    match ← tag? with
    | some tag => pure (← anchor?, some tag)
    | none => pure (none, none)

def aliasedLimit : Nat := 1000000

def aliased (name : String) : Step Node := do
  let s ← get
  match s.anchors.lookup name with
  | some (some (node, size)) =>
    if aliasedLimit < s.aliasedSize + size then failure
    set { s with
      aliasCount := s.aliasCount + 1, aliasedSize := s.aliasedSize + size, size := s.size + size }
    pure node
  | _ => failure

/-- The places of values. Some may start a block there, and some a sequence that is not indented. -/
inductive Place where
  | flow
  | block
  | blockMapping
  deriving DecidableEq, Repr

def missingIf (mayMiss : Bool) (tag : Option TagKind) : Step Node :=
  if mayMiss then do
    countScalar
    pure (.scalar tag true "")
  else failure

def missing : Step Node := missingIf true none

def depthLimit : Nat := 2000

def collection {α : Type} (read : Step α) : Step α := do
  if depthLimit ≤ (← get).depth then failure
  modify fun s => { s with depth := s.depth + 1, size := s.size + 2 }
  let found ← read
  modify fun s => { s with depth := s.depth - 1 }
  pure found

/-- Takes the comma before all but the first item of a collection that has not come to its end: the token after it. -/
def comma (first : Bool) (closing : Token) : Step Token := do
  let token ← peek
  if first ∨ token = closing then pure token
  else if token = .flowEntry then do
    take
    peek
  else failure

mutual

def node (fuel : Nat) (place : Place) : Step Node :=
  match fuel with
  | 0 => failure
  | fuel + 1 => do
    match ← peek with
    | .alias name =>
      take
      aliased name
    | _ =>
      let before := (← get).size
      let (anchor, tag) ← properties
      let found ← content fuel place (anchor.isSome || tag.isSome) tag
      match anchor with
      | some name =>
        let found := found.orMissing
        setAnchor name (some (found, (← get).size - before))
        pure found
      | none => pure found

/-- A value after its anchor and its tag. It may be missing only if it has one of them. -/
def content (fuel : Nat) (place : Place) (mayMiss : Bool) (tag : Option TagKind) : Step Node :=
  match fuel with
  | 0 => failure
  | fuel + 1 => do
    match ← peek with
    | .scalar isPlain text =>
      take
      countScalar
      pure (.scalar tag isPlain text)
    | .flowSequenceStart =>
      take
      collection (Node.sequence <$> flowItems fuel true)
    | .flowMappingStart =>
      take
      collection (Node.mapping <$> flowEntries fuel true)
    | .blockEntry =>
      if place = .blockMapping then collection (Node.sequence <$> looseItems fuel)
      else missingIf mayMiss tag
    | .blockSequenceStart =>
      if place = .flow then missingIf mayMiss tag
      else do
        take
        collection (Node.sequence <$> blockItems fuel)
    | .blockMappingStart =>
      if place = .flow then missingIf mayMiss tag
      else do
        take
        collection (Node.mapping <$> blockEntries fuel)
    | _ => missingIf mayMiss tag

def blockItems (fuel : Nat) : Step (List Node) :=
  match fuel with
  | 0 => failure
  | fuel + 1 => do
    match ← peek with
    | .blockEnd =>
      take
      pure []
    | .blockEntry =>
      take
      let item ←
        match ← peek with
        | .blockEntry | .blockEnd => missing
        | _ => node fuel .block
      pure (item :: (← blockItems fuel))
    | _ => failure

def looseItems (fuel : Nat) : Step (List Node) :=
  match fuel with
  | 0 => failure
  | fuel + 1 => do
    match ← peek with
    | .blockEntry =>
      take
      let item ←
        match ← peek with
        | .blockEntry | .key | .value | .blockEnd => missing
        | _ => node fuel .block
      pure (item :: (← looseItems fuel))
    | _ => pure []

def blockEntries (fuel : Nat) : Step (List (Node × Node)) :=
  match fuel with
  | 0 => failure
  | fuel + 1 => do
    match ← peek with
    | .blockEnd =>
      take
      pure []
    | .key =>
      take
      let key ← blockPart fuel
      let value ← blockValue fuel
      pure ((key, value) :: (← blockEntries fuel))
    | .value =>
      let key ← missing
      let value ← blockValue fuel
      pure ((key, value) :: (← blockEntries fuel))
    | _ => failure

def blockPart (fuel : Nat) : Step Node :=
  match fuel with
  | 0 => failure
  | fuel + 1 => do
    match ← peek with
    | .key | .value | .blockEnd => missing
    | _ => node fuel .blockMapping

def blockValue (fuel : Nat) : Step Node :=
  match fuel with
  | 0 => failure
  | fuel + 1 => do
    match ← peek with
    | .value =>
      take
      blockPart fuel
    | _ => missing

/-- The items of a sequence up to its closing bracket. Between two of them there is a comma; an item that is a key is a
mapping of one entry. -/
def flowItems (fuel : Nat) (first : Bool) : Step (List Node) :=
  match fuel with
  | 0 => failure
  | fuel + 1 => do
    let afterComma ← comma first .flowSequenceEnd
    match afterComma with
    | .flowSequenceEnd =>
      take
      pure []
    | .key =>
      take
      let pair ← collection do
        let key ← flowPart fuel
        let value ← flowValue fuel
        pure (Node.mapping [(key, value)])
      pure (pair :: (← flowItems fuel false))
    | _ =>
      let item ← node fuel .flow
      pure (item :: (← flowItems fuel false))

def flowEntries (fuel : Nat) (first : Bool) : Step (List (Node × Node)) :=
  match fuel with
  | 0 => failure
  | fuel + 1 => do
    let afterComma ← comma first .flowMappingEnd
    match afterComma with
    | .flowMappingEnd =>
      take
      pure []
    | .key =>
      take
      let key ← flowPart fuel
      let value ← flowValue fuel
      pure ((key, value) :: (← flowEntries fuel false))
    | .value =>
      let key ← missing
      let value ← flowValue fuel
      pure ((key, value) :: (← flowEntries fuel false))
    | _ =>
      let key ← node fuel .flow
      let value ← missing
      pure ((key, value) :: (← flowEntries fuel false))

def flowPart (fuel : Nat) : Step Node :=
  match fuel with
  | 0 => failure
  | fuel + 1 => do
    match ← peek with
    | .value | .flowEntry | .flowMappingEnd | .flowSequenceEnd => missing
    | _ => node fuel .flow

def flowValue (fuel : Nat) : Step Node :=
  match fuel with
  | 0 => failure
  | fuel + 1 => do
    match ← peek with
    | .value =>
      take
      flowPart fuel
    | _ => missing

end

end NodeReader
end ScriptLint.Yaml
