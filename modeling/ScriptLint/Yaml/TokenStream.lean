import ScriptLint.Yaml.Block
import ScriptLint.Yaml.Plain
import ScriptLint.Yaml.Quoted
import ScriptLint.Yaml.Tag

/-!
The tokens of a YAML text, read one by one as they are needed, so that a fault in a text does not matter to who stops
reading before it. That something is a key shows only at the colon after it, so tokens wait in a queue as long as the mark
of a key may still have to be put before them.
-/
namespace ScriptLint.Yaml
set_option autoImplicit false

/-- A token that turns out to be a key if a colon follows. -/
structure PendingKey where
  number : Nat
  index : Nat
  line : Nat
  column : Nat
  /-- Whether nothing but a key can stand there. -/
  required : Bool

/-- How far a colon may be from the start of its key. -/
def keyReach : Nat := 1024

structure Level where
  indent : Int
  isBlock : Bool

def bracketLimit : Nat := 255

structure TokenStream where
  cursor : Cursor
  queue : List Token := []
  taken : Nat := 0
  keyAllowed : Bool := true
  /-- What may become a key, inside each pair of open brackets and outside them, the innermost first. -/
  keys : List (Option PendingKey) := [none]
  indent : Int := -1
  levels : List Level := []
  depth : Nat := 0
  /-- For each open bracket of a sequence, the innermost first, how many were open at the mapping without braces that has
  been started in it, if there is one. -/
  pairs : List (Option Nat) := []
  /-- Whether braces or the mark of a key have been met since such a mapping ended last. -/
  inBraces : Bool := false
  /-- The index after a text in quotes or after brackets, where a colon needs no blank after it. -/
  adjacentAt : Nat := 0
  /-- The line of the comment that a plain text outside brackets has just been cut off by. -/
  cutOff : Option Nat := none

namespace TokenStream

def ofText (text : List Char) : TokenStream := { cursor := { rest := text } }

def inFlow (s : TokenStream) : Bool := 0 < s.depth

def push (s : TokenStream) (token : Token) : TokenStream := { s with queue := s.queue ++ [token] }

def insert (s : TokenStream) (number : Nat) (token : Token) : TokenStream :=
  { s with queue := s.queue.take (number - s.taken) ++ token :: s.queue.drop (number - s.taken) }

def allowKey (s : TokenStream) (keyAllowed : Bool) : TokenStream := { s with keyAllowed }

def setKey (s : TokenStream) (key : Option PendingKey) : TokenStream := { s with keys := key :: s.keys.drop 1 }

def key? (s : TokenStream) : Option PendingKey := s.keys.head?.join

def atBlock (s : TokenStream) : Bool := s.levels.head?.any Level.isBlock

def saveKey (s : TokenStream) : TokenStream :=
  if s.keyAllowed then
    s.setKey
      (some
        { number := s.taken + s.queue.length, index := s.cursor.index, line := s.cursor.line, column := s.cursor.column
          required := !s.inFlow && s.indent == s.cursor.column && s.atBlock })
  else s

def dropKey? (s : TokenStream) : Option TokenStream :=
  if s.key?.any PendingKey.required then none else some (s.setKey none)

def isStale (s : TokenStream) (key : PendingKey) : Bool :=
  !s.inFlow && (key.line < s.cursor.line || key.index + keyReach < s.cursor.index)

/-- Gives up keys that a colon cannot reach any more: outside brackets, those on other lines or too far back. -/
def dropStale? (s : TokenStream) : Option TokenStream :=
  if s.keys.any fun key => key.any fun key => key.required && s.isStale key then none
  else some { s with keys := s.keys.map fun key => key.filter fun key => !s.isStale key }

def closeBlocks (column : Int) : List Level → TokenStream → TokenStream
  | [], s => { s with levels := [] }
  | level :: more, s =>
    if s.inFlow || s.indent ≤ column then { s with levels := level :: more }
    else
      let outer := { s with indent := level.indent }
      closeBlocks column more (if level.isBlock then outer.push .blockEnd else outer)

def closeLoose (s : TokenStream) : TokenStream :=
  match s.levels.takeWhile (fun level => !level.isBlock) |>.getLast? with
  | some level => { s with indent := level.indent, levels := s.levels.dropWhile fun level => !level.isBlock }
  | none => s

/-- Starts a block at a column that is indented further, by a token put before that with a number or, without one,
last. -/
def openBlock (s : TokenStream) (column : Nat) (number : Option Nat) (token : Token) : TokenStream :=
  if s.inFlow then s
  else
    let s : TokenStream :=
      match s.levels with
      | level :: more =>
        if s.indent ≤ column ∧ !level.isBlock then { s with indent := level.indent, levels := more } else s
      | [] => s
    if s.indent < column then
      let inner := { s with indent := column, levels := ⟨s.indent, true⟩ :: s.levels }
      match number with
      | some number => inner.insert number token
      | none => inner.push token
    else s

def openLoose (s : TokenStream) : TokenStream :=
  if !s.inFlow && s.atBlock then { s with indent := s.indent + 1, levels := ⟨s.indent, false⟩ :: s.levels } else s

/-- Passes white space and comments. In the indentation of a block a tab may stand only when nothing else is on its
line. -/
def skipSpace? (fuel : Nat) (s : TokenStream) : Option TokenStream :=
  match fuel with
  | 0 => none
  | fuel + 1 =>
    match s.cursor.next? with
    | none => some s
    | some c =>
      if c = '\t' ∧ !s.levels.isEmpty ∧ s.cursor.fresh ∧ s.cursor.column < s.indent then do
        let after ← s.cursor.passTrailing?
        if endsLine after.next? then skipSpace? fuel { s with cursor := after } else none
      else if isBlank c then skipSpace? fuel { s with cursor := s.cursor.pass 1 }
      else if isBreak c then
        skipSpace? fuel { s with cursor := s.cursor.passBreak, keyAllowed := s.keyAllowed || !s.inFlow }
      else if c = '#' then skipSpace? fuel { s with cursor := s.cursor.passComment }
      else some s

def finish? (s : TokenStream) : Option TokenStream :=
  if s.inFlow ∨ s.keys.any (fun key => key.any PendingKey.required) then none
  else
    let closed := closeBlocks (-1) s.levels { s with keys := s.keys.map fun _ => none }
    some ((closed.allowKey false).push .streamEnd)

def readMarker? (s : TokenStream) (token : Token) : Option TokenStream := do
  let closed ← (closeBlocks (-1) s.levels s).dropKey?
  some ({ closed with cursor := s.cursor.skip 3, keyAllowed := false }.push token)

def readDirective? (s : TokenStream) : Option TokenStream := do
  let closed ← (closeBlocks (-1) s.levels s).dropKey?
  let (token, cursor) ← directive? s.cursor
  some ({ closed with cursor, keyAllowed := false }.push token)

def openBracket? (s : TokenStream) (isSequence : Bool) : Option TokenStream := do
  let s := s.saveKey.openLoose
  if bracketLimit ≤ s.depth then none
  let cursor ← (s.cursor.skip 1).passTrailing?
  let inner := { s with depth := s.depth + 1, keys := none :: s.keys, cursor, keyAllowed := true }
  if isSequence then some ({ inner with pairs := none :: s.pairs }.push .flowSequenceStart)
  else some ({ inner with inBraces := true }.push .flowMappingStart)

def closePair (s : TokenStream) : TokenStream :=
  if s.pairs.head? = some (some s.depth) then
    { s with pairs := none :: s.pairs.drop 1, inBraces := false }.push .flowMappingEnd
  else s

def closeBracket? (s : TokenStream) (isSequence : Bool) : Option TokenStream := do
  if !s.inFlow then none
  let s ← s.dropKey?
  let s := if isSequence then { s.closePair with pairs := s.pairs.drop 1 } else s
  let cursor ← (s.cursor.skip 1).passTrailing?
  let outer := { s with depth := s.depth - 1, keys := s.keys.drop 1, cursor, keyAllowed := false }
  let outer := if outer.inFlow then { outer with adjacentAt := cursor.index } else outer
  some (outer.push (if isSequence then .flowSequenceEnd else .flowMappingEnd))

def readFlowEntry? (s : TokenStream) : Option TokenStream := do
  let s ← s.dropKey?
  let cursor ← (s.cursor.skip 1).passTrailing?
  some ({ s.closePair with cursor, keyAllowed := true }.push .flowEntry)

def readBlockEntry? (s : TokenStream) : Option TokenStream := do
  if s.inFlow ∨ !s.keyAllowed then none
  let entry := s.cursor.skip 1
  let s := s.openBlock s.cursor.column none .blockSequenceStart
  let cursor ← entry.passTrailing?
  if entry.blanks.contains '\t' ∧ cursor.next? = some '-' ∧ endsWord cursor.second? then none
  let s := if cursor.next?.any fun c => isBreak c || isFlowMark c then s.openLoose else s
  let s ← { s with cursor }.dropKey?
  some ((s.allowKey true).push .blockEntry)

def passToTab (fuel : Nat) (c : Cursor) : Cursor :=
  match fuel, c.next? with
  | 0, _ => c
  | _, none => c
  | fuel + 1, some d =>
    if d = ' ' then passToTab fuel (c.pass 1)
    else if isBreak d then passToTab fuel c.passBreak
    else if d = '#' then passToTab fuel c.passComment
    else c

/-- Passes the white space after the mark of a key, of which there must be some, and no tab. -/
def afterKeyMark? (c : Cursor) : Option Cursor :=
  let after := passToTab (c.rest.length + 1) c
  if after.index = c.index ∨ after.next? = some '\t' then none else some after

def readKeyMark? (s : TokenStream) : Option TokenStream := do
  if !s.inFlow ∧ !s.keyAllowed then none
  let s := s.openBlock s.cursor.column none .blockMappingStart
  let s ← s.dropKey?
  let cursor ← afterKeyMark? (s.cursor.skip 1)
  some ({ s with cursor, keyAllowed := !s.inFlow, inBraces := s.inBraces || s.inFlow }.push .key)

/-- Passes a colon. After a tab without a space, nothing may follow that could start a block. -/
def afterColon? (c : Cursor) : Option Cursor :=
  let after := c.skip 1
  if after.next? = some '\t' then
    match after.passTrailing? with
    | none => none
    | some next => if !after.blanks.contains ' ' ∧ next.next?.any isWordChar then none else some next
  else some after

/-- Reads the colon after a key. Inside brackets, where no braces are known of, it starts a mapping, whose key must stand
on the line of the colon. -/
def readColon? (s : TokenStream) : Option TokenStream := do
  let cursor ← afterColon? s.cursor
  let startsPair := !s.pairs.isEmpty && !s.inBraces
  let inner := if startsPair then { s with pairs := some s.depth :: s.pairs.drop 1 } else s
  match s.key? with
  | some key =>
    if startsPair ∧ key.line < s.cursor.line then none
    let marked := inner.insert key.number .key
    let marked := if startsPair then marked.insert key.number .flowMappingStart else marked
    let started := marked.openBlock key.column (some key.number) .blockMappingStart
    some (({ started.openLoose with cursor, keyAllowed := false }.setKey none).push .value)
  | none =>
    if !s.inFlow ∧ !s.keyAllowed then none
    let marked := if startsPair then inner.push .flowMappingStart else inner
    let started := marked.openBlock s.cursor.column none .blockMappingStart
    some ({ started.openLoose with cursor, keyAllowed := !s.inFlow }.push .value)

def readName? (s : TokenStream) (token : String → Token) : Option TokenStream :=
  let name := (s.cursor.rest.drop 1).takeWhile isAnchorChar
  if name.isEmpty then none
  else
    let s := s.saveKey
    some ({ s with cursor := s.cursor.skip (name.length + 1), keyAllowed := false }.push (token (String.ofList name)))

def readTag? (s : TokenStream) : Option TokenStream := do
  let s := s.saveKey
  let (token, length) ← tag? s.cursor.rest
  let cursor := s.cursor.skip length
  if endsWord cursor.next? || (s.inFlow && cursor.next?.any isFlowMark) then
    some ({ s with cursor, keyAllowed := false }.push token)
  else none

def readBlockText? (s : TokenStream) (folded : Bool) : Option TokenStream := do
  let s := s.saveKey.closeLoose
  let (text, cursor) ← Block.textAt? folded s.indent s.cursor
  some ({ s with cursor, keyAllowed := true }.push (.scalar false text))

def readQuoted? (s : TokenStream) (single : Bool) : Option TokenStream := do
  let s := s.saveKey
  let (text, cursor) ← Quoted.textAt? single s.inFlow s.indent s.cursor
  let s ← skipSpace? (cursor.rest.length + 1) { s with cursor, keyAllowed := false }
  some ({ s with adjacentAt := s.cursor.index }.push (.scalar false text))

def readPlain? (s : TokenStream) : Option TokenStream := do
  let s := s.saveKey.closeLoose
  let (text, cursor) ← Plain.textAt? s.inFlow (s.indent + 1) s.cursor
  let cutOff := if !s.inFlow && !cursor.fresh && cursor.next? == some '#' then some cursor.line else none
  some ({ s with cursor, keyAllowed := cursor.fresh, cutOff }.push (.scalar true text))

def isColon (s : TokenStream) : Bool :=
  endsWord s.cursor.second? ||
    (s.inFlow && (s.cursor.second?.any isFlowMark || s.cursor.index == s.adjacentAt))

def readAt? (s : TokenStream) (c : Char) : Option TokenStream :=
  let ends := endsWord s.cursor.second?
  if c = '[' then s.openBracket? true
  else if c = '\x7b' then s.openBracket? false
  else if c = ']' then s.closeBracket? true
  else if c = '\x7d' then s.closeBracket? false
  else if c = ',' then s.readFlowEntry?
  else if c = '-' ∧ ends then s.readBlockEntry?
  else if c = '?' ∧ ends then s.readKeyMark?
  else if c = ':' ∧ s.isColon then
    if s.cursor.index ≠ s.adjacentAt ∧ (s.cursor.second? = some '[' ∨ s.cursor.second? = some '\x7b') then none
    else s.readColon?
  else if c = '*' then s.readName? .alias
  else if c = '&' then s.readName? .anchor
  else if c = '!' then s.readTag?
  else if c = '|' ∧ !s.inFlow then s.readBlockText? false
  else if c = '>' ∧ !s.inFlow then s.readBlockText? true
  else if c = '\'' then s.readQuoted? true
  else if c = '"' then s.readQuoted? false
  else if c = '%' ∨ c = '@' ∨ c.toNat = 0x60 then none
  else s.readPlain?

/-- Whether what comes next would go on with the plain text that a comment on the line before cut off. -/
def continuesText (s : TokenStream) : Bool :=
  s.cutOff.any (· + 1 == s.cursor.line) && !s.inFlow && s.indent < s.cursor.column &&
    !(s.cursor.next? == some ':' && endsWord s.cursor.second?)

def step? (s : TokenStream) : Option TokenStream := do
  let s ← skipSpace? (s.cursor.rest.length + 1) s
  let s ← s.dropStale?
  let s := closeBlocks s.cursor.column s.levels s
  let c := s.cursor
  match c.next? with
  | none => s.finish?
  | some d =>
    if c.column = 0 ∧ d = '%' then s.readDirective?
    else if c.isMarker '-' then s.readMarker? .documentStart
    else if c.isMarker '.' then
      let s ← s.readMarker? .documentEnd
      let cursor ← s.cursor.passTrailing?
      if endsLine cursor.next? then some { s with cursor } else none
    else if c.column < s.indent ∧ (!s.inFlow ∨ (d ≠ ']' ∧ d ≠ '\x7d' ∧ d ≠ ',')) then none
    else if s.continuesText then none
    else readAt? { s with cutOff := none } d

/-- Reads on until it is known what the next token is. -/
def ready? (fuel : Nat) (s : TokenStream) : Option TokenStream :=
  match fuel with
  | 0 => none
  | fuel + 1 =>
    if s.queue.isEmpty then s.step?.bind (ready? fuel)
    else
      s.dropStale?.bind fun s =>
        if s.keys.any fun key => key.any fun key => key.number == s.taken then s.step?.bind (ready? fuel) else some s

def peek? (s : TokenStream) : Option (Token × TokenStream) :=
  match ready? (s.cursor.rest.length + 2) s with
  | none => none
  | some s => s.queue.head?.map (·, s)

def take (s : TokenStream) : TokenStream := { s with queue := s.queue.drop 1, taken := s.taken + 1 }

end TokenStream
end ScriptLint.Yaml
