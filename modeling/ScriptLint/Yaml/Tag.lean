import ScriptLint.Number.Digits
import ScriptLint.Yaml.Cursor
import ScriptLint.Yaml.Token

/-!
Tags, anchors and directives, which stand before values and documents.
-/
namespace ScriptLint.Yaml
set_option autoImplicit false

/-- The characters of tags. A percent sign starts an escape. -/
def isTagChar (c : Char) : Bool :=
  isWordChar c || "#;/?:@&=+$,.!~*'()[]%".toList.contains c

def isSuffixChar (c : Char) : Bool := isTagChar c && !isFlowMark c && c != '!'

def byte? (a b : Char) : Option Nat :=
  if Digits.isIn 16 a && Digits.isIn 16 b then some (Digits.number 16 [a, b]) else none

def narrow? (byte : Nat) : Option Char := if byte < 0x80 then some (Char.ofNat byte) else none

/-- The character of two bytes, which is the number that they make up. The first of them says that there are two, and the
second that it is not the first; there are no characters of more bytes. -/
def wide? (high low : Nat) : Option Char :=
  if 0xC0 ≤ high ∧ high < 0xD8 ∧ 0x80 ≤ low ∧ low < 0xC0 then some (Char.ofNat (high * 256 + low)) else none

/-- The characters that percent signs and digits spell, and the rest as it is; nothing if an escape is broken. -/
def unescape? : List Char → Option (List Char)
  | [] => some []
  | '%' :: a :: b :: rest =>
    match (byte? a b).bind narrow?, rest with
    | some c, rest => (unescape? rest).map (c :: ·)
    | none, '%' :: c :: d :: rest => do
      let found ← wide? (← byte? a b) (← byte? c d)
      (unescape? rest).map (found :: ·)
    | none, _ => none
  | c :: rest => if c = '%' then none else (unescape? rest).map (c :: ·)

def uri? (s : List Char) : Option String := (unescape? s).map String.ofList

def tag? (s : List Char) : Option (Token × Nat) :=
  let body := s.drop 1
  match body with
  | '<' :: rest =>
    let uri := rest.takeWhile isTagChar
    if (rest.drop uri.length).head? = some '>' then
      (uri? uri).map fun text => (.tag "" text, uri.length + 3)
    else none
  | _ =>
    let name := body.takeWhile isWordChar
    if (body.drop name.length).head? = some '!' then
      let suffix := (body.drop (name.length + 1)).takeWhile isSuffixChar
      if suffix.isEmpty then none
      else
        (uri? suffix).map fun text =>
          (.tag (String.ofList ('!' :: name ++ ['!'])) text, name.length + suffix.length + 2)
    else
      let suffix := body.takeWhile isSuffixChar
      (uri? suffix).map fun text =>
        (if suffix.isEmpty then .tag "" "!" else .tag "!" text, suffix.length + 1)

def isNameChar (c : Char) : Bool := !isBlank c && !isBreak c && c != Char.ofNat 0xFEFF

def isAnchorChar (c : Char) : Bool := isNameChar c && !isFlowMark c

def version? (s : List Char) : Option Nat :=
  let major := s.takeWhile Char.isDigit
  let minor := (s.drop (major.length + 1)).takeWhile Char.isDigit
  if major.isEmpty ∨ 9 < major.length ∨ minor.isEmpty ∨ 9 < minor.length ∨ (s.drop major.length).head? ≠ some '.' then
    none
  else some (major.length + 1 + minor.length)

def handle? (s : List Char) : Option (Token × Nat) :=
  match s with
  | '!' :: rest =>
    let name := rest.takeWhile isWordChar
    let closed := (rest.drop name.length).head? == some '!'
    let after := rest.drop (name.length + if closed then 1 else 0)
    let blanks := after.takeWhile isBlank
    let start := (after.drop blanks.length).takeWhile isTagChar
    if (!closed && !name.isEmpty) || !start.head?.any (fun c => isSuffixChar c || c == '!') then none
    else
      (uri? start).map fun text =>
        (.handle (String.ofList ('!' :: name ++ if closed then ['!'] else [])) text,
          1 + name.length + (if closed then 1 else 0) + blanks.length + start.length)
  | _ => none

def directive? (c : Cursor) : Option (Token × Cursor) := do
  let start := c.skip 1
  let name := start.rest.takeWhile isNameChar
  let afterName := start.skip name.length
  if name.isEmpty ∨ !endsWord afterName.next? then none
  let body := afterName.pass afterName.blanks.length
  let (token, after) ←
    if name = "YAML".toList then
      (version? body.rest).map fun length => (Token.directive true, body.skip length)
    else if name = "TAG".toList then
      (handle? body.rest).map fun found => (found.1, body.skip found.2)
    else some (.directive false, afterName.pass (afterName.rest.takeWhile fun d => isBlank d || isNameChar d).length)
  let last ← after.passTrailing?
  if last.rest.isEmpty then some (token, last)
  else if endsLine last.next? then some (token, last.passBreak)
  else none

end ScriptLint.Yaml
