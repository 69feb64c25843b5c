import ScriptLint.Yaml.Cursor

/-!
Texts of whole lines under a header. The header tells how they are indented, unless their first line shows it, and what
becomes of line breaks at their end.
-/
namespace ScriptLint.Yaml.Block
set_option autoImplicit false

inductive Chomping where
  | strip
  | clip
  | keep
  deriving DecidableEq, Repr

structure Header where
  chomping : Chomping := .clip
  /-- By how many columns the text is indented, if the header says so. -/
  increment : Nat := 0

def chomping? (c : Char) : Option Chomping :=
  if c = '+' then some .keep else if c = '-' then some .strip else none

def header? (s : List Char) : Option (Header × Nat) :=
  let afterSign := (s.head?.bind chomping?).isSome
  let rest := if afterSign then s.drop 1 else s
  let digit := rest.head?.filter Char.isDigit
  if digit = some '0' then none
  else
    let increment := (digit.map fun c => c.toNat - 0x30).getD 0
    let sign := if afterSign then s.head? else if digit.isSome then (rest.drop 1).head? else none
    let chomping := sign.bind chomping?
    some ({ chomping := chomping.getD .clip, increment },
      (if digit.isSome then 1 else 0) + if chomping.isSome then 1 else 0)

/-- Passes empty lines and an indentation of up to `limit` columns: how many line breaks were passed, and the widest
indentation. -/
def indentAt (limit : Option Nat) (fuel breaks widest : Nat) (c : Cursor) : Nat × Nat × Cursor :=
  match fuel with
  | 0 => (breaks, widest, c)
  | fuel + 1 =>
    let spaces := (c.rest.takeWhile (· == ' ')).length
    let after := c.pass (match limit with
      | some limit => min spaces (limit - c.column)
      | none => spaces)
    if after.next?.any isBreak then indentAt limit fuel (breaks + 1) (max widest after.column) after.passBreak
    else (breaks, max widest after.column, after)

structure Lines where
  text : List Char
  ended : Bool
  extra : Nat
  cursor : Cursor

/-- Reads the lines indented by `indent` columns. `ended` and `wasBlank` tell of the line before, if there was one:
whether a line break ended it and whether a blank began it; `extra` empty lines have been passed since. Where neither line
begins with a blank, the line break between lines of a folded text is a space. -/
def linesAt (folded : Bool) (indent : Nat) (fuel : Nat) (ended wasBlank : Bool) (extra : Nat) (c : Cursor) : Lines :=
  match fuel with
  | 0 => ⟨[], ended, extra, c⟩
  | fuel + 1 =>
    if c.column ≠ indent ∨ c.rest.isEmpty ∨ c.isMarker '.' then ⟨[], ended, extra, c⟩
    else
      let isBlank := c.next?.any isBlank
      let empty := List.replicate extra '\n'
      let before :=
        if folded && ended && !wasBlank && !isBlank then (if extra = 0 then [' '] else empty)
        else (if ended then ['\n'] else []) ++ empty
      let line := c.rest.takeWhile fun d => !isBreak d
      let after := c.skip line.length
      if after.rest.isEmpty then ⟨before ++ line, false, 0, after⟩
      else
        let (breaks, _, next) := indentAt (some indent) (after.rest.length + 1) 0 0 after.passBreak
        let more := linesAt folded indent fuel true isBlank breaks next
        { more with text := before ++ line ++ more.text }

/-- The text whose header's first mark comes next, in a block indented by `indent` columns, and the place after it. A
folded text is indented even where no block is around it. -/
def textAt? (folded : Bool) (indent : Int) (c : Cursor) : Option (String × Cursor) := do
  let (header, width) ← header? (c.rest.drop 1)
  let headerEnd ← (c.skip (width + 1)).passTrailing?
  if !endsLine headerEnd.next? then none
  let start := if headerEnd.rest.isEmpty then headerEnd else headerEnd.passBreak
  if start.next? = some '\t' then none
  let given := if header.increment = 0 then 0 else header.increment + indent.toNat
  let (breaks, widest, first) :=
    indentAt (if given = 0 then none else some given) (start.rest.length + 1) 0 0 start
  let least := max (indent + 1).toNat (if folded then 1 else 0)
  let column := if given = 0 then max widest least else given
  if first.rest.isEmpty then
    let text :=
      match header.chomping with
      | .strip => []
      | .clip => if first.line = c.line then [] else ['\n']
      | .keep => if first.line = c.line then [] else List.replicate (max breaks 1) '\n'
    some (String.ofList text, first)
  else if first.column < column ∧ indent < first.column then none
  else
    let lines := linesAt folded column (first.rest.length + 1) false false breaks first
    let last := if header.chomping = .strip ∨ !lines.ended then [] else ['\n']
    let atEnd :=
      if header.chomping ≠ .strip ∧ lines.cursor.rest.isEmpty ∧ max column 1 ≤ lines.cursor.column then ['\n'] else []
    let kept := if header.chomping = .keep then List.replicate lines.extra '\n' else []
    some (String.ofList (lines.text ++ last ++ atEnd ++ kept), lines.cursor)

end ScriptLint.Yaml.Block
