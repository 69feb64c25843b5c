import ScriptLint.Number.Digits
import ScriptLint.Yaml.Cursor

/-!
Texts in single or double quotes. Within single quotes a quote is written twice; within double quotes a backslash starts
an escape.
-/
namespace ScriptLint.Yaml.Quoted
set_option autoImplicit false

def shortEscape? (c : Char) : Option Char :=
  if c = '0' then some (Char.ofNat 0)
  else if c = 'a' then some (Char.ofNat 0x07)
  else if c = 'b' then some (Char.ofNat 0x08)
  else if c = 't' ∨ c = '\t' then some '\t'
  else if c = 'n' then some '\n'
  else if c = 'v' then some (Char.ofNat 0x0B)
  else if c = 'f' then some (Char.ofNat 0x0C)
  else if c = 'r' then some '\r'
  else if c = 'e' then some (Char.ofNat 0x1B)
  else if c = ' ' ∨ c = '"' ∨ c = '/' ∨ c = '\\' then some c
  else if c = 'N' then some (Char.ofNat 0x85)
  else if c = '_' then some (Char.ofNat 0xA0)
  else if c = 'L' then some (Char.ofNat 0x2028)
  else if c = 'P' then some (Char.ofNat 0x2029)
  else none

def escapeWidth (c : Char) : Nat := if c = 'x' then 2 else if c = 'u' then 4 else if c = 'U' then 8 else 0

def escape? (s : List Char) : Option (Char × Nat) :=
  match s with
  | _ :: c :: rest =>
    let width := escapeWidth c
    if width = 0 then (shortEscape? c).map (·, 2)
    else if (rest.take width).length = width then (Digits.codePoint? (rest.take width)).map (·, width + 2)
    else none
  | _ => none

/-- The characters up to white space or the closing quote, the place after them, and whether an escaped line break has
been passed last. -/
def wordAt? (single : Bool) (fuel : Nat) (c : Cursor) : Option (List Char × Cursor × Bool) :=
  match fuel with
  | 0 => none
  | fuel + 1 =>
    match c.next? with
    | none => some ([], c, false)
    | some d =>
      if isBlank d || isBreak d then some ([], c, false)
      else if single && d == '\'' then
        if c.second? = some '\'' then (wordAt? single fuel (c.skip 2)).map fun more => ('\'' :: more.1, more.2)
        else some ([], c, false)
      else if !single && d == '"' then some ([], c, false)
      else if !single && d == '\\' then
        if c.second?.any isBreak then some ([], (c.skip 1).passBreak, true)
        else
          match escape? c.rest with
          | none => none
          | some (e, width) => (wordAt? single fuel (c.skip width)).map fun more => (e :: more.1, more.2)
      else (wordAt? single fuel (c.skip 1)).map fun more => (d :: more.1, more.2)

/-- Passes white space. On a line that is not the first, no tab may stand in the indentation. -/
def gap? (indent : Int) (firstLine : Bool) (fuel : Nat) (gap : Gap) (c : Cursor) : Option (Gap × Cursor) :=
  match fuel with
  | 0 => none
  | fuel + 1 =>
    match c.next? with
    | none => some (gap, c)
    | some d =>
      if isBreak d then gap? indent false fuel { gap with breaks := gap.breaks + 1 } c.passBreak
      else if !isBlank d then some (gap, c)
      else if firstLine then gap? indent firstLine fuel { gap with blanks := gap.blanks ++ [d] } (c.pass 1)
      else if d = '\t' ∧ c.column < indent then none
      else gap? indent firstLine fuel gap (c.pass 1)

/-- Whether a line of a text must not go on here: outside brackets a line that is not the first is indented by more than
`indent` columns, unless the closing quote starts it. -/
def isOutdented (quote : Char) (inFlow : Bool) (indent : Int) (c : Cursor) : Bool :=
  !inFlow && c.next? != some quote && c.column ≤ indent

/-- What follows up to the closing quote, and the place of that quote. After an escaped line break any indentation will
do. -/
def bodyAt? (single inFlow : Bool) (indent : Int) (fuel : Nat) (c : Cursor) : Option (List Char × Cursor) :=
  match fuel with
  | 0 => none
  | fuel + 1 =>
    if c.isDocumentMark ∨ c.rest.isEmpty then none
    else do
      let quote := if single then '\'' else '"'
      let (found, after, escaped) ← wordAt? single (c.rest.length + 1) c
      if after.next? = some quote then some (found, after)
      else
        let (gap, next) ← gap? indent (!escaped) (after.rest.length + 1) {} after
        if !escaped && 0 < gap.breaks && isOutdented quote inFlow indent next then none
        let between := if escaped then List.replicate gap.breaks '\n' else gap.text
        let (more, last) ← bodyAt? single inFlow indent fuel next
        some (found ++ between ++ more, last)

def mayEnd (inFlow : Bool) (line : Nat) (c : Cursor) : Bool :=
  endsLine c.next? ||
    match c.next? with
    | some ':' => inFlow || c.line == line
    | some d => inFlow && (d == ',' || d == ']' || d == '\x7d')
    | none => true

def textAt? (single inFlow : Bool) (indent : Int) (c : Cursor) : Option (String × Cursor) := do
  let (text, closing) ← bodyAt? single inFlow indent (c.rest.length + 1) (c.skip 1)
  let after ← (closing.skip 1).passTrailing?
  if mayEnd inFlow c.line after then some (String.ofList text, after) else none

end ScriptLint.Yaml.Quoted
