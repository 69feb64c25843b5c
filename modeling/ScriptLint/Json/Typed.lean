import ScriptLint.Data.Mismatch
import ScriptLint.Json.Skip

/-!
Reading JSON texts straight into data of a known shape. A value of the wrong type is reported where it stands, before
anything that is wrong with the text after it.
-/
namespace ScriptLint.Json
set_option autoImplicit false

inductive ReadError where
  | malformed (fault : Fault)
  | mismatch (cause : Mismatch)
  deriving DecidableEq, Repr

def ReadError.message : ReadError → String
  | malformed fault => fault.message
  | mismatch cause => cause.message

abbrev Reader (α : Type) := List Char → Except ReadError (α × List Char)

def ofFault {α : Type} (result : Except Fault α) : Except ReadError α := result.mapError .malformed

/-- The complaint about a value that is not what was asked for. A value that is malformed itself is reported as such. -/
def complain {α : Type} (wanted : Wanted) (c : Char) (rest : List Char) : Except ReadError α := do
  let found ←
    if c = 'n' then ofFault ((wordAt ['u', 'l', 'l'] rest).map fun _ => Found.null)
    else if c = 't' then ofFault ((wordAt ['r', 'u', 'e'] rest).map fun _ => Found.bool true)
    else if c = 'f' then ofFault ((wordAt ['a', 'l', 's', 'e'] rest).map fun _ => Found.bool false)
    else if c = '-' then ofFault ((numberAt true rest).map fun number => number.1.found)
    else if c.isDigit then ofFault ((numberAt false (c :: rest)).map fun number => number.1.found)
    else if c = '"' then ofFault ((stringAt rest).map fun s => Found.string (String.ofList s.1))
    else if c = '[' then .ok Found.sequence
    else if c = '\x7b' then .ok Found.map
    else .error (.malformed .valueExpected)
  .error (.mismatch (.type found wanted))

def wholeBelow (limit : Nat) (wanted : Wanted) : Reader Nat := fun s =>
  match skipSpace s with
  | [] => .error (.malformed .endInValue)
  | c :: rest =>
    if c = '-' ∨ c.isDigit then do
      let (value, after) ← ofFault (if c = '-' then numberAt true rest else numberAt false (c :: rest))
      match value with
      | .int n =>
        if 0 ≤ n ∧ n < limit then .ok (n.toNat, after) else .error (.mismatch (.range n wanted))
      | other => .error (.mismatch (.type other.found wanted))
    else complain wanted c rest

def word : Reader Nat := wholeBelow (Nat.pow 2 32) .word

def offset : Reader Nat := wholeBelow (Nat.pow 2 64) .offset

def boolean : Reader Bool := fun s =>
  match skipSpace s with
  | [] => .error (.malformed .endInValue)
  | c :: rest =>
    if c = 't' then ofFault ((wordAt ['r', 'u', 'e'] rest).map (true, ·))
    else if c = 'f' then ofFault ((wordAt ['a', 'l', 's', 'e'] rest).map (false, ·))
    else complain .boolean c rest

def stringFor (wanted : Wanted) : Reader String := fun s =>
  match skipSpace s with
  | [] => .error (.malformed .endInValue)
  | c :: rest =>
    if c = '"' then ofFault ((stringAt rest).map fun found => (String.ofList found.1, found.2))
    else complain wanted c rest

def string : Reader String := stringFor .string

def unit : Reader Unit := fun s =>
  match skipSpace s with
  | [] => .error (.malformed .endInValue)
  | c :: rest => if c = 'n' then ofFault ((wordAt ['u', 'l', 'l'] rest).map ((), ·)) else complain .unit c rest

def nullable {α : Type} (read : Reader α) : Reader (Option α) := fun s =>
  match skipSpace s with
  | [] => (read s).map fun found => (some found.1, found.2)
  | c :: rest =>
    if c = 'n' then ofFault ((wordAt ['u', 'l', 'l'] rest).map (none, ·))
    else (read s).map fun found => (some found.1, found.2)

def listEnd (s : List Char) : Except Fault (List Char) :=
  match skipSpace s with
  | [] => .error .endInList
  | c :: rest =>
    if c = ']' then .ok rest
    else if c = ',' ∧ (skipSpace rest).head? = some ']' then .error .trailingComma
    else .error .trailingCharacters

/-- One of a list of names, as a string or as the only key of an object with the value `null`. -/
def variant {α : Type} (known : List String) (ofName? : String → Option α) : Reader α := fun s =>
  let choose (name : String) : Except ReadError α :=
    match ofName? name with
    | some a => .ok a
    | none => .error (.mismatch (.variant name known))
  match skipSpace s with
  | [] => .error (.malformed .endInValue)
  | c :: rest =>
    if c = '"' then do
      let (name, after) ← ofFault (stringAt rest)
      .ok (← choose (String.ofList name), after)
    else if c = '\x7b' then do
      let (name, after) ← stringFor .variant rest
      let chosen ← choose name
      match skipSpace after with
      | [] => .error (.malformed .endInObject)
      | d :: after =>
        if d = ':' then do
          let (_, after) ← unit after
          match skipSpace after with
          | [] => .error (.malformed .endInObject)
          | d :: after => if d = '\x7d' then .ok (chosen, after) else .error (.malformed .valueExpected)
        else .error (.malformed .colonExpected)
    else .error (.malformed .valueExpected)

/-- How a record is read: a draft is filled field by field and then finished. -/
structure Shape (Draft Record : Type) where
  name : String
  fields : List String
  required : List String
  fill : String → Draft → Reader Draft
  filled : String → Draft → Bool
  empty : Draft
  /-- The record, or the first field that is missing. -/
  finish : Draft → Except Mismatch Record

variable {Draft Record : Type}

/-- The entries of a record written as an object. Unknown fields are passed over, and none may come twice. -/
def Shape.entries (shape : Shape Draft Record) (fuel : Nat) (first : Bool) (draft : Draft) : Reader Draft := fun s =>
  match fuel with
  | 0 => .error (.malformed .tooDeep)
  | fuel + 1 => do
    match ← ofFault (nextEntry first s) with
    | .done rest => .ok (draft, rest)
    | .item rest =>
      let (key, rest) ← ofFault (stringAt (rest.drop 1))
      let field := String.ofList key
      let known := shape.fields.contains field
      if known && shape.filled field draft then .error (.mismatch (.duplicate field))
      match skipSpace rest with
      | [] => .error (.malformed .endInObject)
      | c :: after =>
        if c = ':' then
          if known then
            let (draft, rest) ← shape.fill field draft after
            shape.entries fuel false draft rest
          else
            let rest ← ofFault (skipFirst after)
            shape.entries fuel false draft rest
        else .error (.malformed .colonExpected)

/-- The items of a record written as a list of its fields in order, of which only those that are not required may be
left out. -/
def Shape.items (shape : Shape Draft Record) (index : Nat) (first : Bool) (draft : Draft) :
    List String → Reader Draft
  | [], s => do
    let rest ← ofFault (listEnd s)
    .ok (draft, rest)
  | field :: more, s => do
    match ← ofFault (nextItem first s) with
    | .done _ =>
      if shape.required.contains field then
        .error (.mismatch (.recordLength index shape.name shape.fields.length))
      else shape.items (index + 1) first draft more s
    | .item rest =>
      let (draft, after) ← shape.fill field draft rest
      shape.items (index + 1) false draft more after

def Shape.read (shape : Shape Draft Record) : Reader Record := fun s =>
  match skipSpace s with
  | [] => .error (.malformed .endInValue)
  | c :: rest => do
    if c = '[' then
      let (draft, after) ← shape.items 0 true shape.empty shape.fields rest
      let found ← (shape.finish draft).mapError .mismatch
      .ok (found, after)
    else if c = '\x7b' then
      let (draft, after) ← shape.entries (fuelFor rest) true shape.empty rest
      let found ← (shape.finish draft).mapError .mismatch
      .ok (found, after)
    else complain (.record shape.name) c rest

def parseWith {α : Type} (read : Reader α) (text : String) : Except ReadError α := do
  let (value, rest) ← read text.toList
  if (skipSpace rest).isEmpty then .ok value else .error (.malformed .trailingCharacters)

end ScriptLint.Json
