import ScriptLint.Json.Lexeme

/-!
Reading JSON texts. Lists and objects nest at most 127 deep, a repeated key keeps its place and takes its last value, and
nothing but white space may follow the value.
-/
namespace ScriptLint.Json
set_option autoImplicit false

/-- The levels of nesting, plus one. -/
def depthLimit : Nat := 128

def keyAt (s : List Char) : Except Fault (String × List Char) :=
  match stringAt (s.drop 1) with
  | .error fault => .error fault
  | .ok (key, rest) =>
    match skipSpace rest with
    | [] => .error .endInObject
    | c :: after => if c = ':' then .ok (String.ofList key, after) else .error .colonExpected

inductive Next where
  | item (rest : List Char)
  | done (rest : List Char)

def nextItem (first : Bool) (s : List Char) : Except Fault Next :=
  match skipSpace s with
  | [] => .error .endInList
  | c :: rest =>
    if c = ']' then .ok (.done rest)
    else if first then .ok (.item (c :: rest))
    else if c = ',' then
      match skipSpace rest with
      | [] => .error .endInValue
      | d :: after => if d = ']' then .error .trailingComma else .ok (.item (d :: after))
    else .error .listCommaExpected

/-- What comes after the opening brace of an object, or after one of its entries. An entry begins with its quote. -/
def nextEntry (first : Bool) (s : List Char) : Except Fault Next :=
  match skipSpace s with
  | [] => .error .endInObject
  | c :: rest =>
    if c = '\x7d' then .ok (.done rest)
    else if first then (if c = '"' then .ok (.item (c :: rest)) else .error .keyExpected)
    else if c = ',' then
      match skipSpace rest with
      | [] => .error .endInValue
      | d :: after =>
        if d = '"' then .ok (.item (d :: after))
        else if d = '\x7d' then .error .trailingComma
        else .error .keyExpected
    else .error .objectCommaExpected

mutual

def valueAt (fuel depth : Nat) (s : List Char) : Except Fault (Value × List Char) :=
  match fuel with
  | 0 => .error .tooDeep
  | fuel + 1 =>
    match skipSpace s with
    | [] => .error .endInValue
    | c :: rest =>
      if c = 'n' then (wordAt ['u', 'l', 'l'] rest).map (Value.null, ·)
      else if c = 't' then (wordAt ['r', 'u', 'e'] rest).map (Value.bool true, ·)
      else if c = 'f' then (wordAt ['a', 'l', 's', 'e'] rest).map (Value.bool false, ·)
      else if c = '-' then numberAt true rest
      else if c.isDigit then numberAt false (c :: rest)
      else if c = '"' then (stringAt rest).map fun found => (.string (String.ofList found.1), found.2)
      else if c = '[' then
        if depth ≤ 1 then .error .tooDeep
        else (itemsAt fuel (depth - 1) true rest).map fun found => (.array found.1, found.2)
      else if c = '\x7b' then
        if depth ≤ 1 then .error .tooDeep
        else
          (entriesAt fuel (depth - 1) true rest).map fun found =>
            (.object (found.1.foldl (fun entries entry => Value.putEntry entry.1 entry.2 entries) []), found.2)
      else .error .valueExpected

def itemsAt (fuel depth : Nat) (first : Bool) (s : List Char) : Except Fault (List Value × List Char) :=
  match fuel with
  | 0 => .error .tooDeep
  | fuel + 1 =>
    match nextItem first s with
    | .error fault => .error fault
    | .ok (.done rest) => .ok ([], rest)
    | .ok (.item rest) =>
      match valueAt fuel depth rest with
      | .error fault => .error fault
      | .ok (value, after) => (itemsAt fuel depth false after).map fun found => (value :: found.1, found.2)

def entriesAt (fuel depth : Nat) (first : Bool) (s : List Char) :
    Except Fault (List (String × Value) × List Char) :=
  match fuel with
  | 0 => .error .tooDeep
  | fuel + 1 =>
    match nextEntry first s with
    | .error fault => .error fault
    | .ok (.done rest) => .ok ([], rest)
    | .ok (.item rest) =>
      match keyAt rest with
      | .error fault => .error fault
      | .ok (key, rest) =>
        match valueAt fuel depth rest with
        | .error fault => .error fault
        | .ok (value, after) =>
          (entriesAt fuel depth false after).map fun found => ((key, value) :: found.1, found.2)

end

/-- Every step reads a character, or is one of two that lead to such a step. -/
def fuelFor (s : List Char) : Nat := 2 * s.length + 2

def firstValue (s : List Char) : Except Fault (Value × List Char) := valueAt (fuelFor s) depthLimit s

def parse (text : String) : Except Fault Value :=
  match firstValue text.toList with
  | .error fault => .error fault
  | .ok (value, rest) => if (skipSpace rest).isEmpty then .ok value else .error .trailingCharacters

end ScriptLint.Json
