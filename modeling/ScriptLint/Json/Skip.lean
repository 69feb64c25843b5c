import ScriptLint.Json.Reader

/-!
Passing over a JSON value that nobody asks for. Its lexemes are checked for form only: numbers may have any size, and
surrogates need no partner. There is no limit on nesting, and a comma must be followed by another item.
-/
namespace ScriptLint.Json
set_option autoImplicit false

def skipEscape (s : List Char) : Except Fault Nat :=
  match s with
  | [] => .error .endInString
  | c :: rest =>
    if c = 'u' then (hexAt rest).map fun _ => 5
    else if ['"', '\\', '/', 'b', 'f', 'n', 'r', 't'].contains c then .ok 1
    else .error .invalidEscape

def skipString : List Char → Except Fault (List Char)
  | [] => .error .endInString
  | c :: rest =>
    if c = '"' then .ok rest
    else if c = '\\' then
      match skipEscape rest with
      | .error fault => .error fault
      | .ok count => skipString (rest.drop count)
    else if c.toNat < 0x20 then .error .controlCharacter
    else skipString rest
termination_by s => s.length
decreasing_by all_goals simp only [List.length_drop, List.length_cons]; omega

def skipDigits (s : List Char) : List Char := s.dropWhile Char.isDigit

def startsDigit (s : List Char) : Bool :=
  match s with
  | [] => false
  | c :: _ => c.isDigit

def skipExponent (s : List Char) : Except Fault (List Char) :=
  let unsigned := if s.head? == some '-' || s.head? == some '+' then s.drop 1 else s
  if startsDigit unsigned then .ok (skipDigits unsigned) else .error .invalidNumber

def skipFraction (s : List Char) : Except Fault (List Char) :=
  if startsDigit s then
    if startsExponent (skipDigits s) then skipExponent ((skipDigits s).drop 1) else .ok (skipDigits s)
  else .error .invalidNumber

def skipNumber (s : List Char) : Except Fault (List Char) :=
  match s with
  | [] => .error .invalidNumber
  | c :: rest =>
    if !c.isDigit || (c == '0' && startsDigit rest) then .error .invalidNumber
    else
      let tail := skipDigits rest
      if tail.head? == some '.' then skipFraction (tail.drop 1)
      else if startsExponent tail then skipExponent (tail.drop 1)
      else .ok tail

def skipKey (s : List Char) : Except Fault (List Char) :=
  match skipSpace s with
  | [] => .error .endInObject
  | c :: rest =>
    if c = '"' then
      match skipString rest with
      | .error fault => .error fault
      | .ok rest =>
        match skipSpace rest with
        | [] => .error .endInObject
        | d :: after => if d = ':' then .ok after else .error .colonExpected
    else .error .keyExpected

mutual

def skipValue (fuel : Nat) (s : List Char) : Except Fault (List Char) :=
  match fuel with
  | 0 => .error .tooDeep
  | fuel + 1 =>
    match skipSpace s with
    | [] => .error .endInValue
    | c :: rest =>
      if c = 'n' then wordAt ['u', 'l', 'l'] rest
      else if c = 't' then wordAt ['r', 'u', 'e'] rest
      else if c = 'f' then wordAt ['a', 'l', 's', 'e'] rest
      else if c = '-' then skipNumber rest
      else if c.isDigit then skipNumber (c :: rest)
      else if c = '"' then skipString rest
      else if c = '[' then skipItems fuel true rest
      else if c = '\x7b' then skipEntries fuel true rest
      else .error .valueExpected

def skipItems (fuel : Nat) (first : Bool) (s : List Char) : Except Fault (List Char) :=
  match fuel with
  | 0 => .error .tooDeep
  | fuel + 1 =>
    match skipSpace s with
    | [] => .error .endInList
    | c :: rest =>
      if c = ']' then .ok rest
      else if first || c = ',' then
        match skipValue fuel (if first then c :: rest else rest) with
        | .error fault => .error fault
        | .ok after => skipItems fuel false after
      else .error .listCommaExpected

def skipEntries (fuel : Nat) (first : Bool) (s : List Char) : Except Fault (List Char) :=
  match fuel with
  | 0 => .error .tooDeep
  | fuel + 1 =>
    match skipSpace s with
    | [] => .error .endInObject
    | c :: rest =>
      if c = '\x7d' then .ok rest
      else if first || c = ',' then
        match skipKey (if first then c :: rest else rest) with
        | .error fault => .error fault
        | .ok rest =>
          match skipValue fuel rest with
          | .error fault => .error fault
          | .ok after => skipEntries fuel false after
      else .error .objectCommaExpected

end

def skipFirst (s : List Char) : Except Fault (List Char) := skipValue (fuelFor s) s

end ScriptLint.Json
