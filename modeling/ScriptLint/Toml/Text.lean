import ScriptLint.Toml.Scalar

/-!
Strings, keys, blanks and comments of TOML. Control characters other than tabs occur nowhere, and a carriage return only
before a line feed.
-/
namespace ScriptLint.Toml
set_option autoImplicit false

def isBlank (c : Char) : Bool := c == ' ' || c == '\t'

def isControl (c : Char) : Bool := (c.toNat < 0x20 && c != '\t') || c.toNat == 0x7F

def skipBlank (s : List Char) : List Char := s.dropWhile isBlank

def lineBreak? (s : List Char) : Option (List Char) :=
  match s with
  | '\n' :: rest => some rest
  | '\r' :: '\n' :: rest => some rest
  | _ => none

def comment? (s : List Char) : Option (List Char) :=
  match s with
  | '#' :: rest =>
    let after := rest.dropWhile fun c => !isControl c
    if after.isEmpty ∨ (lineBreak? after).isSome then some after else none
  | _ => some s

/-- The start of the next line, when nothing but blanks and a comment is left of this one. -/
def lineEnd? (s : List Char) : Option (List Char) :=
  match comment? (skipBlank s) with
  | some [] => some []
  | some rest => lineBreak? rest
  | none => none

def skipLines? (fuel : Nat) (s : List Char) : Option (List Char) :=
  match fuel with
  | 0 => none
  | fuel + 1 =>
    match comment? (skipBlank s) with
    | none => none
    | some rest =>
      match lineBreak? rest with
      | some next => skipLines? fuel next
      | none => some rest

def codePointAt? (count : Nat) (s : List Char) : Option (Char × List Char) :=
  if (s.take count).length = count then (Digits.codePoint? (s.take count)).map (·, s.drop count) else none

def escapeAt? (s : List Char) : Option (Char × List Char) :=
  match s with
  | [] => none
  | c :: rest =>
    if c = 'b' then some (Char.ofNat 0x08, rest)
    else if c = 't' then some ('\t', rest)
    else if c = 'n' then some ('\n', rest)
    else if c = 'f' then some (Char.ofNat 0x0C, rest)
    else if c = 'r' then some ('\r', rest)
    else if c = 'e' then some (Char.ofNat 0x1B, rest)
    else if c = '"' ∨ c = '\\' then some (c, rest)
    else if c = 'x' then codePointAt? 2 rest
    else if c = 'u' then codePointAt? 4 rest
    else if c = 'U' then codePointAt? 8 rest
    else none

def basicAt? (fuel : Nat) (s : List Char) : Option (List Char × List Char) :=
  match fuel, s with
  | 0, _ => none
  | _, [] => none
  | fuel + 1, c :: rest =>
    if c = '"' then some ([], rest)
    else if c = '\\' then do
      let (d, rest) ← escapeAt? rest
      let (more, after) ← basicAt? fuel rest
      some (d :: more, after)
    else if isControl c then none
    else do
      let (more, after) ← basicAt? fuel rest
      some (c :: more, after)

def literalAt? : List Char → Option (List Char × List Char)
  | [] => none
  | c :: rest =>
    if c = '\'' then some ([], rest)
    else if isControl c then none
    else (literalAt? rest).map fun found => (c :: found.1, found.2)

def skipSpace : List Char → List Char
  | [] => []
  | '\r' :: '\n' :: rest => skipSpace rest
  | c :: rest => if isBlank c || c == '\n' then skipSpace rest else c :: rest

/-- What follows white space that begins with a line break, blanks before it apart. -/
def continuation? (s : List Char) : Option (List Char) := (lineBreak? (skipBlank s)).map skipSpace

/-- Where a string over several lines may end: the quotes that belong to it, and what follows it. -/
def closing? (quote : Char) (s : List Char) : Option (List Char × List Char) :=
  let quotes := ((s.take 5).takeWhile (· == quote)).length
  if 3 ≤ quotes then some (List.replicate (quotes - 3) quote, s.drop quotes) else none

/-- A string over several lines whose opening quotes have been read, and what follows it. Line breaks stay as they are
written. In a string with escapes a backslash at the end of a line swallows all white space after it. -/
def multilineAt? (escapes : Bool) (quote : Char) (fuel : Nat) (s : List Char) : Option (List Char × List Char) :=
  match fuel with
  | 0 => none
  | fuel + 1 =>
    match closing? quote s with
    | some found => some found
    | none =>
      match lineBreak? s with
      | some rest =>
        let mark := s.take (s.length - rest.length)
        (multilineAt? escapes quote fuel rest).map fun found => (mark ++ found.1, found.2)
      | none =>
        match s with
        | [] => none
        | c :: rest =>
          if escapes && c == '\\' then
            match continuation? rest with
            | some rest => multilineAt? escapes quote fuel rest
            | none => do
              let (d, rest) ← escapeAt? rest
              let (more, after) ← multilineAt? escapes quote fuel rest
              some (d :: more, after)
          else if isControl c then none
          else (multilineAt? escapes quote fuel rest).map fun found => (c :: found.1, found.2)

/-- A string whose opening quote comes next, and what follows it. A line break right after three quotes does not
count. -/
def stringAt? (quote : Char) (s : List Char) : Option (List Char × List Char) :=
  if s.take 3 = [quote, quote, quote] then
    let rest := s.drop 3
    multilineAt? (quote == '"') quote (s.length + 1) ((lineBreak? rest).getD rest)
  else if quote = '"' then basicAt? (s.length + 1) (s.drop 1)
  else literalAt? (s.drop 1)

def isBareKey (c : Char) : Bool := c.isAlphanum || c == '_' || c == '-'

def keyPart? (s : List Char) : Option (String × List Char) :=
  match s with
  | [] => none
  | c :: rest =>
    if c = '"' then
      if s.take 3 = ['"', '"', '"'] then none
      else (basicAt? (s.length + 1) rest).map fun found => (String.ofList found.1, found.2)
    else if c = '\'' then
      if s.take 3 = ['\'', '\'', '\''] then none
      else (literalAt? rest).map fun found => (String.ofList found.1, found.2)
    else if isBareKey c then some (String.ofList (s.takeWhile isBareKey), s.dropWhile isBareKey)
    else none

def keyAt? (fuel : Nat) (s : List Char) : Option (List String × List Char) :=
  match fuel with
  | 0 => none
  | fuel + 1 => do
    let (part, rest) ← keyPart? (skipBlank s)
    match skipBlank rest with
    | '.' :: rest =>
      let (more, rest) ← keyAt? fuel rest
      some (part :: more, rest)
    | rest => some ([part], rest)

end ScriptLint.Toml
