import ScriptLint.Toml.Table
import ScriptLint.Toml.Text

/-!
Reading TOML texts, which describe a table. Lists and tables in braces may run over several lines, have a comma after
their last item, and nest at most 80 deep.
-/
namespace ScriptLint.Toml
set_option autoImplicit false

def depthLimit : Nat := 80

def isTokenChar (c : Char) : Bool :=
  c.isAlphanum || c == '_' || c == '+' || c == '-' || c == '.' || c == ':'

/-- The token that comes next, and what follows it. A date takes in a time that follows after a space. -/
def tokenAt (s : List Char) : List Char × List Char :=
  let token := s.takeWhile isTokenChar
  let rest := s.dropWhile isTokenChar
  match dateAt? token, rest with
  | some [], ' ' :: a :: more =>
    if a.isDigit then
      (token ++ ' ' :: (a :: more).takeWhile isTokenChar, (a :: more).dropWhile isTokenChar)
    else (token, rest)
  | _, _ => (token, rest)

mutual

def valueAt? (fuel depth : Nat) (s : List Char) : Option (Value × List Char) :=
  match fuel with
  | 0 => none
  | fuel + 1 =>
    match s with
    | [] => none
    | c :: rest =>
      if c = '"' ∨ c = '\'' then
        (stringAt? c s).map fun found => (.string (String.ofList found.1), found.2)
      else if c = '[' then
        if depth = 0 then none
        else (itemsAt? fuel (depth - 1) rest).map fun found => (.array found.1, found.2)
      else if c = '\x7b' then
        if depth = 0 then none
        else (membersAt? fuel (depth - 1) [] rest).map fun found => (tableValue found.1, found.2)
      else
        let token := tokenAt s
        (scalar? token.1).map (·, token.2)

def itemsAt? (fuel depth : Nat) (s : List Char) : Option (List Value × List Char) :=
  match fuel with
  | 0 => none
  | fuel + 1 => do
    match ← skipLines? (s.length + 1) s with
    | ']' :: rest => some ([], rest)
    | s =>
      let (value, rest) ← valueAt? fuel depth s
      match ← skipLines? (rest.length + 1) rest with
      | ',' :: rest =>
        let (more, rest) ← itemsAt? fuel depth rest
        some (value :: more, rest)
      | ']' :: rest => some ([value], rest)
      | _ => none

def membersAt? (fuel depth : Nat) (entries : Entries) (s : List Char) : Option (Entries × List Char) :=
  match fuel with
  | 0 => none
  | fuel + 1 => do
    match ← skipLines? (s.length + 1) s with
    | '\x7d' :: rest => some (entries, rest)
    | s =>
      let (key, rest) ← keyAt? (s.length + 1) s
      let rest ← after? '=' rest
      let (value, rest) ← valueAt? fuel depth (skipBlank rest)
      let entries ← put? true value key entries
      match ← skipLines? (rest.length + 1) rest with
      | ',' :: rest => membersAt? fuel depth entries rest
      | '\x7d' :: rest => some (entries, rest)
      | _ => none

end

/-- Reads line after line. `header` is the header that was read last. -/
def linesAt? (fuel : Nat) (header : List String) (entries : Entries) (s : List Char) : Option Entries :=
  match fuel with
  | 0 => none
  | fuel + 1 => do
    match ← skipLines? (s.length + 1) s with
    | [] => some entries
    | '[' :: '[' :: rest =>
      let (path, rest) ← keyAt? (rest.length + 1) rest
      let rest ← after? ']' (← after? ']' rest)
      let entries ← openItem? path entries
      linesAt? fuel path entries (← lineEnd? rest)
    | '[' :: rest =>
      let (path, rest) ← keyAt? (rest.length + 1) rest
      let rest ← after? ']' rest
      let entries ← openTable? path entries
      linesAt? fuel path entries (← lineEnd? rest)
    | s =>
      let (key, rest) ← keyAt? (s.length + 1) s
      let rest ← after? '=' rest
      let (value, rest) ← valueAt? (2 * rest.length + 2) depthLimit (skipBlank rest)
      let entries ← putUnder? value key header entries
      linesAt? fuel header entries (← lineEnd? rest)

/-- The table that a text describes; a byte order mark at its start does not count. -/
def parse? (text : String) : Option Value :=
  let s := text.toList
  let s := if s.head? = some (Char.ofNat 0xFEFF) then s.drop 1 else s
  (linesAt? (s.length + 1) [] [] s).map tableValue

end ScriptLint.Toml
