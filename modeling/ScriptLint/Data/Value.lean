import ScriptLint.Number.Shortest

/-!
Values of data documents, whatever notation they are written in, and their compact text. The entries of an object stand
in the order in which the map behind it is walked: as they were inserted, so mostly as written. Only the tables of a
TOML document come sorted by key.
-/
namespace ScriptLint
set_option autoImplicit false

inductive Value where
  | null
  | bool (b : Bool)
  | int (n : Int)
  | float (x : Binary64)
  | string (s : String)
  | array (items : List Value)
  | object (entries : List (String × Value))
  deriving Repr

namespace Value

def hexDigit (n : Nat) : Char := if n < 10 then Char.ofNat (0x30 + n) else Char.ofNat (0x57 + n)

def escape (c : Char) : List Char :=
  if c = '"' then ['\\', '"']
  else if c = '\\' then ['\\', '\\']
  else if c = '\n' then ['\\', 'n']
  else if c = '\r' then ['\\', 'r']
  else if c = '\t' then ['\\', 't']
  else if c.toNat = 0x08 then ['\\', 'b']
  else if c.toNat = 0x0C then ['\\', 'f']
  else if c.toNat < 0x20 then ['\\', 'u', '0', '0', hexDigit (c.toNat / 16), hexDigit (c.toNat % 16)]
  else [c]

def quote (s : String) : List Char := '"' :: s.toList.flatMap escape ++ ['"']

mutual

def compactChars : Value → List Char
  | null => ['n', 'u', 'l', 'l']
  | bool true => ['t', 'r', 'u', 'e']
  | bool false => ['f', 'a', 'l', 's', 'e']
  | int n => (toString n).toList
  | float x => (Shortest.text x).toList
  | string s => quote s
  | array items => '[' :: compactItems items
  | object entries => '\x7b' :: compactEntries entries

def compactItems : List Value → List Char
  | [] => [']']
  | [item] => compactChars item ++ [']']
  | item :: more => compactChars item ++ ',' :: compactItems more

def compactEntries : List (String × Value) → List Char
  | [] => ['\x7d']
  | [(key, value)] => quote key ++ ':' :: compactChars value ++ ['\x7d']
  | (key, value) :: more => quote key ++ ':' :: compactChars value ++ ',' :: compactEntries more

end

def compact (value : Value) : String := String.ofList (compactChars value)

/-- The value under a key of an object; the first, should the key be repeated. -/
def get? (value : Value) (key : String) : Option Value :=
  match value with
  | object entries => (entries.find? (·.1 == key)).map (·.2)
  | _ => none

/-- Entries with a value put under a key: in its place if the key is there, at the end otherwise. -/
def putEntry (key : String) (value : Value) : List (String × Value) → List (String × Value)
  | [] => [(key, value)]
  | entry :: more => if entry.1 == key then (key, value) :: more else entry :: putEntry key value more

end Value
end ScriptLint
