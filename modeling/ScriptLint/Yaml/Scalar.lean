import ScriptLint.Data.Value
import ScriptLint.Number.Digits
import ScriptLint.Text.WhiteSpace

/-!
The kinds of plain scalars: nothing, truth values, whole numbers, numbers with a fraction or an exponent, and texts. White
space of Unicode around the words and numbers does not count. What is infinite or not a number is a text.
-/
namespace ScriptLint.Yaml.Scalar
set_option autoImplicit false

def isNull (s : List Char) : Bool := s.isEmpty || s == ['~'] || s.map Char.toLower == "null".toList

def trueWords : List String := ["true", "yes", "y", "on"]

def falseWords : List String := ["false", "no", "n", "off"]

def bool? (s : List Char) : Option Bool :=
  let word := String.ofList (s.map Char.toLower)
  if trueWords.contains word then some true else if falseWords.contains word then some false else none

def sign (s : List Char) : Bool × List Char :=
  match s with
  | [] => (false, [])
  | c :: rest => if c = '-' then (true, rest) else if c = '+' then (false, rest) else (false, s)

def radix (s : List Char) : Nat × List Char :=
  match s with
  | '0' :: c :: rest =>
    if c = 'x' ∨ c = 'X' then (16, rest)
    else if c = 'o' ∨ c = 'O' then (8, rest)
    else if c = 'b' ∨ c = 'B' then (2, rest)
    else (10, s)
  | _ => (10, s)

/-- A whole number of 64 bits; underscores among its digits do not count. -/
def integer? (s : List Char) : Option Int :=
  let (negative, rest) := sign s
  let (base, rest) := radix rest
  let digits := rest.filter (· != '_')
  if digits.isEmpty || !digits.all (Digits.isIn base) then none
  else
    let n : Int := Digits.number base digits
    let n := if negative then -n else n
    if -Int.pow 2 63 ≤ n ∧ n < Int.pow 2 64 then some n else none

def isExponentMark (c : Char) : Bool := c == 'e' || c == 'E'

/-- The exponent of a number that ends with it; a number without one has the exponent zero. -/
def exponent? (s : List Char) : Option Int :=
  match s with
  | [] => some 0
  | _ :: rest =>
    let (negative, digits) := sign rest
    if digits.isEmpty || !digits.all Char.isDigit then none
    else some (if negative then -(Digits.number 10 digits : Int) else Digits.number 10 digits)

def infinite (negative : Bool) : Value := .string (if negative then "-.inf" else ".inf")

/-- A decimal number, with or without a fraction or an exponent. One that is too large is infinite. -/
def decimal? (s : List Char) : Option Value := do
  let (negative, s) := sign s
  let whole := s.takeWhile Char.isDigit
  let rest := s.drop whole.length
  let fraction := if rest.head? = some '.' then (rest.drop 1).takeWhile Char.isDigit else []
  let rest := if rest.head? = some '.' then rest.drop (fraction.length + 1) else rest
  if (whole ++ fraction).isEmpty || !rest.head?.all isExponentMark then none
  let exponent ← exponent? rest
  match Binary64.ofDecimal? negative (Digits.number 10 (whole ++ fraction)) (exponent - fraction.length) with
  | some x => some (.float x)
  | none => some (infinite negative)

def notFinite? (s : List Char) : Option Value :=
  let (negative, rest) := sign s
  let word := String.ofList (rest.map Char.toLower)
  if [".inf", "inf", "infinity"].contains word then some (infinite negative)
  else if [".nan", "nan"].contains word then some (.string ".nan")
  else none

def word? (s : List Char) : Option Value :=
  match bool? s with
  | some b => some (.bool b)
  | none =>
    match integer? s with
    | some n => some (.int n)
    | none => (notFinite? s).or (decimal? s)

def resolve (text : String) : Value :=
  if isNull text.toList then .null else (word? (WhiteSpace.trimChars text.toList)).getD (.string text)

end ScriptLint.Yaml.Scalar
