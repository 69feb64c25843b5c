import ScriptLint.Data.Value
import ScriptLint.Json.Fault
import ScriptLint.Number.Digits

/-!
The words, strings and numbers of JSON. Each reader takes the characters from where the lexeme begins and returns it with
the characters after it.
-/
namespace ScriptLint.Json
set_option autoImplicit false

def isSpace (c : Char) : Bool := c == ' ' || c == '\n' || c == '\t' || c == '\r'

def skipSpace (s : List Char) : List Char := s.dropWhile isSpace

def wordAt : List Char → List Char → Except Fault (List Char)
  | [], s => .ok s
  | _ :: _, [] => .error .endInValue
  | w :: word, c :: rest => if c = w then wordAt word rest else .error .wordExpected

/-- The number that the next four characters spell in base sixteen. A text that ends within four bytes ends too early. -/
def hexAt (s : List Char) : Except Fault Nat :=
  if (s.take 4).foldl (fun size c => size + c.utf8Size) 0 < 4 then .error .endInString
  else if (s.take 4).length = 4 ∧ (s.take 4).all (Digits.isIn 16) then .ok (Digits.number 16 (s.take 4))
  else .error .invalidEscape

def isHighSurrogate (n : Nat) : Bool := 0xD800 ≤ n && n ≤ 0xDBFF

def isLowSurrogate (n : Nat) : Bool := 0xDC00 ≤ n && n ≤ 0xDFFF

/-- The character of the hexadecimal escape whose digits begin here, and how many characters it takes. A surrogate must
be a high one with a low one after it. -/
def hexEscapeAt (s : List Char) : Except Fault (Char × Nat) :=
  match hexAt s with
  | .error fault => .error fault
  | .ok n =>
    if isLowSurrogate n then .error .loneSurrogate
    else if isHighSurrogate n then
      match s.drop 4 with
      | [] => .error .endInString
      | [c] => if c = '\\' then .error .endInString else .error .surrogateExpected
      | c :: d :: rest =>
        if c = '\\' ∧ d = 'u' then
          match hexAt rest with
          | .error fault => .error fault
          | .ok low =>
            if isLowSurrogate low then
              .ok (Char.ofNat (0x10000 + (n - 0xD800) * 0x400 + (low - 0xDC00)), 10)
            else .error .loneSurrogate
        else .error .surrogateExpected
    else .ok (Char.ofNat n, 4)

def escapeAt (s : List Char) : Except Fault (Char × Nat) :=
  match s with
  | [] => .error .endInString
  | c :: rest =>
    if c = '"' ∨ c = '\\' ∨ c = '/' then .ok (c, 1)
    else if c = 'b' then .ok (Char.ofNat 0x08, 1)
    else if c = 'f' then .ok (Char.ofNat 0x0C, 1)
    else if c = 'n' then .ok ('\n', 1)
    else if c = 'r' then .ok ('\r', 1)
    else if c = 't' then .ok ('\t', 1)
    else if c = 'u' then
      match hexEscapeAt rest with
      | .error fault => .error fault
      | .ok (d, count) => .ok (d, count + 1)
    else .error .invalidEscape

def stringAt : List Char → Except Fault (List Char × List Char)
  | [] => .error .endInString
  | c :: rest =>
    if c = '"' then .ok ([], rest)
    else if c = '\\' then
      match escapeAt rest with
      | .error fault => .error fault
      | .ok (d, count) =>
        match stringAt (rest.drop count) with
        | .error fault => .error fault
        | .ok (more, after) => .ok (d :: more, after)
    else if c.toNat < 0x20 then .error .controlCharacter
    else
      match stringAt rest with
      | .error fault => .error fault
      | .ok (more, after) => .ok (c :: more, after)
termination_by s => s.length
decreasing_by all_goals simp only [List.length_drop, List.length_cons]; omega

def digitValue (c : Char) : Nat := c.toNat - 0x30

def significandLimit : Nat := Nat.pow 2 64 - 1

def accumulate (limit significand : Nat) : List Char → Nat × List Char
  | [] => (significand, [])
  | c :: rest =>
    let next := significand * 10 + digitValue c
    if next ≤ limit then accumulate limit next rest else (significand, c :: rest)

/-- A number moved by a power of ten, which is rounded before, and the result after. -/
def shift? (x : Binary64) (places : Int) : Option Binary64 :=
  (Binary64.ofNat? (Nat.pow 10 places.natAbs)).bind fun power => if 0 ≤ places then x.mul? power else x.div? power

/-- The number of a rounded significand and a power of ten. A larger power than 308 is too large; a smaller one than
-308 is taken in steps. -/
def ofParts (significand : Binary64) (exponent : Int) : Except Fault Binary64 :=
  if significand.isZero then .ok significand
  else if 308 < exponent then .error .numberTooLarge
  else
    match shift? significand (max exponent (-308)) with
    | none => .error .numberTooLarge
    | some x => if exponent < -308 then ofParts x (exponent + 308) else .ok x
termination_by exponent.natAbs
decreasing_by omega

def floatOf (negative : Bool) (significand : Nat) (exponent : Int) : Except Fault Value :=
  match (Binary64.ofNat? significand).map (ofParts · exponent) with
  | some (.ok x) => .ok (.float (if negative then x.negate else x))
  | _ => .error .numberTooLarge

def exponentAt (negative : Bool) (significand : Nat) (exponent : Int) (s : List Char) :
    Except Fault (Value × List Char) :=
  let down := s.head? == some '-'
  let unsigned := if down || s.head? == some '+' then s.drop 1 else s
  match unsigned with
  | [] => .error .endInValue
  | c :: _ =>
    if c.isDigit then
      let digits := unsigned.takeWhile Char.isDigit
      let rest := unsigned.dropWhile Char.isDigit
      match accumulate (Nat.pow 2 31 - 1) 0 digits with
      | (size, []) =>
        match floatOf negative significand (if down then exponent - size else exponent + size) with
        | .ok value => .ok (value, rest)
        | .error fault => .error fault
      | (_, _ :: _) =>
        if significand ≠ 0 ∧ !down then .error .numberTooLarge
        else .ok (.float (if negative then Binary64.zero.negate else Binary64.zero), rest)
    else .error .invalidNumber

def startsExponent (s : List Char) : Bool := s.head? == some 'e' || s.head? == some 'E'

/-- A number whose decimal point has been read. Digits that would make the significand inexact are dropped. -/
def fractionAt (negative : Bool) (significand : Nat) (exponent : Int) (s : List Char) :
    Except Fault (Value × List Char) :=
  let digits := s.takeWhile Char.isDigit
  let rest := s.dropWhile Char.isDigit
  if digits.isEmpty then (if rest.isEmpty then .error .endInValue else .error .invalidNumber)
  else
    let found := accumulate significandLimit significand digits
    let exponent := exponent - (digits.length - found.2.length : Nat)
    if startsExponent rest then exponentAt negative found.1 exponent (rest.drop 1)
    else
      match floatOf negative found.1 exponent with
      | .ok value => .ok (value, rest)
      | .error fault => .error fault

/-- A whole number of 64 bits, or the nearest float outside of them and for `-0`. -/
def wholeOf (negative : Bool) (significand : Nat) : Except Fault Value :=
  if negative then
    if significand = 0 ∨ Nat.pow 2 63 < significand then floatOf true significand 0 else .ok (.int (-significand))
  else .ok (.int significand)

/-- What follows the digits before the point; `left` of them did not fit the significand. -/
def numberTail (negative : Bool) (significand left : Nat) (rest : List Char) : Except Fault (Value × List Char) :=
  if rest.head? == some '.' then fractionAt negative significand left (rest.drop 1)
  else if startsExponent rest then exponentAt negative significand left (rest.drop 1)
  else
    match if left = 0 then wholeOf negative significand else floatOf negative significand left with
    | .ok value => .ok (value, rest)
    | .error fault => .error fault

def numberAt (negative : Bool) (s : List Char) : Except Fault (Value × List Char) :=
  match s with
  | [] => .error .endInValue
  | c :: rest =>
    if c = '0' then
      match rest with
      | d :: _ => if d.isDigit then .error .invalidNumber else numberTail negative 0 0 rest
      | [] => numberTail negative 0 0 rest
    else if c.isDigit then
      let found := accumulate significandLimit 0 (s.takeWhile Char.isDigit)
      numberTail negative found.1 found.2.length (s.dropWhile Char.isDigit)
    else .error .invalidNumber

end ScriptLint.Json
