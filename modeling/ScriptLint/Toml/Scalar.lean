import ScriptLint.Data.Value
import ScriptLint.Number.Digits

/-!
Numbers, booleans and dates of TOML, as complete tokens. Digits may be grouped by single underscores. A whole number must
fit 64 bits, with or without a sign bit; infinities and what is not a number have no value; a date is a table of one
entry.
-/
namespace ScriptLint.Toml
set_option autoImplicit false

/-- Digits without their underscores, each of which must stand between two digits. -/
def ungroup? (base : Nat) : List Char → Option (List Char)
  | [] => none
  | [c] => if Digits.isIn base c then some [c] else none
  | c :: d :: rest =>
    if Digits.isIn base c then
      if d = '_' then (ungroup? base rest).map (c :: ·) else (ungroup? base (d :: rest)).map (c :: ·)
    else none

def whole? (n : Int) : Option Value := if -Int.pow 2 63 ≤ n ∧ n < Int.pow 2 64 then some (.int n) else none

/-- Decimal digits that do not start with a needless zero. -/
def decimalDigits? (s : List Char) : Option (List Char) :=
  match ungroup? 10 s with
  | some digits => if digits.length > 1 ∧ digits.head? = some '0' then none else some digits
  | none => none

def sign (s : List Char) : Bool × List Char :=
  match s with
  | [] => (false, [])
  | c :: rest => if c = '-' then (true, rest) else if c = '+' then (false, rest) else (false, s)

def integer? (s : List Char) : Option Value :=
  match s with
  | '0' :: 'x' :: rest => (ungroup? 16 rest).bind fun digits => whole? (Digits.number 16 digits)
  | '0' :: 'o' :: rest => (ungroup? 8 rest).bind fun digits => whole? (Digits.number 8 digits)
  | '0' :: 'b' :: rest => (ungroup? 2 rest).bind fun digits => whole? (Digits.number 2 digits)
  | _ =>
    let (negative, rest) := sign s
    (decimalDigits? rest).bind fun digits =>
      whole? (if negative then -(Digits.number 10 digits : Int) else Digits.number 10 digits)

def isExponentMark (c : Char) : Bool := c == 'e' || c == 'E'

def exponent? (s : List Char) : Option Int :=
  let (negative, rest) := sign s
  (ungroup? 10 rest).map fun digits =>
    if negative then -(Digits.number 10 digits : Int) else Digits.number 10 digits

def finite? (negative : Bool) (s : List Char) : Option Value := do
  let wholePart := s.takeWhile fun c => c != '.' && !isExponentMark c
  let rest := s.drop wholePart.length
  let digits ← decimalDigits? wholePart
  match rest with
  | [] => none
  | '.' :: rest =>
    let fractionPart := rest.takeWhile fun c => !isExponentMark c
    let fraction ← ungroup? 10 fractionPart
    let exponent ←
      match rest.drop fractionPart.length with
      | [] => some 0
      | _ :: mark => exponent? mark
    let x ← Binary64.ofDecimal? negative (Digits.number 10 (digits ++ fraction)) (exponent - fraction.length)
    some (.float x)
  | _ :: mark =>
    let exponent ← exponent? mark
    let x ← Binary64.ofDecimal? negative (Digits.number 10 digits) exponent
    some (.float x)

def float? (s : List Char) : Option Value :=
  let (negative, rest) := sign s
  if rest = ['i', 'n', 'f'] ∨ rest = ['n', 'a', 'n'] then some .null else finite? negative rest

def digitsAt? (count : Nat) (s : List Char) : Option (Nat × List Char) :=
  let digits := s.take count
  if digits.length = count ∧ digits.all Char.isDigit then some (Digits.number 10 digits, s.drop count) else none

def after? (c : Char) (s : List Char) : Option (List Char) :=
  match s with
  | d :: rest => if c = d then some rest else none
  | [] => none

def isLeapYear (year : Nat) : Bool := year % 4 == 0 && (year % 100 != 0 || year % 400 == 0)

def daysIn (year month : Nat) : Nat :=
  if month = 2 then (if isLeapYear year then 29 else 28)
  else if month = 4 ∨ month = 6 ∨ month = 9 ∨ month = 11 then 30
  else 31

def dateAt? (s : List Char) : Option (List Char) := do
  let (year, s) ← digitsAt? 4 s
  let (month, s) ← digitsAt? 2 (← after? '-' s)
  let (day, s) ← digitsAt? 2 (← after? '-' s)
  if 1 ≤ month ∧ month ≤ 12 ∧ 1 ≤ day ∧ day ≤ daysIn year month then some s else none

/-- What follows a time of day, of which seconds and their fraction may be left out. -/
def timeAt? (s : List Char) : Option (List Char) := do
  let (hour, s) ← digitsAt? 2 s
  let (minute, s) ← digitsAt? 2 (← after? ':' s)
  if 23 < hour ∨ 59 < minute then none
  match after? ':' s with
  | none => some s
  | some s =>
    let (second, s) ← digitsAt? 2 s
    if 60 < second then none
    match after? '.' s with
    | none => some s
    | some s => if (s.takeWhile Char.isDigit).isEmpty then none else some (s.dropWhile Char.isDigit)

def isZone (s : List Char) : Bool :=
  match s with
  | [] => true
  | c :: rest =>
    if c = 'Z' ∨ c = 'z' then rest.isEmpty
    else if c = '+' ∨ c = '-' then
      match digitsAt? 2 rest with
      | some (hour, ':' :: rest) =>
        match digitsAt? 2 rest with
        | some (minute, []) => hour ≤ 23 && minute ≤ 59
        | _ => false
      | _ => false
    else false

def isDateTime (s : List Char) : Bool :=
  match dateAt? s with
  | some [] => true
  | some (c :: rest) =>
    (c == 'T' || c == 't' || c == ' ') &&
      match timeAt? rest with
      | some rest => isZone rest
      | none => false
  | none => timeAt? s == some []

/-- The value of a date: a table of one entry. -/
def dateTime (s : List Char) : Value := .object [("date", .string (String.ofList s))]

def scalar? (s : List Char) : Option Value :=
  if s = ['t', 'r', 'u', 'e'] then some (.bool true)
  else if s = ['f', 'a', 'l', 's', 'e'] then some (.bool false)
  else if isDateTime s then some (dateTime s)
  else
    match integer? s with
    | some value => some value
    | none => float? s

end ScriptLint.Toml
