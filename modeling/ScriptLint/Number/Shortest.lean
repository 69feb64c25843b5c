import ScriptLint.Number.Binary64

/-!
The shortest decimal text of a number: the fewest digits that read back as it and, of those, the nearest to it.
Numbers from 0.00001 up to 10^16 are written out, all others with an exponent.
-/
namespace ScriptLint.Shortest
set_option autoImplicit false

/-- A positive number with the ends of the interval of reals that round to it, as numerators over one denominator. -/
structure Interval where
  low : Nat
  value : Nat
  high : Nat
  den : Nat
  closed : Bool
  deriving DecidableEq, Repr

def Interval.of (x : Binary64) : Interval :=
  let below := if x.mantissa = Nat.pow 2 52 ∧ -1074 < x.exponent then 1 else 2
  let scale := Nat.pow 2 (x.exponent - 2).toNat
  { low := (4 * x.mantissa - below) * scale
    value := 4 * x.mantissa * scale
    high := (4 * x.mantissa + 2) * scale
    den := Nat.pow 2 (2 - x.exponent).toNat
    closed := x.mantissa % 2 == 0 }

def Interval.contains (i : Interval) (num den : Nat) : Bool :=
  let position := num * i.den
  if i.closed then i.low * den ≤ position && position ≤ i.high * den
  else i.low * den < position && position < i.high * den

def placesToOne (fuel num den : Nat) : Nat :=
  match fuel with
  | 0 => 0
  | fuel + 1 => if den ≤ num then 0 else placesToOne fuel (num * 10) den + 1

def leadingPlace (num den : Nat) : Int :=
  if den ≤ num then ((toString (num / den)).length : Int) - 1
  else -(placesToOne 400 num den : Int)

structure Decimal where
  digits : Nat
  exponent : Int
  deriving DecidableEq, Repr

def Decimal.ratio (d : Decimal) : Nat × Nat :=
  if 0 ≤ d.exponent then (d.digits * Nat.pow 10 d.exponent.toNat, 1) else (d.digits, Nat.pow 10 (-d.exponent).toNat)

/-- The multiple of `10 ^ exponent` nearest to the number among those that read back as it, if there is one. -/
def candidate? (i : Interval) (exponent : Int) : Option Decimal :=
  let unit := if 0 ≤ exponent then (Nat.pow 10 exponent.toNat, 1) else (1, Nat.pow 10 (-exponent).toNat)
  let floor := i.value * unit.2 / (i.den * unit.1)
  let left := i.value * unit.2 - floor * (i.den * unit.1)
  let down : Decimal := ⟨floor, exponent⟩
  let up : Decimal := ⟨floor + 1, exponent⟩
  let downOk := i.contains down.ratio.1 down.ratio.2
  let upOk := i.contains up.ratio.1 up.ratio.2
  let twice := 2 * left
  let unitSize := i.den * unit.1
  if downOk && (!upOk || twice < unitSize || (twice == unitSize && floor % 2 == 0)) then some down
  else if upOk then some up
  else none

/-- The first of the grids with `count`, `count + 1`, … digits that has a number reading back. -/
def search (i : Interval) (place : Int) (fuel count : Nat) : Decimal :=
  match fuel with
  | 0 => ⟨0, 0⟩
  | fuel + 1 =>
    match candidate? i (place - count + 1) with
    | some found => found
    | none => search i place fuel (count + 1)

def decimal (x : Binary64) : Decimal :=
  let i := Interval.of x
  search i (leadingPlace i.value i.den) 17 1

def dropTrailingZeros (digits : List Char) : List Char :=
  (digits.reverse.dropWhile (· == '0')).reverse

/-- Digits with a point after the first `count` of them, and a zero where one side would be empty. -/
def withPoint (digits : List Char) (count : Int) : List Char :=
  if count ≤ 0 then ['0', '.'] ++ List.replicate (-count).toNat '0' ++ digits
  else
    let whole := digits.take count.toNat
    let fraction := digits.drop count.toNat
    whole ++ List.replicate (count.toNat - whole.length) '0' ++ ['.'] ++
      if fraction.isEmpty then ['0'] else fraction

def withExponent (digits : List Char) (place : Int) : List Char :=
  let mark := if place < 0 then ['e', '-'] else ['e', '+']
  let fraction := digits.drop 1
  digits.take 1 ++ (if fraction.isEmpty then [] else '.' :: fraction) ++ mark ++ (toString place.natAbs).toList

def text (x : Binary64) : String :=
  let sign := if x.negative then ['-'] else []
  if x.isZero then String.ofList (sign ++ ['0', '.', '0'])
  else
    let d := decimal x
    let digits := (toString d.digits).toList
    let place : Int := d.exponent + digits.length - 1
    let digits := dropTrailingZeros digits
    String.ofList (sign ++ if -5 ≤ place ∧ place ≤ 15 then withPoint digits (place + 1) else withExponent digits place)

end ScriptLint.Shortest
