/-!
Finite numbers of 53 significant bits, with exact arithmetic followed by one rounding to the nearest such number, a
half going to the even neighbour.
-/
namespace ScriptLint
set_option autoImplicit false

/-- The number `mantissa * 2 ^ exponent`, negated if `negative`. -/
structure Binary64 where
  negative : Bool
  mantissa : Nat
  exponent : Int
  deriving DecidableEq, Repr

namespace Binary64

def zero : Binary64 := ⟨false, 0, 0⟩

/-- The nearest integer to a quotient, a half going to the even one. -/
def roundDiv (num den : Nat) : Nat :=
  let quotient := num / den
  let twice := 2 * (num % den)
  if twice < den ∨ (twice = den ∧ quotient % 2 = 0) then quotient else quotient + 1

/-- `num / den` divided by a power of two, as a fraction. -/
def unscale (num den : Nat) (exponent : Int) : Nat × Nat :=
  if 0 ≤ exponent then (num, den * Nat.pow 2 exponent.toNat) else (num * Nat.pow 2 (-exponent).toNat, den)

def leadingBit (num den : Nat) : Int :=
  let guess : Int := (num.log2 : Int) - (den.log2 : Int)
  let scaled := unscale num den guess
  if scaled.2 ≤ scaled.1 then guess else guess - 1

/-- The number nearest to a quotient; there is none when the quotient is too large. -/
def ofRatio? (negative : Bool) (num den : Nat) : Option Binary64 :=
  if num = 0 then some ⟨negative, 0, 0⟩
  else
    let exponent := max (leadingBit num den - 52) (-1074)
    let scaled := unscale num den exponent
    let mantissa := roundDiv scaled.1 scaled.2
    if mantissa = Nat.pow 2 53 then
      if exponent < 971 then some ⟨negative, Nat.pow 2 52, exponent + 1⟩ else none
    else if exponent ≤ 971 then some ⟨negative, mantissa, exponent⟩
    else none

def magnitude (x : Binary64) : Nat × Nat :=
  if 0 ≤ x.exponent then (x.mantissa * Nat.pow 2 x.exponent.toNat, 1) else (x.mantissa, Nat.pow 2 (-x.exponent).toNat)

def isZero (x : Binary64) : Bool := x.mantissa == 0

def negate (x : Binary64) : Binary64 := { x with negative := !x.negative }

def ofNat? (n : Nat) : Option Binary64 := ofRatio? false n 1

def mul? (x y : Binary64) : Option Binary64 :=
  ofRatio? (x.negative != y.negative) (x.magnitude.1 * y.magnitude.1) (x.magnitude.2 * y.magnitude.2)

def div? (x y : Binary64) : Option Binary64 :=
  ofRatio? (x.negative != y.negative) (x.magnitude.1 * y.magnitude.2) (x.magnitude.2 * y.magnitude.1)

def add? (x y : Binary64) : Option Binary64 :=
  ofRatio? false (x.magnitude.1 * y.magnitude.2 + y.magnitude.1 * x.magnitude.2) (x.magnitude.2 * y.magnitude.2)

/-- The rounded difference of two sizes, the first of which is not the smaller. -/
def sub? (x y : Binary64) : Option Binary64 :=
  ofRatio? false (x.magnitude.1 * y.magnitude.2 - y.magnitude.1 * x.magnitude.2) (x.magnitude.2 * y.magnitude.2)

def sizeLe (x y : Binary64) : Bool :=
  x.magnitude.1 * y.magnitude.2 ≤ y.magnitude.1 * x.magnitude.2

/-- The number nearest to `digits * 10 ^ exponent`; there is none when that is too large. -/
def ofDecimal? (negative : Bool) (digits : Nat) (exponent : Int) : Option Binary64 :=
  if digits = 0 then some ⟨negative, 0, 0⟩
  else if 400 < exponent then none
  else if exponent + (toString digits).length < -400 then some ⟨negative, 0, 0⟩
  else if 0 ≤ exponent then ofRatio? negative (digits * Nat.pow 10 exponent.toNat) 1
  else ofRatio? negative digits (Nat.pow 10 (-exponent).toNat)

end Binary64
end ScriptLint
