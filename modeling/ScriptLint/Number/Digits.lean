/-!
Digits and the numbers they spell, in any base up to sixteen. Letters of either case are digits above nine.
-/
namespace ScriptLint.Digits
set_option autoImplicit false

def value? (c : Char) : Option Nat :=
  if '0' ≤ c ∧ c ≤ '9' then some (c.toNat - 0x30)
  else if 'a' ≤ c ∧ c ≤ 'f' then some (c.toNat - 0x57)
  else if 'A' ≤ c ∧ c ≤ 'F' then some (c.toNat - 0x37)
  else none

def isIn (base : Nat) (c : Char) : Bool := (value? c).any (· < base)

/-- The number that digits spell in a base, the most significant first. -/
def number (base : Nat) (digits : List Char) : Nat := digits.foldl (fun n c => n * base + (value? c).getD 0) 0

def codePoint? (digits : List Char) : Option Char :=
  let n := number 16 digits
  if digits.all (isIn 16) ∧ n.isValidChar then some (Char.ofNat n) else none

end ScriptLint.Digits
