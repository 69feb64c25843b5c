import ScriptLint.Text.Byte

/-!
Bytes written as letters, six bits each. The letters come in fours; equals signs fill up the last four, and the bits that
they leave over are zero.
-/
namespace ScriptLint.Base64
set_option autoImplicit false

def sextet? (c : Char) : Option Nat :=
  if 'A' ≤ c ∧ c ≤ 'Z' then some (c.toNat - 0x41)
  else if 'a' ≤ c ∧ c ≤ 'z' then some (c.toNat - 0x61 + 26)
  else if '0' ≤ c ∧ c ≤ '9' then some (c.toNat - 0x30 + 52)
  else if c = '+' then some 62
  else if c = '/' then some 63
  else none

def triple? (a b c d : Char) : Option Bytes := do
  let n := ((((← sextet? a) * 64 + (← sextet? b)) * 64 + (← sextet? c)) * 64) + (← sextet? d)
  some [(n / 65536).toUInt8, (n / 256 % 256).toUInt8, (n % 256).toUInt8]

/-- The bytes of the last four letters, some of which may be filled up. -/
def last? (a b c d : Char) : Option Bytes :=
  if d ≠ '=' then triple? a b c d
  else if c ≠ '=' then do
    let n := (((← sextet? a) * 64 + (← sextet? b)) * 64) + (← sextet? c)
    if n % 4 = 0 then some [(n / 1024).toUInt8, (n / 4 % 256).toUInt8] else none
  else do
    let n := (← sextet? a) * 64 + (← sextet? b)
    if n % 16 = 0 then some [(n / 16).toUInt8] else none

def decode? : List Char → Option Bytes
  | [] => some []
  | [a, b, c, d] => last? a b c d
  | a :: b :: c :: d :: rest => do
    let first ← triple? a b c d
    let more ← decode? rest
    some (first ++ more)
  | _ => none

end ScriptLint.Base64
