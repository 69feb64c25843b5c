/-!
White space in the sense of Unicode's `White_Space` property.
-/
namespace ScriptLint.WhiteSpace
set_option autoImplicit false

def ranges : List (Nat × Nat) :=
  [(0x09, 0x0D), (0x20, 0x20), (0x85, 0x85), (0xA0, 0xA0), (0x1680, 0x1680), (0x2000, 0x200A), (0x2028, 0x2029),
   (0x202F, 0x202F), (0x205F, 0x205F), (0x3000, 0x3000)]

def isMember (c : Char) : Bool := ranges.any fun range => range.1 ≤ c.toNat && c.toNat ≤ range.2

def trimChars (s : List Char) : List Char :=
  ((s.dropWhile isMember).reverse.dropWhile isMember).reverse

def trim (s : String) : String := String.ofList (trimChars s.toList)

end ScriptLint.WhiteSpace
