import ScriptLint.Text.Byte

/-!
UTF-8. Reading replaces every longest run of bytes that no character has by U+FFFD, so it is total; a byte list is
well formed when reading and writing it again gives it back.
-/
namespace ScriptLint.Utf8
set_option autoImplicit false

def encode (s : String) : Bytes := s.toList.flatMap String.utf8EncodeChar

def isTail (b : UInt8) : Bool := 0x80 ≤ b && b ≤ 0xBF

/-- How many tail bytes a lead byte asks for, and the bounds of the first of them. -/
def tails? (lead : UInt8) : Option (Nat × UInt8 × UInt8) :=
  if lead < 0x80 then some (0, 0x80, 0xBF)
  else if lead < 0xC2 then none
  else if lead < 0xE0 then some (1, 0x80, 0xBF)
  else if lead = 0xE0 then some (2, 0xA0, 0xBF)
  else if lead = 0xED then some (2, 0x80, 0x9F)
  else if lead < 0xF0 then some (2, 0x80, 0xBF)
  else if lead = 0xF0 then some (3, 0x90, 0xBF)
  else if lead < 0xF4 then some (3, 0x80, 0xBF)
  else if lead = 0xF4 then some (3, 0x80, 0x8F)
  else none

/-- The tail bytes at the start of `rest`, at most `count` of them; only the first has bounds of its own. -/
def takeTails (count : Nat) (low high : UInt8) (rest : Bytes) : Bytes :=
  match count, rest with
  | 0, _ => []
  | _, [] => []
  | n + 1, b :: more => if low ≤ b && b ≤ high then b :: takeTails n 0x80 0xBF more else []

def leadBits (lead : UInt8) (count : Nat) : Nat :=
  match count with
  | 0 => lead.toNat
  | 1 => lead.toNat % 0x20
  | 2 => lead.toNat % 0x10
  | _ => lead.toNat % 0x08

def replacement : Char := Char.ofNat 0xFFFD

/-- The character that begins with `lead`, and how many bytes of `rest` belong to it. -/
def charAt (lead : UInt8) (rest : Bytes) : Char × Nat :=
  match tails? lead with
  | none => (replacement, 0)
  | some (count, low, high) =>
    let found := takeTails count low high rest
    if found.length = count then
      (Char.ofNat (found.foldl (fun code b => code * 0x40 + b.toNat % 0x40) (leadBits lead count)), count)
    else (replacement, found.length)

def chars : Bytes → List Char
  | [] => []
  | lead :: rest => (charAt lead rest).1 :: chars (rest.drop (charAt lead rest).2)
termination_by s => s.length
decreasing_by simp only [List.length_drop, List.length_cons]; omega

def decode (s : Bytes) : String := String.ofList (chars s)

def repair (s : Bytes) : Bytes := (chars s).flatMap String.utf8EncodeChar

def isValid (s : Bytes) : Bool := repair s == s

/-- Whether no character straddles offset `i`, which may be the end of the text but not beyond. -/
def isBoundary (s : Bytes) (i : Nat) : Bool :=
  i == 0 ||
    match s.drop i with
    | [] => i == s.length
    | b :: _ => !isTail b

/-- The text between two offsets, if both stand between characters. -/
def slice? (s : Bytes) (start stop : Nat) : Option Bytes :=
  if start ≤ stop && isBoundary s start && isBoundary s stop then some ((s.take stop).drop start) else none

def dropTo? (s : Bytes) (start : Nat) : Option Bytes :=
  if isBoundary s start then some (s.drop start) else none

end ScriptLint.Utf8
