/-!
Texts as lists of bytes. Every offset, column and length of the library counts bytes, so documents are read byte by
byte, and the delimiters of markup are single bytes with names.
-/
namespace ScriptLint
set_option autoImplicit false

abbrev Bytes := List UInt8

namespace Byte

def tab : UInt8 := 0x09
def lineFeed : UInt8 := 0x0A
def formFeed : UInt8 := 0x0C
def carriageReturn : UInt8 := 0x0D
def space : UInt8 := 0x20
def bang : UInt8 := 0x21
def doubleQuote : UInt8 := 0x22
def singleQuote : UInt8 := 0x27
def dash : UInt8 := 0x2D
def slash : UInt8 := 0x2F
def colon : UInt8 := 0x3A
def semicolon : UInt8 := 0x3B
def less : UInt8 := 0x3C
def equals : UInt8 := 0x3D
def greater : UInt8 := 0x3E
def question : UInt8 := 0x3F
def bracketOpen : UInt8 := 0x5B
def bracketClose : UInt8 := 0x5D
def underscore : UInt8 := 0x5F

def isUpper (b : UInt8) : Bool := 0x41 ≤ b && b ≤ 0x5A

def isLower (b : UInt8) : Bool := 0x61 ≤ b && b ≤ 0x7A

def isLetter (b : UInt8) : Bool := isUpper b || isLower b

def isWide (b : UInt8) : Bool := 0x80 ≤ b

def toLower (b : UInt8) : UInt8 := if isUpper b then b + 0x20 else b

def isSpaceOrTab (b : UInt8) : Bool := b == space || b == tab

end Byte

namespace Bytes

def ofAscii (s : List Char) : Bytes := s.map fun c => c.toUInt8

def toLower (s : Bytes) : Bytes := s.map Byte.toLower

def eqIgnoreCase (s t : Bytes) : Bool := toLower s == toLower t

def leadingBlank (line : Bytes) : Bytes := line.takeWhile Byte.isSpaceOrTab

def isBlank (line : Bytes) : Bool := line.all Byte.isSpaceOrTab

/-- The pieces between the line feeds; a text without one is a single piece. -/
def lines : Bytes → List Bytes
  | [] => [[]]
  | b :: rest =>
    if b = Byte.lineFeed then [] :: lines rest
    else
      match lines rest with
      | [] => [[b]]
      | line :: more => (b :: line) :: more

/-- How many bytes run through the end of the first occurrence of `needle`; all of them when there is none. -/
def lengthThrough (needle : Bytes) : Bytes → Nat
  | [] => 0
  | b :: rest =>
    if needle.isPrefixOf (b :: rest) then needle.length else lengthThrough needle rest + 1

def splitAt? (b : UInt8) : Bytes → Option (Bytes × Bytes)
  | [] => none
  | c :: rest =>
    if c = b then some ([], rest)
    else (splitAt? b rest).map fun parts => (c :: parts.1, parts.2)

theorem length_dropWhile_le (p : UInt8 → Bool) (s : Bytes) : (s.dropWhile p).length ≤ s.length :=
  (List.dropWhile_sublist p).length_le

theorem lines_ne_nil (s : Bytes) : lines s ≠ [] := by
  cases s with
  | nil => simp [lines]
  | cons b rest =>
    rw [lines]
    split
    · simp
    · split <;> simp

theorem splitAt?_eq_some {b : UInt8} {s before after : Bytes} (h : splitAt? b s = some (before, after)) :
    s = before ++ b :: after := by
  induction s generalizing before with
  | nil => simp [splitAt?] at h
  | cons c rest ih =>
    rw [splitAt?] at h
    split at h
    · rename_i hc
      simp only [Option.some.injEq, Prod.mk.injEq] at h
      simp [← h.1, ← h.2, hc]
    · obtain ⟨parts, hParts, hEq⟩ := Option.map_eq_some_iff.mp h
      simp only [Prod.mk.injEq] at hEq
      have hRest : rest = parts.1 ++ b :: after := ih (by rw [hParts, ← hEq.2])
      rw [← hEq.1, hRest, List.cons_append]

end Bytes
end ScriptLint
