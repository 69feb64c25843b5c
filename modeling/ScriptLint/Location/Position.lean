/-!
Positions in a text: a line and a byte column, both counted from zero, in 32 bits each. Reports count both from one.
-/
namespace ScriptLint
set_option autoImplicit false

/-- Lines and columns are kept in 32 bits. -/
def wordLimit : Nat := Nat.pow 2 32

def wrapWord (n : Nat) : Nat := n % wordLimit

def clampWord (n : Nat) : Nat := min n (wordLimit - 1)

theorem wrapWord_of_lt {n : Nat} (h : n < wordLimit) : wrapWord n = n := Nat.mod_eq_of_lt h

/-- Counting on by one loses nothing, whether or not it wraps. -/
theorem wrapWord_succ_inj {m n : Nat} (hm : m < wordLimit) (hn : n < wordLimit)
    (h : wrapWord (m + 1) = wrapWord (n + 1)) : m = n := by
  have hLimit : wordLimit = 4294967296 := rfl
  simp only [wrapWord, hLimit] at hm hn h
  omega

theorem clampWord_of_lt {n : Nat} (h : n < wordLimit) : clampWord n = n := by
  simp only [clampWord]
  omega

structure Position where
  line : Nat
  character : Nat
  deriving DecidableEq, Repr

namespace Position

def ofOneBased? (line column : Nat) : Option Position :=
  if line = 0 ∨ column = 0 then none else some ⟨line - 1, column - 1⟩

/-- Line and column are counted from one in 32 bits too: the last number of all has none after it and comes out as 0. -/
def lineNumber (p : Position) : Nat := wrapWord (p.line + 1)

def columnNumber (p : Position) : Nat := wrapWord (p.character + 1)

def lt (p q : Position) : Bool := p.line < q.line || (p.line == q.line && p.character < q.character)

def le (p q : Position) : Bool := !q.lt p

def compare (p q : Position) : Ordering := if p.lt q then .lt else if q.lt p then .gt else .eq

def max (p q : Position) : Position := if p.le q then q else p

def text (p : Position) : String := toString p.lineNumber ++ ":" ++ toString p.columnNumber

theorem lineNumber_of_lt {p : Position} (h : p.line + 1 < wordLimit) : p.lineNumber = p.line + 1 := wrapWord_of_lt h

theorem columnNumber_of_lt {p : Position} (h : p.character + 1 < wordLimit) : p.columnNumber = p.character + 1 :=
  wrapWord_of_lt h

theorem eq_of_numbers {p q : Position} (hp : p.line + p.character < wordLimit) (hq : q.line + q.character < wordLimit)
    (hLine : p.lineNumber = q.lineNumber) (hColumn : p.columnNumber = q.columnNumber) : p = q := by
  have hLine := wrapWord_succ_inj (by omega) (by omega) hLine
  have hCharacter := wrapWord_succ_inj (by omega) (by omega) hColumn
  cases p
  cases q
  exact (mk.injEq ..).mpr ⟨hLine, hCharacter⟩

theorem lt_iff (p q : Position) :
    p.lt q = true ↔ p.line < q.line ∨ p.line = q.line ∧ p.character < q.character := by
  simp [lt]

theorem le_iff (p q : Position) :
    p.le q = true ↔ p.line < q.line ∨ p.line = q.line ∧ p.character ≤ q.character := by
  rw [le, Bool.not_eq_true', ← Bool.not_eq_true, lt_iff]
  omega

end Position

/-- A stretch of text between two positions, start included and stop excluded. -/
structure Span where
  start : Position
  stop : Position
  deriving DecidableEq, Repr

namespace Span

def point (p : Position) : Span := ⟨p, p⟩

def isEmpty (s : Span) : Bool := s.start == s.stop

def contains (s : Span) (p : Position) : Bool := s.start.le p && p.lt s.stop

end Span
end ScriptLint
