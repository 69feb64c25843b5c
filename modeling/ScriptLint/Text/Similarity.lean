import ScriptLint.Number.Binary64

/-!
How alike two texts are, from zero to one, by the measure of Jaro and Winkler: the characters that two texts share
within a window count, those in another order count half, and a common start adds to it. The measure is computed in
53-bit numbers, each operation rounded.
-/
namespace ScriptLint.Similarity
set_option autoImplicit false

abbrev Marked := List (Char × Bool)

/-- Marks the first free `c` at a place from `low` up to but not including `high`. -/
def mark? (c : Char) (low high : Nat) : Marked → Option Marked
  | [] => none
  | (d, taken) :: rest =>
    if high = 0 then none
    else if low = 0 ∧ c = d ∧ taken = false then some ((d, true) :: rest)
    else (mark? c (low - 1) (high - 1) rest).map ((d, taken) :: ·)

/-- The characters from place `i` on that find a partner in `other`, and `other` with those partners marked. -/
def pair (window i : Nat) (other : Marked) : List Char → List Char × Marked
  | [] => ([], other)
  | c :: rest =>
    match mark? c (i - window) (i + window + 1) other with
    | some marked =>
      let found := pair window (i + 1) marked rest
      (c :: found.1, found.2)
    | none => pair window (i + 1) other rest

def quotient (num den : Nat) : Binary64 := (Binary64.ofRatio? false num den).getD .zero

def sum (x y : Binary64) : Binary64 := (x.add? y).getD .zero

def product (x y : Binary64) : Binary64 := (x.mul? y).getD .zero

def jaro (s t : List Char) : Binary64 :=
  if s.isEmpty && t.isEmpty then quotient 1 1
  else if s.isEmpty || t.isEmpty then .zero
  else
    let window := max s.length t.length / 2 - 1
    let found := pair window 0 (t.map (·, false)) s
    let partners := (found.2.filter (·.2)).map (·.1)
    let shared := found.1.length
    let transposed := ((found.1.zip partners).filter fun p => p.1 != p.2).length / 2
    if shared = 0 then .zero
    else
      let total := sum (sum (quotient shared s.length) (quotient shared t.length)) (quotient (shared - transposed) shared)
      (total.div? (quotient 3 1)).getD .zero

/-- The length of the common start of two texts, at most four. -/
def commonStart (s t : List Char) : Nat := (((s.take 4).zip t).takeWhile fun p => p.1 == p.2).length

def jaroWinkler (s t : List Char) : Binary64 :=
  let base := jaro s t
  if base.sizeLe (quotient 7 10) then base
  else
    let weight := product (quotient 1 10) (quotient (commonStart s t) 1)
    sum base (product weight (((quotient 1 1).sub? base).getD .zero))

end ScriptLint.Similarity
