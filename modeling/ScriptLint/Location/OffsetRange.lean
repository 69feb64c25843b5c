/-!
Ranges of byte offsets, start included and stop excluded. A range may be reversed; it then holds no offset.
-/
namespace ScriptLint
set_option autoImplicit false

def offsetLimit : Nat := Nat.pow 2 64

def wrapOffset (n : Nat) : Nat := n % offsetLimit

/-- How far it is from one offset to another; the way wraps around where the other one comes first. -/
def offsetDistance (start stop : Nat) : Nat := wrapOffset (stop + (offsetLimit - start))

theorem wrapOffset_add_offsetDistance {start stop : Nat} (hStart : start < offsetLimit) (hStop : stop < offsetLimit) :
    wrapOffset (start + offsetDistance start stop) = stop := by
  have hLimit : offsetLimit = 18446744073709551616 := rfl
  simp only [wrapOffset, offsetDistance, hLimit] at hStart hStop ⊢
  omega

structure OffsetRange where
  start : Nat
  stop : Nat
  deriving DecidableEq, Repr

namespace OffsetRange

def point (offset : Nat) : OffsetRange := ⟨offset, offset⟩

def length (r : OffsetRange) : Nat := r.stop - r.start

def isEmpty (r : OffsetRange) : Bool := r.stop ≤ r.start

def contains (r : OffsetRange) (offset : Nat) : Bool := r.start ≤ offset && offset < r.stop

def text (r : OffsetRange) : String := toString r.start ++ ".." ++ toString r.stop

theorem contains_iff (r : OffsetRange) (offset : Nat) :
    r.contains offset = true ↔ r.start ≤ offset ∧ offset < r.stop := by
  simp [contains]

end OffsetRange
end ScriptLint
