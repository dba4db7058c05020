/-
  Comparison of binary64 floating-point numbers, on their encoding.

  A word is a sign and a magnitude; among numbers, the order of the values is that of the signed
  magnitudes (`rank`), and the two zeros have the same rank. A comparison with a NaN is false.
-/
import Mathlib.Algebra.Group.Nat.Defs
import Mathlib.Data.Nat.Notation

structure Binary64 where
  bits : UInt64
  deriving DecidableEq, Repr, Inhabited

namespace Binary64

/-- The word without its sign. -/
def magnitude (d : Binary64) : Nat := d.bits.toNat % 2 ^ 63

def negative (d : Binary64) : Bool := 2 ^ 63 ≤ d.bits.toNat

/-- Above infinity there are only NaNs. -/
def isNaN (d : Binary64) : Bool := 0x7FF0000000000000 < d.magnitude

def rank (d : Binary64) : Int := if d.negative then -d.magnitude else d.magnitude

/-- `a == b`. -/
def eq (a b : Binary64) : Bool := !a.isNaN && !b.isNaN && decide (a.rank = b.rank)

/-- `a < b`. -/
def lt (a b : Binary64) : Bool := !a.isNaN && !b.isNaN && decide (a.rank < b.rank)

theorem eq_iff {a b : Binary64} (ha : a.isNaN = false) (hb : b.isNaN = false) :
    a.eq b = true ↔ a.rank = b.rank := by
  simp [eq, ha, hb]

theorem lt_iff {a b : Binary64} (ha : a.isNaN = false) (hb : b.isNaN = false) :
    a.lt b = true ↔ a.rank < b.rank := by
  simp [lt, ha, hb]

theorem eq_refl {a : Binary64} (ha : a.isNaN = false) : a.eq a = true := (eq_iff ha ha).mpr rfl

-- The two zeros are equal, and one comes before infinity.
example : eq ⟨0x8000000000000000⟩ ⟨0⟩ = true ∧ lt ⟨0⟩ ⟨0x7FF0000000000000⟩ = true := by decide

end Binary64
