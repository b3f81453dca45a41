import Mathlib

/-!
# AstraKV.Lib.Binary64

IEEE-754 binary64 numbers as bit patterns, with C's comparisons.

Away from NaN two numbers compare as the sign-magnitude integers `order`, in
which the two zeros are one.  A NaN is neither less than, nor equal to, nor
greater than anything, itself included.

Only comparisons are needed here, no arithmetic, so the numbers stay bit
patterns and every fact about them is one about integers. The relations are
decidable, and two patterns that compare equal need not be the same bits.
-/

structure Binary64 where
  bits : UInt64
deriving DecidableEq

namespace Binary64

instance : Inhabited Binary64 := ⟨⟨0⟩⟩

/-- Exponent and fraction. -/
def magnitude (x : Binary64) : Nat := x.bits.toNat % 2 ^ 63

def sign (x : Binary64) : Bool := 2 ^ 63 ≤ x.bits.toNat

/-- Above the pattern of infinity. -/
def isNaN (x : Binary64) : Bool := 0x7FF0000000000000 < x.magnitude

/-- The place of a number among the numbers that are not NaN. -/
def order (x : Binary64) : Int := if x.sign then -(x.magnitude : Int) else x.magnitude

instance : LT Binary64 := ⟨fun x y => x.isNaN = false ∧ y.isNaN = false ∧ x.order < y.order⟩

instance : LE Binary64 := ⟨fun x y => x.isNaN = false ∧ y.isNaN = false ∧ x.order ≤ y.order⟩

/-- `x == y`. -/
def Equal (x y : Binary64) : Prop := x.isNaN = false ∧ y.isNaN = false ∧ x.order = y.order

/-- Less than, spelled out on the integers. -/
theorem lt_def {x y : Binary64} :
    x < y ↔ x.isNaN = false ∧ y.isNaN = false ∧ x.order < y.order := Iff.rfl

/-- At most, spelled out on the integers. -/
theorem le_def {x y : Binary64} :
    x ≤ y ↔ x.isNaN = false ∧ y.isNaN = false ∧ x.order ≤ y.order := Iff.rfl

instance : DecidableLT Binary64 := fun _ _ => decidable_of_iff' _ lt_def

instance : DecidableLE Binary64 := fun _ _ => decidable_of_iff' _ le_def

instance (x y : Binary64) : Decidable (Equal x y) := inferInstanceAs (Decidable (_ ∧ _ ∧ _))

variable {x y : Binary64}

/-- Numbers compare as their integers do. -/
theorem lt_iff (hx : x.isNaN = false) (hy : y.isNaN = false) : x < y ↔ x.order < y.order := by
  rw [lt_def]
  simp [hx, hy]

theorem le_iff (hx : x.isNaN = false) (hy : y.isNaN = false) : x ≤ y ↔ x.order ≤ y.order := by
  rw [le_def]
  simp [hx, hy]

/-- Numbers are equal if their integers are. -/
theorem equal_iff (hx : x.isNaN = false) (hy : y.isNaN = false) :
    Equal x y ↔ x.order = y.order := by
  unfold Equal
  simp [hx, hy]

/-- A number equals itself. -/
theorem Equal.refl (hx : x.isNaN = false) : Equal x x := ⟨hx, hx, rfl⟩

/-- Equality of numbers has no direction. -/
theorem Equal.symm (h : Equal x y) : Equal y x := ⟨h.2.1, h.1, h.2.2.symm⟩

/-- Numbers are totally ordered. -/
theorem not_lt (hx : x.isNaN = false) (hy : y.isNaN = false) : ¬ x < y ↔ y ≤ x := by
  rw [lt_iff hx hy, le_iff hy hx, Int.not_lt]

end Binary64
