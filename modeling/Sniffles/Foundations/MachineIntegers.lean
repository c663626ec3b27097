import Mathlib.Data.Int.Basic

/-!
# Wrapping machine integers

A signed 32-bit result is the representative of its mathematical value that
lies between `-2^31` and `2^31 - 1`. Arithmetic is performed on unbounded
integers and wrapped where a result is stored, so that a bound on the operands
turns every wrapped expression back into ordinary arithmetic.
-/

namespace MachineIntegers

/-- Store a mathematical integer in a signed 32-bit variable. -/
def int32 (z : Int) : Int := (z + 2147483648) % 4294967296 - 2147483648

/-- Store a mathematical integer in an unsigned 32-bit variable. -/
def uint32 (z : Int) : Nat := (z % 4294967296).toNat

/-- A value that fits is stored unchanged. -/
theorem int32_of_fits {z : Int} (low : -2147483648 ≤ z) (high : z < 2147483648) :
    int32 z = z := by
  unfold int32
  omega

/-- Every stored value lies in the signed 32-bit range. -/
theorem int32_bounds (z : Int) : -2147483648 ≤ int32 z ∧ int32 z < 2147483648 := by
  unfold int32
  omega

/-- A value that fits is stored unchanged in an unsigned variable as well. -/
theorem uint32_of_fits {z : Int} (low : 0 ≤ z) (high : z < 4294967296) :
    (uint32 z : Int) = z := by
  unfold uint32
  omega

end MachineIntegers
