import Mathlib.Algebra.Order.Ring.Int

namespace CPlayground.CInt

/-!
# The type `int`

* `IsInt z` — the number `z` is an `int` of 32 bits.
* `checked z` — the result of an `int` operation, which is undefined if it is no `int`.
* `ofSize n` — a `size_t` converted to `int`.
-/

/-- The number is an `int`. -/
def IsInt (z : Int) : Prop := -2 ^ 31 ≤ z ∧ z < 2 ^ 31

instance (z : Int) : Decidable (IsInt z) := inferInstanceAs (Decidable (_ ∧ _))

/-- The result of an `int` operation: overflow is undefined. -/
def checked (z : Int) : Option Int := if IsInt z then some z else none

/-- `(int)n` for a `size_t`. -/
def ofSize (n : Nat) : Int := ((n : Int) + 2 ^ 31) % 2 ^ 32 - 2 ^ 31

variable {z : Int} {n : Nat}

/-- Arithmetic without an overflow has its result. -/
theorem checked_of_isInt (h : IsInt z) : checked z = some z := if_pos h

/-- Arithmetic has a result exactly if the value is an `int`, and the result is this value. -/
theorem checked_eq_some {y : Int} : checked z = some y ↔ IsInt z ∧ z = y := by
  rw [checked, Option.ite_none_right_eq_some, Option.some.injEq]

/-- A size below `2 ^ 31` is kept by the conversion to `int`. -/
theorem ofSize_of_lt (h : n < 2 ^ 31) : ofSize n = n := by
  rw [ofSize]
  omega

/-- The conversion of a size wraps around, so that it always gives an `int`. -/
theorem isInt_ofSize (n : Nat) : IsInt (ofSize n) := by
  rw [IsInt, ofSize]
  omega

/-- The value of an `Int32` is an `int`. -/
theorem isInt_toInt (v : Int32) : IsInt v.toInt := ⟨v.le_toInt, v.toInt_lt⟩

end CPlayground.CInt
