import Mathlib.Algebra.Order.Ring.Nat

namespace CPlayground.Cyclic

/-!
# Indices in a ring

A ring of `N` slots is used in a circle: the position number `n` is the slot `n % N`.

* `next N x` — the slot behind `x`, by comparison with `N` instead of a division.
* `next_mod` — it is the slot of the next position.
* `mod_ne` — the positions of less than one turn have different slots.
-/

/-- `++x==N`, and then `x=0`. -/
def next (N x : Nat) : Nat := if x + 1 = N then 0 else x + 1

variable {N x m n : Nat}

/-- The step is the one modulo `N`; the test for the end replaces the division. -/
theorem next_eq (h : x < N) : next N x = (x + 1) % N := by
  rw [next]
  split
  case isTrue heq => rw [heq, Nat.mod_self]
  case isFalse hne => rw [Nat.mod_eq_of_lt (by omega)]

/-- The index stays in the ring. -/
theorem next_lt (h : x < N) : next N x < N := by
  rw [next_eq h]
  exact Nat.mod_lt _ (by omega)

/-- The step on the place of the `n`-th element: the next place belongs to the element `n + 1`. -/
theorem next_mod (hN : 0 < N) : next N (n % N) = (n + 1) % N := by
  rw [next_eq (Nat.mod_lt _ hN), Nat.mod_add_mod]

/-- Less than one turn apart, two elements have different places. -/
theorem mod_ne (hlt : m < n) (hturn : n < m + N) : m % N ≠ n % N := by
  intro heq
  have hdvd := Nat.dvd_of_mod_eq_zero (Nat.sub_mod_eq_zero_of_mod_eq heq.symm)
  have hle := Nat.le_of_dvd (by omega) hdvd
  omega

end CPlayground.Cyclic
