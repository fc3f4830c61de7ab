/-!
# Powers of two and ten

The powers that the encoding of numbers is made of, with the few laws that are needed of them.
-/

namespace SoftCache

/-- The power of two with this exponent. -/
def twoPow (n : Nat) : Nat := Nat.pow 2 n

/-- The power of ten with this exponent. -/
def tenPow (n : Nat) : Nat := Nat.pow 10 n

/-- A power of two is positive. -/
theorem twoPow_pos (n : Nat) : 0 < twoPow n :=
  Nat.two_pow_pos n

/-- The power of nothing is one. -/
theorem twoPow_zero : twoPow 0 = 1 := rfl

/-- The next power is twice as large. -/
theorem twoPow_succ (n : Nat) : twoPow (n + 1) = twoPow n * 2 :=
  Nat.pow_succ 2 n

/-- The power of a sum is a product of powers. -/
theorem twoPow_add (m n : Nat) : twoPow (m + n) = twoPow m * twoPow n :=
  Nat.pow_add 2 m n

end SoftCache
