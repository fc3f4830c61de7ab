import SoftCache.Number.Power

/-!
# Binary floating-point numbers, decoded

A number of a binary interchange format is a sign, a significand and a power of two. `Binary.ofBits`
decodes a bit pattern and `Binary.toBits` encodes the canonical form that decoding gives:
`toBits_ofBits` says that the pattern comes back.
-/

namespace SoftCache

/-- A binary interchange format. -/
structure Format where
  /-- Significant bits, the leading one included. -/
  precision : Nat
  /-- Bits of the exponent field. -/
  exponentWidth : Nat

namespace Format

/-- The format of 32 bits. -/
def single : Format := ⟨24, 8⟩

/-- The format of 64 bits. -/
def double : Format := ⟨53, 11⟩

/-- The power of two that the last place of the smallest numbers stands for. -/
def leastExponent (f : Format) : Int :=
  3 - (twoPow (f.exponentWidth - 1) : Int) - (f.precision : Int)

end Format

/-- A number of a binary format, by what it stands for. -/
inductive Binary where
  /-- Not a number. -/
  | nan
  /-- An infinity. -/
  | infinite (negative : Bool)
  /-- The number `significand * 2 ^ exponent`, or its negative. Zero has a sign too. -/
  | finite (negative : Bool) (significand : Nat) (exponent : Int)
deriving DecidableEq

namespace Binary

/-- The number that a bit pattern of the format stands for. -/
def ofBits (f : Format) (bits : Nat) : Binary :=
  let fraction := bits % twoPow (f.precision - 1)
  let biased := bits / twoPow (f.precision - 1) % twoPow f.exponentWidth
  let negative := bits / twoPow (f.precision - 1 + f.exponentWidth) % 2 == 1
  if biased = twoPow f.exponentWidth - 1 then
    if fraction = 0 then infinite negative else nan
  else if biased = 0 then
    finite negative fraction f.leastExponent
  else
    finite negative (twoPow (f.precision - 1) + fraction) (f.leastExponent + (biased - 1 : Nat))

/-- The bit pattern of a number as `ofBits` decodes it. A number that is none has the pattern with
only the highest bit of the fraction set. -/
def toBits (f : Format) : Binary → Nat
  | nan => (twoPow f.exponentWidth - 1) * twoPow (f.precision - 1) + twoPow (f.precision - 2)
  | infinite negative =>
    signBit f negative + (twoPow f.exponentWidth - 1) * twoPow (f.precision - 1)
  | finite negative significand exponent =>
    if significand < twoPow (f.precision - 1) then
      signBit f negative + significand
    else
      signBit f negative + ((exponent - f.leastExponent).toNat + 1) * twoPow (f.precision - 1) +
        (significand - twoPow (f.precision - 1))
where
  /-- The bit that marks a negative number. -/
  signBit (f : Format) (negative : Bool) : Nat :=
    if negative then twoPow (f.precision - 1 + f.exponentWidth) else 0

/-- Encoding a decoded pattern gives the pattern back, unless it was that of no number. -/
theorem toBits_ofBits (f : Format) {bits : Nat}
    (h : bits < twoPow (f.precision - 1 + f.exponentWidth + 1)) (number : ofBits f bits ≠ nan) :
    (ofBits f bits).toBits f = bits := by
  obtain ⟨precision, w⟩ := f
  generalize hp : precision - 1 = p at h
  -- The pattern is the fraction, then the exponent field, then the sign.
  have split_sign : bits / twoPow (p + w) = bits / twoPow p / twoPow w := by
    rw [twoPow_add, Nat.div_div_eq_div_mul]
  have sign_lt : bits / twoPow p / twoPow w < 2 := by
    rw [← split_sign]
    exact Nat.div_lt_of_lt_mul (by rw [twoPow_succ] at h; exact h)
  have whole : twoPow p * (bits / twoPow p) + bits % twoPow p = bits := Nat.div_add_mod _ _
  have upper :
      twoPow w * (bits / twoPow p / twoPow w) + bits / twoPow p % twoPow w = bits / twoPow p :=
    Nat.div_add_mod _ _
  have fraction_lt : bits % twoPow p < twoPow p := Nat.mod_lt _ (twoPow_pos p)
  have field_lt : bits / twoPow p % twoPow w < twoPow w := Nat.mod_lt _ (twoPow_pos w)
  simp only [ofBits, hp, split_sign] at number ⊢
  generalize bits / twoPow p / twoPow w = sign at *
  generalize bits / twoPow p % twoPow w = field at *
  generalize bits % twoPow p = fraction at *
  have pattern : bits = twoPow (p + w) * sign + twoPow p * field + fraction := by
    rw [← whole, ← upper, Nat.mul_add, twoPow_add, Nat.mul_assoc]
  have sign_bit : toBits.signBit ⟨precision, w⟩ (sign % 2 == 1) = twoPow (p + w) * sign := by
    rcases (by omega : sign = 0 ∨ sign = 1) with rfl | rfl <;> simp [toBits.signBit, hp]
  split
  · next special =>
    split
    · next zero =>
      simp only [toBits, sign_bit, hp]
      rw [pattern, zero, special, Nat.mul_comm (twoPow p)]
      omega
    · next nonzero =>
      simp [special, nonzero] at number
  · split
    · next small =>
      simp only [toBits, sign_bit, hp, fraction_lt, if_true]
      rw [pattern, small]
      omega
    · next normal =>
      have exponent : (Format.leastExponent ⟨precision, w⟩ + (field - 1 : Nat) -
          Format.leastExponent ⟨precision, w⟩).toNat + 1 = field := by omega
      simp only [toBits, sign_bit, hp, exponent]
      rw [if_neg (by omega), pattern, Nat.mul_comm field]
      omega

/-- Whether the number lies in `[0, 1)`. Both zeros do. -/
def isFraction : Binary → Bool
  | finite negative significand exponent =>
    significand == 0 ||
      (!negative && significand * twoPow exponent.toNat < twoPow (-exponent).toNat)
  | _ => false

end Binary

end SoftCache
