import SoftCache.Error
import SoftCache.Number.Rounding

/-!
# Load factors

A table with `capacity` buckets takes `LoadFactor.threshold` entries before it grows: the capacity
times the load factor, computed in the format of 64 bits and rounded down. A load factor is accepted
if it is a finite number greater than zero with which a capacity of `2 ^ 32 - 1` admits at least one
entry. Both can be read in exact arithmetic as well, which differs from about `2 ^ 29` buckets on.
-/

namespace SoftCache

/-- A positive load factor `significand * 2 ^ exponent`. -/
structure LoadFactor where
  /-- The significand. -/
  significand : Nat
  /-- The power of two that scales it. -/
  exponent : Int
  /-- The load factor is greater than zero. -/
  positive : 0 < significand
deriving DecidableEq

namespace LoadFactor

/-! ## How much a capacity admits -/

/-- The load factor as a quotient of natural numbers: the dividend. -/
def dividend (f : LoadFactor) : Nat :=
  f.significand * twoPow f.exponent.toNat

/-- The load factor as a quotient of natural numbers: the divisor. -/
def divisor (f : LoadFactor) : Nat :=
  twoPow (-f.exponent).toNat

/-- The dividend is greater than zero, as the load factor is. -/
theorem dividend_pos (f : LoadFactor) : 0 < f.dividend :=
  Nat.mul_pos f.positive (twoPow_pos _)

/-- Nothing is divided by zero. -/
theorem divisor_pos (f : LoadFactor) : 0 < f.divisor :=
  twoPow_pos _

/-- The capacity times the dividend in some arithmetic. -/
def scaledIn (a : Arithmetic) (f : LoadFactor) (capacity : Nat) : Nat :=
  a.round (f.significand * a.round capacity) * twoPow f.exponent.toNat

/-- How many entries a capacity admits in some arithmetic. Neither capacities nor this number are cut
off at the end of a machine word (`le_min_threshold_iff`). -/
def thresholdIn (a : Arithmetic) (f : LoadFactor) (capacity : Nat) : Nat :=
  a.product f.significand f.exponent capacity

/-- How many entries a capacity admits. -/
def threshold (f : LoadFactor) (capacity : Nat) : Nat :=
  f.thresholdIn .double capacity

/-- A threshold is a quotient by the divisor. -/
theorem thresholdIn_eq (a : Arithmetic) (f : LoadFactor) (capacity : Nat) :
    f.thresholdIn a capacity = f.scaledIn a capacity / f.divisor := rfl

/-- In exact arithmetic nothing is added to the product or taken from it. -/
theorem scaledIn_exact (f : LoadFactor) (capacity : Nat) :
    f.scaledIn .exact capacity = capacity * f.dividend := by
  rw [scaledIn, Arithmetic.round, Arithmetic.round, dividend, ← Nat.mul_assoc,
    Nat.mul_comm f.significand]

/-- In exact arithmetic a threshold is the load factor times the capacity, rounded down. -/
theorem thresholdIn_exact (f : LoadFactor) (capacity : Nat) :
    f.thresholdIn .exact capacity = capacity * f.dividend / f.divisor := by
  rw [thresholdIn_eq, scaledIn_exact]

/-- A tenth, as near as a number of 32 bits comes to it, makes the two arithmetics differ. -/
example :
    (⟨13421773, -27, by decide⟩ : LoadFactor).threshold 738197499 = 73819751 ∧
      (⟨13421773, -27, by decide⟩ : LoadFactor).thresholdIn .exact 738197499 = 73819750 := by
  decide +kernel

/-- The product is within a quarter of the exact one, or nearly so. -/
theorem scaledIn_near (a : Arithmetic) (f : LoadFactor) (capacity : Nat) :
    49 * (capacity * f.dividend) ≤ 64 * f.scaledIn a capacity ∧
      64 * f.scaledIn a capacity ≤ 81 * (capacity * f.dividend) := by
  obtain ⟨hbelow, habove⟩ := a.round_mul_near f.significand capacity
  rw [← scaledIn_exact, scaledIn, scaledIn, Arithmetic.round, Arithmetic.round, ← Nat.mul_assoc,
    ← Nat.mul_assoc 64, ← Nat.mul_assoc 81]
  exact ⟨Nat.mul_le_mul_right _ hbelow, Nat.mul_le_mul_right _ habove⟩

/-- More entries than the threshold are more than half the load factor times the capacity. -/
theorem lt_of_thresholdIn_lt {a : Arithmetic} {f : LoadFactor} {capacity entries : Nat}
    (h : f.thresholdIn a capacity < entries) :
    capacity * f.dividend < 2 * entries * f.divisor := by
  have hless : f.scaledIn a capacity < entries * f.divisor :=
    (Nat.div_lt_iff_lt_mul f.divisor_pos).mp h
  obtain ⟨hnear, -⟩ := f.scaledIn_near a capacity
  rw [Nat.mul_assoc]
  omega

/-- A larger capacity admits at least as many entries. -/
theorem thresholdIn_mono (a : Arithmetic) (f : LoadFactor) {small large : Nat} (h : small ≤ large) :
    f.thresholdIn a small ≤ f.thresholdIn a large :=
  a.product_mono f.significand f.exponent h

/-- The largest number in a machine word. -/
def greatestWord : Nat := twoPow 64 - 1

/-- Cut off at the end of a machine word a threshold would admit the same numbers of entries, since
these are counted in such words. -/
theorem le_min_threshold_iff (f : LoadFactor) {capacity entries : Nat}
    (counted : entries ≤ greatestWord) :
    entries ≤ min (f.threshold capacity) greatestWord ↔ entries ≤ f.threshold capacity := by
  rw [Nat.le_min]
  exact and_iff_left counted

/-! ## What is accepted -/

/-- The largest capacity of which it is asked that it admits an entry. -/
def greatestFirstCapacity : Nat := twoPow 32 - 1

/-- The number as a load factor, if it is accepted in some arithmetic. -/
def ofBinaryIn (a : Arithmetic) (given : Binary) : Except ConfigError LoadFactor :=
  match given with
  | .finite false significand exponent =>
    if positive : 0 < significand then
      let f : LoadFactor := ⟨significand, exponent, positive⟩
      if f.thresholdIn a greatestFirstCapacity = 0 then .error (.loadFactorTooSmall given)
      else .ok f
    else .error (.loadFactorNotPositive given)
  | _ => .error (.loadFactorNotPositive given)

/-- The number as a load factor, if it is accepted. -/
def ofBinary (given : Binary) : Except ConfigError LoadFactor :=
  ofBinaryIn .double given

/-- The load factor as a number. -/
def toBinary (f : LoadFactor) : Binary :=
  .finite false f.significand f.exponent

/-- What is accepted is kept as it is. -/
theorem toBinary_of_ofBinaryIn {a : Arithmetic} {given : Binary} {f : LoadFactor}
    (h : ofBinaryIn a given = .ok f) : f.toBinary = given := by
  unfold ofBinaryIn at h
  split at h
  · split at h
    · dsimp only at h
      split at h
      · cases h
      · cases h; rfl
    · cases h
  · cases h

/-- Three quarters, the load factor of a table that is given none. -/
def standard : LoadFactor := ⟨3 * twoPow 22, -24, by decide⟩

end LoadFactor

/-- A load factor is written as a number of 32 bits. -/
instance : Literal LoadFactor :=
  ⟨fun f => Layout.diagnostic.write .single f.toBinary⟩

end SoftCache
