import SoftCache.Number.Power

/-!
# Rounding to significant bits

A natural number is rounded to a number of significant bits, the nearest first and a tie to the even
neighbour: `roundTo`. A product is computed in one of two `Arithmetic`s. The library computes in the
format of 64 bits, where a natural number is rounded to 53 bits before it is multiplied, and the
product again. What is proved of products holds of the exact ones as well: they keep the order
(`Arithmetic.product_mono`), and a rounded number is within an eighth of the exact one
(`Arithmetic.round_near`), which is far from the best bound but all that is needed.
-/

namespace SoftCache

/-! ## Rounding a quotient -/

/-- The quotient by `2 ^ places`, rounded to the nearest integer, a tie to the even one. -/
def shiftRounded (value places : Nat) : Nat :=
  let quotient := value / twoPow places
  let rest := value % twoPow places
  let half := twoPow places / 2
  if rest < half || places = 0 then quotient
  else if half < rest then quotient + 1
  else quotient + quotient % 2

/-- A rounded quotient is within half a unit of the exact one. -/
theorem shiftRounded_near (value places : Nat) :
    2 * (shiftRounded value places * twoPow places) ≤ 2 * value + twoPow places ∧
      2 * value ≤ 2 * (shiftRounded value places * twoPow places) + twoPow places := by
  have whole : twoPow places * (value / twoPow places) + value % twoPow places = value :=
    Nat.div_add_mod _ _
  have rest_lt : value % twoPow places < twoPow places := Nat.mod_lt _ (twoPow_pos places)
  rcases Nat.eq_zero_or_pos places with rfl | positive
  · simp [shiftRounded, twoPow_zero]
  · have even : twoPow places = 2 * (twoPow places / 2) := by
      obtain ⟨n, rfl⟩ := Nat.exists_eq_succ_of_ne_zero (Nat.ne_of_gt positive)
      rw [twoPow_succ]
      omega
    simp only [shiftRounded, Nat.ne_of_gt positive, decide_false, Bool.or_false, decide_eq_true_eq]
    generalize value / twoPow places = quotient at *
    generalize value % twoPow places = rest at *
    have tie : quotient % 2 = 0 ∨ quotient % 2 = 1 := by omega
    have plain : quotient * twoPow places = twoPow places * quotient := Nat.mul_comm _ _
    have above : (quotient + 1) * twoPow places = twoPow places * quotient + twoPow places := by
      rw [Nat.add_mul, plain, Nat.one_mul]
    split
    · rw [plain]
      omega
    · split
      · rw [above]
        omega
      · -- On a tie the even neighbour is taken; both are half a unit away.
        rcases tie with tie | tie
        · rw [tie, Nat.add_zero, plain]
          omega
        · rw [tie, above]
          omega

/-- A rounded quotient is the exact one rounded down or the next integer. -/
theorem shiftRounded_bounds (value places : Nat) :
    value / twoPow places ≤ shiftRounded value places ∧
      shiftRounded value places ≤ value / twoPow places + 1 := by
  unfold shiftRounded
  dsimp only
  split
  · omega
  · split <;> omega

/-- Rounding keeps the order. -/
theorem shiftRounded_mono {small large : Nat} (h : small ≤ large) (places : Nat) :
    shiftRounded small places ≤ shiftRounded large places := by
  have hquotient : small / twoPow places ≤ large / twoPow places := Nat.div_le_div_right h
  obtain ⟨-, habove⟩ := shiftRounded_bounds small places
  obtain ⟨hbelow, -⟩ := shiftRounded_bounds large places
  rcases Nat.lt_or_eq_of_le hquotient with hless | hsame
  · omega
  · -- With the same quotient it is the rests that decide.
    have hsmall := Nat.div_add_mod small (twoPow places)
    have hlarge := Nat.div_add_mod large (twoPow places)
    rw [← hsame] at hlarge
    have hrest : small % twoPow places ≤ large % twoPow places := by omega
    unfold shiftRounded at hbelow ⊢
    dsimp only at hbelow ⊢
    rw [← hsame] at hbelow ⊢
    simp only [Bool.or_eq_true, decide_eq_true_eq] at hbelow ⊢
    by_cases hdown : small % twoPow places < twoPow places / 2 ∨ places = 0
    · rw [if_pos hdown]
      exact hbelow
    · have hdown' : ¬(large % twoPow places < twoPow places / 2 ∨ places = 0) := by omega
      rw [if_neg hdown, if_neg hdown']
      by_cases hup : twoPow places / 2 < small % twoPow places
      · exact Nat.le_of_eq ((if_pos hup).trans (if_pos (by omega)).symm)
      · -- The smaller one is a tie, and the larger one a tie as well or rounded up.
        rw [if_neg hup]
        split <;> omega

/-- A multiple of the unit is rounded to itself. -/
theorem shiftRounded_mul (value places : Nat) :
    shiftRounded (value * twoPow places) places = value := by
  have hpos := twoPow_pos places
  rcases Nat.eq_zero_or_pos places with rfl | positive
  · simp [shiftRounded, twoPow_zero]
  · have hhalf : 0 < twoPow places / 2 := by
      obtain ⟨n, rfl⟩ := Nat.exists_eq_succ_of_ne_zero (Nat.ne_of_gt positive)
      have hpos := twoPow_pos n
      rw [twoPow_succ]
      omega
    unfold shiftRounded
    dsimp only
    rw [Nat.mul_mod_left, Nat.mul_div_cancel _ hpos, if_pos (by simp [hhalf])]

/-! ## Rounding a number -/

/-- A natural number rounded to `precision` significant bits. -/
def roundTo (precision value : Nat) : Nat :=
  let places := value.log2 + 1 - precision
  shiftRounded value places * twoPow places

/-- A natural number lies between the power of two of its leading bit and the next one. -/
theorem twoPow_log2_bounds {value : Nat} (h : value ≠ 0) :
    twoPow value.log2 ≤ value ∧ value < twoPow (value.log2 + 1) :=
  ⟨Nat.log2_self_le h, Nat.lt_log2_self⟩

/-- A larger exponent makes a larger power of two. -/
theorem twoPow_mono {small large : Nat} (h : small ≤ large) : twoPow small ≤ twoPow large :=
  Nat.pow_le_pow_right (by omega) h

variable {precision : Nat}

/-- Rounding does not cross the powers of two next to a number. -/
theorem roundTo_bounds (positive : 0 < precision) {value : Nat} (h : value ≠ 0) :
    twoPow value.log2 ≤ roundTo precision value ∧
      roundTo precision value ≤ twoPow (value.log2 + 1) := by
  obtain ⟨hbelow, habove⟩ := twoPow_log2_bounds h
  unfold roundTo
  dsimp only
  generalize hplaces : value.log2 + 1 - precision = places
  -- Both powers are multiples of the unit, so they are rounded to themselves.
  have hmultiple : ∀ n, places ≤ n →
      twoPow n = shiftRounded (twoPow n) places * twoPow places := by
    intro n hn
    have hsplit : twoPow n = twoPow (n - places) * twoPow places := by
      rw [← twoPow_add, Nat.sub_add_cancel hn]
    rw [hsplit, shiftRounded_mul]
  rw [hmultiple value.log2 (by omega), hmultiple (value.log2 + 1) (by omega)]
  rw [hmultiple value.log2 (by omega)] at hbelow
  exact ⟨Nat.mul_le_mul_right _ (shiftRounded_mono (by rwa [← hmultiple _ (by omega)] at hbelow) _),
    Nat.mul_le_mul_right _ (shiftRounded_mono (Nat.le_of_lt habove) _)⟩

/-- Rounding keeps the order. -/
theorem roundTo_mono (positive : 0 < precision) {small large : Nat} (h : small ≤ large) :
    roundTo precision small ≤ roundTo precision large := by
  rcases Nat.eq_zero_or_pos small with rfl | hsmall
  · have hzero : roundTo precision 0 = 0 := by
      have hrounded := shiftRounded_mul 0 (Nat.log2 0 + 1 - precision)
      rw [Nat.zero_mul] at hrounded
      rw [roundTo, hrounded, Nat.zero_mul]
    rw [hzero]
    exact Nat.zero_le _
  · have hlog : small.log2 ≤ large.log2 := (Nat.le_log2 (by omega)).mpr
      (Nat.le_trans (Nat.log2_self_le (by omega)) h)
    rcases Nat.lt_or_eq_of_le hlog with hless | hsame
    · -- A power of two lies between them.
      calc roundTo precision small
        _ ≤ twoPow (small.log2 + 1) := (roundTo_bounds positive (by omega)).2
        _ ≤ twoPow large.log2 := twoPow_mono hless
        _ ≤ roundTo precision large := (roundTo_bounds positive (by omega)).1
    · unfold roundTo
      dsimp only
      rw [hsame]
      exact Nat.mul_le_mul_right _ (shiftRounded_mono h _)

/-- With three significant bits at least, a rounded number is within an eighth of the exact one. -/
theorem roundTo_near (h : 3 ≤ precision) (value : Nat) :
    7 * value ≤ 8 * roundTo precision value ∧ 8 * roundTo precision value ≤ 9 * value := by
  obtain ⟨hover, hunder⟩ := shiftRounded_near value (value.log2 + 1 - precision)
  unfold roundTo
  dsimp only
  generalize hplaces : value.log2 + 1 - precision = places at *
  rcases Nat.eq_zero_or_pos places with rfl | positive
  · simp [shiftRounded, twoPow_zero]
    omega
  · -- A unit of the last place is a quarter of the number at most.
    have hnonzero : value ≠ 0 := by
      rintro rfl
      simp at hplaces
      omega
    have hunit : 4 * twoPow places ≤ value := calc
      4 * twoPow places = twoPow (places + 2) := by
        rw [twoPow_succ, twoPow_succ]
        omega
      _ ≤ twoPow value.log2 := twoPow_mono (by omega)
      _ ≤ value := (twoPow_log2_bounds hnonzero).1
    omega

/-! ## Products -/

/-- How a product is computed. -/
inductive Arithmetic where
  /-- In the format of 64 bits, which has 53 significant ones. -/
  | double
  /-- Without rounding. -/
  | exact
deriving DecidableEq

namespace Arithmetic

/-- A natural number as it is computed with. -/
def round : Arithmetic → Nat → Nat
  | double, value => roundTo 53 value
  | exact, value => value

/-- The product of a natural number and `significand * 2 ^ exponent`, rounded down. -/
def product (a : Arithmetic) (significand : Nat) (exponent : Int) (value : Nat) : Nat :=
  a.round (significand * a.round value) * twoPow exponent.toNat / twoPow (-exponent).toNat

variable (a : Arithmetic)

/-- Rounding keeps the order. -/
theorem round_mono {small large : Nat} (h : small ≤ large) : a.round small ≤ a.round large := by
  cases a with
  | double => exact roundTo_mono (by omega) h
  | exact => exact h

/-- What is computed with is within an eighth of the number. -/
theorem round_near (value : Nat) :
    7 * value ≤ 8 * a.round value ∧ 8 * a.round value ≤ 9 * value := by
  cases a with
  | double => exact roundTo_near (by omega) value
  | exact =>
    rw [round]
    omega

/-- A product keeps the order. -/
theorem product_mono (significand : Nat) (exponent : Int) {small large : Nat} (h : small ≤ large) :
    a.product significand exponent small ≤ a.product significand exponent large :=
  Nat.div_le_div_right (Nat.mul_le_mul_right _
    (a.round_mono (Nat.mul_le_mul_left _ (a.round_mono h))))

/-- The numerator of a product is within a quarter of the exact one, or nearly so. -/
theorem round_mul_near (significand value : Nat) :
    49 * (significand * value) ≤ 64 * a.round (significand * a.round value) ∧
      64 * a.round (significand * a.round value) ≤ 81 * (significand * value) := by
  obtain ⟨hbelow, habove⟩ := a.round_near value
  obtain ⟨hbelow', habove'⟩ := a.round_near (significand * a.round value)
  have hless : significand * (7 * value) ≤ significand * (8 * a.round value) :=
    Nat.mul_le_mul_left _ hbelow
  have hmore : significand * (8 * a.round value) ≤ significand * (9 * value) :=
    Nat.mul_le_mul_left _ habove
  rw [Nat.mul_left_comm, Nat.mul_left_comm significand 8] at hless
  rw [Nat.mul_left_comm, Nat.mul_left_comm significand 9] at hmore
  omega

end Arithmetic

end SoftCache
