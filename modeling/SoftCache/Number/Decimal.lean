import SoftCache.Number.Binary

/-!
# The shortest decimal of a binary number, and two ways to write it

`Decimal.shortest` is the decimal with the fewest digits among those that read back as the number,
and of those the nearest to it. It is found in exact integer arithmetic: on the grid of one digit,
of two digits, and so on, the two grid points next to the number are tested. `Layout` says where the
decimal point goes; the library writes numbers in two layouts, one for messages and one for
diagnostic texts.
-/

namespace SoftCache

/-- A decimal number `digits * 10 ^ exponent`. -/
structure Decimal where
  /-- The digits, as a number. -/
  digits : Nat
  /-- The power of ten that the last digit stands for. -/
  exponent : Int
deriving DecidableEq

/-- Whether `a * 10 ^ e ≤ b * 2 ^ q`. -/
def decimalAtMost (a : Nat) (e : Int) (b : Nat) (q : Int) : Bool :=
  a * tenPow e.toNat * twoPow (-q).toNat ≤ b * twoPow q.toNat * tenPow (-e).toNat

/-- Whether `b * 2 ^ q ≤ a * 10 ^ e`. -/
def decimalAtLeast (a : Nat) (e : Int) (b : Nat) (q : Int) : Bool :=
  b * twoPow q.toNat * tenPow (-e).toNat ≤ a * tenPow e.toNat * twoPow (-q).toNat

/-- The number of decimal digits; zero has one. -/
def decimalLength (n : Nat) : Nat :=
  (Nat.toDigits 10 n).length

namespace Decimal

/-- The decimal without trailing zeros. -/
def strip (d : Decimal) : Decimal :=
  go (decimalLength d.digits) d
where
  /-- Drops at most the given number of trailing zeros. -/
  go : Nat → Decimal → Decimal
    | 0, d => d
    | n + 1, d =>
      if d.digits % 10 = 0 && d.digits ≠ 0 then go n ⟨d.digits / 10, d.exponent + 1⟩ else d

/-- The decimal exponent of the leading digit of `significand * 2 ^ exponent`. -/
def leadingPlace (significand : Nat) (exponent : Int) : Int :=
  let above : Int := decimalLength (significand * twoPow exponent.toNat) -
    decimalLength (twoPow (-exponent).toNat)
  if decimalAtMost 1 above significand exponent then above else above - 1

/-- Whether the decimal reads back as `significand * 2 ^ exponent`, that is, lies between the
midpoints towards its two neighbours in the format. Below a power of two the neighbour is nearer.
The midpoints themselves belong to an even significand. -/
def readsBack (f : Format) (significand : Nat) (exponent : Int) (d : Decimal) : Bool :=
  let below := if significand = twoPow (f.precision - 1) then 1 else 2
  let low := 4 * significand - below
  let high := 4 * significand + 2
  if significand % 2 = 0 then
    decimalAtLeast d.digits d.exponent low (exponent - 2) &&
      decimalAtMost d.digits d.exponent high (exponent - 2)
  else
    !decimalAtMost d.digits d.exponent low (exponent - 2) &&
      !decimalAtLeast d.digits d.exponent high (exponent - 2)

/-- On the grid with the last place `place`, the point that reads back as
`significand * 2 ^ exponent`, the nearer one if both neighbours do and the upper one on a tie. -/
def onGrid (f : Format) (significand : Nat) (exponent place : Int) : Option Decimal :=
  let numerator := significand * twoPow exponent.toNat * tenPow (-place).toNat
  let denominator := twoPow (-exponent).toNat * tenPow place.toNat
  let lower : Decimal := ⟨numerator / denominator, place⟩
  let upper : Decimal := ⟨numerator / denominator + 1, place⟩
  let lowerFits := 0 < lower.digits && readsBack f significand exponent lower
  let upperFits := readsBack f significand exponent upper
  if lowerFits && upperFits then
    some (if 2 * (numerator % denominator) < denominator then lower else upper)
  else if lowerFits then some lower
  else if upperFits then some upper
  else none

/-- The shortest decimal that reads back as `significand * 2 ^ exponent`. Seventeen digits always
suffice, so the value behind the search is never needed. -/
def shortest (f : Format) (significand : Nat) (exponent : Int) : Decimal :=
  let leading := leadingPlace significand exponent
  let found := (List.range 17).findSome? fun (n : Nat) =>
    onGrid f significand exponent (leading - n)
  (found.getD ⟨significand * twoPow exponent.toNat, 0⟩).strip

end Decimal

/-- Where the decimal point goes. -/
structure Layout where
  /-- Whether a whole number ends in a point and a zero. -/
  pointZero : Bool
  /-- Whether an exponent is written outside the range that is laid out in full. -/
  exponents : Bool

namespace Layout

/-- Numbers in messages are written out in full, and whole numbers have no point. -/
def message : Layout := ⟨false, false⟩

/-- Numbers in diagnostic texts always have a point or an exponent, and an exponent below `10 ^ -4`
and from `10 ^ 16` on. -/
def diagnostic : Layout := ⟨true, true⟩

/-- The digits with the decimal point in its place. -/
def positional (l : Layout) (d : Decimal) : String :=
  let digits := toString d.digits
  let whole : Int := digits.length + d.exponent
  if 0 ≤ d.exponent then
    digits ++ String.ofList (List.replicate d.exponent.toNat '0') ++
      (if l.pointZero then ".0" else "")
  else if 0 < whole then
    String.ofList (digits.toList.take whole.toNat) ++ "." ++
      String.ofList (digits.toList.drop whole.toNat)
  else
    "0." ++ String.ofList (List.replicate (-whole).toNat '0') ++ digits

/-- One digit before the point, and the exponent of that digit after the mark. -/
def scientific (d : Decimal) : String :=
  let digits := (toString d.digits).toList
  let rest := if digits.length ≤ 1 then "" else "." ++ String.ofList (digits.drop 1)
  let exponent : Int := digits.length - 1 + d.exponent
  String.ofList (digits.take 1) ++ rest ++ "e" ++ toString exponent

/-- A decimal other than zero in this layout. -/
def decimal (l : Layout) (d : Decimal) : String :=
  let leading : Int := (toString d.digits).length - 1 + d.exponent
  if l.exponents && (leading < -4 || 16 ≤ leading) then scientific d else l.positional d

/-- The text of a number of the format. -/
def write (l : Layout) (f : Format) : Binary → String
  | .nan => "NaN"
  | .infinite negative => if negative then "-inf" else "inf"
  | .finite negative significand exponent =>
    (if negative then "-" else "") ++
      (if significand = 0 then (if l.pointZero then "0.0" else "0")
       else l.decimal (.shortest f significand exponent))

-- One tenth, the least and the greatest number of a format, both ends of the range that a
-- diagnostic text lays out in full, and the negative zero.
example : message.write .double (.ofBits .double 0x3fb999999999999a) = "0.1" := by decide +kernel
example : message.write .double (.ofBits .double 0x3fd3333333333334) = "0.30000000000000004" := by
  decide +kernel
example : diagnostic.write .double (.ofBits .double 1) = "5e-324" := by decide +kernel
example : diagnostic.write .single (.ofBits .single 0x7f7fffff) = "3.4028235e38" := by
  decide +kernel
example : diagnostic.write .double (.ofBits .double 0x3f1a36e2eb1c432d) = "0.0001" := by
  decide +kernel
example : diagnostic.write .double (.ofBits .double 0x4341c37937e08000) = "1e16" := by
  decide +kernel
example : diagnostic.write .double (.ofBits .double 0x8000000000000000) = "-0.0" := by
  decide +kernel
example : message.write .single (.ofBits .single 0x3f800000) = "1" := by decide +kernel

end Layout

end SoftCache
