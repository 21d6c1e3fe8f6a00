/-!
# Double-precision numbers in exact arithmetic

A finite double is a sign, a significand and a power of two. Rounding a fraction to the nearest
double is done on natural numbers, so every operation here can be computed and reasoned about
without machine floating point.
-/

namespace ApiClient

/-- The finite double `± significand * 2 ^ exponent`. -/
structure Binary64 where
  negative : Bool
  significand : Nat
  exponent : Int
deriving DecidableEq, Repr

namespace Binary64

/-- The integer nearest to `n / d`; of two equally near ones the even one. -/
def divNearest (n d : Nat) : Nat :=
  let q := n / d
  let r := n % d
  if 2 * r > d ∨ (2 * r = d ∧ q % 2 = 1) then q + 1 else q

/-- `n / d` scaled by `2 ^ (-e)`, as a fraction. -/
def scale (n d : Nat) (e : Int) : Nat × Nat :=
  if e < 0 then (n * Nat.pow 2 (-e).toNat, d) else (n, d * Nat.pow 2 e.toNat)

def minExponent : Int := -1074

def maxExponent : Int := 971

/-- The exponent at which `n / d` has 53 binary digits before the point, within the range of
doubles on the lower side. -/
def exponentOf (n d : Nat) : Int :=
  let e := (n.log2 : Int) - d.log2 - 52
  let (a, b) := scale n d e
  max minExponent (if a < b * Nat.pow 2 52 then e - 1 else e)

/-- The double nearest to `n / d`, ties to the even significand; `none` when it is out of range. -/
def nearest (negative : Bool) (n d : Nat) : Option Binary64 :=
  if n = 0 then some ⟨negative, 0, minExponent⟩ else
  let e := exponentOf n d
  let (a, b) := scale n d e
  let m := divNearest a b
  let (m, e) := if m = Nat.pow 2 53 then (Nat.pow 2 52, e + 1) else (m, e)
  if e > maxExponent then none else some ⟨negative, m, e⟩

def fraction (x : Binary64) : Nat × Nat :=
  scale x.significand 1 (-x.exponent)

/-- The rounded product of the absolute values. -/
def mul (x y : Binary64) : Option Binary64 :=
  nearest x.negative (x.fraction.1 * y.fraction.1) (x.fraction.2 * y.fraction.2)

/-- The rounded quotient of the absolute values. -/
def div (x y : Binary64) : Option Binary64 :=
  nearest x.negative (x.fraction.1 * y.fraction.2) (x.fraction.2 * y.fraction.1)

/-- The double nearest to `digits * 10 ^ exponent`, and `none` when that is out of range. -/
def ofDecimal (negative : Bool) (digits : Nat) (exponent : Int) : Option Binary64 :=
  if digits = 0 then some ⟨negative, 0, minExponent⟩ else
  let size : Int := exponent + (Nat.toDigits 10 digits).length
  if size > 310 then none
  else if size < -330 then some ⟨negative, 0, minExponent⟩
  else if exponent < 0 then nearest negative digits (Nat.pow 10 (-exponent).toNat)
  else nearest negative (digits * Nat.pow 10 exponent.toNat) 1

def powerOfTen (k : Nat) : Option Binary64 :=
  nearest false (Nat.pow 10 k) 1

/-- Divides by `10 ^ 308` as long as the exponent of ten is below `-308` and the value is not zero,
then scales by the rest of the exponent. -/
def scaleSteps : Nat → Binary64 → Int → Option Binary64
  | 0, x, e =>
    if e < 0 then (powerOfTen e.natAbs).bind (div x) else (powerOfTen e.natAbs).bind (mul x)
  | k + 1, x, e =>
    if x.significand = 0 then some x
    else if e < 0 then
      ((powerOfTen 308).bind (div x)).bind fun y => scaleSteps k y (e + 308)
    else none

/-- The double that stands for `digits * 10 ^ exponent` when each factor is rounded before they are
combined, and `none` when it is out of range. -/
def ofScaled (negative : Bool) (digits : Nat) (exponent : Int) : Option Binary64 :=
  (nearest negative digits 1).bind fun x =>
    scaleSteps ((exponent.natAbs - 1) / 308) x exponent

end Binary64

end ApiClient
