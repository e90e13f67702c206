import GraphTable.Binary64.Basic

/-!
# Arithmetic of floating-point numbers

Each operation computes its exact result as a ratio of whole numbers and rounds it once.
What is left are the cases without a ratio: patterns that are not numbers, infinities,
division by zero and the sign of a zero.
-/

namespace GraphTable.Binary64

/-- The signed whole number that a finite number is at a given exponent not above its own. -/
private def atExponent (x : Binary64) (e : Int) : Int :=
  let (m, own) := x.parts
  let scaled : Int := (m * Nat.pow 2 (own - e).toNat : Nat)
  if x.isNegative then -scaled else scaled

/-- The number nearest to `z` times two to the power `e`. -/
private def ofScaled (negative : Bool) (z : Nat) (e : Int) : Binary64 :=
  if 0 ≤ e then ofRatio negative (z * Nat.pow 2 e.toNat) 1
  else ofRatio negative z (Nat.pow 2 (-e).toNat)

/-- The number with its sign turned. -/
def neg (x : Binary64) : Binary64 :=
  ofMagnitude (!x.isNegative) x.magnitude

/-- The number without its sign. -/
def abs (x : Binary64) : Binary64 :=
  ofMagnitude false x.magnitude

/-- The sum. A sum that is exactly zero is negative only if both terms are negative zeros. -/
def add (x y : Binary64) : Binary64 :=
  if x.isNaN || y.isNaN then nan
  else if x.isInfinite then
    if y.isInfinite && x.isNegative != y.isNegative then nan else x
  else if y.isInfinite then y
  else
    let e := min x.parts.2 y.parts.2
    let z := x.atExponent e + y.atExponent e
    ofScaled (z < 0 || (z == 0 && x.isNegative && y.isNegative)) z.natAbs e

/-- The difference. -/
def sub (x y : Binary64) : Binary64 :=
  add x y.neg

/-- The product. -/
def mul (x y : Binary64) : Binary64 :=
  let negative := x.isNegative != y.isNegative
  if x.isNaN || y.isNaN then nan
  else if x.isInfinite || y.isInfinite then
    if x.isZero || y.isZero then nan else infinite negative
  else
    let (m, e) := x.parts
    let (k, d) := y.parts
    ofScaled negative (m * k) (e + d)

/-- The quotient. A number divided by zero is infinite. -/
def div (x y : Binary64) : Binary64 :=
  let negative := x.isNegative != y.isNegative
  if x.isNaN || y.isNaN then nan
  else if x.isInfinite then
    if y.isInfinite then nan else infinite negative
  else if y.isInfinite then ofMagnitude negative 0
  else if y.isZero then
    if x.isZero then nan else infinite negative
  else
    let (m, e) := x.parts
    let (k, d) := y.parts
    if 0 ≤ e - d then ofRatio negative (m * Nat.pow 2 (e - d).toNat) k
    else ofRatio negative m (k * Nat.pow 2 (d - e).toNat)

/-- The remainder of a division that truncates; it has the sign of the dividend. -/
def rem (x y : Binary64) : Binary64 :=
  if x.isNaN || y.isNaN || x.isInfinite || y.isZero then nan
  else if y.isInfinite then x
  else
    let e := min x.parts.2 y.parts.2
    ofScaled x.isNegative ((x.atExponent e).natAbs % (y.atExponent e).natAbs) e

/-! ### Whole numbers near a number -/

/--
Rounds a finite magnitude to a whole number by a rule that takes the whole part, the
remainder and its denominator. All other patterns stay.
-/
private def roundWith (x : Binary64) (rule : Nat → Nat → Nat → Nat) : Binary64 :=
  if x.isNaN || x.isInfinite then x
  else
    let (m, e) := x.parts
    if 0 ≤ e then x
    else
      let den := Nat.pow 2 (-e).toNat
      ofRatio x.isNegative (rule (m / den) (m % den) den) 1

/-- The greatest whole number not above a number. -/
def floor (x : Binary64) : Binary64 :=
  x.roundWith fun q r _ => if x.isNegative && r != 0 then q + 1 else q

/-- The least whole number not below a number. -/
def ceiling (x : Binary64) : Binary64 :=
  x.roundWith fun q r _ => if !x.isNegative && r != 0 then q + 1 else q

/-- The whole number nearest to a number, a half away from zero. -/
def round (x : Binary64) : Binary64 :=
  x.roundWith fun q r den => if den ≤ 2 * r then q + 1 else q

end GraphTable.Binary64
