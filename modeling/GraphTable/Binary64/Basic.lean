/-!
# Binary floating-point numbers

The 64-bit interchange format as a domain of its own: a number *is* its 64 bits, so that
every pattern, a not-a-number with its payload included, is kept as it was given.

* `BinaryFormat.nearest` is the one rounding of the library. It takes a ratio of whole
  numbers to the nearest magnitude of a format, an exact tie to the even one; reading
  decimals, arithmetic and the change of width are all an exact ratio followed by it.
* `Binary64.parts` is the way back: a finite magnitude as a whole number times a power
  of two.
-/

namespace GraphTable

/-- A binary interchange format, given by the widths of its two fields. -/
structure BinaryFormat where
  /-- The number of bits after the binary point. -/
  fractionBits : Nat
  /-- The number of bits of the exponent. -/
  exponentBits : Nat

namespace BinaryFormat

/-- The format of 32 bits. -/
def single : BinaryFormat := ⟨23, 8⟩

/-- The format of 64 bits. -/
def double : BinaryFormat := ⟨52, 11⟩

/-- The exponent of the last place of the smallest numbers. -/
def minExponent (f : BinaryFormat) : Int :=
  2 - (Nat.pow 2 (f.exponentBits - 1) : Nat) - f.fractionBits

/-- The magnitude pattern of infinity; greater patterns are not numbers. -/
def infinity (f : BinaryFormat) : Nat :=
  (Nat.pow 2 f.exponentBits - 1) * Nat.pow 2 f.fractionBits

/-- A ratio scaled by a power of two, as a new ratio. -/
def scaleDown (num den : Nat) (e : Int) : Nat × Nat :=
  if 0 ≤ e then (num, den * Nat.pow 2 e.toNat) else (num * Nat.pow 2 (-e).toNat, den)

/-- The whole number nearest to a ratio, an exact tie to the even one. -/
def roundToEven (num den : Nat) : Nat :=
  let q := num / den
  let r := num % den
  if 2 * r < den then q else if den < 2 * r then q + 1 else q + q % 2

/--
The magnitude pattern nearest to `num / den`, an exact tie to the even one. The exponent is
that of the last place: the ratio has `fractionBits + 1` binary digits above it, or fewer at
the least exponent.
-/
def nearest (f : BinaryFormat) (num den : Nat) : Nat :=
  if num = 0 then 0
  else
    let low : Int := (num.log2 : Int) - den.log2 - f.fractionBits - 1
    let (n, d) := scaleDown num den low
    let fitted := if d * Nat.pow 2 (f.fractionBits + 1) ≤ n then low + 1 else low
    let e := max f.minExponent fitted
    let (n, d) := scaleDown num den e
    min f.infinity ((e - f.minExponent).toNat * Nat.pow 2 f.fractionBits + roundToEven n d)

/-- A finite magnitude pattern as a whole number times a power of two. -/
def parts (f : BinaryFormat) (pattern : Nat) : Nat × Int :=
  let exponent := pattern / Nat.pow 2 f.fractionBits
  let fraction := pattern % Nat.pow 2 f.fractionBits
  if exponent = 0 then (fraction, f.minExponent)
  else (Nat.pow 2 f.fractionBits + fraction, f.minExponent + exponent - 1)

end BinaryFormat

/-- A floating-point number of 64 bits. -/
structure Binary64 where
  /-- Sign, exponent and fraction, from the top. -/
  bits : UInt64
  deriving DecidableEq, Repr

/-- A floating-point number of 32 bits. -/
structure Binary32 where
  /-- Sign, exponent and fraction, from the top. -/
  bits : UInt32
  deriving DecidableEq, Repr

namespace Binary32

/-- The bits below the sign. -/
def magnitude (x : Binary32) : Nat :=
  x.bits.toNat % Nat.pow 2 31

/-- Whether the sign bit is set. -/
def isNegative (x : Binary32) : Bool :=
  Nat.pow 2 31 ≤ x.bits.toNat

/-- Whether the pattern stands for no number. -/
def isNaN (x : Binary32) : Bool :=
  BinaryFormat.single.infinity < x.magnitude

end Binary32

namespace Binary64

/-- Whether the sign bit is set. -/
def isNegative (x : Binary64) : Bool :=
  Nat.pow 2 63 ≤ x.bits.toNat

/-- The bits below the sign. -/
def magnitude (x : Binary64) : Nat :=
  x.bits.toNat % Nat.pow 2 63

/-- The number of a given sign and magnitude pattern. -/
def ofMagnitude (negative : Bool) (pattern : Nat) : Binary64 :=
  ⟨UInt64.ofNat (pattern % Nat.pow 2 63 + if negative then Nat.pow 2 63 else 0)⟩

/-- Whether the pattern stands for no number. -/
def isNaN (x : Binary64) : Bool :=
  BinaryFormat.double.infinity < x.magnitude

/-- Whether the number is one of the two infinities. -/
def isInfinite (x : Binary64) : Bool :=
  x.magnitude == BinaryFormat.double.infinity

/-- Whether the number is one of the two zeros. -/
def isZero (x : Binary64) : Bool :=
  x.magnitude == 0

/-- The pattern that operations give when they have no number to give. -/
def nan : Binary64 := ⟨0x7FF8000000000000⟩

/-- The infinity of a sign. -/
def infinite (negative : Bool) : Binary64 :=
  ofMagnitude negative BinaryFormat.double.infinity

/-- The number of a given sign nearest to a ratio. -/
def ofRatio (negative : Bool) (num den : Nat) : Binary64 :=
  ofMagnitude negative (BinaryFormat.double.nearest num den)

/-- The number nearest to a whole number. -/
def ofInt (z : Int) : Binary64 :=
  ofRatio (z < 0) z.natAbs 1

/-- The magnitude as a whole number times a power of two. -/
def parts (x : Binary64) : Nat × Int :=
  BinaryFormat.double.parts x.magnitude

/-! ### Order -/

/--
The place of a number in the numeric order, in which both zeros have the same place. It is
meant for numbers only.
-/
def place (x : Binary64) : Int :=
  if x.isNegative then -(x.magnitude : Int) else x.magnitude

/-- How two numbers compare; patterns that are not numbers compare with nothing. -/
def compare? (x y : Binary64) : Option Ordering :=
  if x.isNaN || y.isNaN then none else some (compare x.place y.place)

/--
The place of a pattern in the total order of all patterns: the negative zero is below the
positive one, and patterns that are not numbers stand at the two ends, by their sign.
-/
def totalPlace (x : Binary64) : Int :=
  if x.isNegative then -(x.magnitude : Int) - 1 else x.magnitude

/-- How two patterns compare in the total order. -/
def totalCompare (x y : Binary64) : Ordering :=
  compare x.totalPlace y.totalPlace

/-! ### The format of 32 bits -/

/--
The 32-bit number nearest to a number. A pattern that is not a number keeps its sign and
the top of its payload and becomes quiet.
-/
def toSingle (x : Binary64) : Binary32 :=
  let sign := if x.isNegative then Nat.pow 2 31 else 0
  let pattern :=
    if x.isNaN then
      BinaryFormat.single.infinity + Nat.pow 2 22 + x.magnitude / Nat.pow 2 29 % Nat.pow 2 22
    else if x.isInfinite then BinaryFormat.single.infinity
    else
      let (m, e) := x.parts
      if 0 ≤ e then BinaryFormat.single.nearest (m * Nat.pow 2 e.toNat) 1
      else BinaryFormat.single.nearest m (Nat.pow 2 (-e).toNat)
  ⟨UInt32.ofNat (sign + pattern)⟩

/-- The number of 64 bits that a number of 32 bits is. Not-a-numbers become quiet. -/
def ofSingle (w : Binary32) : Binary64 :=
  if w.isNaN then
    ofMagnitude w.isNegative
      (BinaryFormat.double.infinity + Nat.pow 2 51 + w.magnitude % Nat.pow 2 22 * Nat.pow 2 29)
  else if w.magnitude = BinaryFormat.single.infinity then infinite w.isNegative
  else
    let (m, e) := BinaryFormat.single.parts w.magnitude
    if 0 ≤ e then ofRatio w.isNegative (m * Nat.pow 2 e.toNat) 1
    else ofRatio w.isNegative m (Nat.pow 2 (-e).toNat)

end Binary64

end GraphTable
