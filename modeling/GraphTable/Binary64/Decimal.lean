import GraphTable.Binary64.Basic
import GraphTable.Text.Basic

/-!
# Decimal text of floating-point numbers

Writing chooses the fewest decimal digits that read back as the same number, and of those
the nearest to it (`shortest`); the digits are always written out in full, without an
exponent. Reading takes a numeral with an optional point and exponent, or one of the words
for infinity and not-a-number, and rounds it once; whole numbers are among the numerals
(`exists_read?_of_integer?`).
-/

namespace GraphTable.Binary64

/-! ### The fewest digits -/

/-- A ratio of whole numbers, meant with a positive denominator. -/
private structure Ratio where
  num : Nat
  den : Nat

/-- `num / den` times two to the power `e`. -/
private def Ratio.scaled (num den : Nat) (e : Int) : Ratio :=
  if 0 ≤ e then ⟨num * Nat.pow 2 e.toNat, den⟩ else ⟨num, den * Nat.pow 2 (-e).toNat⟩

/-- The numbers that round to a magnitude lie between two bounds around it. -/
private structure Interval where
  low : Ratio
  value : Ratio
  high : Ratio
  /-- Whether the bounds themselves round to the magnitude. -/
  closed : Bool

/--
The interval of a magnitude `m · 2 ^ e`. Below a power of two the neighbour is only half as
far away as above it.
-/
private def Interval.around (m : Nat) (e : Int) : Interval :=
  let narrow := m == Nat.pow 2 52 && BinaryFormat.double.minExponent < e
  { low := if narrow then .scaled (4 * m - 1) 4 e else .scaled (2 * m - 1) 2 e
    value := .scaled m 1 e
    high := .scaled (2 * m + 1) 2 e
    closed := m % 2 == 0 }

/-- Whether `d` tenths to the power `places` lie in the interval. -/
private def Interval.holds (i : Interval) (d : Nat) (places : Int) : Bool :=
  let (num, den) :=
    if 0 ≤ places then (d, Nat.pow 10 places.toNat) else (d * Nat.pow 10 (-places).toNat, 1)
  let above := i.low.num * den
  let below := num * i.low.den
  let upper := num * i.high.den
  let bound := i.high.num * den
  if i.closed then above ≤ below && upper ≤ bound else above < below && upper < bound

/-- The whole part and the remainder of the value in units of ten to the power `-places`. -/
private def Interval.cutAt (i : Interval) (places : Int) : Nat × Nat × Nat :=
  let (num, den) :=
    if 0 ≤ places then (i.value.num * Nat.pow 10 places.toNat, i.value.den)
    else (i.value.num, i.value.den * Nat.pow 10 (-places).toNat)
  (num / den, num % den, den)

/--
The decimal numbers of `places` decimal places that are next to the value and in the
interval: the nearer one if both are, the greater one on an exact tie.
-/
private def Interval.candidate? (i : Interval) (places : Int) : Option Nat :=
  let (q, r, den) := i.cutAt places
  match i.holds q places, i.holds (q + 1) places with
  | true, true => some (if den ≤ 2 * r then q + 1 else q)
  | true, false => some q
  | false, true => some (q + 1)
  | false, false => none

/-- The first candidate, from `places` decimal places on. -/
private def Interval.search (i : Interval) : Nat → Int → Nat × Int
  | 0, places => ((i.cutAt places).1, places)
  | fuel + 1, places =>
    match i.candidate? places with
    | some d => (d, places)
    | none => i.search fuel (places + 1)

/--
The fewest decimal digits that read back as a finite magnitude other than zero, as a whole
number `d` and a count `places` of decimal places: the number is `d · 10 ^ (-places)`. The
search starts above the first digit; seventeen digits always suffice.
-/
def shortest (m : Nat) (e : Int) : Nat × Int :=
  let i := Interval.around m e
  let leading : Int := ((m.log2 : Int) + e) * 30103 / 100000 + 1
  i.search 20 (-leading)

/-! ### Writing -/

/-- The digits of `d · 10 ^ (-places)`, with a point where there are decimal places. -/
def positional (d : Nat) (places : Int) : List Char :=
  if places ≤ 0 then Text.digits (d * Nat.pow 10 (-places).toNat)
  else
    let count := places.toNat
    let whole := Text.digits (d / Nat.pow 10 count)
    let fraction := Text.digits (d % Nat.pow 10 count)
    whole ++ '.' :: (List.replicate (count - fraction.length) '0' ++ fraction)

/-- The text of a number. -/
def text (x : Binary64) : List Char :=
  if x.isNaN then "NaN".toList
  else
    let sign := if x.isNegative then ['-'] else []
    if x.isInfinite then sign ++ "inf".toList
    else if x.isZero then sign ++ ['0']
    else
      let (m, e) := x.parts
      let (d, places) := shortest m e
      sign ++ positional d places

/-! ### Reading -/

/-- The number of a decimal `d · 10 ^ exponent`; far beyond all numbers it need not be computed. -/
def ofDecimal (negative : Bool) (d : Nat) (exponent : Int) : Binary64 :=
  let size : Int := (Text.digits d).length + exponent
  if d = 0 then ofMagnitude negative 0
  else if 400 < size then infinite negative
  else if size < -400 then ofMagnitude negative 0
  else if 0 ≤ exponent then ofRatio negative (d * Nat.pow 10 exponent.toNat) 1
  else ofRatio negative d (Nat.pow 10 (-exponent).toNat)

/-- An exponent: a letter `e`, an optional sign and at least one digit; or nothing. -/
private def exponent? : List Char → Option Int
  | [] => some 0
  | c :: cs => if c = 'e' ∨ c = 'E' then Text.integer? cs else none

/-- A numeral without sign: digits with at most one point among them, then an exponent. -/
private def unsigned? (negative : Bool) (cs : List Char) : Option Binary64 :=
  let whole := cs.takeWhile Char.isDigit
  let rest := cs.dropWhile Char.isDigit
  let (fraction, rest) := match rest with
    | '.' :: more => (more.takeWhile Char.isDigit, more.dropWhile Char.isDigit)
    | _ => ([], rest)
  if whole = [] ∧ fraction = [] then none
  else
    (exponent? rest).map fun e =>
      ofDecimal negative (Nat.ofDigitChars 10 (whole ++ fraction) 0) (e - fraction.length)

/-- A numeral or a word, after the sign. -/
private def magnitude? (negative : Bool) (cs : List Char) : Option Binary64 :=
  let word := cs.map Char.toLower
  if word = "inf".toList ∨ word = "infinity".toList then some (infinite negative)
  else if word = "nan".toList then some (ofMagnitude negative nan.magnitude)
  else unsigned? negative cs

/-- Reads a number: an optional sign, then a numeral or a word. -/
def read? : List Char → Option Binary64
  | '-' :: cs => magnitude? true cs
  | '+' :: cs => magnitude? false cs
  | cs => magnitude? false cs

private theorem exists_magnitude? (negative : Bool) {cs : List Char} {n : Nat}
    (h : Text.natural? cs = some n) : ∃ x, magnitude? negative cs = some x := by
  unfold Text.natural? at h
  split at h
  · rename_i hdigits
    have hall := List.all_eq_true.mp hdigits.2
    have hwhole : (cs ++ []).takeWhile Char.isDigit = cs ++ [] :=
      List.takeWhile_append_of_pos hall
    have hrest : (cs ++ []).dropWhile Char.isDigit = [] :=
      List.dropWhile_append_of_pos hall
    rw [List.append_nil] at hwhole hrest
    have hdecimal : ∃ x, unsigned? negative cs = some x := by
      simp [unsigned?, hwhole, hrest, hdigits.1, exponent?]
    simp only [magnitude?]
    split
    · exact ⟨_, rfl⟩
    · split
      · exact ⟨_, rfl⟩
      · exact hdecimal
  · cases h

/-- Every whole number is read as a real as well. -/
theorem exists_read?_of_integer? {cs : List Char} {z : Int} (h : Text.integer? cs = some z) :
    ∃ x, read? cs = some x := by
  cases cs with
  | nil => cases h
  | cons c cs =>
    by_cases hminus : c = '-'
    · subst hminus
      obtain ⟨n, hn, -⟩ := Option.map_eq_some_iff.mp h
      exact exists_magnitude? true hn
    · by_cases hplus : c = '+'
      · subst hplus
        obtain ⟨n, hn, -⟩ := Option.map_eq_some_iff.mp h
        exact exists_magnitude? false hn
      · have hinteger : Text.integer? (c :: cs) =
            (Text.natural? (c :: cs)).map fun n : Nat => (n : Int) := by
          simp [Text.integer?, hminus, hplus]
        have hread : read? (c :: cs) = magnitude? false (c :: cs) := by
          simp [read?, hminus, hplus]
        rw [hinteger] at h
        obtain ⟨n, hn, -⟩ := Option.map_eq_some_iff.mp h
        rw [hread]
        exact exists_magnitude? false hn

end GraphTable.Binary64
