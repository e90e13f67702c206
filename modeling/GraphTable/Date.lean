import GraphTable.Text.Basic

/-!
# Calendar dates

Dates of the Gregorian calendar, carried on to all years before its introduction. A date is
its year, month and day, with the proof that there is such a day; dates are ordered by those
three in turn.

* **Day numbers** (`dayNumber`, `ofDayNumber?`): the days are counted through, day 1 being
  the first day of year 1. The cycle of leap years repeats every 400 years, that is every
  146097 days.
* **Text** (`text`, `read?`): the year in at least four digits, then month and day in two,
  with hyphens between; years outside 0 to 9999 carry a sign.
-/

namespace GraphTable

namespace Date

/-! ### The calendar -/

/-- Every fourth year is a leap year, but of the full centuries only every fourth. -/
def isLeap (year : Int) : Bool :=
  year % 4 == 0 && (year % 100 != 0 || year % 400 == 0)

/-- The lengths of the months of a year, in order. -/
def monthLengths (year : Int) : List Nat :=
  [31, if isLeap year then 29 else 28, 31, 30, 31, 30, 31, 31, 30, 31, 30, 31]

/-- The number of days of a month, counted from 1; there are none outside the year. -/
def monthLength (year : Int) (month : Nat) : Nat :=
  if month = 0 then 0 else (monthLengths year)[month - 1]?.getD 0

/-- The years that dates may have. -/
def minYear : Int := -262143

/-- The years that dates may have. -/
def maxYear : Int := 262142

/-- Whether there is such a day. -/
def IsDay (year : Int) (month day : Nat) : Prop :=
  minYear ≤ year ∧ year ≤ maxYear ∧ 1 ≤ day ∧ day ≤ monthLength year month

instance (year : Int) (month day : Nat) : Decidable (IsDay year month day) := by
  unfold IsDay
  infer_instance

end Date

/-- A calendar date. -/
@[ext] structure Date where
  year : Int
  month : Nat
  day : Nat
  isDay : Date.IsDay year month day
  deriving DecidableEq

namespace Date

/-- The date of a year, month and day, if there is such a day. -/
def ofCivil? (year : Int) (month day : Nat) : Option Date :=
  if h : IsDay year month day then some ⟨year, month, day, h⟩ else none

/-- Dates compare by year, then month, then day. -/
def compare (a b : Date) : Ordering :=
  (Ord.compare a.year b.year).then ((Ord.compare a.month b.month).then (Ord.compare a.day b.day))

/-! ### Day numbers -/

/-- The number of days before the first day of a year, from the first day of year 1 on. -/
def daysBeforeYear (year : Int) : Int :=
  let before := year - 1
  365 * before + before / 4 - before / 100 + before / 400

/-- The number of days of a year before the first day of a month. -/
def daysBeforeMonth (year : Int) (month : Nat) : Nat :=
  ((monthLengths year).take (month - 1)).foldr (· + ·) 0

/-- The count of a date through all days; day 1 is the first day of year 1. -/
def dayNumber (d : Date) : Int :=
  daysBeforeYear d.year + daysBeforeMonth d.year d.month + d.day

/-- The month that the day with `rest` days before it falls in, and the day of that month. -/
def monthOf : List Nat → Nat → Nat → Nat × Nat
  | [], month, rest => (month, rest + 1)
  | length :: lengths, month, rest =>
    if rest < length then (month, rest + 1) else monthOf lengths (month + 1) (rest - length)

/--
The year that the day with `before` days before it falls in, and the days of that year before
it. Whole cycles, centuries, leap periods and years are taken off in turn; the last century of
a cycle and the last year of a leap period are one day longer than the others.
-/
def yearOf (before : Int) : Int × Nat :=
  let cycle := before / 146097
  let rest := (before % 146097).toNat
  let century := min 3 (rest / 36524)
  let rest := rest - century * 36524
  let period := rest / 1461
  let rest := rest % 1461
  let year := min 3 (rest / 365)
  (cycle * 400 + century * 100 + period * 4 + year + 1, rest - year * 365)

/-- The date with a given day number, if its year is one that dates may have. -/
def ofDayNumber? (n : Int) : Option Date :=
  let (year, rest) := yearOf (n - 1)
  let (month, day) := monthOf (monthLengths year) 1 rest
  ofCivil? year month day

/-! ### Text -/

/-- The digits of a number, filled up with zeros in front. -/
def padded (width n : Nat) : List Char :=
  let ds := Text.digits n
  List.replicate (width - ds.length) '0' ++ ds

/-- The text of a date. -/
def text (d : Date) : List Char :=
  let sign := if d.year < 0 then ['-'] else if 9999 < d.year then ['+'] else []
  sign ++ padded 4 d.year.natAbs ++ '-' :: padded 2 d.month ++ '-' :: padded 2 d.day

/-- Reads at least one and at most `width` digits, after blanks, and gives the rest. -/
def readDigits? (width : Nat) (cs : List Char) : Option (Nat × List Char) :=
  let cs := Text.skipBlanks cs
  let ds := (cs.take width).takeWhile Char.isDigit
  if ds = [] then none else some (Nat.ofDigitChars 10 ds 0, cs.drop ds.length)

/-- Reads a year, after blanks: any number of digits after a sign, and at most four without. -/
def readYear? (cs : List Char) : Option (Int × List Char) :=
  match Text.skipBlanks cs with
  | '-' :: rest => (signed? rest).map fun (n, rest) => (-(n : Int), rest)
  | '+' :: rest => (signed? rest).map fun (n, rest) => ((n : Int), rest)
  | rest => (readDigits? 4 rest).map fun (n, rest) => ((n : Int), rest)
where
  /-- Reads any number of digits, directly after the sign. -/
  signed? (cs : List Char) : Option (Nat × List Char) :=
    let ds := cs.takeWhile Char.isDigit
    if ds = [] then none else some (Nat.ofDigitChars 10 ds 0, cs.drop ds.length)

/-- Drops a hyphen. -/
def skipHyphen? : List Char → Option (List Char)
  | '-' :: cs => some cs
  | _ => none

/-- Reads a date and nothing after it. Blanks may stand in front of each of its numbers. -/
def readWhole? (cs : List Char) : Option Date := do
  let (year, cs) ← readYear? cs
  let (month, cs) ← readDigits? 2 (← skipHyphen? cs)
  let (day, cs) ← readDigits? 2 (← skipHyphen? cs)
  if cs = [] then ofCivil? year month day else none

/--
Reads a date, or the date that a time stamp begins with: if the whole text is not a date, the
part of it that takes up the first ten bytes may be one.
-/
def read? (cs : List Char) : Option Date :=
  (readWhole? cs).or ((firstBytes? 10 cs).bind readWhole?)
where
  /-- The characters at the front that take up exactly `count` bytes. -/
  firstBytes? : Nat → List Char → Option (List Char)
    | 0, _ => some []
    | _ + 1, [] => none
    | count + 1, c :: cs =>
      if c.utf8Size ≤ count + 1 then
        (firstBytes? (count + 1 - c.utf8Size) cs).map (c :: ·)
      else none

end Date

end GraphTable
