import GraphTable.Proofs.Date.Order
import Mathlib.Data.List.TakeWhile

/-!
# Dates read back

Both forms in which a date is stored stand for that date only, and lead back to it:

* **Day numbers** (`ofDayNumber?_dayNumber`): the year is found by taking off whole cycles,
  centuries, leap periods and years (`yearOf_daysBeforeYear`), then the month by taking off whole
  months (`monthOf_take`).
* **Texts** (`read?_text`): the year is read with its sign, if it has one, then month and day, each
  in two digits. This holds of negative years and of years of more than four digits as well.
-/

namespace GraphTable

namespace Text

theorem isBlank_of_isDigit {c : Char} (h : c.isDigit = true) : isBlank c = false := by
  have hc := toNat_of_isDigit h
  simp only [isBlank, Bool.or_eq_false_iff, Bool.and_eq_false_iff, decide_eq_false_iff_not,
    beq_eq_false_iff_ne]
  omega

theorem skipBlanks_cons {c : Char} {cs : List Char} (h : isBlank c = false) :
    skipBlanks (c :: cs) = c :: cs :=
  List.dropWhile_cons_of_neg (by rw [h]; decide)

/-- A text without blanks is not changed by trimming. -/
theorem trimChars_eq_self {cs : List Char} (h : ∀ c ∈ cs, isBlank c = false) :
    trimChars cs = cs := by
  have hskip : ∀ ds : List Char, (∀ c ∈ ds, isBlank c = false) → skipBlanks ds = ds := by
    rintro (_ | ⟨c, ds⟩) hds
    · rfl
    · exact skipBlanks_cons (hds c List.mem_cons_self)
  rw [trimChars, hskip cs h, hskip cs.reverse fun c hc => h c (List.mem_reverse.mp hc),
    List.reverse_reverse]

end Text

namespace Date

/-! ### Day numbers -/

/-- A day of a year leads back to the year, and to the days of it that are over. -/
theorem yearOf_daysBeforeYear (year : Int) {rest : Nat} (h : rest < yearLength year) :
    yearOf (daysBeforeYear year + rest) = (year, rest) := by
  -- whole cycles, and of the last one whole centuries, leap periods and years
  obtain ⟨c, a, p, q, hyear, ha, hp, hq⟩ : ∃ (c : Int) (a p q : Nat),
      year = 400 * c + 100 * a + 4 * p + q + 1 ∧ a ≤ 3 ∧ p ≤ 24 ∧ q ≤ 3 := by
    have hm := Int.emod_nonneg (year - 1) (by decide : (400 : Int) ≠ 0)
    refine ⟨(year - 1) / 400, ((year - 1) % 400).toNat / 100, ((year - 1) % 400).toNat % 100 / 4,
      ((year - 1) % 400).toNat % 4, ?_, ?_, ?_, ?_⟩ <;> omega
  have hdays : daysBeforeYear year = 146097 * c + 36524 * a + 1461 * p + 365 * q := by
    rw [daysBeforeYear]
    omega
  have hrest : rest ≤ 364 ∨ rest = 365 ∧ q = 3 ∧ (p ≤ 23 ∨ a = 3) := by
    simp only [yearLength, isLeap, Bool.and_eq_true, Bool.or_eq_true, beq_iff_eq, bne_iff_ne] at h
    split at h <;> omega
  have hcycle : (daysBeforeYear year + rest) / 146097 = c := by omega
  have hleft : ((daysBeforeYear year + rest) % 146097).toNat =
      36524 * a + 1461 * p + 365 * q + rest := by omega
  have hcentury : min 3 ((36524 * a + 1461 * p + 365 * q + rest) / 36524) = a := by omega
  have hperiods : 36524 * a + 1461 * p + 365 * q + rest - a * 36524 =
      1461 * p + 365 * q + rest := by omega
  have hperiod : (1461 * p + 365 * q + rest) / 1461 = p := by omega
  have hyears : (1461 * p + 365 * q + rest) % 1461 = 365 * q + rest := by omega
  have hlast : min 3 ((365 * q + rest) / 365) = q := by omega
  simp only [yearOf, hcycle, hleft, hcentury, hperiods, hperiod, hyears, hlast, Prod.mk.injEq]
  omega

/-- A day of a month leads back to the month. -/
theorem monthOf_take {lengths : List Nat} {k rest : Nat} (h : rest < lengths[k]?.getD 0)
    (first : Nat) :
    monthOf lengths first ((lengths.take k).foldr (· + ·) 0 + rest) = (first + k, rest + 1) := by
  induction lengths generalizing k first with
  | nil => simp at h
  | cons length lengths ih =>
    rcases k with _ | k
    · have hrest : rest < length := by simpa using h
      simp [monthOf, hrest]
    · have hlater : ¬ length + (lengths.take k).foldr (· + ·) 0 + rest < length := by omega
      rw [List.take_succ_cons, List.foldr_cons, monthOf, if_neg hlater, Nat.add_assoc,
        Nat.add_sub_cancel_left, ih (by simpa using h)]
      congr 1
      omega

/-- The day of a date within its year, counted from 0. -/
theorem daysBeforeMonth_add_lt (d : Date) :
    daysBeforeMonth d.year d.month + (d.day - 1) < yearLength d.year := by
  have hend := daysBeforeMonth_add_le d.year d.month_bounds.1 (n := 13)
    (Nat.lt_succ_of_le d.month_bounds.2) (Nat.le_refl 13)
  obtain ⟨-, -, hpos, hday⟩ := d.isDay
  rw [daysBeforeMonth_end] at hend
  omega

/-- Day numbers stand for their dates. -/
theorem ofDayNumber?_dayNumber (d : Date) : ofDayNumber? d.dayNumber = some d := by
  obtain ⟨hmonth, -⟩ := d.month_bounds
  obtain ⟨-, -, hpos, hday⟩ := d.isDay
  have hbefore : d.dayNumber - 1 = daysBeforeYear d.year +
      ((daysBeforeMonth d.year d.month + (d.day - 1) : Nat) : Int) := by
    rw [dayNumber]
    omega
  have hlength : d.day - 1 < (monthLengths d.year)[d.month - 1]?.getD 0 := by
    rw [monthLength, if_neg (by omega)] at hday
    omega
  have hfound : monthOf (monthLengths d.year) 1 (daysBeforeMonth d.year d.month + (d.day - 1)) =
      (d.month, d.day) := by
    rw [daysBeforeMonth, monthOf_take hlength, Nat.add_sub_cancel' hmonth, Nat.sub_add_cancel hpos]
  rw [ofDayNumber?, hbefore, yearOf_daysBeforeYear d.year d.daysBeforeMonth_add_lt]
  simp only [hfound]
  exact dif_pos d.isDay

/-! ### Texts -/

theorem padded_ne_nil (width n : Nat) : padded width n ≠ [] := by
  obtain ⟨c, cs, hdigits, -⟩ := Text.digits_eq_cons n
  rw [padded, hdigits]
  simp

/-- A number of fixed width is read back, whatever follows it. -/
theorem readDigits?_padded {width n : Nat} (hlen : (padded width n).length = width)
    (rest : List Char) : readDigits? width (padded width n ++ rest) = some (n, rest) := by
  have hskip : Text.skipBlanks (padded width n ++ rest) = padded width n ++ rest := by
    obtain ⟨c, cs, hcs⟩ := List.exists_cons_of_ne_nil (padded_ne_nil width n)
    have hc : c.isDigit = true := isDigit_of_mem_padded (hcs ▸ List.mem_cons_self)
    rw [hcs, List.cons_append, Text.skipBlanks_cons (Text.isBlank_of_isDigit hc)]
  have htake : (padded width n ++ rest).take width = padded width n := List.take_left' hlen
  have hall : (padded width n).takeWhile Char.isDigit = padded width n :=
    List.takeWhile_eq_self_iff.mpr fun c hc => isDigit_of_mem_padded hc
  simp only [readDigits?, hskip, htake, hall]
  rw [if_neg (padded_ne_nil width n), ofDigitChars_padded, List.drop_left]

/-- After a sign, all digits are read. -/
theorem signed?_padded (width n : Nat) (rest : List Char) :
    readYear?.signed? (padded width n ++ '-' :: rest) = some (n, '-' :: rest) := by
  have hall : (padded width n ++ '-' :: rest).takeWhile Char.isDigit = padded width n := by
    rw [List.takeWhile_append_of_pos fun c hc => isDigit_of_mem_padded hc,
      List.takeWhile_cons_of_neg (by decide), List.append_nil]
  simp only [readYear?.signed?, hall]
  rw [if_neg (padded_ne_nil width n), ofDigitChars_padded, List.drop_left]

/-- A year is read back with its sign. -/
theorem readYear?_year (year : Int) (rest : List Char) :
    readYear? (signOf year ++ (padded 4 year.natAbs ++ '-' :: rest)) =
      some (year, '-' :: rest) := by
  rcases Int.lt_or_le year 0 with hneg | hpos
  · have habs : -(year.natAbs : Int) = year := by omega
    rw [signOf, if_pos hneg]
    change (readYear?.signed? (padded 4 year.natAbs ++ '-' :: rest)).map
      (fun read => (-(read.1 : Int), read.2)) = _
    rw [signed?_padded]
    exact congrArg (fun z => some (z, '-' :: rest)) habs
  · have habs : (year.natAbs : Int) = year := by omega
    rw [signOf, if_neg (by omega)]
    by_cases hlater : 9999 < year
    · rw [if_pos hlater]
      change (readYear?.signed? (padded 4 year.natAbs ++ '-' :: rest)).map
        (fun read => ((read.1 : Int), read.2)) = _
      rw [signed?_padded]
      exact congrArg (fun z => some (z, '-' :: rest)) habs
    · -- four digits without a sign
      obtain ⟨c, cs, hcs⟩ := List.exists_cons_of_ne_nil (padded_ne_nil 4 year.natAbs)
      have hc : c.isDigit = true := isDigit_of_mem_padded (hcs ▸ List.mem_cons_self)
      have hread := readDigits?_padded (length_padded (by decide) (by omega : year.natAbs < 10 ^ 4))
        ('-' :: rest)
      rw [if_neg hlater, List.nil_append]
      rw [hcs, List.cons_append] at hread ⊢
      unfold readYear?
      rw [Text.skipBlanks_cons (Text.isBlank_of_isDigit hc)]
      split
      · rename_i heq
        cases heq
        cases hc
      · rename_i heq
        cases heq
        cases hc
      · rw [hread]
        exact congrArg (fun z => some (z, '-' :: rest)) habs

theorem readWhole?_text (d : Date) : readWhole? d.text = some d := by
  have hmonth := length_padded (n := d.month) (by decide : 0 < 2)
    (by have := d.month_bounds; omega)
  have hday := length_padded (n := d.day) (by decide : 0 < 2) (by have := d.day_bounds; omega)
  have hreadday := readDigits?_padded hday []
  rw [List.append_nil] at hreadday
  rw [readWhole?, text_eq, readYear?_year]
  simp only [Option.bind_eq_bind, Option.bind_some, skipHyphen?, readDigits?_padded hmonth,
    hreadday, if_true]
  exact dif_pos d.isDay

/-- The text of a date is read as that date. -/
theorem read?_text (d : Date) : read? d.text = some d := by
  rw [read?, readWhole?_text]
  rfl

theorem isBlank_of_mem_text {d : Date} {c : Char} (h : c ∈ d.text) : Text.isBlank c = false := by
  rcases isDigit_or_sign_of_mem_text h with hdigit | rfl | rfl
  · exact Text.isBlank_of_isDigit hdigit
  · decide
  · decide

end Date

end GraphTable
