import GraphTable.Proofs.Bytes.Order
import GraphTable.Proofs.Text.Bytes

/-!
# The order of dates

A date is stored as its day number or as its text. The two differ in what they keep of the
calendar order:

* **Day numbers** are in the order of the calendar, for all dates (`compare_dayNumber`), and
  fit into four bytes (`dayNumber_bounds`).
* **Texts** are in that order as long as years have four digits. A later year is written with a
  plus sign in front, which comes before all digits: such a date is *below* every date of a year
  from 0 to 9999 (`compare_utf8_text`), and indeed below all earlier ones
  (`codes_text_lt_of_later`). Which dates are in order as texts is `InTextOrder`.
-/

namespace GraphTable.Date

/-! ### Comparing -/

theorem compare_eq_eq_iff {a b : Date} : a.compare b = .eq ↔ a = b := by
  rw [compare, Ordering.then_eq_eq, Ordering.then_eq_eq, Int.compare_eq_eq, Nat.compare_eq_eq,
    Nat.compare_eq_eq, Date.ext_iff]

theorem compare_eq_lt_iff {a b : Date} :
    a.compare b = .lt ↔
      a.year < b.year ∨ a.year = b.year ∧
        (a.month < b.month ∨ a.month = b.month ∧ a.day < b.day) := by
  rw [compare, Ordering.then_eq_lt, Ordering.then_eq_lt, Int.compare_eq_lt, Int.compare_eq_eq,
    Nat.compare_eq_lt, Nat.compare_eq_eq, Nat.compare_eq_lt]

theorem compare_eq_gt_iff {a b : Date} : a.compare b = .gt ↔ b.compare a = .lt := by
  rw [compare_eq_lt_iff, compare, Ordering.then_eq_gt, Ordering.then_eq_gt, Int.compare_eq_gt,
    Int.compare_eq_eq, Nat.compare_eq_gt, Nat.compare_eq_eq, Nat.compare_eq_gt,
    eq_comm (a := a.year), eq_comm (a := a.month)]

/-- Whatever places a date below every later one keeps the order of dates. -/
theorem compare_map {α : Type} (f : Date → α) (cmp : α → α → Ordering)
    (hself : ∀ a, cmp (f a) (f a) = .eq) {P : Date → Prop}
    (hlt : ∀ a b, P a → P b → a.compare b = .lt → cmp (f a) (f b) = .lt)
    (hgt : ∀ a b, P a → P b → a.compare b = .lt → cmp (f b) (f a) = .gt)
    {a b : Date} (ha : P a) (hb : P b) : cmp (f a) (f b) = a.compare b := by
  cases h : a.compare b with
  | lt => exact hlt a b ha hb h
  | eq =>
    obtain rfl := compare_eq_eq_iff.mp h
    exact hself a
  | gt => exact hgt b a hb ha (compare_eq_gt_iff.mp h)

/-! ### Months and days -/

theorem month_bounds (d : Date) : 1 ≤ d.month ∧ d.month ≤ 12 := by
  obtain ⟨-, -, hone, hday⟩ := d.isDay
  by_cases hzero : d.month = 0
  · rw [hzero] at hday
    simp [monthLength] at hday
    omega
  · refine ⟨by omega, ?_⟩
    rcases Nat.lt_or_ge 12 d.month with h | h
    · have hnone : (monthLengths d.year)[d.month - 1]? = none :=
        List.getElem?_eq_none (by change 12 ≤ d.month - 1; omega)
      rw [monthLength, if_neg hzero, hnone] at hday
      simp at hday
      omega
    · exact h

theorem monthLength_le (year : Int) (month : Nat) : monthLength year month ≤ 31 := by
  unfold monthLength
  split
  · omega
  · rcases Nat.lt_or_ge (month - 1) 12 with h | h
    · have hall : ∀ i < 12, (monthLengths year)[i]?.getD 0 ≤ 31 := by
        unfold monthLengths
        cases isLeap year <;> decide
      exact hall _ h
    · rw [List.getElem?_eq_none (by change 12 ≤ month - 1; omega)]
      simp

theorem day_bounds (d : Date) : 1 ≤ d.day ∧ d.day ≤ 31 :=
  ⟨d.isDay.2.2.1, Nat.le_trans d.isDay.2.2.2 (monthLength_le _ _)⟩

/-! ### Day numbers -/

/-- The number of days of a year. -/
def yearLength (year : Int) : Nat :=
  if isLeap year then 366 else 365

theorem daysBeforeYear_add_one (year : Int) :
    daysBeforeYear (year + 1) = daysBeforeYear year + yearLength year := by
  simp only [daysBeforeYear, yearLength, isLeap, Bool.and_eq_true, Bool.or_eq_true, beq_iff_eq,
    bne_iff_ne]
  split <;> omega

theorem daysBeforeYear_mono {y z : Int} (h : y ≤ z) : daysBeforeYear y ≤ daysBeforeYear z := by
  simp only [daysBeforeYear]
  omega

/-- A month ends before the next one begins, and the last month with the year. -/
theorem daysBeforeMonth_add_le (year : Int) {m n : Nat} (hm : 1 ≤ m) (hmn : m < n)
    (hn : n ≤ 13) : daysBeforeMonth year m + monthLength year m ≤ daysBeforeMonth year n := by
  have hpairs : ∀ n, n ≤ 13 → ∀ m, m < n → 1 ≤ m →
      daysBeforeMonth year m + monthLength year m ≤ daysBeforeMonth year n := by
    unfold daysBeforeMonth monthLength monthLengths
    cases isLeap year <;> decide
  exact hpairs n hn m hmn hm

theorem daysBeforeMonth_end (year : Int) : daysBeforeMonth year 13 = yearLength year := by
  unfold daysBeforeMonth yearLength monthLengths
  cases isLeap year <;> rfl

theorem daysBeforeYear_lt_dayNumber (d : Date) : daysBeforeYear d.year < d.dayNumber := by
  have hday := d.day_bounds
  unfold dayNumber
  omega

theorem dayNumber_le (d : Date) : d.dayNumber ≤ daysBeforeYear (d.year + 1) := by
  have hmonth := d.month_bounds
  have hend := daysBeforeMonth_add_le d.year hmonth.1 (n := 13) (by omega) (Nat.le_refl 13)
  have hday := d.isDay.2.2.2
  rw [daysBeforeMonth_end] at hend
  rw [daysBeforeYear_add_one, dayNumber]
  omega

theorem dayNumber_lt_of_compare {a b : Date} (h : a.compare b = .lt) :
    a.dayNumber < b.dayNumber := by
  rcases compare_eq_lt_iff.mp h with hyear | ⟨hyear, hmonth | ⟨hmonth, hday⟩⟩
  -- an earlier year ends, or an earlier month does, before the later date
  · calc a.dayNumber ≤ daysBeforeYear (a.year + 1) := a.dayNumber_le
      _ ≤ daysBeforeYear b.year := daysBeforeYear_mono (by omega)
      _ < b.dayNumber := b.daysBeforeYear_lt_dayNumber
  · have hmonths := daysBeforeMonth_add_le b.year a.month_bounds.1 hmonth
      (Nat.le_trans b.month_bounds.2 (by decide))
    have ha := a.isDay.2.2.2
    have hb := b.day_bounds
    rw [dayNumber, dayNumber, hyear] at *
    omega
  · rw [dayNumber, dayNumber, hyear, hmonth]
    omega

/-- Day numbers are in the order of dates. -/
theorem compare_dayNumber (a b : Date) : Ord.compare a.dayNumber b.dayNumber = a.compare b :=
  compare_map dayNumber Ord.compare (fun _ => Int.compare_eq_eq.mpr rfl)
    (P := fun _ => True)
    (fun _ _ _ _ h => Int.compare_eq_lt.mpr (dayNumber_lt_of_compare h))
    (fun _ _ _ _ h => Int.compare_eq_gt.mpr (dayNumber_lt_of_compare h)) trivial trivial

theorem dayNumber_injective {a b : Date} (h : a.dayNumber = b.dayNumber) : a = b := by
  rw [← compare_eq_eq_iff, ← compare_dayNumber, h]
  exact Int.compare_eq_eq.mpr rfl

/-- Day numbers fit into four bytes. -/
theorem dayNumber_bounds (d : Date) : -2147483648 ≤ d.dayNumber ∧ d.dayNumber < 2147483648 := by
  have hbelow := d.daysBeforeYear_lt_dayNumber
  have habove := d.dayNumber_le
  obtain ⟨hmin, hmax, -⟩ := d.isDay
  simp only [minYear, maxYear] at hmin hmax
  simp only [daysBeforeYear] at hbelow habove
  omega

/-! ### Texts -/

/-- The year of a date has four digits and no sign. -/
def IsPlain (d : Date) : Prop :=
  0 ≤ d.year ∧ d.year ≤ 9999

instance (d : Date) : Decidable d.IsPlain := by
  unfold IsPlain
  infer_instance

/-- The sign in front of a year. -/
def signOf (year : Int) : List Char :=
  if year < 0 then ['-'] else if 9999 < year then ['+'] else []

theorem text_eq (d : Date) :
    d.text = signOf d.year ++ (padded 4 d.year.natAbs ++
      '-' :: (padded 2 d.month ++ '-' :: padded 2 d.day)) := by
  simp [text, signOf]

theorem toNat_lt_of_isDigit {c : Char} (h : c.isDigit = true) : c.toNat < 128 := by
  have := Text.toNat_of_isDigit h
  omega

/-- The text of a date is made of digits, hyphens and at most a plus sign. -/
theorem isDigit_or_sign_of_mem_text {d : Date} {c : Char} (h : c ∈ d.text) :
    c.isDigit = true ∨ c = '-' ∨ c = '+' := by
  have hsign : c ∈ signOf d.year → c = '-' ∨ c = '+' := by
    unfold signOf
    intro h
    repeat' split at h
    · exact .inl (List.mem_singleton.mp h)
    · exact .inr (List.mem_singleton.mp h)
    · cases h
  rw [text_eq] at h
  simp only [List.mem_append, List.mem_cons] at h
  rcases h with h | h | rfl | h | rfl | h
  · exact .inr (hsign h)
  · exact .inl (isDigit_of_mem_padded h)
  · exact .inr (.inl rfl)
  · exact .inl (isDigit_of_mem_padded h)
  · exact .inr (.inl rfl)
  · exact .inl (isDigit_of_mem_padded h)

theorem toNat_lt_of_mem_text {d : Date} {c : Char} (h : c ∈ d.text) : c.toNat < 128 := by
  rcases isDigit_or_sign_of_mem_text h with hdigit | rfl | rfl
  · exact toNat_lt_of_isDigit hdigit
  · decide
  · decide

theorem utf8_text (d : Date) : Text.utf8 (String.ofList d.text) = Text.codes d.text :=
  Text.utf8_ofList fun _ => toNat_lt_of_mem_text

/-- The text of a date ends in a digit. -/
theorem getLast?_utf8_text (d : Date) :
    (Text.utf8 (String.ofList d.text)).getLast? ≠ some 0 := by
  rw [Ne, Text.utf8_getLast?_iff, String.toList_ofList]
  intro h
  have hne : padded 2 d.day ≠ [] := by
    intro hnil
    have hlen := le_length_padded 2 d.day
    simp [hnil] at hlen
  rw [text_eq, ← List.cons_append, ← List.append_assoc, ← List.append_assoc, List.append_cons,
    List.getLast?_append, Option.or_of_isSome (List.getLast?_isSome.mpr hne)] at h
  exact absurd (isDigit_of_mem_padded (List.mem_of_getLast? h)) (by decide)

/-- Texts of one sign and equally many digits compare by the digits. -/
theorem compare_codes_text_of_sign {a b : Date} (hsign : signOf a.year = signOf b.year)
    (hlen : (padded 4 a.year.natAbs).length = (padded 4 b.year.natAbs).length) :
    Bytes.compare (Text.codes a.text) (Text.codes b.text) =
      (Ord.compare a.year.natAbs b.year.natAbs).then
        ((Ord.compare a.month b.month).then (Ord.compare a.day b.day)) := by
  have hmonths : a.month < 10 ^ 2 ∧ b.month < 10 ^ 2 :=
    ⟨by have := a.month_bounds; omega, by have := b.month_bounds; omega⟩
  have hdays : a.day < 10 ^ 2 ∧ b.day < 10 ^ 2 :=
    ⟨by have := a.day_bounds; omega, by have := b.day_bounds; omega⟩
  have hyearlen : (Text.codes (padded 4 a.year.natAbs)).length =
      (Text.codes (padded 4 b.year.natAbs)).length := by
    rw [Text.length_codes, Text.length_codes, hlen]
  have hmonthlen : (Text.codes (padded 2 a.month)).length =
      (Text.codes (padded 2 b.month)).length := by
    rw [length_codes_padded (by decide) hmonths.1, length_codes_padded (by decide) hmonths.2]
  simp only [text_eq, hsign, Text.codes_append, Text.codes_cons]
  rw [Bytes.compare_append_left, Bytes.compare_append hyearlen, Bytes.compare_cons,
    Bytes.compare_append hmonthlen, Bytes.compare_cons,
    compare_codes_padded_of_length hlen, compare_codes_padded (by decide) hmonths.1 hmonths.2,
    compare_codes_padded (by decide) hdays.1 hdays.2]

theorem signOf_of_isPlain {d : Date} (h : d.IsPlain) : signOf d.year = [] := by
  obtain ⟨hlow, hhigh⟩ := h
  unfold signOf
  rw [if_neg (by omega), if_neg (by omega)]

theorem compare_codes_text {a b : Date} (ha : a.IsPlain) (hb : b.IsPlain) :
    Bytes.compare (Text.codes a.text) (Text.codes b.text) = a.compare b := by
  have hsigns : signOf a.year = signOf b.year := by
    rw [signOf_of_isPlain ha, signOf_of_isPlain hb]
  obtain ⟨ha0, ha9⟩ := ha
  obtain ⟨hb0, hb9⟩ := hb
  have hlen : (padded 4 a.year.natAbs).length = (padded 4 b.year.natAbs).length := by
    rw [length_padded (by decide) (by omega), length_padded (by decide) (by omega)]
  rw [compare_codes_text_of_sign hsigns hlen, Text.compare_natAbs ha0 hb0]
  rfl

/-- A text without a sign begins with a digit. -/
theorem exists_codes_text_of_isPlain {d : Date} (h : d.IsPlain) :
    ∃ (c : Char) (cs : Bytes), c.isDigit = true ∧
      Text.codes d.text = UInt8.ofNat c.toNat :: cs := by
  rw [text_eq, signOf_of_isPlain h, List.nil_append]
  cases hpad : padded 4 d.year.natAbs with
  | nil =>
    have hlen := le_length_padded 4 d.year.natAbs
    simp [hpad] at hlen
  | cons c cs =>
    have hc : c ∈ padded 4 d.year.natAbs := hpad ▸ List.mem_cons_self
    exact ⟨c, _, isDigit_of_mem_padded hc, rfl⟩

/-- A text that begins with a sign is below all dates of years without one. -/
theorem codes_text_lt_of_sign {a b : Date} (ha : ¬ a.IsPlain) (hb : b.IsPlain) :
    Text.codes a.text < Text.codes b.text := by
  have hsign : ∃ c ∈ ['-', '+'], signOf a.year = [c] := by
    unfold signOf
    unfold IsPlain at ha
    split
    · exact ⟨'-', by decide, rfl⟩
    · exact ⟨'+', by decide, if_pos (by omega)⟩
  obtain ⟨c, hc, ha⟩ := hsign
  obtain ⟨d, ds, hdigit, hb⟩ := exists_codes_text_of_isPlain hb
  have hd := Text.toNat_of_isDigit hdigit
  have hcd : c.toNat < d.toNat := by
    rcases List.mem_cons.mp hc with rfl | hc
    · change 45 < d.toNat
      omega
    · obtain rfl := List.mem_singleton.mp hc
      change 43 < d.toNat
      omega
  rw [text_eq, ha, hb]
  -- both signs come before all digits
  refine List.cons_lt_cons_iff.mpr (.inl ?_)
  exact (UInt8.ofNat_lt_iff_lt (by change _ < 256; omega) (by change _ < 256; omega)).mpr hcd

/-- The text of a date of a year above 9999 is below the texts of all earlier years. -/
theorem codes_text_lt_of_later {a b : Date} (ha : 9999 < a.year) (hb : b.year ≤ 9999) :
    Text.codes a.text < Text.codes b.text := by
  by_cases hplain : b.IsPlain
  · exact codes_text_lt_of_sign (fun h => absurd h.2 (by omega)) hplain
  · -- a plus sign comes before a minus sign
    have hneg : b.year < 0 := by
      unfold IsPlain at hplain
      omega
    have hplus : signOf a.year = ['+'] := by
      unfold signOf
      rw [if_neg (by omega), if_pos ha]
    have hminus : signOf b.year = ['-'] := if_pos hneg
    rw [text_eq, text_eq, hplus, hminus]
    exact List.cons_lt_cons_iff.mpr (.inl (by decide))

/--
Dates of years from 0 to 9999 compare with other dates as texts as they do by the calendar,
except that later years are below them.
-/
theorem compare_utf8_text {a b : Date} (ha : a.IsPlain) :
    Bytes.compare (Text.utf8 (String.ofList a.text)) (Text.utf8 (String.ofList b.text)) =
      if 9999 < b.year then .gt else a.compare b := by
  rw [utf8_text, utf8_text]
  by_cases hb : b.IsPlain
  · rw [if_neg (by have := hb.2; omega), compare_codes_text ha hb]
  · rw [Bytes.compare_eq_gt.mpr (codes_text_lt_of_sign hb ha)]
    split
    · rfl
    · have hyear : b.year < a.year := by
        have := ha.1
        unfold IsPlain at hb
        omega
      exact (compare_eq_gt_iff.mpr (compare_eq_lt_iff.mpr (.inl hyear))).symm

/--
Two dates whose texts are in the order of the calendar. They are of one year, or of years up to 9999
that are not both negative, or of later years that have equally many digits.
-/
def InTextOrder (a b : Date) : Prop :=
  a.year = b.year ∨ (a.year ≤ 9999 ∧ b.year ≤ 9999 ∧ (0 ≤ a.year ∨ 0 ≤ b.year)) ∨
    (9999 < a.year ∧ 9999 < b.year ∧
      (padded 4 a.year.natAbs).length = (padded 4 b.year.natAbs).length)

instance (a b : Date) : Decidable (a.InTextOrder b) :=
  inferInstanceAs (Decidable (_ ∨ _))

theorem compare_utf8_text_of_inTextOrder {a b : Date} (h : a.InTextOrder b) :
    Bytes.compare (Text.utf8 (String.ofList a.text)) (Text.utf8 (String.ofList b.text)) =
      a.compare b := by
  rw [utf8_text, utf8_text]
  rcases h with hyear | ⟨ha, hb, hneg⟩ | ⟨ha, hb, hlen⟩
  · have hself : Ord.compare a.year.natAbs b.year.natAbs = Ord.compare a.year b.year := by
      rw [hyear, Nat.compare_eq_eq.mpr rfl, Int.compare_eq_eq.mpr rfl]
    rw [compare_codes_text_of_sign (by rw [hyear]) (by rw [hyear]), hself]
    rfl
  · by_cases hplain : a.IsPlain
    · rw [← utf8_text, ← utf8_text, compare_utf8_text hplain, if_neg (by omega)]
    · -- the first date is of a negative year then, and the second is not
      have hyears : a.year < 0 ∧ 0 ≤ b.year := by
        unfold IsPlain at hplain
        omega
      rw [Bytes.compare_eq_lt.mpr (codes_text_lt_of_sign hplain ⟨hyears.2, hb⟩)]
      exact (compare_eq_lt_iff.mpr (.inl (by omega))).symm
  · have hsigns : signOf a.year = signOf b.year := by
      unfold signOf
      rw [if_neg (by omega), if_pos ha, if_neg (by omega), if_pos hb]
    rw [compare_codes_text_of_sign hsigns hlen, Text.compare_natAbs (by omega) (by omega)]
    rfl

/-- Dates of two negative years that have equally many digits are in reverse order as texts. -/
theorem compare_utf8_text_of_negative {a b : Date} (ha : a.year < 0) (hb : b.year < 0)
    (hlen : (padded 4 a.year.natAbs).length = (padded 4 b.year.natAbs).length)
    (hyears : a.year < b.year) :
    Bytes.compare (Text.utf8 (String.ofList a.text)) (Text.utf8 (String.ofList b.text)) = .gt := by
  have hsigns : signOf a.year = signOf b.year := by
    unfold signOf
    rw [if_pos ha, if_pos hb]
  have hgreater : Ord.compare a.year.natAbs b.year.natAbs = .gt :=
    Nat.compare_eq_gt.mpr (by omega)
  rw [utf8_text, utf8_text, compare_codes_text_of_sign hsigns hlen, hgreater]
  rfl

end GraphTable.Date
