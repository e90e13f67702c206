import GraphTable.Predicate.Scalar
import GraphTable.Proofs.Date.Order

/-!
# How the values of a type compare

The values of a type are of one variant, so comparing two of them comes down to comparing numbers,
texts or dates (`compareAs?_number`, `compareAs?_string`, `compareAs?_date`). But for reals, values
compare as equal only if they are (`compareAs?_eq_iff`).

Whole numbers and dates are numbers (`number?`), and a type has one value for each
(`eq_of_number?`).
-/

namespace GraphTable

namespace Value

/-- The number that a value stands for: a whole number, or the number of a day. -/
def number? : Value → Option Int
  | date d => some d.dayNumber
  | v => v.integral?

theorem number?_of_integral? {v : Value} {z : Int} (h : v.integral? = some z) :
    v.number? = some z := by
  cases v <;> first | exact h | cases h

theorem integral_or_date {v : Value} {z : Int} (h : v.number? = some z) :
    v.integral? = some z ∨ ∃ d, v = .date d := by
  cases v with
  | date d => exact .inr ⟨d, rfl⟩
  | _ => exact .inl h

end Value

namespace DataType

/-- Whole numbers are values of integral types only. -/
theorem flavor_eq_integral {type : DataType} {v : Value} {z : Int} (hz : v.integral? = some z)
    (h : type.fits v = true) : type.flavor = .integral := by
  cases v with
  | bool b => cases type <;> first | rfl | cases h
  | int i => cases type <;> first | rfl | cases h
  | _ => cases hz

/-- Values of an integral type are numbers. -/
theorem exists_integral? {type : DataType} {v : Value} (hflavor : type.flavor = .integral)
    (h : type.fits v = true) : ∃ z, v.integral? = some z := by
  cases v with
  | bool b => exact ⟨_, rfl⟩
  | int i => exact ⟨_, rfl⟩
  | float x => cases type <;> cases hflavor <;> cases h
  | string s => cases type <;> cases hflavor <;> cases h
  | date d => cases type <;> cases hflavor <;> cases h
  | bytes bs => cases type <;> cases hflavor <;> cases h

/-- What is neither a real nor left out of comparisons is a number or a text. -/
theorem number?_or_string {type : DataType} {v : Value} (hreal : type.flavor ≠ .real)
    (hother : type.flavor ≠ .other) (h : type.fits v = true) :
    (∃ z, v.number? = some z) ∨ ∃ s, v = .string s := by
  cases v with
  | bool b => exact .inl ⟨_, rfl⟩
  | int i => exact .inl ⟨_, rfl⟩
  | float x => exact absurd (by cases type <;> cases h <;> rfl) hreal
  | string s => exact .inr ⟨s, rfl⟩
  | date d => exact .inl ⟨_, rfl⟩
  | bytes bs => exact absurd (by cases type <;> cases h; rfl) hother

/-- If one value of a type is a number, all are. -/
theorem exists_number? {type : DataType} {v w : Value} {z : Int} (hv : type.fits v = true)
    (hz : v.number? = some z) (hw : type.fits w = true) : ∃ y, w.number? = some y := by
  cases w with
  | bool b => exact ⟨_, rfl⟩
  | int i => exact ⟨_, rfl⟩
  | date d => exact ⟨_, rfl⟩
  | _ =>
    cases v with
    | bool b => cases type <;> cases hv; cases hw
    | int i => cases type <;> cases hv <;> cases hw
    | date d => cases type <;> cases hv; cases hw
    | _ => cases hz

/-- Truth values and whole numbers are values of different types. -/
private theorem eq_of_integral? {type : DataType} {w v : Value} {z : Int}
    (hw : type.fits w = true) (hv : type.fits v = true) (hwz : w.integral? = some z)
    (hvz : v.integral? = some z) : w = v := by
  have hz := hwz.trans hvz.symm
  cases w with
  | bool b =>
    cases v with
    | bool c => cases b <;> cases c <;> first | rfl | cases hz
    | int i => cases type <;> cases hw; cases hv
    | _ => cases hvz
  | int j =>
    cases v with
    | bool b => cases type <;> cases hw <;> cases hv
    | int i => rw [Int64.toInt_inj.mp (Option.some.inj hz)]
    | _ => cases hvz
  | _ => cases hwz

theorem flavor_of_fits_bytes {type : DataType} {bs : Bytes} (h : type.fits (.bytes bs) = true) :
    type.flavor = .other := by
  cases type <;> first | rfl | cases h

theorem compareAs?_string {type : DataType} {w : Value} {s : String}
    (hw : type.fits w = true) (hs : type.fits (.string s) = true) :
    ∃ t, w = .string t ∧ Value.compareAs? type.flavor w (.string s) = some (Text.compare t s) := by
  cases w with
  | string t => exact ⟨t, rfl, by cases type <;> first | rfl | cases hs⟩
  | _ => cases type <;> cases hs <;> cases hw

theorem compareAs?_date {type : DataType} {w : Value} {d : Date} (hw : type.fits w = true)
    (hd : type.fits (.date d) = true) :
    ∃ e, w = .date e ∧ Value.compareAs? type.flavor w (.date d) = some (e.compare d) := by
  cases w with
  | date e => exact ⟨e, rfl, by cases type <;> first | rfl | cases hd⟩
  | _ => cases type <;> cases hd; cases hw

/-- A type has one value for a number. -/
theorem eq_of_number? {type : DataType} {w v : Value} {z : Int} (hw : type.fits w = true)
    (hv : type.fits v = true) (hwz : w.number? = some z) (hvz : v.number? = some z) : w = v := by
  rcases Value.integral_or_date hvz with hvz | ⟨d, rfl⟩
  · obtain ⟨y, hy⟩ := exists_integral? (flavor_eq_integral hvz hv) hw
    obtain rfl : y = z := Option.some.inj ((Value.number?_of_integral? hy).symm.trans hwz)
    exact eq_of_integral? hw hv hy hvz
  · obtain ⟨e, rfl, -⟩ := compareAs?_date hw hv
    rw [Date.dayNumber_injective (Option.some.inj (hwz.trans hvz.symm))]

/-- Numbers compare as such. -/
theorem compareAs?_number {type : DataType} {w v : Value} {y z : Int} (hw : type.fits w = true)
    (hv : type.fits v = true) (hy : w.number? = some y) (hz : v.number? = some z) :
    Value.compareAs? type.flavor w v = some (compare y z) := by
  rcases Value.integral_or_date hz with hz | ⟨d, rfl⟩
  · have hflavor := flavor_eq_integral hz hv
    obtain ⟨x, hx⟩ := exists_integral? hflavor hw
    obtain rfl : x = y := Option.some.inj ((Value.number?_of_integral? hx).symm.trans hy)
    rw [hflavor, Value.compareAs?, hx, hz]
    rfl
  · obtain ⟨e, rfl, hcmp⟩ := compareAs?_date hw hv
    cases hy
    cases hz
    rw [hcmp, Date.compare_dayNumber]

/-- But for reals, values compare as equal only if they are. -/
theorem compareAs?_eq_iff {type : DataType} {w v : Value} (hreal : type.flavor ≠ .real)
    (hother : type.flavor ≠ .other) (hw : type.fits w = true) (hv : type.fits v = true) :
    Value.compareAs? type.flavor w v = some .eq ↔ w = v := by
  rcases number?_or_string hreal hother hv with ⟨z, hz⟩ | ⟨s, rfl⟩
  · obtain ⟨y, hy⟩ := exists_number? hv hz hw
    rw [compareAs?_number hw hv hy hz, Option.some.injEq, Int.compare_eq_eq]
    constructor
    · rintro rfl
      exact eq_of_number? hw hv hy hz
    · rintro rfl
      exact Option.some.inj (hy.symm.trans hz)
  · obtain ⟨t, rfl, hcmp⟩ := compareAs?_string hw hv
    rw [hcmp, Option.some.injEq, Text.compare, Bytes.compare_eq_eq]
    constructor
    · intro h
      rw [Text.utf8_injective h]
    · intro h
      rw [Value.string.inj h]

/-- Only the types left out of comparisons have values that do not compare. -/
theorem exists_compareAs? {type : DataType} {w v : Value} (hreal : type.flavor ≠ .real)
    (hother : type.flavor ≠ .other) (hw : type.fits w = true) (hv : type.fits v = true) :
    ∃ o, Value.compareAs? type.flavor w v = some o := by
  rcases number?_or_string hreal hother hv with ⟨z, hz⟩ | ⟨s, rfl⟩
  · obtain ⟨y, hy⟩ := exists_number? hv hz hw
    exact ⟨_, compareAs?_number hw hv hy hz⟩
  · obtain ⟨t, rfl, hcmp⟩ := compareAs?_string hw hv
    exact ⟨_, hcmp⟩

end DataType

end GraphTable
