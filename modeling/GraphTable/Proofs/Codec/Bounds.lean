import GraphTable.Proofs.Codec.Coding

/-!
# Values on either side of a range bound

A range of row keys ends at the bytes of a literal. Such a range selects by value if the bytes of
every other value are on the same side of these bytes as the value is of the literal, and codecs
announce where this is to be so (`preservesOrder`). It is so for all values whose order the codec
keeps (`encode_on_side_of_bound`), whatever signs, lengths or characters they have.

Padding does not keep the order of all values, although it announces to do so:

* Texts that differ only in null characters at the end become equal
  (`encode_eq_of_stripNulls`).
* A date of a year above 9999 is below all earlier ones, since its text begins with a plus sign
  (`encode_lt_of_later`), and dates of negative years are in reverse order
  (`encode_gt_of_negative`).
-/

namespace GraphTable.Codec

/--
The bytes of a value are on that side of the bytes of a safe bound on which the value is of the
bound, as far as the codec keeps their order.
-/
theorem encode_on_side_of_bound {codec : Codec} {w v : Value} {b c : Bytes}
    (hflavor : codec.type.flavor ≠ .other) (hw : codec.type.fits w = true)
    (hv : codec.type.fits v = true) (hsafe : codec.preservesOrder v = true)
    (hkeeps : codec.KeepsOrder w v) (hb : codec.encode w = .ok b) (hc : codec.encode v = .ok c) :
    ∃ o, Value.compareAs? codec.type.flavor w v = some o ∧
      (b < c ↔ o = .lt) ∧ (b = c ↔ o = .eq) ∧ (c < b ↔ o = .gt) := by
  have hcmp := compareAs?_encode hflavor hw hv hsafe hkeeps hb hc
  exact ⟨_, hcmp, Bytes.compare_eq_lt.symm, Bytes.compare_eq_eq.symm, Bytes.compare_eq_gt.symm⟩

/-- A bound among dates. -/
def newYear : Date := ⟨2000, 1, 1, by decide⟩

/-- The bound, in a field of 12 bytes. -/
theorem encode_newYear :
    (pad .date 12).encode (.date newYear) = .ok [50, 48, 48, 48, 45, 48, 49, 45, 48, 49, 0, 0] := by
  rw [encode_of_fits rfl]
  rfl

/-- The day before the bound. -/
def newYearsEve : Date := ⟨1999, 12, 31, by decide⟩

/-- The day before the bound is before it in its bytes as well. -/
theorem encode_newYearsEve_before_newYear :
    ∃ b c, (pad .date 12).preservesOrder (.date newYear) = true ∧
      (pad .date 12).encode (.date newYearsEve) = .ok b ∧
      (pad .date 12).encode (.date newYear) = .ok c ∧ newYearsEve.compare newYear = .lt ∧
      b < c := by
  have hencode : (pad .date 12).encode (.date newYearsEve) =
      .ok [49, 57, 57, 57, 45, 49, 50, 45, 51, 49, 0, 0] := by
    rw [encode_of_fits rfl]
    rfl
  have hkeeps : (pad .date 12).KeepsOrder (.date newYearsEve) (.date newYear) :=
    (by decide : newYearsEve.InTextOrder newYear)
  obtain ⟨o, hcmp, hlt, -, -⟩ :=
    encode_on_side_of_bound (by decide) rfl rfl rfl hkeeps hencode encode_newYear
  cases hcmp
  exact ⟨_, _, rfl, hencode, encode_newYear, rfl, hlt.mpr rfl⟩

/-- A day that is after the bound. -/
def farDay : Date := ⟨12345, 1, 1, by decide⟩

/-- The bytes of the day are before those of the bound, although the bound is announced as safe. -/
theorem encode_farDay_before_newYear :
    ∃ b c, (pad .date 12).width? = some 12 ∧
      (pad .date 12).preservesOrder (.date newYear) = true ∧
      (pad .date 12).encode (.date farDay) = .ok b ∧
      (pad .date 12).encode (.date newYear) = .ok c ∧
      Value.compareAs? DataType.date.flavor (.date farDay) (.date newYear) = some .gt ∧ b < c := by
  have hencode : (pad .date 12).encode (.date farDay) =
      .ok [43, 49, 50, 51, 52, 53, 45, 48, 49, 45, 48, 49] := by
    rw [encode_of_fits rfl]
    rfl
  exact ⟨_, _, rfl, rfl, hencode, encode_newYear, rfl, by decide⟩

/-! ### Values out of order -/

variable {type : DataType} {width : Nat} {b c : Bytes}

theorem encode_of_pad {v : Value} (h : type.fits v = true) :
    (pad type width).encode v = padEncode v width :=
  encode_of_fits h

/-- Padded texts that only differ in null characters at the end have the same bytes. -/
theorem encode_eq_of_stripNulls {s t : String} (hwidth : 0 < width)
    (ht : type.fits (.string t) = true) (hs : type.fits (.string s) = true)
    (hb : (pad type width).encode (.string t) = .ok b)
    (hc : (pad type width).encode (.string s) = .ok c)
    (h : stripNulls (Text.utf8 t) = stripNulls (Text.utf8 s)) : b = c := by
  have hb : padEncode (.string t) width = .ok b := (encode_of_pad ht).symm.trans hb
  have hc : padEncode (.string s) width = .ok c := (encode_of_pad hs).symm.trans hc
  obtain ⟨rfl, htfit⟩ := padEncode_text rfl hb
  obtain ⟨rfl, hsfit⟩ := padEncode_text rfl hc
  have htlen := htfit hwidth
  have hslen := hsfit hwidth
  exact fillBack_eq_of_stripNulls (by omega) h

/-- Padded dates compare by their texts, as an operation on values of a type. -/
private theorem compare_encode_date {e d : Date} (hwidth : 0 < width)
    (he : type.fits (.date e) = true) (hd : type.fits (.date d) = true)
    (hb : (pad type width).encode (.date e) = .ok b)
    (hc : (pad type width).encode (.date d) = .ok c) :
    Bytes.compare b c =
      Bytes.compare (Text.utf8 (String.ofList e.text)) (Text.utf8 (String.ofList d.text)) :=
  compare_padEncode_date hwidth ((encode_of_pad he).symm.trans hb)
    ((encode_of_pad hd).symm.trans hc)

/-- A padded date of a year above 9999 is below all dates of earlier years. -/
theorem encode_lt_of_later {e d : Date} (hwidth : 0 < width)
    (he : type.fits (.date e) = true) (hd : type.fits (.date d) = true)
    (hb : (pad type width).encode (.date e) = .ok b)
    (hc : (pad type width).encode (.date d) = .ok c)
    (hlater : 9999 < e.year) (hearlier : d.year ≤ 9999) : b < c := by
  rw [← Bytes.compare_eq_lt, compare_encode_date hwidth he hd hb hc, Date.utf8_text,
    Date.utf8_text, Bytes.compare_eq_lt]
  exact Date.codes_text_lt_of_later hlater hearlier

/-- Padded dates of two negative years that have equally many digits are in reverse order. -/
theorem encode_gt_of_negative {e d : Date} (hwidth : 0 < width)
    (he : type.fits (.date e) = true) (hd : type.fits (.date d) = true)
    (hb : (pad type width).encode (.date e) = .ok b)
    (hc : (pad type width).encode (.date d) = .ok c) (hneg : d.year < 0)
    (hlen : (Date.padded 4 e.year.natAbs).length = (Date.padded 4 d.year.natAbs).length)
    (hyears : e.year < d.year) : c < b := by
  rw [← Bytes.compare_eq_gt, compare_encode_date hwidth he hd hb hc]
  exact Date.compare_utf8_text_of_negative (by omega) hneg hlen hyears

end GraphTable.Codec
