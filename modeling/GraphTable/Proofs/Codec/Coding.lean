import GraphTable.Proofs.Codec.Binary
import GraphTable.Proofs.Codec.Pad

/-!
# What the bytes of a value tell

Three facts about codecs decide what can be read off a row key:

* **Widths** are kept (`length_encode`), so the bytes of a field are found in a key.
* **Reversible codecs tell values apart** (`encode_injective`): the bytes of a field stand for
  one value only.
* **Safe bounds are in order** (`compareAs?_encode`): where `preservesOrder` calls a literal safe,
  other values compare with it by their bytes as they do by their values, as far as padding keeps
  the order of the two (`KeepsOrder`). For values that a key may hold there is one exception
  (`compare_encode`). A padded date of a year above 9999 is written with a plus sign in front, and
  its bytes are below those of all stored dates, although the date is above them
  (`compare_encode_of_misplaces`).

Values that a key may hold are `DataType.Storable`. Texts that end in a null character are left out,
since padding makes them equal to shorter ones, and so are dates of years with a sign. Of a literal
only the former is asked.
-/

namespace GraphTable

namespace Value

/-- A text that padding does not make equal to a shorter one. -/
def NoNullAtEnd : Value → Prop
  | string s => s.toList.getLast? ≠ some '\x00'
  | _ => True

instance (v : Value) : Decidable v.NoNullAtEnd := by
  cases v <;> unfold NoNullAtEnd <;> infer_instance

end Value

namespace DataType

/-- A value of a type as keys hold it. -/
structure Storable (type : DataType) (v : Value) : Prop where
  fits : type.fits v = true
  noNullAtEnd : v.NoNullAtEnd
  isPlain : ∀ d, v = .date d → d.IsPlain

end DataType

namespace Codec

/-! ### Encoding values that fit -/

theorem coerceKey_of_fits {type : DataType} {v : Value} (h : type.fits v = true) :
    coerceKey type v = .ok v := by
  rw [coerceKey, DataType.coerce_of_fits h]
  rfl

/-- The bytes of a value of the variant that the type of the codec expects. -/
def write (codec : Codec) (v : Value) : Except StoreError Bytes :=
  match codec with
  | pad _ maxLength => padEncode v maxLength
  | hash _ algorithm => .ok (Bytes.bigEndian 4 (algorithm.hash v.canonicalBytes).toNat)
  | lexicoHash _ algorithm => .ok (hashText (algorithm.hash v.canonicalBytes))
  | native type => nativeEncode type v
  | minByte _ => minByteEncode v

theorem encode_of_fits {codec : Codec} {v : Value} (h : codec.type.fits v = true) :
    codec.encode v = codec.write v := by
  rw [encode, coerceKey_of_fits h]
  cases codec <;> rfl

/-- Any value is brought into one of the type first. -/
theorem exists_write_of_encode {codec : Codec} {v : Value} {b : Bytes}
    (h : codec.encode v = .ok b) :
    ∃ w, codec.type.fits w = true ∧ codec.write w = .ok b := by
  cases hw : codec.type.coerce v with
  | error e =>
    rw [encode, coerceKey, hw] at h
    cases h
  | ok w =>
    have hfits := DataType.fits_of_coerce hw
    refine ⟨w, hfits, ?_⟩
    rw [← encode_of_fits hfits, encode, coerceKey_of_fits hfits]
    rw [encode, coerceKey, hw] at h
    exact h

/-- Everything that a codec writes has the width that it announces. -/
theorem length_encode {codec : Codec} {v : Value} {width : Nat} {b : Bytes}
    (hw : codec.width? = some width) (h : codec.encode v = .ok b) : b.length = width := by
  obtain ⟨w, hfits, h⟩ := exists_write_of_encode h
  cases codec with
  | pad type n =>
    rw [width?] at hw
    split at hw
    · rename_i hn
      cases hw
      exact length_padEncode hn h
    · cases hw
  | hash type algorithm =>
    cases hw
    cases h
    exact Bytes.length_bigEndian 4 _
  | lexicoHash type algorithm =>
    cases hw
    cases h
    exact length_hashText _
  | native type => exact length_nativeEncode hw hfits h
  | minByte type => cases hw

/-! ### The order of values and bytes -/

/--
Whether a codec places a literal below all stored values although it is above them: a date is
padded whose year has more than four digits.
-/
def misplaces (codec : Codec) (literal : Value) : Bool :=
  match codec, literal with
  | pad _ _, .date d => decide (9999 < d.year)
  | _, _ => false

/--
Two values whose order a codec keeps, as far as the second one is a safe bound. Padding makes texts
equal that differ only in null characters at the end, and puts dates in the order of their texts.
-/
def KeepsOrder (codec : Codec) (w v : Value) : Prop :=
  match codec, w, v with
  | pad _ _, .string t, .string s => stripNulls (Text.utf8 t) = stripNulls (Text.utf8 s) → t = s
  | pad _ _, .date e, .date d => e.InTextOrder d
  | _, _, _ => True

private theorem natAbs_lt_of_fit {z : Int} {width : Nat} (hw : 0 < width) (hz : 0 ≤ z)
    (h : (Text.integer z).length ≤ width) : z.natAbs < 10 ^ width := by
  rw [Text.integer, if_neg (by omega)] at h
  exact (Text.length_digits_le hw).mp h

/-- Padded numbers compare with a number that is not negative. -/
theorem compare_padEncode_integral {w v : Value} {y z : Int} {width : Nat} {b c : Bytes}
    (hw : 0 < width) (hy : w.integral? = some y) (hz : v.integral? = some z) (hpos : 0 ≤ z)
    (hb : padEncode w width = .ok b) (hc : padEncode v width = .ok c) :
    Bytes.compare b c = compare y z := by
  obtain ⟨rfl, hyfit⟩ := padEncode_integral hy hb
  obtain ⟨rfl, hzfit⟩ := padEncode_integral hz hc
  exact compare_codes_paddedInteger hw hpos (fun h => natAbs_lt_of_fit hw h (hyfit hw))
    (natAbs_lt_of_fit hw hpos (hzfit hw))

/-- Padded values that are not numbers compare by their texts. -/
theorem compare_padEncode_text {w v : Value} {width : Nat} {b c : Bytes} (hw : 0 < width)
    (hwnum : isNumeric w = false) (hvnum : isNumeric v = false)
    (hdiffer : stripNulls (padBody w) = stripNulls (padBody v) → padBody w = padBody v)
    (hb : padEncode w width = .ok b) (hc : padEncode v width = .ok c) :
    Bytes.compare b c = Bytes.compare (padBody w) (padBody v) := by
  obtain ⟨rfl, hwfit⟩ := padEncode_text hwnum hb
  obtain ⟨rfl, hvfit⟩ := padEncode_text hvnum hc
  have hwlen := hwfit hw
  have hvlen := hvfit hw
  exact compare_fillBack (by omega) hdiffer

theorem getLast?_padBody_string {s : String} (h : (Value.string s).NoNullAtEnd) :
    (padBody (.string s)).getLast? ≠ some 0 :=
  fun hlast => h ((Text.utf8_getLast?_iff s).mp hlast)

theorem getLast?_padBody_date (d : Date) : (padBody (.date d)).getLast? ≠ some 0 :=
  d.getLast?_utf8_text

/-- Padded dates compare by their texts. -/
theorem compare_padEncode_date {e d : Date} {width : Nat} {b c : Bytes} (hw : 0 < width)
    (hb : padEncode (.date e) width = .ok b) (hc : padEncode (.date d) width = .ok c) :
    Bytes.compare b c =
      Bytes.compare (Text.utf8 (String.ofList e.text)) (Text.utf8 (String.ofList d.text)) := by
  refine compare_padEncode_text hw rfl rfl (fun h => ?_) hb hc
  rwa [stripNulls_eq_self (getLast?_padBody_date e),
    stripNulls_eq_self (getLast?_padBody_date d)] at h

/-- A padded whole number that is a safe bound is in order among the numbers of its type. -/
private theorem compareAs?_padEncode_integral {type : DataType} {w v : Value} {z : Int}
    {width : Nat} {b c : Bytes} (hw : 0 < width) (hfits : type.fits w = true)
    (hv : type.fits v = true) (hz : v.integral? = some z) (hpos : 0 ≤ z)
    (hb : padEncode w width = .ok b) (hc : padEncode v width = .ok c) :
    Value.compareAs? type.flavor w v = some (Bytes.compare b c) := by
  obtain ⟨y, hy⟩ := DataType.exists_integral? (DataType.flavor_eq_integral hz hv) hfits
  rw [compare_padEncode_integral hw hy hz hpos hb hc]
  exact DataType.compareAs?_number hfits hv (Value.number?_of_integral? hy)
    (Value.number?_of_integral? hz)

/-- Padding keeps a value and a safe bound in order, unless it makes them equal or the text of a
date puts it elsewhere. -/
private theorem compareAs?_padEncode {type : DataType} {width : Nat} {w v : Value} {b c : Bytes}
    (hother : type.flavor ≠ .other) (hfits : type.fits w = true) (hv : type.fits v = true)
    (hsafe : (pad type width).preservesOrder v = true)
    (hkeeps : (pad type width).KeepsOrder w v) (hb : padEncode w width = .ok b)
    (hc : padEncode v width = .ok c) :
    Value.compareAs? type.flavor w v = some (Bytes.compare b c) := by
  have hcoerce : (pad type width).type.coerce v = .ok v := DataType.coerce_of_fits hv
  rw [preservesOrder, hcoerce] at hsafe
  cases v with
  | bool e =>
    have hwidth : 0 < width := of_decide_eq_true hsafe
    exact compareAs?_padEncode_integral hwidth hfits hv rfl (by cases e <;> decide) hb hc
  | int i =>
    obtain ⟨hwidth, hi⟩ : 0 < width ∧ 0 ≤ i := by simpa using hsafe
    exact compareAs?_padEncode_integral hwidth hfits hv rfl (Int64.le_iff_toInt_le.mp hi) hb hc
  | float x => cases hsafe
  | string s =>
    have hwidth : 0 < width := of_decide_eq_true hsafe
    obtain ⟨t, rfl, hcmp⟩ := DataType.compareAs?_string hfits hv
    have hdiffer : stripNulls (padBody (.string t)) = stripNulls (padBody (.string s)) →
        padBody (.string t) = padBody (.string s) := fun h => congrArg Text.utf8 (hkeeps h)
    rw [hcmp, compare_padEncode_text hwidth rfl rfl hdiffer hb hc]
    rfl
  | date d =>
    have hwidth : 0 < width := of_decide_eq_true hsafe
    obtain ⟨e, rfl, hcmp⟩ := DataType.compareAs?_date hfits hv
    have horder : e.InTextOrder d := hkeeps
    rw [hcmp, compare_padEncode_date hwidth hb hc, Date.compare_utf8_text_of_inTextOrder horder]
  | bytes bs => exact absurd (DataType.flavor_of_fits_bytes hv) hother

theorem nativeEncode_string (type : DataType) (s : String) :
    nativeEncode type (.string s) = .ok (Text.utf8 s) := by
  cases type <;> rfl

/-- Binary forms are safe bounds for truth values and texts, and these are in order. -/
private theorem compareAs?_nativeEncode {type : DataType} {w v : Value} {b c : Bytes}
    (hother : type.flavor ≠ .other) (hfits : type.fits w = true) (hv : type.fits v = true)
    (hsafe : (native type).preservesOrder v = true) (hb : nativeEncode type w = .ok b)
    (hc : nativeEncode type v = .ok c) :
    Value.compareAs? type.flavor w v = some (Bytes.compare b c) := by
  have hcoerce : (native type).type.coerce v = .ok v := DataType.coerce_of_fits hv
  rw [preservesOrder, hcoerce] at hsafe
  cases v with
  | bool e =>
    obtain rfl : type = .boolean := by cases type <;> first | rfl | cases hv
    cases w with
    | bool f =>
      cases hb
      cases hc
      cases e <;> cases f <;> rfl
    | _ => cases hfits
  | string s =>
    obtain ⟨t, rfl, hcmp⟩ := DataType.compareAs?_string hfits hv
    rw [nativeEncode_string] at hb hc
    cases hb
    cases hc
    exact hcmp
  | bytes bs => exact absurd (DataType.flavor_of_fits_bytes hv) hother
  | int i => cases hsafe
  | float x => cases hsafe
  | date d => cases hsafe

/--
Where a literal is a safe bound, values compare with it by their bytes as they do by their values,
as far as the codec keeps their order.
-/
theorem compareAs?_encode {codec : Codec} {w v : Value} {b c : Bytes}
    (hflavor : codec.type.flavor ≠ .other) (hw : codec.type.fits w = true)
    (hv : codec.type.fits v = true) (hsafe : codec.preservesOrder v = true)
    (hkeeps : codec.KeepsOrder w v) (hb : codec.encode w = .ok b) (hc : codec.encode v = .ok c) :
    Value.compareAs? codec.type.flavor w v = some (Bytes.compare b c) := by
  rw [encode_of_fits hw] at hb
  rw [encode_of_fits hv] at hc
  have hbound := hsafe
  rw [preservesOrder, DataType.coerce_of_fits hv] at hbound
  cases codec with
  | pad type n => exact compareAs?_padEncode hflavor hw hv hsafe hkeeps hb hc
  | native type => exact compareAs?_nativeEncode hflavor hw hv hsafe hb hc
  -- hashes and shortest forms have no safe bounds
  | hash type algorithm => cases hbound
  | lexicoHash type algorithm => cases hbound
  | minByte type => cases hbound

/-- The order of stored values and a literal is kept, unless the codec misplaces that. -/
theorem keepsOrder_of_storable {codec : Codec} {w v : Value} (hw : codec.type.Storable w)
    (hnull : v.NoNullAtEnd) (hplaced : codec.misplaces v = false) : codec.KeepsOrder w v := by
  obtain ⟨-, hwnull, hplain⟩ := hw
  unfold KeepsOrder
  split
  · rename_i t s
    intro hstrip
    change stripNulls (padBody (.string t)) = stripNulls (padBody (.string s)) at hstrip
    rw [stripNulls_eq_self (getLast?_padBody_string hwnull),
      stripNulls_eq_self (getLast?_padBody_string hnull)] at hstrip
    exact Text.utf8_injective hstrip
  · rename_i e d
    have hyear : ¬ 9999 < d.year := of_decide_eq_false hplaced
    obtain ⟨hlow, hhigh⟩ := hplain e rfl
    exact .inr (.inl ⟨hhigh, by omega, .inl hlow⟩)
  · trivial

/--
Where a literal is a safe bound, stored values compare with it by their bytes as they do by
their values, unless the codec misplaces it.
-/
theorem compare_encode {codec : Codec} {w v : Value} {b c : Bytes}
    (hflavor : codec.type.flavor ≠ .other) (hw : codec.type.Storable w)
    (hv : codec.type.fits v = true) (hnull : v.NoNullAtEnd)
    (hsafe : codec.preservesOrder v = true) (hplaced : codec.misplaces v = false)
    (hb : codec.encode w = .ok b) (hc : codec.encode v = .ok c) :
    Value.compareAs? codec.type.flavor w v = some (Bytes.compare b c) :=
  compareAs?_encode hflavor hw.fits hv hsafe (keepsOrder_of_storable hw hnull hplaced) hb hc

/-- A misplaced literal is above all stored values, and its bytes are below theirs. -/
theorem compare_encode_of_misplaces {codec : Codec} {w v : Value} {b c : Bytes}
    (hw : codec.type.Storable w) (hv : codec.type.fits v = true)
    (hsafe : codec.preservesOrder v = true) (hplaced : codec.misplaces v = true)
    (hb : codec.encode w = .ok b) (hc : codec.encode v = .ok c) :
    Value.compareAs? codec.type.flavor w v = some .lt ∧ Bytes.compare b c = .gt := by
  obtain ⟨hfits, hwnull, hplain⟩ := hw
  rw [encode_of_fits hfits] at hb
  rw [encode_of_fits hv] at hc
  rw [preservesOrder, DataType.coerce_of_fits hv] at hsafe
  obtain ⟨type, n, rfl, d, rfl, hyear⟩ :
      ∃ type n, codec = pad type n ∧ ∃ d, v = .date d ∧ 9999 < d.year := by
    unfold misplaces at hplaced
    split at hplaced
    · exact ⟨_, _, rfl, _, rfl, of_decide_eq_true hplaced⟩
    · cases hplaced
  have hn : 0 < n := of_decide_eq_true hsafe
  obtain ⟨e, rfl, hcmp⟩ := DataType.compareAs?_date hfits hv
  have hplain := hplain e rfl
  refine ⟨hcmp.trans (congrArg some ?_), ?_⟩
  · -- the year of a stored date has four digits
    exact Date.compare_eq_lt_iff.mpr (.inl (Int.lt_of_le_of_lt hplain.2 hyear))
  · rw [compare_padEncode_date hn hb hc, Date.compare_utf8_text hplain, if_pos hyear]

/-! ### Telling values apart -/

theorem fillBack_injective {x y : Bytes} {m n : Nat} (hx : x.getLast? ≠ some 0)
    (hy : y.getLast? ≠ some 0) (h : fillBack m x = fillBack n y) : x = y := by
  have hlen := congrArg List.length h
  rw [length_fillBack, length_fillBack] at hlen
  have hdiffer : stripNulls x = stripNulls y → x = y := by
    rw [stripNulls_eq_self hx, stripNulls_eq_self hy]
    exact id
  rw [← Bytes.compare_eq_eq, ← compare_fillBack hlen hdiffer]
  exact Bytes.compare_eq_eq.mpr h

private theorem padBody_injective {w v : Value} {width : Nat} {b : Bytes}
    (hwnum : isNumeric w = false) (hvnum : isNumeric v = false)
    (hwlast : (padBody w).getLast? ≠ some 0) (hvlast : (padBody v).getLast? ≠ some 0)
    (hw : padEncode w width = .ok b) (hv : padEncode v width = .ok b) : padBody w = padBody v := by
  have hfill := (padEncode_text hwnum hw).1.symm.trans (padEncode_text hvnum hv).1
  exact fillBack_injective hwlast hvlast hfill

private theorem padEncode_injective {type : DataType} {width : Nat} {w v : Value} {b : Bytes}
    (hreal : type.flavor ≠ .real) (hother : type.flavor ≠ .other) (hfits : type.fits w = true)
    (hv : type.fits v = true) (hwnull : w.NoNullAtEnd) (hnull : v.NoNullAtEnd)
    (hplain : ∀ d, w = .date d → d.IsPlain) (hb : padEncode w width = .ok b)
    (hc : padEncode v width = .ok b) : w = v := by
  have hnumbers : ∀ z, v.integral? = some z → w = v := by
    intro z hz
    obtain ⟨y, hy⟩ := DataType.exists_integral? (DataType.flavor_eq_integral hz hv) hfits
    have hcodes := (padEncode_integral hy hb).1.symm.trans (padEncode_integral hz hc).1
    have hyz := codes_paddedInteger_injective hcodes
    exact DataType.eq_of_number? hfits hv (Value.number?_of_integral? (hyz ▸ hy))
      (Value.number?_of_integral? hz)
  cases v with
  | bool e => exact hnumbers _ rfl
  | int i => exact hnumbers _ rfl
  | float x => exact absurd (by cases type <;> cases hv <;> rfl) hreal
  | string s =>
    obtain ⟨t, rfl, -⟩ := DataType.compareAs?_string hfits hv
    have htexts : Text.utf8 t = Text.utf8 s :=
      padBody_injective rfl rfl (getLast?_padBody_string hwnull) (getLast?_padBody_string hnull)
        hb hc
    rw [Text.utf8_injective htexts]
  | date d =>
    obtain ⟨e, rfl, -⟩ := DataType.compareAs?_date hfits hv
    have htexts : Text.utf8 (String.ofList e.text) = Text.utf8 (String.ofList d.text) :=
      padBody_injective rfl rfl (getLast?_padBody_date e) (getLast?_padBody_date d) hb hc
    have hcmp := Date.compare_utf8_text (b := d) (hplain e rfl)
    rw [Bytes.compare_eq_eq.mpr htexts] at hcmp
    split at hcmp
    · cases hcmp
    · rw [Date.compare_eq_eq_iff.mp hcmp.symm]
  | bytes bs => exact absurd (DataType.flavor_of_fits_bytes hv) hother

/-- The bytes of a field stand for one value only. -/
theorem encode_injective {codec : Codec} {w v : Value} {b : Bytes}
    (hrev : codec.isReversible = true) (hreal : codec.type.flavor ≠ .real)
    (hother : codec.type.flavor ≠ .other) (hw : codec.type.Storable w)
    (hv : codec.type.fits v = true) (hnull : v.NoNullAtEnd)
    (hb : codec.encode w = .ok b) (hc : codec.encode v = .ok b) : w = v := by
  obtain ⟨hfits, hwnull, hplain⟩ := hw
  rw [encode_of_fits hfits] at hb
  rw [encode_of_fits hv] at hc
  cases codec with
  | pad type n => exact padEncode_injective hreal hother hfits hv hwnull hnull hplain hb hc
  | native type =>
    rcases DataType.number?_or_string hreal hother hv with ⟨z, hz⟩ | ⟨s, rfl⟩
    · obtain ⟨y, hy⟩ := DataType.exists_number? hv hz hfits
      have hyz : y = z := (toInt_nativeEncode hy hfits hb).symm.trans (toInt_nativeEncode hz hv hc)
      exact DataType.eq_of_number? hfits hv (hyz ▸ hy) hz
    · obtain ⟨t, rfl, -⟩ := DataType.compareAs?_string hfits hv
      cases (nativeEncode_string type t).symm.trans hb
      rw [Text.utf8_injective (Except.ok.inj ((nativeEncode_string type s).symm.trans hc))]
  | minByte type =>
    rcases DataType.number?_or_string hreal hother hv with ⟨z, hz⟩ | ⟨s, rfl⟩
    · obtain ⟨y, hy⟩ := DataType.exists_number? hv hz hfits
      have hyz : y = z := (toInt_minByteEncode hy hb).symm.trans (toInt_minByteEncode hz hc)
      exact DataType.eq_of_number? hfits hv (hyz ▸ hy) hz
    · cases hc
  | hash type algorithm => cases hrev
  | lexicoHash type algorithm => cases hrev

end Codec

end GraphTable
