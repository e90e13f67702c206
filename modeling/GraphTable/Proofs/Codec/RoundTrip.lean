import GraphTable.Proofs.Codec.Coding
import GraphTable.Proofs.Date.Reading

/-!
# Key fields read back

Truth values, whole numbers and dates are read back from the bytes that a reversible codec writes
for them (`decode_encode`). Each kind has its own reason:

* **Padded** numbers stand between a sign and the zeros in front of their digits, and reading takes
  just these zeros away, since digits do not begin with a zero unless it is the only one
  (`stripZeros_paddedInteger`). The text of a date has no null byte at its end to lose.
* **Binary** forms have the width that their type is read from, and are read as the number that was
  written (`toInt_nativeEncode`).
* **Shortest** forms keep at least one byte (`readSigned_shortestSigned`), and so does a day number,
  which has room in 32 bits.

Whole numbers are within the bounds of their type here (`Holds`). Coercing leaves others as they
are, so that padding writes them too, but no reader of the type takes their text.
-/

namespace GraphTable

namespace Text

theorem isBlank_of_mem_integer {z : Int} {c : Char} (h : c ∈ integer z) : isBlank c = false := by
  unfold integer at h
  split at h
  · rcases List.mem_cons.mp h with rfl | hdigit
    · decide
    · exact isBlank_of_isDigit (isDigit_of_mem_digits hdigit)
  · exact isBlank_of_isDigit (isDigit_of_mem_digits h)

/-- A word is read back from its digits. -/
theorem word?_integer (i : Int64) : word? (integer i.toInt) = some i := by
  have hbounds : Int64.minValue.toInt ≤ i.toInt ∧ i.toInt ≤ Int64.maxValue.toInt :=
    ⟨Int64.minValue_le_toInt i, Int64.toInt_le i⟩
  rw [word?, integer?_integer, Option.bind_some, if_pos hbounds, Int64.ofInt_toInt]

/-- Digits do not begin with a zero that is not the only one. -/
theorem digits_zero_cons {n : Nat} {cs : List Char} (h : digits n = '0' :: cs) : cs = [] := by
  by_contra hne
  have hpos : 0 < cs.length := List.length_pos_iff.mpr hne
  have hdigits : ∀ c ∈ cs, c.isDigit = true := fun c hc =>
    isDigit_of_mem_digits (h ▸ List.mem_cons_of_mem '0' hc)
  -- the digits after the zero denote the number as well, and are fewer
  have hread : n = Nat.ofDigitChars 10 cs 0 := by
    have hall := ofDigitChars_digits n
    rw [h, ofDigitChars_cons] at hall
    simpa using hall.symm
  have hfew : (digits n).length ≤ cs.length :=
    (length_digits_le hpos).mpr (hread ▸ ofDigitChars_lt hdigits)
  rw [h, List.length_cons] at hfew
  omega

end Text

namespace DataType

/-- A value of a type, and within its bounds if it is a whole number. -/
structure Holds (type : DataType) (v : Value) : Prop where
  fits : type.fits v = true
  inBounds : ∀ i, v = .int i → type.integralBounds.1 ≤ i ∧ i ≤ type.integralBounds.2

/-- The digits of a whole number are read as the number, if it is within the bounds of the type. -/
theorem readInt_text (type : DataType) (i : Int64) :
    type.readInt (Value.int i).text =
      if i < type.integralBounds.1 ∨ type.integralBounds.2 < i then
        .error (.outOfRange (Value.int i).text type)
      else .ok (.int i) := by
  have htext : (Value.int i).text = String.ofList (Text.integer i.toInt) := rfl
  have hword : Text.word? (Text.trimChars (Value.int i).text.toList) = some i := by
    rw [htext, String.toList_ofList, Text.trimChars_eq_self fun _ => Text.isBlank_of_mem_integer,
      Text.word?_integer]
  rw [readInt, hword]

/-- A whole number within the bounds of a type is read back from its digits. -/
theorem readInt_integer {type : DataType} {i : Int64}
    (h : type.integralBounds.1 ≤ i ∧ i ≤ type.integralBounds.2) :
    type.readInt (String.ofList (Text.integer i.toInt)) = .ok (.int i) := by
  have hinside : ¬ (i < type.integralBounds.1 ∨ type.integralBounds.2 < i) :=
    not_or.mpr ⟨Int64.not_lt.mpr h.1, Int64.not_lt.mpr h.2⟩
  exact (readInt_text type i).trans (if_neg hinside)

/-- The variants of the integral types and of dates. -/
theorem variant_of_fits {type : DataType} {v : Value}
    (htype : type.flavor = .integral ∨ type = .date) (h : type.fits v = true) :
    (∃ b, type = .boolean ∧ v = .bool b) ∨
      (∃ i, type.flavor = .integral ∧ type ≠ .boolean ∧ v = .int i) ∨
        ∃ d, type = .date ∧ v = .date d := by
  cases v with
  | bool b =>
    obtain rfl : type = .boolean := by cases type <;> first | rfl | cases h
    exact .inl ⟨b, rfl, rfl⟩
  | int i =>
    refine .inr (.inl ⟨i, flavor_eq_integral rfl h, ?_, rfl⟩)
    rintro rfl
    cases h
  | date d =>
    obtain rfl : type = .date := by cases type <;> first | rfl | cases h
    exact .inr (.inr ⟨d, rfl, rfl⟩)
  | float _ | string _ | bytes _ =>
    rcases htype with hflavor | rfl
    · obtain ⟨z, hz⟩ := exists_integral? hflavor h
      cases hz
    · cases h

/-- The integral types but for truth values are read as whole numbers. -/
theorem read_integral {type : DataType} (hflavor : type.flavor = .integral)
    (hbool : type ≠ .boolean) (text : String) : type.read text = type.readInt text := by
  cases type <;> first | rfl | exact absurd rfl hbool | cases hflavor

theorem read_date (d : Date) : read .date (String.ofList d.text) = .ok (.date d) := by
  rw [read, String.toList_ofList, Text.trimChars_eq_self fun _ => Date.isBlank_of_mem_text,
    Date.read?_text]
  rfl

end DataType

namespace Codec

/-! ### Padded values -/

theorem dropZeros_digits (n : Nat) : dropZeros (Text.digits n) = Text.digits n := by
  unfold dropZeros
  split
  · rename_i hdigits
    cases Text.digits_zero_cons hdigits
  · rfl

/-- The zeros in front of digits are dropped. -/
theorem dropZeros_padded (width n : Nat) : dropZeros (Date.padded width n) = Text.digits n := by
  obtain ⟨c, cs, hdigits, hc⟩ := Text.digits_eq_cons n
  rw [Date.padded]
  generalize width - (Text.digits n).length = count
  induction count with
  | zero => exact dropZeros_digits n
  | succ count ih =>
    -- a zero is followed by another one or by the first digit
    obtain ⟨d, ds, hrest, hd⟩ : ∃ d ds,
        List.replicate count '0' ++ Text.digits n = d :: ds ∧ d.isDigit = true := by
      rcases count with _ | count
      · exact ⟨c, cs, hdigits, hc⟩
      · exact ⟨'0', _, rfl, rfl⟩
    rw [List.replicate_succ, List.cons_append, hrest, dropZeros, if_pos hd, ← hrest, ih]

theorem atLeastZero_digits (n : Nat) : stripZeros.atLeastZero (Text.digits n) = Text.digits n := by
  obtain ⟨c, cs, hdigits, -⟩ := Text.digits_eq_cons n
  rw [hdigits]
  rfl

/-- A number is left of its padded form. -/
theorem stripZeros_paddedInteger (width : Nat) (z : Int) :
    stripZeros (paddedInteger width z) = Text.integer z := by
  unfold paddedInteger Text.integer
  split
  · rw [stripZeros, dropZeros_padded, atLeastZero_digits]
  · obtain ⟨c, cs, hcs⟩ := List.exists_cons_of_ne_nil (Date.padded_ne_nil width z.natAbs)
    have hc : c.isDigit = true := Date.isDigit_of_mem_padded (hcs ▸ List.mem_cons_self)
    unfold stripZeros
    split
    · rename_i heq
      rw [hcs] at heq
      cases heq
      cases hc
    · rw [dropZeros_padded, atLeastZero_digits]

theorem padText_utf8 (s : String) : padText (Text.utf8 s) = .ok s := by
  rw [padText, Text.ofUtf8?_utf8]

theorem stripNulls_fillBack {x : Bytes} (h : x.getLast? ≠ some 0) (count : Nat) :
    stripNulls (fillBack count x) = x := by
  obtain ⟨k, hk⟩ := exists_fillBack_stripNulls (fillBack count x)
  exact (fillBack_injective h (getLast?_stripNulls _) hk).symm

variable {type : DataType} {v : Value} {b : Bytes}

/-- The text of a padded whole number is read without its zeros. -/
theorem padDecode_integral {width : Nat} {z : Int} (htype : type.flavor = .integral)
    (hv : v.integral? = some z) (h : padEncode v width = .ok b) :
    padDecode type b = if type = .boolean then .ok (.bool (Text.integer z = ['1']))
      else readKeyText type (String.ofList (Text.integer z)) := by
  have htext : padText b = .ok (String.ofList (paddedInteger width z)) := by
    rw [(padEncode_integral hv h).1,
      ← Text.utf8_ofList fun _ => toNat_lt_of_mem_paddedInteger, padText_utf8]
  rw [padDecode, htype]
  simp only [htext, bind, Except.bind, pure, Except.pure, String.toList_ofList,
    stripZeros_paddedInteger]

theorem padDecode_padEncode {width : Nat} (htype : type.flavor = .integral ∨ type = .date)
    (hv : type.Holds v) (h : padEncode v width = .ok b) : padDecode type b = .ok v := by
  rcases DataType.variant_of_fits htype hv.fits with
    ⟨c, rfl, rfl⟩ | ⟨i, hflavor, hbool, rfl⟩ | ⟨d, rfl, rfl⟩
  · rw [padDecode_integral rfl rfl h]
    cases c <;> rfl
  · have hread : type.read (String.ofList (Text.integer i.toInt)) = .ok (.int i) := by
      rw [DataType.read_integral hflavor hbool, DataType.readInt_integer (hv.inBounds i rfl)]
    rw [padDecode_integral hflavor rfl h, if_neg hbool, readKeyText, hread]
    rfl
  · have htext : padText (stripNulls b) = .ok (String.ofList d.text) := by
      rw [(padEncode_text rfl h).1, stripNulls_fillBack (getLast?_padBody_date d)]
      exact padText_utf8 _
    rw [padDecode]
    simp only [DataType.flavor, htext, bind, Except.bind, readKeyText, DataType.read_date]
    rfl

/-! ### Binary forms -/

theorem signedValue_of_toInt {i : Int64} (h : Bytes.toInt b = i.toInt) :
    signedValue b = .int i := by
  rw [signedValue, h, Int64.ofInt_toInt]

theorem dateValue_dayNumber (d : Date) : dateValue d.dayNumber = .ok (.date d) := by
  rw [dateValue, Date.ofDayNumber?_dayNumber]

theorem ofWidth_of_length {α : Type} {width : Nat} (h : b.length = width) (f : Bytes → α) :
    ofWidth width b f = .ok (f b) :=
  if_pos h

theorem nativeDecode_nativeEncode (htype : type.flavor = .integral ∨ type = .date)
    (hv : type.fits v = true) (h : nativeEncode type v = .ok b) : nativeDecode type b = .ok v := by
  rcases DataType.variant_of_fits htype hv with
    ⟨c, rfl, rfl⟩ | ⟨i, hflavor, hbool, rfl⟩ | ⟨d, rfl, rfl⟩
  · cases h
    cases c <;> rfl
  · have hread := signedValue_of_toInt (toInt_nativeEncode rfl hv h)
    have hwidth : ∀ width, nativeWidth? type = some width →
        ofWidth width b signedValue = .ok (.int i) := by
      intro width hw
      rw [ofWidth_of_length (length_nativeEncode hw hv h), hread]
    cases type <;> cases hv <;> exact hwidth _ rfl
  · have hread := toInt_nativeEncode rfl hv h
    rw [nativeDecode, ofWidth_of_length (length_nativeEncode rfl hv h), hread]
    exact dateValue_dayNumber d

/-! ### Shortest forms -/

theorem length_dropSignBytes (b : Bytes) :
    (dropSignBytes b).length ≤ b.length ∧ (b ≠ [] → dropSignBytes b ≠ []) := by
  fun_induction dropSignBytes b with
  | case1 b c rest _ ih =>
    refine ⟨?_, fun _ => ih.2 (List.cons_ne_nil c rest)⟩
    have hlen := ih.1
    rw [List.length_cons] at hlen ⊢
    omega
  | case2 => exact ⟨Nat.le_refl _, id⟩
  | case3 => exact ⟨Nat.le_refl _, id⟩

/-- Between one and eight bytes are read. -/
theorem readSigned_eq_ok_iff {bytes : Bytes} {z : Int} :
    readSigned bytes = .ok z ↔ bytes ≠ [] ∧ bytes.length ≤ 8 ∧ Bytes.toInt bytes = z := by
  rw [readSigned, ← List.length_pos_iff]
  split
  · rename_i hroom
    constructor
    · intro h
      cases h
    · rintro ⟨hpos, hlen, -⟩
      omega
  · rename_i hroom
    constructor
    · intro h
      exact ⟨by omega, by omega, Except.ok.inj h⟩
    · rintro ⟨-, -, rfl⟩
      rfl

/-- Between one and eight bytes are kept, and they are read as the number. -/
theorem readSigned_shortestSigned {z : Int} (hlow : -9223372036854775808 ≤ z)
    (hhigh : z < 9223372036854775808) : readSigned (shortestSigned z) = .ok z := by
  have hlen := Bytes.length_ofInt 8 z
  obtain ⟨hshort, hne⟩ := length_dropSignBytes (Bytes.ofInt 8 z)
  have hkept : shortestSigned z ≠ [] := hne fun hnil => by simp [hnil] at hlen
  exact readSigned_eq_ok_iff.mpr ⟨hkept, hlen ▸ hshort, toInt_shortestSigned hlow hhigh⟩

theorem minByteDecode_minByteEncode (htype : type.flavor = .integral ∨ type = .date)
    (hv : type.fits v = true) (h : minByteEncode v = .ok b) : minByteDecode type b = .ok v := by
  rcases DataType.variant_of_fits htype hv with
    ⟨c, rfl, rfl⟩ | ⟨i, hflavor, hbool, rfl⟩ | ⟨d, rfl, rfl⟩
  · cases h
    cases c <;> rfl
  · cases h
    rw [minByteDecode, hflavor]
    simp only [readSigned_shortestSigned i.le_toInt i.toInt_lt, bind, Except.bind, if_neg hbool,
      pure, Except.pure, Int64.ofInt_toInt]
  · cases h
    have hbounds := d.dayNumber_bounds
    have hread := readSigned_shortestSigned (z := d.dayNumber) (by omega) (by omega)
    have hday : Int32.minValue.toInt ≤ d.dayNumber ∧ d.dayNumber ≤ Int32.maxValue.toInt := by
      have hmin : Int32.minValue.toInt = -2147483648 := by decide
      have hmax : Int32.maxValue.toInt = 2147483647 := by decide
      omega
    rw [minByteDecode]
    simp only [DataType.flavor, hread, bind, Except.bind, if_pos hday, if_true]
    exact dateValue_dayNumber d

/-! ### All reversible codecs -/

theorem type_select (kind : CodecKind) (type : DataType) (maxLength : Nat)
    (algorithm : HashAlgorithm) : (select kind type maxLength algorithm).type = type := by
  cases kind <;> simp only [select] <;> repeat' split
  all_goals rfl

theorem isReversible_select {kind : CodecKind}
    (h : kind = .pad ∨ kind = .native ∨ kind = .minByte) (type : DataType) (maxLength : Nat)
    (algorithm : HashAlgorithm) : (select kind type maxLength algorithm).isReversible = true := by
  rcases h with rfl | rfl | rfl <;> simp only [select] <;> repeat' split
  all_goals rfl

/-- A codec of a reversible kind reads truth values, whole numbers and dates back. -/
theorem decode_encode {kind : CodecKind} {type : DataType} {v : Value} {b : Bytes}
    (hkind : kind = .pad ∨ kind = .native ∨ kind = .minByte)
    (htype : type.flavor = .integral ∨ type = .date) (hv : type.Holds v) (maxLength : Nat)
    (algorithm : HashAlgorithm)
    (h : (select kind type maxLength algorithm).encode v = .ok b) :
    (select kind type maxLength algorithm).decode b = .ok v := by
  have hcodec := type_select kind type maxLength algorithm
  have hrev := isReversible_select hkind type maxLength algorithm
  generalize select kind type maxLength algorithm = codec at h hcodec hrev ⊢
  subst hcodec
  rw [encode_of_fits hv.fits] at h
  cases codec with
  | pad type maxLength => exact padDecode_padEncode htype hv h
  | native type => exact nativeDecode_nativeEncode htype hv.fits h
  | minByte type => exact minByteDecode_minByteEncode htype hv.fits h
  | hash type algorithm => cases hrev
  | lexicoHash type algorithm => cases hrev

/-- A day of a year before year 0. -/
def ancientDay : Date := ⟨-12345, 2, 28, by decide⟩

/-- The day is read back from its text of twelve characters and two null bytes. -/
theorem decode_ancientDay :
    DataType.date.Holds (.date ancientDay) ∧
      (select .pad .date 14 .jenkins).encode (.date ancientDay) =
        .ok [45, 49, 50, 51, 52, 53, 45, 48, 50, 45, 50, 56, 0, 0] ∧
      (select .pad .date 14 .jenkins).decode
        [45, 49, 50, 51, 52, 53, 45, 48, 50, 45, 50, 56, 0, 0] = .ok (.date ancientDay) := by
  have hholds : DataType.date.Holds (.date ancientDay) := ⟨rfl, fun _ h => by cases h⟩
  have hencode : (select .pad .date 14 .jenkins).encode (.date ancientDay) =
      .ok [45, 49, 50, 51, 52, 53, 45, 48, 50, 45, 50, 56, 0, 0] := by
    rw [encode_of_fits rfl]
    rfl
  exact ⟨hholds, hencode, decode_encode (.inl rfl) (.inr rfl) hholds 14 .jenkins hencode⟩

end Codec

end GraphTable
