import GraphTable.Proofs.Codec.Nulls
import GraphTable.Proofs.Key.Pieces

/-!
# Reading the keys that are written

A row key has nothing between its fields, so their bytes are found by widths alone. Every field but
the last has the width that it announces, whatever value was encoded, and the last one takes what
is left. Hence splitting a key cuts it into the bytes that its fields were encoded to
(`decomposeFrom_flatten`), and what comes of it is what each field makes of its own bytes, up to
the first failure (`decompose_compose`).

What a field is read as depends on the value that was written alone (`Codec.decode_of_encode`), and
so the whole key is read field by field (`RowKey.decompose_eq_mapM`). Types of reals apart, only one
thing can go wrong. A whole number has the variant that any of the integral types expects, also if
it is outside the bounds of the type, and coercing lets it pass. What becomes of it then depends on
the codec (`Codec.outgrownBy`):

* **Binary** forms have no room for it, and nothing is written.
* **Shortest** forms write it, and read it back.
* **Padding** writes its text, which **no reader of the type takes**.

So a key can be read unless some value has outgrown a padded field, and the error is then that its
text is out of range (`decompose_readable_iff`).
-/

namespace GraphTable.RowKey

/-! ### Finding the fields again -/

/--
At the front of what is left of a key, the next field takes up just its own bytes: it has a fixed
width, or it is the last one.
-/
private theorem widthFrom_append {f : KeyField} {v : Value} {b rest : Bytes} {isLast : Bool}
    (hb : f.encode v = .ok b) (h : f.width?.isSome = true ∨ isLast = true ∧ rest = [])
    (index : Nat) : widthFrom index f isLast (b ++ rest) = .ok b.length := by
  rcases hw : f.width? with _ | width
  · rw [hw] at h
    obtain ⟨rfl, rfl⟩ := h.resolve_left Bool.false_ne_true
    rw [widthFrom, hw, List.append_nil]
    rfl
  · have hlen := KeyField.length_encode hw hb
    rw [widthFrom, hw, List.length_append, hlen]
    exact if_neg (by omega)

/-- Splitting cuts the bytes of the fields apart and decodes each of them on its own. -/
theorem decomposeFrom_flatten {fields : List KeyField} {values : List Value}
    {pieces : List Bytes} (h : Encodes fields values pieces)
    (hwidth : ∀ f ∈ fields.dropLast, f.width?.isSome = true) (index : Nat) :
    decomposeFrom index fields pieces.flatten =
      (fields.zip pieces).mapM fun p => decodeField p.1 p.2 := by
  induction h generalizing index with
  | nil => rfl
  | @cons f v b fs vs bs first rest ih =>
    -- a field is followed by others, and has a fixed width then, or it is the last one
    obtain ⟨hnext, hothers⟩ : (f.width?.isSome = true ∨ fs.isEmpty = true ∧ bs.flatten = []) ∧
        ∀ g ∈ fs.dropLast, g.width?.isSome = true := by
      by_cases hempty : fs = []
      · have hlen := rest.length_pieces
        subst hempty
        obtain rfl := List.eq_nil_of_length_eq_zero hlen
        exact ⟨.inr ⟨rfl, rfl⟩, by simp⟩
      · rw [List.dropLast_cons_of_ne_nil hempty] at hwidth
        exact ⟨.inl (hwidth f List.mem_cons_self), fun g hg => hwidth g (List.mem_cons_of_mem _ hg)⟩
    rw [List.flatten_cons, decomposeFrom, widthFrom_append first hnext, List.zip_cons_cons,
      List.mapM_cons, ← ih hothers (index + 1)]
    change (decodeField f ((b ++ bs.flatten).take b.length) >>= fun v =>
      decomposeFrom (index + 1) fs ((b ++ bs.flatten).drop b.length) >>= fun vs =>
        pure (v :: vs)) = _
    rw [List.take_left, List.drop_left]

/--
A key that was composed splits into the bytes that its fields were encoded to. A reversible field
has the value that its own bytes decode to, a hashed one has none, and if some bytes cannot be
decoded, the first failure is all that comes of it.
-/
theorem decompose_compose {fields : List KeyField} {values : List Value} {key : Bytes}
    (hcheck : check fields = .ok ()) (hkey : compose fields values = .ok key) :
    ∃ pieces, Encodes fields values pieces ∧ key = pieces.flatten ∧
      decompose fields key = (fields.zip pieces).mapM fun (f, b) =>
        if f.codec.isReversible then (f.decode b).map some else .ok none := by
  obtain ⟨pieces, hpieces, rfl⟩ := exists_encodes_of_compose hkey
  exact ⟨pieces, hpieces, rfl, decomposeFrom_flatten hpieces (width?_isSome_of_check hcheck) 0⟩

/-- A tag that is hashed, a site that is padded to four bytes, and a day in its shortest form. -/
def entryFields : List KeyField :=
  [⟨0, 3, .property ["tag"], .string, .hash, 0, .jenkins, by decide⟩,
    ⟨1, 3, .property ["site"], .int, .pad, 4, .jenkins, by decide⟩,
    ⟨2, 3, .property ["day"], .date, .minByte, 0, .jenkins, by decide⟩]

/-- The values of the tag `ab`, site -7 and the leap day of 2024. -/
def entryValues : List Value :=
  [.string "ab", .int (-7), .date ⟨2024, 2, 29, by decide⟩]

theorem decompose_entry :
    check entryFields = .ok () ∧
      compose entryFields entryValues = .ok [69, 230, 30, 88, 45, 48, 48, 55, 11, 70, 129] ∧
      ∃ pieces, Encodes entryFields entryValues pieces ∧
        [69, 230, 30, 88, 45, 48, 48, 55, 11, 70, 129] = pieces.flatten ∧
        decompose entryFields [69, 230, 30, 88, 45, 48, 48, 55, 11, 70, 129] =
          (entryFields.zip pieces).mapM fun (f, b) =>
            if f.codec.isReversible then (f.decode b).map some else .ok none :=
  ⟨rfl, rfl, decompose_compose rfl rfl⟩

end GraphTable.RowKey

namespace GraphTable

/-! ### Numbers that outgrow their type -/

namespace Codec

/-- Whether padding writes a whole number that is outside the bounds of its type. -/
def outgrownBy : Codec → Value → Bool
  | pad type _, .int i => decide (i < type.integralBounds.1 ∨ type.integralBounds.2 < i)
  | _, _ => false

/-- What a codec reads where it has written a value of its type. -/
def readBack : Codec → Value → Value
  | pad _ _, v => v.stripNulls
  | _, v => v

/-- What comes of reading what was written for a value of any type. -/
def reread (codec : Codec) (v : Value) : Except StoreError Value := do
  let v ← coerceKey codec.type v
  if codec.outgrownBy v then .error (.read (.outOfRange v.text codec.type))
  else .ok (codec.readBack v)

variable {codec : Codec} {type : DataType} {v w : Value} {b : Bytes} {width : Nat}

theorem coerce_of_encode (h : codec.encode v = .ok b) :
    ∃ w, codec.type.coerce v = .ok w ∧ codec.type.fits w = true ∧ codec.write w = .ok b := by
  obtain ⟨w, hw, -⟩ := Outcome.bind_eq_ok.mp h
  have hcoerce : codec.type.coerce v = .ok w := Outcome.mapError_eq_ok.mp hw
  have hfits := DataType.fits_of_coerce hcoerce
  refine ⟨w, hcoerce, hfits, ?_⟩
  rw [← encode_of_fits hfits, encode, coerceKey_of_fits hfits]
  rw [encode, hw] at h
  exact h

/-- Objects have no values of their own, so these are all types but those of reals. -/
theorem integral_or_verbatim (hreal : type.flavor ≠ .real) (hv : type.fits v = true) :
    (type.flavor = .integral ∨ type = .date) ∨ type.IsVerbatim := by
  cases type with
  | boolean | byte | short | int | long => exact .inl (.inl rfl)
  | date => exact .inl (.inr rfl)
  | string => exact .inr (.inl rfl)
  | dateTime => exact .inr (.inr (.inl rfl))
  | time => exact .inr (.inr (.inr (.inl rfl)))
  | bytes => exact .inr (.inr (.inr (.inr rfl)))
  | float | double | decimal => exact absurd rfl hreal
  | object => cases v <;> cases hv

/-- Truth values, whole numbers and dates have no nulls at their end. -/
theorem stripNulls_of_number (htype : type.flavor = .integral ∨ type = .date)
    (hv : type.fits v = true) : v.stripNulls = v := by
  rcases DataType.variant_of_fits htype hv with ⟨_, -, rfl⟩ | ⟨_, -, -, rfl⟩ | ⟨_, -, rfl⟩ <;> rfl

/-- A padded number is read back if it is within the bounds of its type, and refused otherwise. -/
private theorem padDecode_of_number (htype : type.flavor = .integral ∨ type = .date)
    (hv : type.fits v = true) (h : padEncode v width = .ok b) :
    padDecode type b =
      if (pad type width).outgrownBy v then .error (.read (.outOfRange v.text type))
      else .ok v := by
  cases hout : (pad type width).outgrownBy v with
  | false =>
    have hholds : type.Holds v := by
      refine ⟨hv, ?_⟩
      rintro i rfl
      obtain ⟨hlow, hhigh⟩ := not_or.mp (of_decide_eq_false hout)
      exact ⟨Int64.not_lt.mp hlow, Int64.not_lt.mp hhigh⟩
    exact padDecode_padEncode htype hholds h
  | true =>
    -- only a whole number has bounds to be outside of
    obtain ⟨i, rfl⟩ : ∃ i, v = .int i := by
      cases v <;> first | exact ⟨_, rfl⟩ | cases hout
    have hintegral : type.flavor = .integral := DataType.flavor_eq_integral rfl hv
    have hbool : type ≠ .boolean := by
      rintro rfl
      cases hv
    have hread : type.read (Value.int i).text =
        .error (.outOfRange (Value.int i).text type) := by
      rw [DataType.read_integral hintegral hbool, DataType.readInt_text]
      exact if_pos (of_decide_eq_true hout)
    rw [padDecode_integral hintegral rfl h, if_neg hbool]
    exact congrArg (Except.mapError StoreError.read) hread

/-- What a reversible codec reads of its own writing, types of reals apart. -/
private theorem decode_of_write (hrev : codec.isReversible = true)
    (hreal : codec.type.flavor ≠ .real) (hv : codec.type.fits v = true)
    (h : codec.write v = .ok b) :
    codec.decode b = if codec.outgrownBy v then .error (.read (.outOfRange v.text codec.type))
      else .ok (codec.readBack v) := by
  rcases integral_or_verbatim hreal hv with htype | htype
  · cases codec with
    | pad type width =>
      have hback : (pad type width).readBack v = v := stripNulls_of_number htype hv
      rw [hback]
      exact padDecode_of_number htype hv h
    | native type => exact nativeDecode_nativeEncode htype hv h
    | minByte type => exact minByteDecode_minByteEncode htype hv h
    | hash type algorithm => cases hrev
    | lexicoHash type algorithm => cases hrev
  · have hwhole : codec.outgrownBy v = false := by
      rcases htype.cases hv with ⟨-, s, rfl⟩ | ⟨-, bs, rfl⟩ <;> cases codec <;> rfl
    rw [hwhole]
    cases codec with
    | pad type width =>
      exact padDecode_of_stripNulls htype (fits_stripNulls hv) (stripNulls_padEncode htype hv h)
    | native type =>
      obtain rfl := Except.ok.inj ((nativeEncode_of_isVerbatim htype hv).symm.trans h)
      exact nativeDecode_of_isVerbatim htype hv
    | minByte type =>
      rcases htype.cases hv with ⟨-, s, rfl⟩ | ⟨-, bs, rfl⟩ <;> cases h
    | hash type algorithm => cases hrev
    | lexicoHash type algorithm => cases hrev

/-- What a reversible codec reads of what it wrote for a value, types of reals apart. -/
theorem decode_of_encode (hrev : codec.isReversible = true) (hreal : codec.type.flavor ≠ .real)
    (h : codec.encode v = .ok b) : codec.decode b = codec.reread v := by
  obtain ⟨w, hcoerce, hfits, hwrite⟩ := coerce_of_encode h
  rw [decode_of_write hrev hreal hfits hwrite, reread, coerceKey, hcoerce]
  rfl

end Codec

namespace KeyField

/-- Whether a value has outgrown a field: it is a whole number that can be written to the padded
field, and is outside the bounds of its type. -/
def outgrownBy (f : KeyField) (v : Value) : Bool :=
  match f.type.coerce v with
  | .ok w => f.codec.outgrownBy w
  | .error _ => false

/-- What comes of reading a field that was written for a value; hashes are not read. -/
def reread (f : KeyField) (v : Value) : Except StoreError (Option Value) :=
  if f.codec.isReversible then (f.codec.reread v).map some else .ok none

variable {f : KeyField} {v : Value} {b : Bytes}

/-- A field is read unless its value has outgrown it. -/
theorem reread_cases (h : f.encode v = .ok b) :
    f.outgrownBy v = false ∧ (∃ found, f.reread v = .ok found) ∨
      f.outgrownBy v = true ∧ ∃ i, f.type.coerce v = .ok (.int i) ∧
        f.reread v = .error (.read (.outOfRange (Value.int i).text f.type)) := by
  obtain ⟨w, hcoerce, -, -⟩ := Codec.coerce_of_encode h
  have hown : f.outgrownBy v = f.codec.outgrownBy w := by
    rw [outgrownBy, ← codec_type f, hcoerce]
  have hreread : f.codec.reread v = if f.codec.outgrownBy w then
      .error (.read (.outOfRange w.text f.codec.type)) else .ok (f.codec.readBack w) := by
    rw [Codec.reread, Codec.coerceKey, hcoerce]
    rfl
  rw [hown, reread, hreread, ← codec_type f, hcoerce]
  generalize f.codec = codec
  cases hout : codec.outgrownBy w with
  | false =>
    refine .inl ⟨rfl, ?_⟩
    split <;> exact ⟨_, rfl⟩
  | true =>
    -- what is outgrown is padded, so it would be read
    obtain ⟨type, width, i, rfl, rfl⟩ : ∃ type width i, codec = .pad type width ∧ w = .int i := by
      unfold Codec.outgrownBy at hout
      split at hout
      · exact ⟨_, _, _, rfl, rfl⟩
      · cases hout
    exact .inr ⟨rfl, i, rfl, rfl⟩

end KeyField

namespace RowKey

variable {fields : List KeyField} {values : List Value} {key : Bytes}

theorem decodeField_of_encode {f : KeyField} {v : Value} {b : Bytes}
    (hreal : f.type.flavor ≠ .real) (h : f.encode v = .ok b) : decodeField f b = f.reread v := by
  rw [decodeField, KeyField.reread, KeyField.decode]
  split
  · rename_i hrev
    rw [Codec.decode_of_encode hrev ((KeyField.codec_type f).symm ▸ hreal) h]
  · rfl

theorem mapM_decodeField {pieces : List Bytes} (h : Encodes fields values pieces)
    (hreal : ∀ f ∈ fields, f.type.flavor ≠ .real) :
    ((fields.zip pieces).mapM fun p => decodeField p.1 p.2) =
      (fields.zip values).mapM fun p => p.1.reread p.2 := by
  induction h with
  | nil => rfl
  | cons first _ ih =>
    obtain ⟨hfirst, hothers⟩ := List.forall_mem_cons.mp hreal
    rw [List.zip_cons_cons, List.zip_cons_cons, List.mapM_cons, List.mapM_cons, ih hothers,
      decodeField_of_encode hfirst first]

/-- A composed key is read field by field, from the values that it was composed of. -/
theorem decompose_eq_mapM (hcheck : check fields = .ok ())
    (hreal : ∀ f ∈ fields, f.type.flavor ≠ .real) (hkey : compose fields values = .ok key) :
    decompose fields key = (fields.zip values).mapM fun p => p.1.reread p.2 := by
  obtain ⟨pieces, hpieces, rfl⟩ := exists_encodes_of_compose hkey
  rw [decompose, decomposeFrom_flatten hpieces (width?_isSome_of_check hcheck) 0,
    mapM_decodeField hpieces hreal]

theorem Encodes.exists_encode {pieces : List Bytes} (h : Encodes fields values pieces)
    {p : KeyField × Value} (hp : p ∈ fields.zip values) : ∃ b, p.1.encode p.2 = .ok b := by
  induction h with
  | nil => cases hp
  | cons first _ ih =>
    rcases List.mem_cons.mp hp with rfl | hp
    · exact ⟨_, first⟩
    · exact ih hp

/--
A composed key can be read if no value has outgrown its padded field, and otherwise the error is
that such a value is out of range. Values may be of any variant that can be written.
-/
theorem decompose_readable_iff (hcheck : check fields = .ok ())
    (hreal : ∀ f ∈ fields, f.type.flavor ≠ .real) (hkey : compose fields values = .ok key) :
    ((∃ found, decompose fields key = .ok found) ↔
        ∀ p ∈ fields.zip values, p.1.outgrownBy p.2 = false) ∧
      ∀ e, decompose fields key = .error e →
        ∃ p ∈ fields.zip values, p.1.outgrownBy p.2 = true ∧
          ∃ i, p.1.type.coerce p.2 = .ok (.int i) ∧
            e = .read (.outOfRange (Value.int i).text p.1.type) := by
  rw [decompose_eq_mapM hcheck hreal hkey]
  obtain ⟨pieces, hpieces, -⟩ := exists_encodes_of_compose hkey
  have hcases : ∀ p ∈ fields.zip values, _ := fun p hp =>
    KeyField.reread_cases (hpieces.exists_encode hp).choose_spec
  refine ⟨⟨fun ⟨found, hfound⟩ p hp => ?_, fun hroom => ?_⟩, fun e he => ?_⟩
  · obtain ⟨read, -, hread⟩ := Outcome.exists_mem_of_mapM hfound hp
    rcases hcases p hp with ⟨hroom, -⟩ | ⟨-, i, -, herror⟩
    · exact hroom
    · rw [herror] at hread
      cases hread
  · obtain ⟨found, hfound, -⟩ := Outcome.exists_mapM (f := fun p : KeyField × Value =>
      p.1.reread p.2) (P := fun _ => True) fun p hp => by
        rcases hcases p hp with ⟨-, read, hread⟩ | ⟨hout, -⟩
        · exact ⟨read, hread, trivial⟩
        · rw [hroom p hp] at hout
          cases hout
    exact ⟨found, hfound⟩
  · obtain ⟨found, hfound⟩ | ⟨p, hp, e', herror, hall⟩ :=
      Outcome.ok_or_error_of_mapM (fun p : KeyField × Value => p.1.reread p.2) (fields.zip values)
    · rw [hfound] at he
      cases he
    · obtain rfl := Except.error.inj (hall.symm.trans he)
      rcases hcases p hp with ⟨-, read, hread⟩ | ⟨hout, i, hcoerce, hown⟩
      · rw [herror] at hread
        cases hread
      · exact ⟨p, hp, hout, i, hcoerce, Except.error.inj (herror.symm.trans hown)⟩

/-- A level that is padded to five bytes, and a name. -/
def levelFields : List KeyField :=
  [⟨0, 2, .property ["level"], .byte, .pad, 5, .jenkins, Nat.zero_lt_two⟩,
    ⟨1, 2, .property ["name"], .string, .native, 0, .jenkins, Nat.one_lt_two⟩]

/-- The key of level -7, given as a text, and the name `x` is read. -/
theorem readable_level :
    check levelFields = .ok () ∧
      compose levelFields [.string "-7", .string "x"] = .ok [45, 48, 48, 48, 55, 120] ∧
      ∃ found, decompose levelFields [45, 48, 48, 48, 55, 120] = .ok found := by
  have hkey : compose levelFields [.string "-7", .string "x"] = .ok [45, 48, 48, 48, 55, 120] :=
    rfl
  have hroom : ∀ p ∈ levelFields.zip [.string "-7", .string "x"], p.1.outgrownBy p.2 = false := by
    decide
  exact ⟨rfl, hkey, (decompose_readable_iff rfl (by decide) hkey).1.mpr hroom⟩

/-- The key of level 300 can be written, but not read. -/
theorem not_readable_outgrown :
    check levelFields = .ok () ∧ (∀ f ∈ levelFields, f.type.flavor ≠ .real) ∧
      compose levelFields [.int 300, .string "x"] = .ok [48, 48, 51, 48, 48, 120] ∧
      ∀ found, decompose levelFields [48, 48, 51, 48, 48, 120] ≠ .ok found := by
  have herror : decompose levelFields [48, 48, 51, 48, 48, 120] =
      .error (.read (.outOfRange "300" .byte)) := rfl
  refine ⟨rfl, by decide, rfl, fun found hfound => ?_⟩
  rw [herror] at hfound
  cases hfound

end RowKey

end GraphTable
