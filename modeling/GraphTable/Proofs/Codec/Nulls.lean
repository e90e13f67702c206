import GraphTable.Proofs.Codec.Bounds
import GraphTable.Proofs.Codec.RoundTrip
import Mathlib.Data.List.DropRight
import Mathlib.Data.List.Induction

/-!
# Texts and bytes read back

Texts, time stamps, times of day and bytes are taken as they stand
(`DataType.IsVerbatim`), and a codec of a reversible kind writes them in one of two ways:

* **Binary** forms are the bytes themselves, and give back just what was written.
* **Padded** forms have null bytes after them, as many as a length asks for, and reading takes all
  null bytes at the end away, whether filling up put them there or they are the value's own.

So a padded value is read back without the nulls at its end (`Value.stripNulls`), which is the value
itself exactly if it does not end in one, and this also where there is no length to fill up to. Two
values have the same bytes exactly if they are equal, or are filled up to one length and differ only
in the nulls at their ends (`decode_encode_up_to_nulls`).
-/

namespace GraphTable

namespace Text

/-- A text without the null characters at its end. -/
def stripNulls (s : String) : String :=
  String.ofList (s.toList.rdropWhile (· == '\x00'))

theorem utf8_concat (cs : List Char) (c : Char) :
    utf8 (String.ofList (cs ++ [c])) = utf8 (String.ofList cs) ++ String.utf8EncodeChar c := by
  rw [utf8_eq_flatMap, utf8_eq_flatMap, String.toList_ofList, String.toList_ofList,
    List.flatMap_append, List.flatMap_singleton]

/-- The null characters at the end of a text are the null bytes at the end of its bytes. -/
theorem utf8_stripNulls (s : String) : utf8 (stripNulls s) = Codec.stripNulls (utf8 s) := by
  have hchars : ∀ cs : List Char, utf8 (String.ofList (cs.rdropWhile (· == '\x00'))) =
      Codec.stripNulls (utf8 (String.ofList cs)) := by
    intro cs
    induction cs using List.reverseRecOn with
    | nil => rfl
    | append_singleton cs c ih =>
      by_cases hnull : c = '\x00'
      · have hbytes : utf8 (String.ofList (cs ++ ['\x00'])) = utf8 (String.ofList cs) ++ [0] :=
          utf8_concat cs '\x00'
        rw [hnull, List.rdropWhile_concat_pos _ _ _ (by simp), ih, hbytes]
        exact (List.rdropWhile_concat_pos (· == (0 : UInt8)) _ 0 rfl).symm
      · have hlast : (utf8 (String.ofList (cs ++ [c]))).getLast? ≠ some 0 := by
          rw [Ne, utf8_getLast?_iff, String.toList_ofList, List.getLast?_concat, Option.some.injEq]
          exact hnull
        rw [List.rdropWhile_concat_neg _ _ _ (by simpa using hnull),
          Codec.stripNulls_eq_self hlast]
  have hs := hchars s.toList
  rwa [String.ofList_toList] at hs

end Text

namespace Value

/-- A value without the nulls at its end: the null characters of a text, or null bytes. -/
def stripNulls : Value → Value
  | string s => string (Text.stripNulls s)
  | bytes bs => bytes (Codec.stripNulls bs)
  | v => v

end Value

namespace DataType

/-- The types whose values are texts or bytes, and are taken as they stand. -/
def IsVerbatim (type : DataType) : Prop :=
  type = .string ∨ type = .dateTime ∨ type = .time ∨ type = .bytes

variable {type : DataType} {v : Value}

/-- The values of these types are texts, but for bytes. -/
theorem IsVerbatim.cases (htype : type.IsVerbatim) (hv : type.fits v = true) :
    (type ≠ .bytes ∧ ∃ s, v = .string s) ∨ (type = .bytes ∧ ∃ bs, v = .bytes bs) := by
  cases v with
  | string s =>
    refine .inl ⟨?_, s, rfl⟩
    rintro rfl
    cases hv
  | bytes bs =>
    refine .inr ⟨?_, bs, rfl⟩
    rcases htype with rfl | rfl | rfl | rfl <;> first | rfl | cases hv
  | bool _ | int _ | float _ | date _ => rcases htype with rfl | rfl | rfl | rfl <;> cases hv

end DataType

namespace Codec

variable {type : DataType} {v w : Value} {b c : Bytes} {width : Nat}

/-! ### Values as bytes -/

theorem padBody_stripNulls (htype : type.IsVerbatim) (hv : type.fits v = true) :
    padBody v.stripNulls = stripNulls (padBody v) := by
  rcases htype.cases hv with ⟨-, s, rfl⟩ | ⟨-, bs, rfl⟩
  · exact Text.utf8_stripNulls s
  · rfl

theorem fits_stripNulls (hv : type.fits v = true) : type.fits v.stripNulls = true := by
  cases v <;> cases type <;> exact hv

theorem isNumeric_of_isVerbatim (htype : type.IsVerbatim) (hv : type.fits v = true) :
    isNumeric v = false := by
  rcases htype.cases hv with ⟨-, s, rfl⟩ | ⟨-, bs, rfl⟩ <;> rfl

/-- The bytes of a value stand for no other value of its type. -/
theorem eq_of_padBody_eq (htype : type.IsVerbatim) (hv : type.fits v = true)
    (hw : type.fits w = true) (h : padBody w = padBody v) : w = v := by
  rcases htype.cases hv with ⟨htext, s, rfl⟩ | ⟨hbytes, bs, rfl⟩
  · rcases htype.cases hw with ⟨-, t, rfl⟩ | ⟨hbytes, -⟩
    · exact congrArg Value.string (Text.utf8_injective h)
    · exact absurd hbytes htext
  · rcases htype.cases hw with ⟨htext, -⟩ | ⟨-, cs, rfl⟩
    · exact absurd hbytes htext
    · exact congrArg Value.bytes h

/-! ### Binary forms -/

theorem nativeEncode_of_isVerbatim (htype : type.IsVerbatim) (hv : type.fits v = true) :
    nativeEncode type v = .ok (padBody v) := by
  rcases htype.cases hv with ⟨-, s, rfl⟩ | ⟨rfl, bs, rfl⟩
  · exact nativeEncode_string type s
  · rfl

theorem nativeDecode_of_isVerbatim (htype : type.IsVerbatim) (hv : type.fits v = true) :
    nativeDecode type (padBody v) = .ok v := by
  rcases htype.cases hv with ⟨htext, s, rfl⟩ | ⟨rfl, bs, rfl⟩
  · have hread : Text.ofUtf8? (padBody (.string s)) = some s := Text.ofUtf8?_utf8 s
    rcases htype with rfl | rfl | rfl | rfl
    · rw [nativeDecode, hread]
    · rw [nativeDecode, hread]
    · rw [nativeDecode, hread]
    · exact absurd rfl htext
  · rfl

theorem encode_of_native (hv : type.fits v = true) :
    (native type).encode v = nativeEncode type v :=
  encode_of_fits hv

/-! ### Padded forms -/

/-- Filling up changes nothing of what is left without the null bytes at the end. -/
theorem stripNulls_of_fillBack (count : Nat) (x : Bytes) :
    stripNulls (fillBack count x) = stripNulls x := by
  obtain ⟨k, hk⟩ := exists_fillBack_stripNulls x
  have hfilled : fillBack count x = fillBack (k + count) (stripNulls x) := by
    rw [← fillBack_fillBack, ← hk]
  rw [hfilled, stripNulls_fillBack (getLast?_stripNulls x)]

/-- What is left of a padded value without the null bytes at its end. -/
theorem stripNulls_padEncode (htype : type.IsVerbatim) (hv : type.fits v = true)
    (h : padEncode v width = .ok b) : stripNulls b = padBody v.stripNulls := by
  rw [(padEncode_text (isNumeric_of_isVerbatim htype hv) h).1, stripNulls_of_fillBack,
    padBody_stripNulls htype hv]

/-- A padded value is read as what is left of it without the null bytes at its end. -/
theorem padDecode_of_stripNulls (htype : type.IsVerbatim) (hv : type.fits v = true)
    (h : stripNulls b = padBody v) : padDecode type b = .ok v := by
  rcases htype.cases hv with ⟨htext, s, rfl⟩ | ⟨rfl, bs, rfl⟩
  · have hread : padText (stripNulls b) = .ok s := by
      rw [h]
      exact padText_utf8 s
    rcases htype with rfl | rfl | rfl | rfl
    · simp only [padDecode, DataType.flavor, hread]
      rfl
    · simp only [padDecode, DataType.flavor, hread]
      rfl
    · simp only [padDecode, DataType.flavor, hread]
      rfl
    · exact absurd rfl htext
  · simp only [padDecode, DataType.flavor, h]
    rfl

/-- Padded values have the same bytes if they differ only in the nulls that filling up puts after
them. -/
theorem padEncode_eq_iff (htype : type.IsVerbatim) (hv : type.fits v = true)
    (hw : type.fits w = true) (hb : padEncode v width = .ok b) (hc : padEncode w width = .ok c) :
    c = b ↔ w = v ∨ 0 < width ∧ w.stripNulls = v.stripNulls := by
  obtain ⟨hbfill, hbfit⟩ := padEncode_text (isNumeric_of_isVerbatim htype hv) hb
  obtain ⟨hcfill, hcfit⟩ := padEncode_text (isNumeric_of_isVerbatim htype hw) hc
  rcases Nat.eq_zero_or_pos width with rfl | hwidth
  · -- nothing is filled up
    rw [Nat.zero_sub, fillBack_eq_self] at hbfill hcfill
    constructor
    · intro hsame
      rw [hbfill, hcfill] at hsame
      exact .inl (eq_of_padBody_eq htype hv hw hsame)
    · rintro (rfl | ⟨hpos, -⟩)
      · rw [hbfill, hcfill]
      · exact absurd hpos (Nat.lt_irrefl 0)
  · have hblen := hbfit hwidth
    have hclen := hcfit hwidth
    constructor
    · intro hsame
      refine .inr ⟨hwidth, eq_of_padBody_eq htype (fits_stripNulls hv) (fits_stripNulls hw) ?_⟩
      rw [← stripNulls_padEncode htype hw hc, ← stripNulls_padEncode htype hv hb, hsame]
    · intro hsame
      have hstrip : w.stripNulls = v.stripNulls := by
        rcases hsame with rfl | ⟨-, hstrip⟩
        · rfl
        · exact hstrip
      rw [hbfill, hcfill]
      refine fillBack_eq_of_stripNulls (by omega) ?_
      rw [← padBody_stripNulls htype hw, ← padBody_stripNulls htype hv, hstrip]

/-! ### All reversible codecs -/

/-- These types have a binary form, but no shortest one. -/
theorem select_of_isVerbatim {kind : CodecKind}
    (hkind : kind = .pad ∨ kind = .native ∨ kind = .minByte) (htype : type.IsVerbatim)
    (maxLength : Nat) (algorithm : HashAlgorithm) :
    select kind type maxLength algorithm =
      if kind = .native then native type else pad type maxLength := by
  rcases hkind with rfl | rfl | rfl <;> rcases htype with rfl | rfl | rfl | rfl <;> rfl

/--
What a codec of a reversible kind writes of a text or of bytes is read back as the value if it is a
binary form, and without the nulls at the end of the value if it is padded. Another value has the
same bytes only if both are filled up to a length and differ in those nulls alone.
-/
theorem decode_encode_up_to_nulls {kind : CodecKind} {type : DataType} {v : Value} {b : Bytes}
    (hkind : kind = .pad ∨ kind = .native ∨ kind = .minByte) (htype : type.IsVerbatim)
    (hv : type.fits v = true) (maxLength : Nat) (algorithm : HashAlgorithm)
    (h : (select kind type maxLength algorithm).encode v = .ok b) :
    (select kind type maxLength algorithm).decode b =
        .ok (if kind = .native then v else v.stripNulls) ∧
      ∀ w c, type.fits w = true → (select kind type maxLength algorithm).encode w = .ok c →
        (c = b ↔ w = v ∨ kind ≠ .native ∧ 0 < maxLength ∧ w.stripNulls = v.stripNulls) := by
  rw [select_of_isVerbatim hkind htype] at h ⊢
  by_cases hnative : kind = .native
  · simp only [if_pos hnative] at h ⊢
    rw [encode_of_native hv] at h
    obtain rfl : padBody v = b :=
      Except.ok.inj ((nativeEncode_of_isVerbatim htype hv).symm.trans h)
    refine ⟨nativeDecode_of_isVerbatim htype hv, fun w c hw hc => ?_⟩
    rw [encode_of_native hw] at hc
    obtain rfl : padBody w = c :=
      Except.ok.inj ((nativeEncode_of_isVerbatim htype hw).symm.trans hc)
    constructor
    · exact fun hsame => .inl (eq_of_padBody_eq htype hv hw hsame)
    · rintro (rfl | ⟨hpadded, -⟩)
      · rfl
      · exact absurd hnative hpadded
  · simp only [if_neg hnative] at h ⊢
    rw [encode_of_pad hv] at h
    refine ⟨padDecode_of_stripNulls htype (fits_stripNulls hv)
      (stripNulls_padEncode htype hv h), fun w c hw hc => ?_⟩
    rw [encode_of_pad hw] at hc
    rw [padEncode_eq_iff htype hv hw h hc]
    simp only [ne_eq, hnative, not_false_eq_true, true_and]

/-- A text with a null character of its own at its end. -/
def endedText : Value := .string "a\x00"

/-- The text in a field of three bytes. -/
theorem encode_endedText : (pad .string 3).encode endedText = .ok [97, 0, 0] := by
  rw [endedText, encode_of_pad rfl]
  rfl

/-- The text without its null character, in the same field. -/
theorem encode_shortText : (pad .string 3).encode (.string "a") = .ok [97, 0, 0] := by
  rw [encode_of_pad rfl]
  rfl

/-- The bytes of the text are read without its null character, and are those of the shorter text,
which differs from it in that alone. -/
theorem decode_endedText :
    DataType.string.fits endedText = true ∧
      (select .pad .string 3 .jenkins).encode endedText = .ok [97, 0, 0] ∧
      (select .pad .string 3 .jenkins).decode [97, 0, 0] = .ok (.string "a") ∧
      (Value.string "a").stripNulls = endedText.stripNulls := by
  have hstrip : endedText.stripNulls = .string "a" := by decide
  obtain ⟨hdecode, hshared⟩ :=
    decode_encode_up_to_nulls (.inl rfl) (.inl rfl) rfl 3 .jenkins encode_endedText
  rw [if_neg (by decide), hstrip] at hdecode
  refine ⟨rfl, encode_endedText, hdecode, ?_⟩
  rcases (hshared (.string "a") _ rfl encode_shortText).mp rfl with hsame | ⟨-, -, hnulls⟩
  · exact absurd hsame (by decide)
  · exact hnulls

/-- The text is not read back, and shares its bytes with another one. -/
theorem not_decode_endedText :
    ∃ b, (select .pad .string 3 .jenkins).encode endedText = .ok b ∧
      (select .pad .string 3 .jenkins).decode b ≠ .ok endedText ∧
      (select .pad .string 3 .jenkins).encode (.string "a") = .ok b ∧
      endedText ≠ .string "a" := by
  have hne : endedText ≠ .string "a" := by decide
  have hdecode : (pad .string 3).decode [97, 0, 0] = .ok (.string "a") :=
    padDecode_of_stripNulls (.inl rfl) rfl rfl
  refine ⟨[97, 0, 0], encode_endedText, ?_, encode_shortText, hne⟩
  intro hread
  exact hne (Except.ok.inj (hread.symm.trans hdecode))

end Codec

end GraphTable
