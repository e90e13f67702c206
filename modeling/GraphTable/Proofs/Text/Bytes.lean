import Mathlib.Algebra.Group.Nat.Defs
import GraphTable.Date
import GraphTable.Proofs.Bytes.Order

/-!
# The bytes of texts

Numbers and dates are written in characters below 128, and of such a text the bytes are just
the codes of its characters (`utf8_ofList`). Strings of equally many digits are in the order of
the numbers that they denote (`codes_lt_codes_iff`), which is why filling numbers up with zeros
keeps their order (`compare_codes_padded`).

A text ends in a null character exactly if its bytes end in a null byte (`utf8_getLast?_iff`).
-/

namespace GraphTable.Text

/-- The codes of characters, for characters below 128. -/
def codes (cs : List Char) : Bytes :=
  cs.map fun c => UInt8.ofNat c.toNat

@[simp] theorem codes_cons (c : Char) (cs : List Char) :
    codes (c :: cs) = UInt8.ofNat c.toNat :: codes cs := rfl

@[simp] theorem codes_append (cs ds : List Char) : codes (cs ++ ds) = codes cs ++ codes ds :=
  List.map_append

@[simp] theorem codes_replicate (n : Nat) (c : Char) :
    codes (List.replicate n c) = List.replicate n (UInt8.ofNat c.toNat) :=
  List.map_replicate

@[simp] theorem length_codes (cs : List Char) : (codes cs).length = cs.length :=
  List.length_map _

theorem utf8_eq_flatMap (s : String) : utf8 s = s.toList.flatMap String.utf8EncodeChar := by
  have h : s.toByteArray = s.toList.utf8Encode := String.utf8Encode_toList.symm
  simp [utf8, h, List.utf8Encode]

theorem utf8EncodeChar_of_lt {c : Char} (h : c.toNat < 128) :
    String.utf8EncodeChar c = [UInt8.ofNat c.toNat] := by
  have hv : c.val.toNat ≤ 0x7f := by
    change c.val.toNat < 128 at h
    omega
  unfold String.utf8EncodeChar
  exact if_pos hv

/-- The bytes of a text of characters below 128 are their codes. -/
theorem utf8_ofList {cs : List Char} (h : ∀ c ∈ cs, c.toNat < 128) :
    utf8 (String.ofList cs) = codes cs := by
  rw [utf8_eq_flatMap, String.toList_ofList]
  induction cs with
  | nil => rfl
  | cons c cs ih =>
    rw [List.flatMap_cons, utf8EncodeChar_of_lt (h c List.mem_cons_self),
      ih fun d hd => h d (List.mem_cons_of_mem c hd)]
    rfl

theorem codes_injective {cs ds : List Char} (hc : ∀ c ∈ cs, c.toNat < 128)
    (hd : ∀ d ∈ ds, d.toNat < 128) (h : codes cs = codes ds) : cs = ds := by
  rw [← utf8_ofList hc, ← utf8_ofList hd] at h
  simpa using congrArg String.toList (utf8_injective h)

/-! ### Null characters at the end -/

/-- The last byte of a character is null only if the character is. -/
theorem getLast?_utf8EncodeChar (c : Char) :
    (String.utf8EncodeChar c).getLast? = some 0 ↔ c = '\x00' := by
  have hsmall : c.val.toNat ≤ 0x7f → (UInt8.ofNat c.val.toNat = 0 ↔ c = '\x00') := by
    intro hv
    rw [← UInt8.toNat_inj, UInt8.toNat_ofNat', ← Char.toNat_inj]
    change c.val.toNat % 2 ^ 8 = 0 ↔ c.val.toNat = 0
    omega
  -- in longer encodings the last byte has its top bit set
  have hbig : ∀ n : Nat, some (UInt8.ofNat (n % 64 + 128)) ≠ some (0 : UInt8) := by
    intro n h
    have hn := congrArg UInt8.toNat (Option.some.inj h)
    rw [UInt8.toNat_ofNat'] at hn
    change (n % 64 + 128) % 2 ^ 8 = 0 at hn
    omega
  have hne : ¬ c.val.toNat ≤ 0x7f → c ≠ '\x00' := by
    rintro hv rfl
    exact hv (by decide)
  fun_cases String.utf8EncodeChar c with
  | case1 v hv =>
    rw [List.getLast?_singleton, Option.some.injEq]
    exact hsmall hv
  | case2 v hv _ => exact ⟨fun h => absurd h (hbig v), fun h => absurd h (hne hv)⟩
  | case3 v hv _ _ => exact ⟨fun h => absurd h (hbig v), fun h => absurd h (hne hv)⟩
  | case4 v hv _ _ => exact ⟨fun h => absurd h (hbig v), fun h => absurd h (hne hv)⟩

/-- A text ends in a null character exactly if its bytes end in a null byte. -/
theorem utf8_getLast?_iff (s : String) :
    (utf8 s).getLast? = some 0 ↔ s.toList.getLast? = some '\x00' := by
  rw [utf8_eq_flatMap]
  rcases List.eq_nil_or_concat s.toList with h | ⟨cs, c, h⟩
  · simp [h]
  · have hne : String.utf8EncodeChar c ≠ [] := String.utf8EncodeChar_ne_nil
    have hlast : (String.utf8EncodeChar c).getLast?.isSome = true :=
      List.getLast?_isSome.mpr hne
    rw [h, List.concat_eq_append, List.flatMap_append, List.flatMap_singleton,
      List.getLast?_append, Option.or_of_isSome hlast, getLast?_utf8EncodeChar,
      List.getLast?_concat, Option.some.injEq]

/-! ### Digits -/

/-- Numbers that are not negative compare by their magnitudes. -/
theorem compare_natAbs {y z : Int} (hy : 0 ≤ y) (hz : 0 ≤ z) :
    Ord.compare y.natAbs z.natAbs = Ord.compare y z := by
  obtain ⟨m, rfl⟩ := Int.eq_ofNat_of_zero_le hy
  obtain ⟨n, rfl⟩ := Int.eq_ofNat_of_zero_le hz
  rw [Int.natAbs_natCast, Int.natAbs_natCast, Nat.compare_eq_ite_lt, Int.compare_eq_ite_lt]
  simp only [Int.ofNat_lt]

theorem toNat_of_isDigit {c : Char} (h : c.isDigit = true) : 48 ≤ c.toNat ∧ c.toNat ≤ 57 :=
  Char.isDigit_iff_toNat.mp h

theorem isDigit_of_mem_digits {n : Nat} {c : Char} (h : c ∈ digits n) : c.isDigit = true :=
  Nat.isDigit_of_mem_toDigits (by decide) (by decide) h

theorem ofDigitChars_digits (n : Nat) : Nat.ofDigitChars 10 (digits n) 0 = n :=
  Nat.ofDigitChars_ten_toDigits

theorem length_digits_le {n width : Nat} (hw : 0 < width) :
    (digits n).length ≤ width ↔ n < 10 ^ width :=
  Nat.length_toDigits_le_iff (by decide) hw

theorem ofDigitChars_cons (c : Char) (cs : List Char) :
    Nat.ofDigitChars 10 (c :: cs) 0 =
      10 ^ cs.length * (c.toNat - 48) + Nat.ofDigitChars 10 cs 0 := by
  rw [Nat.ofDigitChars_cons, Nat.ofDigitChars_eq_ofDigitChars_zero]
  simp

theorem ofDigitChars_lt {cs : List Char} (h : ∀ c ∈ cs, c.isDigit = true) :
    Nat.ofDigitChars 10 cs 0 < 10 ^ cs.length := by
  induction cs with
  | nil => simp
  | cons c cs ih =>
    have hc := toNat_of_isDigit (h c List.mem_cons_self)
    have hcs := ih fun d hd => h d (List.mem_cons_of_mem c hd)
    have hmul : 10 ^ cs.length * (c.toNat - 48) ≤ 10 ^ cs.length * 9 :=
      Nat.mul_le_mul_left _ (by omega)
    rw [ofDigitChars_cons, List.length_cons, Nat.pow_succ]
    omega

/-- Strings of equally many digits are in the order of the numbers that they denote. -/
theorem codes_lt_codes_iff {cs ds : List Char} (hc : ∀ c ∈ cs, c.isDigit = true)
    (hd : ∀ d ∈ ds, d.isDigit = true) (hlen : cs.length = ds.length) :
    codes cs < codes ds ↔ Nat.ofDigitChars 10 cs 0 < Nat.ofDigitChars 10 ds 0 := by
  induction cs generalizing ds with
  | nil =>
    obtain rfl : ds = [] := List.eq_nil_of_length_eq_zero hlen.symm
    simp
  | cons c cs ih =>
    obtain ⟨d, ds, rfl⟩ := List.exists_cons_of_length_eq_add_one hlen.symm
    have hcs : ∀ e ∈ cs, e.isDigit = true := fun e he => hc e (List.mem_cons_of_mem c he)
    have hds : ∀ e ∈ ds, e.isDigit = true := fun e he => hd e (List.mem_cons_of_mem d he)
    have htail : cs.length = ds.length := by simpa using hlen
    have hcd := toNat_of_isDigit (hc c List.mem_cons_self)
    have hdd := toNat_of_isDigit (hd d List.mem_cons_self)
    have hcv := ofDigitChars_lt hcs
    have hdv := ofDigitChars_lt hds
    have hbyte : UInt8.ofNat c.toNat < UInt8.ofNat d.toNat ↔ c.toNat < d.toNat :=
      UInt8.ofNat_lt_iff_lt (by change _ < 256; omega) (by change _ < 256; omega)
    have hsame : UInt8.ofNat c.toNat = UInt8.ofNat d.toNat ↔ c.toNat = d.toNat := by
      rw [← UInt8.toNat_inj, UInt8.toNat_ofNat', UInt8.toNat_ofNat']
      omega
    rw [codes_cons, codes_cons, List.cons_lt_cons_iff, hbyte, hsame, ih hcs hds htail,
      ofDigitChars_cons, ofDigitChars_cons, htail]
    rw [htail] at hcv
    -- a greater leading digit outweighs all digits after it
    rcases Nat.lt_trichotomy c.toNat d.toNat with h | h | h
    · have hmul : 10 ^ ds.length * (c.toNat - 48 + 1) ≤ 10 ^ ds.length * (d.toNat - 48) :=
        Nat.mul_le_mul_left _ (by omega)
      rw [Nat.mul_add, Nat.mul_one] at hmul
      exact ⟨fun _ => by omega, fun _ => .inl h⟩
    · rw [h]
      simp
    · have hmul : 10 ^ ds.length * (d.toNat - 48 + 1) ≤ 10 ^ ds.length * (c.toNat - 48) :=
        Nat.mul_le_mul_left _ (by omega)
      rw [Nat.mul_add, Nat.mul_one] at hmul
      exact ⟨fun hor => by omega, fun _ => by omega⟩

theorem compare_codes {cs ds : List Char} (hc : ∀ c ∈ cs, c.isDigit = true)
    (hd : ∀ d ∈ ds, d.isDigit = true) (hlen : cs.length = ds.length) :
    Bytes.compare (codes cs) (codes ds) =
      Ord.compare (Nat.ofDigitChars 10 cs 0) (Nat.ofDigitChars 10 ds 0) :=
  Bytes.compare_eq_compare (codes_lt_codes_iff hc hd hlen) (codes_lt_codes_iff hd hc hlen.symm)

end GraphTable.Text

namespace GraphTable.Date

open Text

/-! ### Digits filled up with zeros -/

theorem isDigit_of_mem_padded {width n : Nat} {c : Char} (h : c ∈ padded width n) :
    c.isDigit = true := by
  rcases List.mem_append.mp h with h | h
  · obtain ⟨-, rfl⟩ := List.mem_replicate.mp h
    rfl
  · exact isDigit_of_mem_digits h

theorem length_padded {width n : Nat} (hw : 0 < width) (h : n < 10 ^ width) :
    (padded width n).length = width := by
  have hle := (length_digits_le hw).mpr h
  simp only [padded, List.length_append, List.length_replicate]
  omega

theorem le_length_padded (width n : Nat) : width ≤ (padded width n).length := by
  simp only [padded, List.length_append, List.length_replicate]
  omega

theorem ofDigitChars_padded (width n : Nat) : Nat.ofDigitChars 10 (padded width n) 0 = n := by
  rw [padded, Nat.ofDigitChars_append, Nat.ofDigitChars_replicate_zero, Nat.mul_zero,
    ofDigitChars_digits]

theorem padded_injective {width m n : Nat} (h : padded width m = padded width n) : m = n := by
  have hread := congrArg (fun cs => Nat.ofDigitChars 10 cs 0) h
  simpa only [ofDigitChars_padded] using hread

theorem length_codes_padded {width n : Nat} (hw : 0 < width) (h : n < 10 ^ width) :
    (codes (padded width n)).length = width := by
  rw [length_codes, length_padded hw h]

/-- Numbers filled up to equally many digits compare by these. -/
theorem compare_codes_padded_of_length {v w m n : Nat}
    (hlen : (padded v m).length = (padded w n).length) :
    Bytes.compare (codes (padded v m)) (codes (padded w n)) = Ord.compare m n := by
  rw [compare_codes (fun _ => isDigit_of_mem_padded) (fun _ => isDigit_of_mem_padded) hlen,
    ofDigitChars_padded, ofDigitChars_padded]

/-- Numbers filled up to one width compare by their digits. -/
theorem compare_codes_padded {width m n : Nat} (hw : 0 < width) (hm : m < 10 ^ width)
    (hn : n < 10 ^ width) :
    Bytes.compare (codes (padded width m)) (codes (padded width n)) = Ord.compare m n :=
  compare_codes_padded_of_length (by rw [length_padded hw hm, length_padded hw hn])

end GraphTable.Date
