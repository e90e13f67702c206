import GraphTable.Codec.Coding
import GraphTable.Proofs.Bytes.Number
import GraphTable.Proofs.Value.Order

/-!
# Binary forms and their numbers

Binary forms of whole numbers and dates are read back as numbers in one way, whatever their
width: `Bytes.toInt` gives the number itself, or the day number (`toInt_nativeEncode`,
`toInt_minByteEncode`). Dropping the leading bytes that only repeat the sign does not change
what is read (`toInt_dropSignBytes`).

The widths of binary forms and hashes are the ones that codecs announce (`length_nativeEncode`,
`length_hashText`).
-/

namespace GraphTable

namespace Codec

/-! ### Numbers -/

theorem narrow_ok {width : Nat} {z : Int} {b : Bytes} (h : narrow (width + 1) z = .ok b) :
    b = Bytes.ofInt (width + 1) z ∧ Bytes.toInt b = z := by
  have hbound : (Nat.pow 2 (8 * (width + 1) - 1) : Nat) = 128 * 256 ^ width := by
    change 2 ^ (8 * (width + 1) - 1) = 128 * 256 ^ width
    rw [show 8 * (width + 1) - 1 = 7 + 8 * width by omega, Nat.pow_add, Nat.pow_mul]
  simp only [narrow, hbound] at h
  split at h
  · rename_i hroom
    cases h
    exact ⟨rfl, Bytes.toInt_ofInt width hroom.1 hroom.2⟩
  · cases h

/-- Bytes that only repeat the sign do not count. -/
theorem toInt_dropSignBytes (b : Bytes) : Bytes.toInt (dropSignBytes b) = Bytes.toInt b := by
  fun_induction dropSignBytes b with
  | case1 b c rest h ih =>
    rw [ih]
    rcases h with ⟨rfl, hc⟩ | ⟨rfl, hc⟩
    · exact (Bytes.toInt_cons_zero hc).symm
    · exact (Bytes.toInt_cons_ones hc).symm
  | case2 b c rest h => rfl
  | case3 b h => rfl

theorem toInt_ofInt_word (i : Int64) : Bytes.toInt (Bytes.ofInt 8 i.toInt) = i.toInt :=
  Bytes.toInt_ofInt 7 i.le_toInt i.toInt_lt

theorem toInt_ofInt_dayNumber (d : Date) : Bytes.toInt (Bytes.ofInt 4 d.dayNumber) = d.dayNumber :=
  Bytes.toInt_ofInt 3 d.dayNumber_bounds.1 d.dayNumber_bounds.2

theorem toInt_shortestSigned {z : Int} (hlow : -9223372036854775808 ≤ z)
    (hhigh : z < 9223372036854775808) : Bytes.toInt (shortestSigned z) = z := by
  rw [shortestSigned, toInt_dropSignBytes]
  exact Bytes.toInt_ofInt 7 hlow hhigh

theorem toInt_nativeEncode {type : DataType} {v : Value} {z : Int} {b : Bytes}
    (hv : v.number? = some z) (hfits : type.fits v = true) (h : nativeEncode type v = .ok b) :
    Bytes.toInt b = z := by
  cases v with
  | bool c =>
    obtain rfl : (if c then 1 else 0) = z := Option.some.inj hv
    cases type <;> cases hfits
    cases h
    cases c <;> rfl
  | int i =>
    obtain rfl : i.toInt = z := Option.some.inj hv
    cases type <;> cases hfits
    · exact (narrow_ok h).2
    · exact (narrow_ok h).2
    · exact (narrow_ok h).2
    · cases h
      exact toInt_ofInt_word i
  | date d =>
    obtain rfl : d.dayNumber = z := Option.some.inj hv
    cases type <;> cases hfits
    cases h
    exact toInt_ofInt_dayNumber d
  | float x => cases hv
  | string s => cases hv
  | bytes bs => cases hv

theorem toInt_minByteEncode {v : Value} {z : Int} {b : Bytes} (hv : v.number? = some z)
    (h : minByteEncode v = .ok b) : Bytes.toInt b = z := by
  cases v with
  | bool c =>
    obtain rfl : (if c then 1 else 0) = z := Option.some.inj hv
    cases h
    cases c <;> rfl
  | int i =>
    obtain rfl : i.toInt = z := Option.some.inj hv
    cases h
    exact toInt_shortestSigned i.le_toInt i.toInt_lt
  | date d =>
    obtain rfl : d.dayNumber = z := Option.some.inj hv
    cases h
    have hbounds := d.dayNumber_bounds
    exact toInt_shortestSigned (by omega) (by omega)
  | float x => cases hv
  | string s => cases hv
  | bytes bs => cases hv

/-! ### Widths -/

theorem length_nativeEncode {type : DataType} {v : Value} {width : Nat} {b : Bytes}
    (hw : nativeWidth? type = some width) (hfits : type.fits v = true)
    (h : nativeEncode type v = .ok b) : b.length = width := by
  cases v with
  | bool c =>
    cases type <;> cases hfits
    cases hw
    cases h
    rfl
  | int i =>
    cases type <;> cases hfits
    · cases hw
      rw [(narrow_ok h).1, Bytes.length_ofInt]
    · cases hw
      rw [(narrow_ok h).1, Bytes.length_ofInt]
    · cases hw
      rw [(narrow_ok h).1, Bytes.length_ofInt]
    · cases hw
      cases h
      exact Bytes.length_ofInt 8 _
  | float x =>
    cases type <;> cases hfits <;> cases hw <;> cases h
    · exact Bytes.length_bigEndian 4 _
    · exact Bytes.length_bigEndian 8 _
    · exact Bytes.length_bigEndian 8 _
  | string s => cases type <;> cases hfits <;> cases hw
  | date d =>
    cases type <;> cases hfits
    cases hw
    cases h
    exact Bytes.length_ofInt 4 _
  | bytes bs => cases type <;> cases hfits; cases hw

/-- A hash of 32 bits has at most ten digits. -/
theorem length_hashText (h : UInt32) : (hashText h).length = hashDigits := by
  have hlen : (Text.digits h.toNat).length ≤ hashDigits :=
    (Text.length_digits_le (by decide)).mpr (Nat.lt_trans h.toNat_lt (by decide))
  simp only [hashText, List.length_map, List.length_append, List.length_replicate]
  omega

end Codec

end GraphTable
