import Mathlib.Algebra.Group.Nat.Defs
import Mathlib.Data.List.Induction
import GraphTable.Bytes

/-!
# Numbers in byte strings

Reading undoes writing: the two's complement of a number is read back as that number
(`toInt_ofInt`), provided that its width has room for the number. Writing undoes reading as well,
in as many bytes as were read (`bigEndian_toNat`, `ofInt_toInt`). The sign is told by the
first byte alone (`isNegative_iff`), so a byte in front that only repeats the sign of the next
one does not change what is read (`toInt_cons_zero`, `toInt_cons_ones`).
-/

namespace GraphTable.Bytes

/-! ### Unsigned numbers -/

private theorem foldl_eq (b : Bytes) (n : Nat) :
    b.foldl (fun n c => n * 256 + c.toNat) n = n * 256 ^ b.length + toNat b := by
  induction b generalizing n with
  | nil => simp [toNat]
  | cons c b ih =>
    have hone : toNat (c :: b) = (0 * 256 + c.toNat) * 256 ^ b.length + toNat b := ih _
    rw [List.foldl_cons, ih, hone, List.length_cons, Nat.pow_succ, Nat.add_mul, Nat.mul_assoc,
      Nat.mul_comm 256 (256 ^ b.length), Nat.zero_mul, Nat.zero_add, Nat.add_assoc]

theorem toNat_cons (c : UInt8) (b : Bytes) :
    toNat (c :: b) = c.toNat * 256 ^ b.length + toNat b := by
  rw [toNat, List.foldl_cons, foldl_eq]
  simp

theorem toNat_lt (b : Bytes) : toNat b < 256 ^ b.length := by
  induction b with
  | nil => simp [toNat]
  | cons c b ih =>
    have hc := c.toNat_lt
    have hmul : c.toNat * 256 ^ b.length ≤ 255 * 256 ^ b.length :=
      Nat.mul_le_mul_right _ (by omega)
    rw [toNat_cons, List.length_cons, Nat.pow_succ]
    omega

/-- A byte string is the number that it denotes, in as many bytes. -/
theorem bigEndian_toNat (b : Bytes) : bigEndian b.length (toNat b) = b := by
  induction b using List.reverseRecOn with
  | nil => rfl
  | append_singleton b c ih =>
    have hc := c.toNat_lt
    have hdiv : (toNat b * 256 + c.toNat) / 256 = toNat b := by omega
    have hlow : UInt8.ofNat (toNat b * 256 + c.toNat) = c := by
      rw [← UInt8.toNat_inj, UInt8.toNat_ofNat']
      omega
    rw [List.length_append, List.length_singleton, bigEndian, toNat_append_singleton, hdiv, ih,
      hlow]

/-! ### Signed numbers -/

@[simp] theorem length_ofInt (width : Nat) (z : Int) : (ofInt width z).length = width :=
  length_bigEndian _ _

theorem toNat_ofInt (width : Nat) (z : Int) :
    (toNat (ofInt width z) : Int) = z % (256 ^ width : Nat) := by
  have hpos : (0 : Int) < (256 ^ width : Nat) := by
    exact_mod_cast Nat.pow_pos (by decide)
  have hnonneg := Int.emod_nonneg z (Int.ne_of_gt hpos)
  have hlt := Int.emod_lt_of_pos z hpos
  rw [ofInt, toNat_bigEndian]
  change (((z % (256 ^ width : Nat)).toNat % 256 ^ width : Nat) : Int) = _
  rw [Nat.mod_eq_of_lt (by omega)]
  exact Int.toNat_of_nonneg hnonneg

/-- The sign is set in the upper half of the numbers of a width. -/
theorem isNegative_iff (c : UInt8) (b : Bytes) :
    isNegative (c :: b) = true ↔ 128 * 256 ^ b.length ≤ toNat (c :: b) := by
  have htail := toNat_lt b
  rw [isNegative, decide_eq_true_eq, toNat_cons]
  constructor
  · intro h
    have := Nat.mul_le_mul_right (256 ^ b.length) h
    omega
  · intro h
    rcases Nat.lt_or_ge c.toNat 128 with hc | hc
    · have hmul : c.toNat * 256 ^ b.length ≤ 127 * 256 ^ b.length :=
        Nat.mul_le_mul_right _ (by omega)
      omega
    · exact hc

/-- A number that has room in a width is read back from it. -/
theorem toInt_ofInt (width : Nat) {z : Int} (hlow : -(128 * 256 ^ width : Nat) ≤ z)
    (hhigh : z < (128 * 256 ^ width : Nat)) : toInt (ofInt (width + 1) z) = z := by
  have hread := toNat_ofInt (width + 1) z
  obtain ⟨c, b, hcb⟩ := List.exists_cons_of_length_eq_add_one (length_ofInt (width + 1) z)
  have hlen : b.length = width := by simpa [hcb] using length_ofInt (width + 1) z
  have hsign := isNegative_iff c b
  rw [hcb] at hread ⊢
  rw [hlen] at hsign
  have hpow : (256 ^ (width + 1) : Nat) = 256 * 256 ^ width := by rw [Nat.pow_succ, Nat.mul_comm]
  rw [hpow] at hread
  unfold toInt
  change (if isNegative (c :: b) = true then (toNat (c :: b) : Int) - (256 ^ (b.length + 1) : Nat)
    else (toNat (c :: b) : Int)) = z
  rw [hlen, hpow]
  -- the remainder of a negative number lies in the upper half
  rcases Int.lt_or_le z 0 with hz | hz
  · have hmod : z % ((256 * 256 ^ width : Nat) : Int) = z + (256 * 256 ^ width : Nat) := by
      rw [← Int.add_emod_right, Int.emod_eq_of_lt (by omega) (by omega)]
    rw [hmod] at hread
    rw [if_pos (hsign.mpr (by omega))]
    omega
  · have hmod : z % ((256 * 256 ^ width : Nat) : Int) = z :=
      Int.emod_eq_of_lt hz (by omega)
    rw [hmod] at hread
    rw [if_neg (fun h => by have := hsign.mp h; omega)]
    omega

/-- A byte string is the two's complement of the number that it denotes, in as many bytes. -/
theorem ofInt_toInt (b : Bytes) : ofInt b.length (toInt b) = b := by
  have hlt : (toNat b : Int) < (256 ^ b.length : Nat) := by exact_mod_cast toNat_lt b
  have hmod : toInt b % (256 ^ b.length : Nat) = toNat b := by
    unfold toInt
    split
    · change ((toNat b : Int) - (256 ^ b.length : Nat)) % (256 ^ b.length : Nat) = toNat b
      rw [Int.sub_emod_right, Int.emod_eq_of_lt (by omega) hlt]
    · exact Int.emod_eq_of_lt (by omega) hlt
  calc ofInt b.length (toInt b) = bigEndian b.length (toInt b % (256 ^ b.length : Nat)).toNat := rfl
    _ = bigEndian b.length (toNat b) := by rw [hmod, Int.toNat_natCast]
    _ = b := bigEndian_toNat b

theorem toInt_neg_iff (b : Bytes) : toInt b < 0 ↔ isNegative b = true := by
  have hlt : (toNat b : Int) < (256 ^ b.length : Nat) := by exact_mod_cast toNat_lt b
  unfold toInt
  split
  · rename_i hneg
    refine iff_of_true ?_ hneg
    change (toNat b : Int) - (256 ^ b.length : Nat) < 0
    omega
  · rename_i hneg
    exact iff_of_false (by omega) hneg

theorem toInt_cons_zero {c : UInt8} {b : Bytes} (h : c < 128) :
    toInt (0 :: c :: b) = toInt (c :: b) := by
  have hc : ¬ 128 ≤ c.toNat := by
    rw [UInt8.lt_iff_toNat_lt] at h
    simpa using h
  simp [toInt, isNegative, hc, toNat_cons 0]

theorem toInt_cons_ones {c : UInt8} {b : Bytes} (h : 128 ≤ c) :
    toInt (255 :: c :: b) = toInt (c :: b) := by
  have hc : 128 ≤ c.toNat := by
    rw [UInt8.le_iff_toNat_le] at h
    simpa using h
  have hpow : (256 ^ (b.length + 2) : Nat) = 256 * 256 ^ (b.length + 1) := by
    rw [Nat.pow_succ _ (b.length + 1), Nat.mul_comm]
  simp only [toInt, isNegative, hc, decide_true, if_true]
  rw [toNat_cons 255]
  simp only [List.length_cons]
  change ((255 * 256 ^ (b.length + 1) + toNat (c :: b) : Nat) : Int) - (256 ^ (b.length + 2) : Nat)
    = (toNat (c :: b) : Int) - (256 ^ (b.length + 1) : Nat)
  rw [hpow]
  omega

end GraphTable.Bytes
