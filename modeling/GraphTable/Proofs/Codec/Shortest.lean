import GraphTable.Proofs.Codec.RoundTrip

/-!
# The shortest form is the shortest

All two's complements of a number agree up to bytes in front that repeat its sign. Dropping these
takes every form of a number to the same one (`dropSignBytes_of_readSigned`), for filled up to eight
bytes with copies of the sign they are one byte string (`ofInt_eq_repeat_append`). So the shortest
form of a number stands at the end of every other form, and nothing but copies of the sign stands
before it (`shortestSigned_is_shortest`).
-/

namespace GraphTable.Codec

/-- The byte that repeats the sign of a number. -/
def signByte (z : Int) : UInt8 :=
  if z < 0 then 255 else 0

/-- What is dropped is just a byte that repeats the sign. -/
theorem redundant_iff (b c : UInt8) (rest : Bytes) :
    (b = 0 ∧ c < 128 ∨ b = 255 ∧ 128 ≤ c) ↔ b = signByte (Bytes.toInt (c :: rest)) := by
  have hneg : Bytes.toInt (c :: rest) < 0 ↔ 128 ≤ c := by
    rw [Bytes.toInt_neg_iff, Bytes.isNegative, decide_eq_true_eq, UInt8.le_iff_toNat_le]
    rfl
  by_cases hc : 128 ≤ c
  · have hlt : ¬ c < 128 := UInt8.not_lt.mpr hc
    rw [signByte, if_pos (hneg.mpr hc)]
    simp [hc, hlt]
  · have hlt : c < 128 := UInt8.not_le.mp hc
    rw [signByte, if_neg fun h => hc (hneg.mp h)]
    simp [hc, hlt]

theorem dropSignBytes_cons (b : UInt8) {bytes : Bytes} (h : bytes ≠ []) :
    dropSignBytes (b :: bytes) =
      if b = signByte (Bytes.toInt bytes) then dropSignBytes bytes else b :: bytes := by
  cases bytes with
  | nil => exact absurd rfl h
  | cons c rest =>
    rw [dropSignBytes]
    exact if_congr (redundant_iff b c rest) rfl rfl

/-! ### Copies of the sign -/

variable {bytes : Bytes}

/-- Copies of the sign in front are dropped, and do not change the number. -/
theorem dropSignBytes_signByte_cons (h : bytes ≠ []) :
    dropSignBytes (signByte (Bytes.toInt bytes) :: bytes) = dropSignBytes bytes := by
  rw [dropSignBytes_cons _ h, if_pos rfl]

theorem toInt_signByte_cons (h : bytes ≠ []) :
    Bytes.toInt (signByte (Bytes.toInt bytes) :: bytes) = Bytes.toInt bytes := by
  have hdrop := congrArg Bytes.toInt (dropSignBytes_signByte_cons h)
  rwa [toInt_dropSignBytes, toInt_dropSignBytes] at hdrop

theorem toInt_repeat_append (h : bytes ≠ []) (n : Nat) :
    Bytes.toInt (List.replicate n (signByte (Bytes.toInt bytes)) ++ bytes) = Bytes.toInt bytes := by
  induction n with
  | zero => rfl
  | succ n ih =>
    have hone := toInt_signByte_cons (List.append_ne_nil_of_right_ne_nil
      (List.replicate n (signByte (Bytes.toInt bytes))) h)
    rw [ih] at hone
    rw [List.replicate_succ, List.cons_append, hone]

theorem dropSignBytes_repeat_append (h : bytes ≠ []) (n : Nat) :
    dropSignBytes (List.replicate n (signByte (Bytes.toInt bytes)) ++ bytes) =
      dropSignBytes bytes := by
  induction n with
  | zero => rfl
  | succ n ih =>
    have hone := dropSignBytes_signByte_cons (List.append_ne_nil_of_right_ne_nil
      (List.replicate n (signByte (Bytes.toInt bytes))) h)
    rw [toInt_repeat_append h n] at hone
    rw [List.replicate_succ, List.cons_append, hone, ih]

/-- Nothing but copies of the sign is dropped. -/
theorem exists_repeat_append_dropSignBytes (bytes : Bytes) :
    ∃ n, List.replicate n (signByte (Bytes.toInt bytes)) ++ dropSignBytes bytes = bytes := by
  induction bytes with
  | nil => exact ⟨0, rfl⟩
  | cons b bytes ih =>
    by_cases hnil : bytes = []
    · subst hnil
      exact ⟨0, rfl⟩
    · by_cases hsign : b = signByte (Bytes.toInt bytes)
      · obtain ⟨n, hn⟩ := ih
        refine ⟨n + 1, ?_⟩
        rw [hsign, toInt_signByte_cons hnil, dropSignBytes_signByte_cons hnil,
          List.replicate_succ, List.cons_append, hn]
      · refine ⟨0, ?_⟩
        rw [dropSignBytes_cons b hnil, if_neg hsign]
        rfl

/-! ### Forms of a number -/

/-- Filled up with copies of the sign, every form of a number is the one of eight bytes. -/
theorem ofInt_eq_repeat_append (hne : bytes ≠ []) (hlen : bytes.length ≤ 8) :
    Bytes.ofInt 8 (Bytes.toInt bytes) =
      List.replicate (8 - bytes.length) (signByte (Bytes.toInt bytes)) ++ bytes := by
  have hwidth : (List.replicate (8 - bytes.length) (signByte (Bytes.toInt bytes)) ++ bytes).length =
      8 := by
    rw [List.length_append, List.length_replicate]
    omega
  have hwritten := Bytes.ofInt_toInt
    (List.replicate (8 - bytes.length) (signByte (Bytes.toInt bytes)) ++ bytes)
  rwa [hwidth, toInt_repeat_append hne] at hwritten

/-- Dropping copies of the sign takes every form of a number to the shortest one. -/
theorem dropSignBytes_of_readSigned {z : Int} (h : readSigned bytes = .ok z) :
    dropSignBytes bytes = shortestSigned z := by
  obtain ⟨hne, hlen, rfl⟩ := readSigned_eq_ok_iff.mp h
  rw [shortestSigned, ofInt_eq_repeat_append hne hlen, dropSignBytes_repeat_append hne]

/-- Every form of a number is its shortest one after copies of the sign. -/
theorem exists_eq_repeat_append {z : Int} (h : readSigned bytes = .ok z) :
    ∃ n, bytes = List.replicate n (signByte z) ++ shortestSigned z := by
  obtain ⟨n, hn⟩ := exists_repeat_append_dropSignBytes bytes
  rw [dropSignBytes_of_readSigned h, (readSigned_eq_ok_iff.mp h).2.2] at hn
  exact ⟨n, hn.symm⟩

/--
The shortest form of a word is read as the word. Any other byte string that is read as the word is
longer: it has copies of the sign in front of the shortest form, and as many of them as there is
room for in eight bytes do not change what is read.
-/
theorem shortestSigned_is_shortest (v : Int64) :
    readSigned (shortestSigned v.toInt) = .ok v.toInt ∧
      (∀ bytes, readSigned bytes = .ok v.toInt →
        (shortestSigned v.toInt).length ≤ bytes.length ∧
          ∃ n, bytes = List.replicate n (signByte v.toInt) ++ shortestSigned v.toInt) ∧
      ∀ n, n + (shortestSigned v.toInt).length ≤ 8 →
        readSigned (List.replicate n (signByte v.toInt) ++ shortestSigned v.toInt) =
          .ok v.toInt := by
  have hread := readSigned_shortestSigned v.le_toInt v.toInt_lt
  obtain ⟨hne, -, hnumber⟩ := readSigned_eq_ok_iff.mp hread
  refine ⟨hread, fun bytes h => ?_, fun n hroom => ?_⟩
  · obtain ⟨n, hn⟩ := exists_eq_repeat_append h
    refine ⟨?_, n, hn⟩
    rw [hn, List.length_append]
    exact Nat.le_add_left _ _
  · have hsame := toInt_repeat_append hne n
    rw [hnumber] at hsame
    refine readSigned_eq_ok_iff.mpr ⟨List.append_ne_nil_of_right_ne_nil _ hne, ?_, hsame⟩
    rw [List.length_append, List.length_replicate]
    exact hroom

/-- The shortest form of -129 begins with a copy of the sign, without which it would be 127. -/
theorem shortestSigned_below_byte :
    shortestSigned (Int64.toInt (-129)) = [255, 127] ∧
      readSigned [255, 127] = .ok (Int64.toInt (-129)) ∧
      readSigned [255, 255, 255, 127] = .ok (Int64.toInt (-129)) ∧
      (∃ n, ([255, 255, 255, 127] : Bytes) = List.replicate n 255 ++ [255, 127]) ∧
      readSigned (List.replicate 6 255 ++ [255, 127]) = .ok (Int64.toInt (-129)) := by
  have hshortest : shortestSigned (Int64.toInt (-129)) = [255, 127] := by decide +kernel
  have hsign : signByte (Int64.toInt (-129)) = 255 := by decide
  have hlonger : readSigned [255, 255, 255, 127] = .ok (Int64.toInt (-129)) := by decide +kernel
  obtain ⟨hread, hforms, hrepeated⟩ := shortestSigned_is_shortest (-129)
  rw [hshortest, hsign] at hforms hrepeated
  rw [hshortest] at hread
  exact ⟨hshortest, hread, hlonger, (hforms _ hlonger).2, hrepeated 6 (by decide)⟩

end GraphTable.Codec
