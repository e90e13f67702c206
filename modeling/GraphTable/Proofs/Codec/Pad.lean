import GraphTable.Codec.Coding
import GraphTable.Predicate.Scalar
import GraphTable.Proofs.Date.Order

/-!
# Padded text in order

What filling up does to the order of values:

* **Whole numbers** are filled up in front. Every number is below every greater one that is not
  negative (`compare_codes_paddedInteger`), and no two numbers have one text
  (`codes_paddedInteger_injective`). Among negative numbers the order is reversed.
* **Everything else** is filled up with null bytes. Texts that only differ in null bytes at the end
  become equal (`fillBack_eq_of_stripNulls`), and all others keep their order (`compare_fillBack`).
-/

namespace GraphTable.Codec

/-! ### Filling up in front -/

/-- The digits of a whole number, filled up with zeros in front, after a minus sign. -/
def paddedInteger (width : Nat) (z : Int) : List Char :=
  if z < 0 then '-' :: Date.padded (width - 1) z.natAbs else Date.padded width z.natAbs

theorem toNat_lt_of_mem_paddedInteger {width : Nat} {z : Int} {c : Char}
    (h : c ∈ paddedInteger width z) : c.toNat < 128 := by
  unfold paddedInteger at h
  split at h
  · rcases List.mem_cons.mp h with rfl | h
    · decide
    · exact Date.toNat_lt_of_isDigit (Date.isDigit_of_mem_padded h)
  · exact Date.toNat_lt_of_isDigit (Date.isDigit_of_mem_padded h)

/-- No two numbers have one text, of whatever width. -/
theorem codes_paddedInteger_injective {width : Nat} {y z : Int}
    (h : Text.codes (paddedInteger width y) = Text.codes (paddedInteger width z)) : y = z := by
  have hchars := Text.codes_injective (fun _ => toNat_lt_of_mem_paddedInteger)
    (fun _ => toNat_lt_of_mem_paddedInteger) h
  have hminus : ∀ w n ds, '-' :: ds ≠ Date.padded w n := by
    intro w n ds heq
    exact absurd (Date.isDigit_of_mem_padded (heq ▸ List.mem_cons_self)) (by decide)
  unfold paddedInteger at hchars
  by_cases hy : y < 0 <;> by_cases hz : z < 0 <;> simp only [hy, hz, if_true, if_false] at hchars
  · have := Date.padded_injective (List.cons.inj hchars).2
    omega
  · exact absurd hchars (hminus _ _ _)
  · exact absurd hchars.symm (hminus _ _ _)
  · have := Date.padded_injective hchars
    omega

/-- A number compares by its text with every number that is not negative. -/
theorem compare_codes_paddedInteger {width : Nat} {y z : Int} (hw : 0 < width) (hz : 0 ≤ z)
    (hyfit : 0 ≤ y → y.natAbs < 10 ^ width) (hzfit : z.natAbs < 10 ^ width) :
    Bytes.compare (Text.codes (paddedInteger width y)) (Text.codes (paddedInteger width z)) =
      Ord.compare y z := by
  have hzdigits : paddedInteger width z = Date.padded width z.natAbs := if_neg (by omega)
  rcases Int.lt_or_le y 0 with hy | hy
  · rw [hzdigits, show paddedInteger width y = '-' :: Date.padded (width - 1) y.natAbs from
      if_pos hy, Int.compare_eq_lt.mpr (by omega), Bytes.compare_eq_lt]
    cases hpad : Date.padded width z.natAbs with
    | nil =>
      have hlen := Date.le_length_padded width z.natAbs
      simp only [hpad, List.length_nil] at hlen
      omega
    | cons d ds =>
      have hd := Text.toNat_of_isDigit
        (Date.isDigit_of_mem_padded (hpad ▸ List.mem_cons_self : d ∈ Date.padded width z.natAbs))
      refine List.cons_lt_cons_iff.mpr (.inl ?_)
      refine (UInt8.ofNat_lt_iff_lt (by decide) (by change _ < 256; omega)).mpr ?_
      change 45 < d.toNat
      omega
  · rw [hzdigits, show paddedInteger width y = Date.padded width y.natAbs from if_neg (by omega),
      Date.compare_codes_padded hw (hyfit hy) hzfit, Text.compare_natAbs hy hz]

/-! ### Filling up at the end -/

theorem fillBack_eq_self (body : Bytes) : fillBack 0 body = body := List.append_nil body

@[simp] theorem length_fillBack (count : Nat) (body : Bytes) :
    (fillBack count body).length = body.length + count := by
  simp [fillBack]

private theorem replicate_lt_of_getLast? {x : Bytes} {m n : Nat} (hne : x ≠ [])
    (hx : x.getLast? ≠ some 0) : List.replicate m 0 < x ++ List.replicate n 0 := by
  induction x generalizing m with
  | nil => exact absurd rfl hne
  | cons b x ih =>
    cases m with
    | zero => exact List.nil_lt_cons _ _
    | succ m =>
      rw [List.replicate_succ, List.cons_append, List.cons_lt_cons_iff]
      by_cases hb : b = 0
      · have hx' : x ≠ [] := by
          rintro rfl
          exact hx (by rw [hb]; rfl)
        refine .inr ⟨hb.symm, ih hx' ?_⟩
        rwa [List.getLast?_cons_of_ne_nil hx'] at hx
      · refine .inl ?_
        rw [UInt8.lt_iff_toNat_lt]
        have : b.toNat ≠ 0 := fun h => hb (UInt8.toNat_inj.mp h)
        simp
        omega

private theorem getLast?_of_cons {b : UInt8} {x : Bytes} (h : (b :: x).getLast? ≠ some 0) :
    x.getLast? ≠ some 0 := by
  cases x with
  | nil => simp
  | cons c x => rwa [List.getLast?_cons_cons] at h

/--
Texts that do not end in null bytes keep their order if null bytes follow them, as many after the
one as after the other if they are equal.
-/
private theorem compare_fillBack_of_getLast? {x y : Bytes} {m n : Nat} (hsame : x = y → m = n)
    (hx : x.getLast? ≠ some 0) (hy : y.getLast? ≠ some 0) :
    Bytes.compare (fillBack m x) (fillBack n y) = Bytes.compare x y := by
  unfold fillBack
  induction x generalizing y with
  | nil =>
    by_cases hne : y = []
    · obtain rfl := hsame hne.symm
      rw [hne, List.nil_append, Bytes.compare_eq_eq.mpr rfl, Bytes.compare_eq_eq.mpr rfl]
    · rw [List.nil_append, Bytes.compare_eq_lt.mpr (replicate_lt_of_getLast? hne hy)]
      cases y with
      | nil => exact absurd rfl hne
      | cons c y => exact (Bytes.compare_eq_lt.mpr (List.nil_lt_cons c y)).symm
  | cons b x ih =>
    cases y with
    | nil =>
      rw [List.nil_append, Bytes.compare_eq_gt.mpr (replicate_lt_of_getLast? (by simp) hx)]
      exact (Bytes.compare_eq_gt.mpr (List.nil_lt_cons b x)).symm
    | cons c y =>
      have hsplit : ∀ s t : Bytes, Bytes.compare (b :: s) (c :: t) =
          (Bytes.compare [b] [c]).then (Bytes.compare s t) :=
        Bytes.compare_append (a := [b]) (b := [c]) rfl
      rw [List.cons_append, List.cons_append, hsplit (x ++ _) (y ++ _), hsplit x y]
      by_cases hbc : b = c
      · -- the tails decide
        have htails : x = y → m = n := by
          rintro rfl
          exact hsame (by rw [hbc])
        rw [ih htails (getLast?_of_cons hx) (getLast?_of_cons hy)]
      · have hne : Bytes.compare [b] [c] ≠ .eq := by
          rw [Ne, Bytes.compare_eq_eq]
          exact fun h => hbc (List.cons.inj h).1
        revert hne
        cases Bytes.compare [b] [c] with
        | lt => exact fun _ => rfl
        | eq => exact fun hne => absurd rfl hne
        | gt => exact fun _ => rfl

theorem fillBack_fillBack (m n : Nat) (body : Bytes) :
    fillBack m (fillBack n body) = fillBack (n + m) body := by
  rw [fillBack, fillBack, fillBack, List.append_assoc, List.replicate_append_replicate]

theorem getLast?_stripNulls (x : Bytes) : (stripNulls x).getLast? ≠ some 0 := by
  rw [stripNulls, List.getLast?_reverse]
  intro hhead
  have hnot := List.head?_dropWhile_not (fun b : UInt8 => b == 0) x.reverse
  rw [hhead] at hnot
  simp at hnot

/-- A text is what is left of it without its null bytes at the end, and those. -/
theorem exists_fillBack_stripNulls (x : Bytes) : ∃ k, x = fillBack k (stripNulls x) := by
  refine ⟨(x.reverse.takeWhile fun b => b == 0).length, ?_⟩
  have hnulls : x.reverse.takeWhile (fun b => b == 0) =
      List.replicate (x.reverse.takeWhile fun b => b == 0).length 0 :=
    List.eq_replicate_iff.mpr
      ⟨rfl, fun b hb => eq_of_beq (List.all_eq_true.mp List.all_takeWhile b hb)⟩
  rw [fillBack, stripNulls, ← List.reverse_replicate, ← hnulls, ← List.reverse_append,
    List.takeWhile_append_dropWhile, List.reverse_reverse]

/-- Texts that are filled up to one length are equal if they differ in null bytes at the end. -/
theorem fillBack_eq_of_stripNulls {x y : Bytes} {m n : Nat} (hlen : x.length + m = y.length + n)
    (h : stripNulls x = stripNulls y) : fillBack m x = fillBack n y := by
  obtain ⟨j, hj⟩ := exists_fillBack_stripNulls x
  obtain ⟨k, hk⟩ := exists_fillBack_stripNulls y
  rw [h] at hj
  clear h
  generalize stripNulls y = z at hj hk
  subst hj hk
  rw [length_fillBack, length_fillBack] at hlen
  rw [fillBack_fillBack, fillBack_fillBack]
  congr 1
  omega

theorem stripNulls_eq_self {x : Bytes} (h : x.getLast? ≠ some 0) : stripNulls x = x := by
  obtain ⟨k, hk⟩ := exists_fillBack_stripNulls x
  cases k with
  | zero => rw [fillBack_eq_self] at hk; exact hk.symm
  | succ k =>
    refine absurd ?_ h
    rw [hk, fillBack, List.replicate_succ', ← List.append_assoc]
    exact List.getLast?_concat

/--
Texts that are filled up to one length keep their order, unless they only differ in null bytes at
the end.
-/
theorem compare_fillBack {x y : Bytes} {m n : Nat}
    (hlen : x.length + m = y.length + n) (hdiffer : stripNulls x = stripNulls y → x = y) :
    Bytes.compare (fillBack m x) (fillBack n y) = Bytes.compare x y := by
  by_cases hsame : x = y
  · obtain rfl : m = n := by
      rw [hsame] at hlen
      omega
    rw [hsame, Bytes.compare_eq_eq.mpr rfl, Bytes.compare_eq_eq.mpr rfl]
  · -- both comparisons are those of the texts without null bytes at the end
    have hstrip : stripNulls x ≠ stripNulls y := fun h => hsame (hdiffer h)
    have hcompare : ∀ j k, Bytes.compare (fillBack j (stripNulls x)) (fillBack k (stripNulls y)) =
        Bytes.compare (stripNulls x) (stripNulls y) := fun j k =>
      compare_fillBack_of_getLast? (fun h => absurd h hstrip) (getLast?_stripNulls x)
        (getLast?_stripNulls y)
    obtain ⟨j, hj⟩ := exists_fillBack_stripNulls x
    obtain ⟨k, hk⟩ := exists_fillBack_stripNulls y
    have hfilled : fillBack m x = fillBack (j + m) (stripNulls x) ∧
        fillBack n y = fillBack (k + n) (stripNulls y) := by
      rw [← fillBack_fillBack, ← fillBack_fillBack, ← hj, ← hk]
      exact ⟨rfl, rfl⟩
    calc Bytes.compare (fillBack m x) (fillBack n y)
        = Bytes.compare (stripNulls x) (stripNulls y) := by
          rw [hfilled.1, hfilled.2, hcompare]
      _ = Bytes.compare x y := by rw [← hcompare j k, ← hj, ← hk]

/-! ### Padded values -/

theorem padBody_integral {v : Value} {z : Int} (h : v.integral? = some z) :
    padBody v = Text.codes (Text.integer z) := by
  cases v with
  | bool b =>
    obtain rfl := Option.some.inj h
    cases b <;> rfl
  | int i =>
    obtain rfl := Option.some.inj h
    refine Text.utf8_ofList fun c hc => ?_
    unfold Text.integer at hc
    split at hc
    · rcases List.mem_cons.mp hc with rfl | hc
      · decide
      · exact Date.toNat_lt_of_isDigit (Text.isDigit_of_mem_digits hc)
    · exact Date.toNat_lt_of_isDigit (Text.isDigit_of_mem_digits hc)
  | float x => cases h
  | string s => cases h
  | date d => cases h
  | bytes bs => cases h

theorem isNumeric_of_integral {v : Value} {z : Int} (h : v.integral? = some z) :
    isNumeric v = true := by
  cases v <;> first | rfl | cases h

theorem length_fillFront (count : Nat) (body : Bytes) :
    (fillFront count body).length = body.length + count := by
  unfold fillFront
  split <;> simp <;> omega

/-- Zeros are put between a minus sign and the digits. -/
theorem fillFront_integer (width : Nat) (z : Int) :
    fillFront (width - (Text.integer z).length) (Text.codes (Text.integer z)) =
      Text.codes (paddedInteger width z) := by
  unfold Text.integer paddedInteger
  split
  · -- the sign is one of the characters that are counted
    have hcount : width - ('-' :: Text.digits z.natAbs).length =
        width - 1 - (Text.digits z.natAbs).length := by
      rw [List.length_cons]
      omega
    rw [hcount, Date.padded, Text.codes_cons, Text.codes_cons, Text.codes_append,
      Text.codes_replicate]
    rfl
  · obtain ⟨c, cs, hdigits, hc⟩ := Text.digits_eq_cons z.natAbs
    have hminus : UInt8.ofNat c.toNat ≠ 45 := by
      intro h
      have hcode := Text.toNat_of_isDigit hc
      have hnat := congrArg UInt8.toNat h
      rw [UInt8.toNat_ofNat'] at hnat
      change c.toNat % 2 ^ 8 = 45 at hnat
      omega
    rw [Date.padded, Text.codes_append, Text.codes_replicate, hdigits, Text.codes_cons, fillFront]
    · rfl
    · exact fun _ h => hminus (List.cons.inj h).1

/-- What is written fits the length it is filled up to, and is filled up on one side. -/
private theorem eq_of_padEncode {v : Value} {width : Nat} {b : Bytes}
    (h : padEncode v width = .ok b) :
    width = 0 ∧ b = padBody v ∨
      0 < width ∧ (padBody v).length ≤ width ∧
        b = if isNumeric v then fillFront (width - (padBody v).length) (padBody v)
          else fillBack (width - (padBody v).length) (padBody v) := by
  simp only [padEncode] at h
  by_cases hzero : width = 0
  · rw [if_pos hzero] at h
    exact .inl ⟨hzero, (Except.ok.inj h).symm⟩
  · rw [if_neg hzero] at h
    by_cases hlong : width < (padBody v).length
    · rw [if_pos hlong] at h
      cases h
    · rw [if_neg hlong] at h
      exact .inr ⟨by omega, by omega, (Except.ok.inj h).symm⟩

/-- Whole numbers are written as their digits, filled up in front. -/
theorem padEncode_integral {v : Value} {z : Int} {width : Nat} {b : Bytes}
    (hv : v.integral? = some z) (h : padEncode v width = .ok b) :
    b = Text.codes (paddedInteger width z) ∧
      (0 < width → (Text.integer z).length ≤ width) := by
  rcases eq_of_padEncode h with ⟨rfl, rfl⟩ | ⟨hw, hfit, rfl⟩
  · refine ⟨?_, fun hpos => absurd hpos (Nat.lt_irrefl 0)⟩
    rw [padBody_integral hv]
    simp [paddedInteger, Text.integer, Date.padded]
  · rw [padBody_integral hv, Text.length_codes] at hfit
    rw [padBody_integral hv, isNumeric_of_integral hv, if_pos rfl, Text.length_codes,
      fillFront_integer]
    exact ⟨rfl, fun _ => hfit⟩

/-- All else is written as its text, with null bytes after it. -/
theorem padEncode_text {v : Value} {width : Nat} {b : Bytes} (hv : isNumeric v = false)
    (h : padEncode v width = .ok b) :
    b = fillBack (width - (padBody v).length) (padBody v) ∧
      (0 < width → (padBody v).length ≤ width) := by
  rcases eq_of_padEncode h with ⟨rfl, rfl⟩ | ⟨hw, hfit, rfl⟩
  · refine ⟨?_, fun hpos => absurd hpos (Nat.lt_irrefl 0)⟩
    rw [Nat.zero_sub, fillBack_eq_self]
  · rw [hv, if_neg (by decide)]
    exact ⟨rfl, fun _ => hfit⟩

/-- A padded value takes up exactly the length that it is filled up to. -/
theorem length_padEncode {v : Value} {width : Nat} {b : Bytes} (hw : 0 < width)
    (h : padEncode v width = .ok b) : b.length = width := by
  rcases eq_of_padEncode h with ⟨rfl, -⟩ | ⟨-, hfit, rfl⟩
  · exact absurd hw (Nat.lt_irrefl 0)
  · split
    · rw [length_fillFront]
      omega
    · rw [length_fillBack]
      omega

end GraphTable.Codec
