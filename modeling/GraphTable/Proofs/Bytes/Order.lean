import GraphTable.Text.Utf8

/-!
# The order of byte strings

Row keys are put together from pieces and read by ranges, so two facts about the
lexicographic order carry everything that is said of scans:

* **Pieces of one width** (`append_lt_append_iff`): strings whose first pieces are equally
  long compare by their first pieces, and by what follows only where those are equal.
* **Extensions form a range** (`prefix_iff_of_successor?`, `prefix_iff_of_no_successor?`): the
  strings that begin with a stem are the ones from the stem on and below its successor, or
  all from the stem on if it has none.

`compare` is read through `compare_eq_lt`, `compare_eq_eq` and `compare_eq_gt`.
-/

namespace GraphTable.Bytes

/-! ### Comparing -/

theorem le_iff_not_lt {a b : Bytes} : a ≤ b ↔ ¬ b < a := Iff.rfl

theorem lt_or_eq_or_gt (a b : Bytes) : a < b ∨ a = b ∨ b < a := by
  by_cases hab : a < b
  · exact .inl hab
  · by_cases hba : b < a
    · exact .inr (.inr hba)
    · exact .inr (.inl (List.le_antisymm hba hab))

theorem lt_of_lt_of_le {a b c : Bytes} (hab : a < b) (hbc : b ≤ c) : a < c := by
  rcases List.le_iff_lt_or_eq.mp hbc with hlt | rfl
  · exact List.lt_trans hab hlt
  · exact hab

@[simp] theorem compare_eq_lt {a b : Bytes} : compare a b = .lt ↔ a < b := by
  unfold compare
  split
  · simp [*]
  · split <;> simp [*]

@[simp] theorem compare_eq_eq {a b : Bytes} : compare a b = .eq ↔ a = b := by
  unfold compare
  split
  · rename_i h
    simp only [reduceCtorEq, false_iff]
    rintro rfl
    exact List.lt_irrefl a h
  · split <;> simp [*]

@[simp] theorem compare_eq_gt {a b : Bytes} : compare a b = .gt ↔ b < a := by
  constructor
  · intro h
    rcases lt_or_eq_or_gt a b with hab | hab | hab
    · rw [compare_eq_lt.mpr hab] at h
      cases h
    · rw [compare_eq_eq.mpr hab] at h
      cases h
    · exact hab
  · intro h
    unfold compare
    rw [if_neg (List.lt_asymm h), if_neg]
    rintro rfl
    exact List.lt_irrefl a h

/-- Strings that are ordered as numbers are compare as these. -/
theorem compare_eq_compare {a b : Bytes} {m n : Nat} (hlt : a < b ↔ m < n)
    (hgt : b < a ↔ n < m) : compare a b = Ord.compare m n := by
  cases h : Ord.compare m n with
  | lt => exact compare_eq_lt.mpr (hlt.mpr (Nat.compare_eq_lt.mp h))
  | gt => exact compare_eq_gt.mpr (hgt.mpr (Nat.compare_eq_gt.mp h))
  | eq =>
    obtain rfl := Nat.compare_eq_eq.mp h
    rcases lt_or_eq_or_gt a b with hab | rfl | hab
    · exact absurd (hlt.mp hab) (Nat.lt_irrefl m)
    · exact compare_eq_eq.mpr rfl
    · exact absurd (hgt.mp hab) (Nat.lt_irrefl m)

/-- Strings whose first pieces are equally long compare by these first. -/
theorem append_lt_append_iff {a b : Bytes} (h : a.length = b.length) (x y : Bytes) :
    a ++ x < b ++ y ↔ a < b ∨ a = b ∧ x < y := by
  induction a generalizing b with
  | nil =>
    obtain rfl : b = [] := List.eq_nil_of_length_eq_zero h.symm
    simp
  | cons c a ih =>
    obtain ⟨d, b, rfl⟩ := List.exists_cons_of_length_eq_add_one h.symm
    have hlen : a.length = b.length := by simpa using h
    simp only [List.cons_append, List.cons_lt_cons_iff, List.cons.injEq, ih hlen]
    constructor
    · rintro (hlt | ⟨rfl, hlt | ⟨rfl, hlt⟩⟩)
      · exact .inl (.inl hlt)
      · exact .inl (.inr ⟨rfl, hlt⟩)
      · exact .inr ⟨⟨rfl, rfl⟩, hlt⟩
    · rintro ((hlt | ⟨rfl, hlt⟩) | ⟨⟨rfl, rfl⟩, hlt⟩)
      · exact .inl hlt
      · exact .inr ⟨rfl, .inl hlt⟩
      · exact .inr ⟨rfl, .inr ⟨rfl, hlt⟩⟩

/-- The comparison of such strings is that of their first pieces, then that of the rest. -/
theorem compare_append {a b : Bytes} (h : a.length = b.length) (x y : Bytes) :
    compare (a ++ x) (b ++ y) = (compare a b).then (compare x y) := by
  cases hab : compare a b with
  | lt =>
    rw [compare_eq_lt] at hab
    exact compare_eq_lt.mpr ((append_lt_append_iff h x y).mpr (.inl hab))
  | gt =>
    rw [compare_eq_gt] at hab
    exact compare_eq_gt.mpr ((append_lt_append_iff h.symm y x).mpr (.inl hab))
  | eq =>
    obtain rfl := compare_eq_eq.mp hab
    cases hxy : compare x y with
    | lt =>
      rw [compare_eq_lt] at hxy
      exact compare_eq_lt.mpr ((append_lt_append_iff rfl x y).mpr (.inr ⟨rfl, hxy⟩))
    | gt =>
      rw [compare_eq_gt] at hxy
      exact compare_eq_gt.mpr ((append_lt_append_iff rfl y x).mpr (.inr ⟨rfl, hxy⟩))
    | eq => exact compare_eq_eq.mpr (by rw [compare_eq_eq.mp hxy])

theorem append_lt_append_left_iff (a : Bytes) {x y : Bytes} : a ++ x < a ++ y ↔ x < y := by
  rw [append_lt_append_iff rfl]
  constructor
  · rintro (h | ⟨-, h⟩)
    · exact absurd h (List.lt_irrefl a)
    · exact h
  · exact fun h => .inr ⟨rfl, h⟩

theorem compare_append_left (a x y : Bytes) : compare (a ++ x) (a ++ y) = compare x y := by
  rw [compare_append rfl, compare_eq_eq.mpr rfl]
  rfl

theorem compare_cons (b : UInt8) (x y : Bytes) : compare (b :: x) (b :: y) = compare x y :=
  compare_append_left [b] x y

/-! ### Extensions of a stem -/

theorem prefix_le {stem key : Bytes} (h : stem <+: key) : stem ≤ key := by
  obtain ⟨rest, rfl⟩ := h
  exact List.le_append_left

/-- Bytes that are as wide as those in front begin the whole if they are those. -/
theorem prefix_append_iff {x y rest : Bytes} (h : x.length = y.length) :
    x <+: y ++ rest ↔ x = y := by
  constructor
  · intro hfront
    rw [← List.append_nil x] at hfront
    exact ((List.prefix_append_inj_of_length_eq h).mp hfront).1
  · rintro rfl
    exact List.prefix_append x rest

/-- A stem of bytes 255 only has no successor, and no other stem has none. -/
theorem successor?_eq_none_iff {stem : Bytes} :
    successor? stem = none ↔ ∀ b ∈ stem, b = 255 := by
  induction stem with
  | nil => simp [successor?]
  | cons b rest ih =>
    unfold successor?
    cases hr : successor? rest with
    | some above =>
      rw [hr] at ih
      simp only [reduceCtorEq, false_iff] at ih ⊢
      exact fun h => ih fun c hc => h c (List.mem_cons_of_mem b hc)
    | none =>
      have hrest := ih.mp hr
      by_cases hb : b = 255
      · simpa [hb] using hrest
      · simp [hb]

/-- Above a stem without a successor there are only its extensions. -/
theorem prefix_iff_of_no_successor? {stem key : Bytes} (h : successor? stem = none) :
    stem <+: key ↔ stem ≤ key := by
  refine ⟨prefix_le, fun hle => ?_⟩
  have hall := successor?_eq_none_iff.mp h
  clear h
  induction stem generalizing key with
  | nil => exact List.nil_prefix
  | cons b stem ih =>
    obtain rfl : b = 255 := hall b List.mem_cons_self
    cases key with
    | nil => exact absurd hle (by simp)
    | cons c key =>
      rcases List.cons_le_cons_iff.mp hle with hlt | ⟨rfl, htail⟩
      · -- no byte is above 255
        have hc := c.toNat_lt
        rw [UInt8.lt_iff_toNat_lt] at hlt
        simp at hlt
        omega
      · refine List.cons_prefix_cons.mpr ⟨rfl, ih htail ?_⟩
        exact fun d hd => hall d (List.mem_cons_of_mem _ hd)

/-- Unless it is the last byte, a byte and those below it are the ones below the next. -/
private theorem cons_lt_singleton_add_one_iff {b c : UInt8} (hb : b ≠ 255) (key : Bytes) :
    c :: key < [b + 1] ↔ c ≤ b := by
  have hnext : (b + 1).toNat = b.toNat + 1 := by
    have hlt := b.toNat_lt
    have hne : b.toNat ≠ 255 := fun he => hb (UInt8.toNat_inj.mp (by simpa using he))
    rw [UInt8.toNat_add]
    simp
    omega
  rw [List.cons_lt_cons_iff, UInt8.lt_iff_toNat_lt, UInt8.le_iff_toNat_le, hnext]
  simp only [List.not_lt_nil, and_false, or_false]
  omega

/-- The extensions of a stem are the strings from it on and below its successor. -/
theorem prefix_iff_of_successor? {stem above key : Bytes} (h : successor? stem = some above) :
    stem <+: key ↔ stem ≤ key ∧ key < above := by
  induction stem generalizing above key with
  | nil => simp [successor?] at h
  | cons b rest ih =>
    unfold successor? at h
    cases hr : successor? rest with
    | some restAbove =>
      -- the first byte stays, and the rest has a successor of its own
      rw [hr] at h
      obtain rfl : b :: restAbove = above := Option.some.inj h
      cases key with
      | nil => simp
      | cons c key =>
        rw [List.cons_prefix_cons, List.cons_le_cons_iff, List.cons_lt_cons_iff, ih hr]
        constructor
        · rintro ⟨rfl, hle, hlt⟩
          exact ⟨.inr ⟨rfl, hle⟩, .inr ⟨rfl, hlt⟩⟩
        · rintro ⟨hbc | ⟨rfl, hle⟩, hcb | ⟨hcb, hlt⟩⟩
          · exact absurd hcb (UInt8.lt_asymm hbc)
          · exact absurd (hcb ▸ hbc) (UInt8.lt_irrefl _)
          · exact absurd hcb (UInt8.lt_irrefl _)
          · exact ⟨rfl, hle, hlt⟩
    | none =>
      rw [hr] at h
      by_cases hb : b = 255
      · simp [hb] at h
      · obtain rfl : [b + 1] = above := by simpa [hb] using h
        cases key with
        | nil => simp
        | cons c key =>
          -- the rest of the stem does not matter, as all above it begins with it
          rw [List.cons_prefix_cons, prefix_iff_of_no_successor? hr, List.cons_le_cons_iff,
            cons_lt_singleton_add_one_iff hb]
          constructor
          · rintro ⟨rfl, hle⟩
            exact ⟨.inr ⟨rfl, hle⟩, UInt8.le_refl b⟩
          · rintro ⟨hbc | ⟨rfl, hle⟩, hcb⟩
            · exact absurd hbc (UInt8.not_lt.mpr hcb)
            · exact ⟨rfl, hle⟩

/--
Whatever the stem, the strings from it on, and below its successor if it has one, are the ones that
begin with it.
-/
theorem range_iff_prefix (stem key : Bytes) :
    (match successor? stem with
      | some above => stem ≤ key ∧ key < above
      | none => stem ≤ key) ↔ stem <+: key := by
  cases h : successor? stem with
  | some above => exact (prefix_iff_of_successor? h).symm
  | none => exact (prefix_iff_of_no_successor? h).symm

theorem lt_of_successor? {stem above : Bytes} (h : successor? stem = some above) : stem < above :=
  ((prefix_iff_of_successor? h).mp (List.prefix_refl stem)).2

/-- What lies between a stem and one of its extensions is an extension as well. -/
theorem prefix_of_between {stem key extension : Bytes} (hle : stem ≤ key)
    (hlt : key < extension) (h : stem <+: extension) : stem <+: key := by
  cases hs : successor? stem with
  | none => exact (prefix_iff_of_no_successor? hs).mpr hle
  | some above =>
    have habove := ((prefix_iff_of_successor? hs).mp h).2
    exact (prefix_iff_of_successor? hs).mpr ⟨hle, List.lt_trans hlt habove⟩

/-- From the successor of a stem on there is what is above the stem and not one of its
extensions. -/
theorem successor?_le_iff {stem above key : Bytes} (h : successor? stem = some above) :
    above ≤ key ↔ stem < key ∧ ¬ stem <+: key := by
  rw [prefix_iff_of_successor? h, le_iff_not_lt]
  have hstem := lt_of_successor? h
  constructor
  · intro hnot
    have hlt : stem < key := by
      rcases lt_or_eq_or_gt stem key with hlt | rfl | hgt
      · exact hlt
      · exact absurd hstem hnot
      · exact absurd (List.lt_trans hgt hstem) hnot
    exact ⟨hlt, fun hin => hnot hin.2⟩
  · rintro ⟨hlt, hout⟩ hin
    exact hout ⟨List.le_of_lt hlt, hin⟩

end GraphTable.Bytes
