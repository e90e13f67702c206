import GraphTable.Plan.Disjunct
import GraphTable.Predicate.Scalar
import GraphTable.Proofs.Bytes.Order
import GraphTable.Proofs.Outcome

/-!
# Bounds of ranges of keys

A comparison of a field with a literal is turned into a bound of a range (`KeyTerm.Sets`). Of the
keys that have the range's stem in common, the bound admits those whose field compares with the
literal's bytes as the operator says (`Sets.admits_iff`), however the key goes on. So the range
that all bounds leave consists of the keys that begin with the stem and are admitted by every
bound (`inRange_iff_forall_admits`).
-/

namespace GraphTable

namespace KeyTerm

/-- Whether a key is on the side of a bound that belongs to the range. -/
def Bound.Admits : Bound → Bytes → Prop
  | lower least, key => least ≤ key
  | upper above, key => key < above

/-- The bound that an operator sets to keys, given a stem with a literal's bytes after it. -/
inductive Sets : RelationalOp → Bytes → Bound → Prop
  | ge {key : Bytes} : Sets .ge key (.lower key)
  | gt {key above : Bytes} (h : Bytes.successor? key = some above) : Sets .gt key (.lower above)
  | lt {key : Bytes} : Sets .lt key (.upper key)
  | le {key above : Bytes} (h : Bytes.successor? key = some above) : Sets .le key (.upper above)

theorem holds_compare {a b : Bytes} :
    (RelationalOp.ge.holds (Bytes.compare a b) = true ↔ ¬ a < b) ∧
    (RelationalOp.gt.holds (Bytes.compare a b) = true ↔ b < a) ∧
    (RelationalOp.lt.holds (Bytes.compare a b) = true ↔ a < b) ∧
    (RelationalOp.le.holds (Bytes.compare a b) = true ↔ ¬ b < a) := by
  simp [RelationalOp.holds]

/-- Keys with equally wide bytes after the stem compare by these alone. -/
private theorem stem_lt_iff (stem : Bytes) {p bytes : Bytes} (h : bytes.length = p.length)
    (rest : Bytes) :
    (stem ++ bytes < stem ++ (p ++ rest) ∧ ¬ stem ++ bytes <+: stem ++ (p ++ rest) ↔ bytes < p) ∧
    (stem ++ (p ++ rest) < stem ++ bytes ↔ p < bytes) := by
  have habove := Bytes.append_lt_append_iff h [] rest
  have hbelow := Bytes.append_lt_append_iff h.symm rest []
  rw [List.append_nil] at habove hbelow
  rw [Bytes.append_lt_append_left_iff, Bytes.append_lt_append_left_iff,
    List.prefix_append_right_inj, habove, hbelow, Bytes.prefix_append_iff h]
  constructor
  · constructor
    · rintro ⟨hlt | ⟨heq, -⟩, hnot⟩
      · exact hlt
      · exact absurd heq hnot
    · exact fun hlt => ⟨.inl hlt, fun heq => List.lt_irrefl p (heq ▸ hlt)⟩
  · exact ⟨fun hor => hor.resolve_right fun hin => List.not_lt_nil rest hin.2, .inl⟩

theorem Sets.admits_iff {op : RelationalOp} {stem bytes p : Bytes} {bound : Bound}
    (h : Sets op (stem ++ bytes) bound) (hlen : bytes.length = p.length) (rest : Bytes) :
    bound.Admits (stem ++ (p ++ rest)) ↔ op.holds (Bytes.compare p bytes) = true := by
  obtain ⟨habove, hbelow⟩ := stem_lt_iff stem hlen rest
  cases h with
  | ge =>
    rw [holds_compare.1, ← hbelow]
    rfl
  | gt h =>
    rw [holds_compare.2.1, ← habove]
    exact Bytes.successor?_le_iff h
  | lt =>
    rw [holds_compare.2.2.1, ← hbelow]
    rfl
  | le h =>
    rw [holds_compare.2.2.2, ← habove, ← Bytes.successor?_le_iff h]
    exact (Decidable.not_not (p := _ < _)).symm

/-- No bound leaves room below the stem. -/
theorem Sets.stem_le {op : RelationalOp} {stem bytes least : Bytes}
    (h : Sets op (stem ++ bytes) (.lower least)) : stem ≤ least := by
  have hstem : stem ≤ stem ++ bytes := Bytes.prefix_le (List.prefix_append _ _)
  cases h with
  | ge => exact hstem
  | gt h => exact List.le_trans hstem (List.le_of_lt (Bytes.lt_of_successor? h))

/-- An upper bound leaves no keys above those that begin with the stem. -/
theorem Sets.prefix_of_le {op : RelationalOp} {stem bytes above key : Bytes}
    (h : Sets op (stem ++ bytes) (.upper above)) (hle : stem ≤ key) (hlt : key < above) :
    stem <+: key := by
  have hfront : stem <+: stem ++ bytes := List.prefix_append _ _
  cases h with
  | lt => exact Bytes.prefix_of_between hle hlt hfront
  | le h =>
    rcases Bytes.lt_or_eq_or_gt key (stem ++ bytes) with hkey | rfl | hkey
    · exact Bytes.prefix_of_between hle hkey hfront
    · exact hfront
    · exact hfront.trans ((Bytes.prefix_iff_of_successor? h).mpr ⟨List.le_of_lt hkey, hlt⟩)

theorem encode?_eq_some {t : KeyTerm} {bytes : Bytes} :
    t.encode? = .ok (some bytes) ↔ t.field.encode t.value = .ok bytes := by
  unfold encode?
  split
  · rename_i b h
    simp [h]
  · rename_i h
    simp [h]
  · rename_i h
    simp [h]

/-- A term that sets a bound is about a field of a fixed width and a literal that is safe. -/
theorem exists_sets_of_bound? {t : KeyTerm} {stem : Bytes} {bound : Bound}
    (h : t.bound? stem = .ok (some bound)) :
    ∃ bytes, t.field.encode t.value = .ok bytes ∧ t.field.width?.isSome = true ∧
      t.field.codec.preservesOrder t.value = true ∧ Sets t.op (stem ++ bytes) bound := by
  unfold bound? at h
  split at h
  · cases h
  · rename_i hsafe
    rw [not_or, Bool.not_eq_true, Option.isNone_eq_false_iff, Bool.not_eq_false] at hsafe
    obtain ⟨slot, hslot, h⟩ := Outcome.bind_eq_ok.mp h
    cases slot with
    | none => cases h
    | some bytes =>
      refine ⟨bytes, encode?_eq_some.mp hslot, hsafe.1, hsafe.2, ?_⟩
      cases hop : t.op <;> simp only [hop] at h
      case eq => cases h
      case ne => cases h
      case ge =>
        cases h
        exact .ge
      case lt =>
        cases h
        exact .lt
      case gt =>
        obtain ⟨above, habove, rfl⟩ := Option.map_eq_some_iff.mp (Except.ok.inj h)
        exact .gt habove
      case le =>
        obtain ⟨above, habove, rfl⟩ := Option.map_eq_some_iff.mp (Except.ok.inj h)
        exact .le habove

end KeyTerm

namespace KeyConstraints

open KeyTerm

/-! ### The range that bounds leave -/

section Narrow

variable {narrows : Bytes → Bytes → Bool}

/-- Of two keys the one is kept that leaves the smaller side, if sides are ordered by inclusion. -/
theorem narrow_forall_iff {P : Bytes → Prop}
    (h : ∀ key kept, if narrows key kept then P key → P kept else P kept → P key)
    (kept : Option Bytes) (key : Bytes) :
    (∀ x, narrow narrows kept key = some x → P x) ↔ (∀ x, kept = some x → P x) ∧ P key := by
  cases kept with
  | none => simp [narrow]
  | some old =>
    have hstep := h key old
    cases hnarrows : narrows key old with
    | true =>
      rw [if_pos hnarrows] at hstep
      simpa [narrow, hnarrows] using hstep
    | false =>
      rw [hnarrows, if_neg Bool.false_ne_true] at hstep
      simpa [narrow, hnarrows] using hstep

theorem narrow_mem {kept : Option Bytes} {key x : Bytes} (h : narrow narrows kept key = some x) :
    kept = some x ∨ key = x := by
  unfold narrow at h
  split at h
  · exact .inr (Option.some.inj h)
  · exact .inl h

/-- What holds of the key that is kept in the end holds of all keys. -/
theorem foldl_narrow_forall_iff {P : Bytes → Prop}
    (h : ∀ key kept, if narrows key kept then P key → P kept else P kept → P key)
    (keys : List Bytes) (kept : Option Bytes) :
    (∀ x, keys.foldl (narrow narrows) kept = some x → P x) ↔
      (∀ x, kept = some x → P x) ∧ ∀ x ∈ keys, P x := by
  induction keys generalizing kept with
  | nil => simp
  | cons key keys ih =>
    rw [List.foldl_cons, ih, narrow_forall_iff h, List.forall_mem_cons, and_assoc]

theorem mem_of_foldl_narrow {keys : List Bytes} {kept : Option Bytes} {x : Bytes}
    (h : keys.foldl (narrow narrows) kept = some x) : kept = some x ∨ x ∈ keys := by
  induction keys generalizing kept with
  | nil => exact .inl h
  | cons key keys ih =>
    rcases ih h with hstep | hmem
    · rcases narrow_mem hstep with hkept | rfl
      · exact .inl hkept
      · exact .inr List.mem_cons_self
    · exact .inr (List.mem_cons_of_mem _ hmem)

end Narrow

theorem mem_lowers_iff {bounds : List (Option Bound)} {key : Bytes} :
    key ∈ bounds.filterMap (fun b => b.bind Bound.lower?) ↔ some (.lower key) ∈ bounds := by
  simp only [List.mem_filterMap, Option.bind_eq_some_iff]
  constructor
  · rintro ⟨_, hmem, bound, rfl, hkey⟩
    cases bound with
    | lower least =>
      cases hkey
      exact hmem
    | upper above => cases hkey
  · exact fun hmem => ⟨_, hmem, _, rfl, rfl⟩

theorem mem_uppers_iff {bounds : List (Option Bound)} {key : Bytes} :
    key ∈ bounds.filterMap (fun b => b.bind Bound.upper?) ↔ some (.upper key) ∈ bounds := by
  simp only [List.mem_filterMap, Option.bind_eq_some_iff]
  constructor
  · rintro ⟨_, hmem, bound, rfl, hkey⟩
    cases bound with
    | upper above =>
      cases hkey
      exact hmem
    | lower least => cases hkey
  · exact fun hmem => ⟨_, hmem, _, rfl, rfl⟩

/-- A key that is not below the greatest lower bound is not below any. -/
theorem greatestLower_le_iff {bounds : List (Option Bound)} {key : Bytes} :
    (∀ least, greatestLower bounds = some least → least ≤ key) ↔
      ∀ least, some (.lower least) ∈ bounds → least ≤ key := by
  have hnarrows : ∀ new kept : Bytes,
      if decide (kept < new) then new ≤ key → kept ≤ key else kept ≤ key → new ≤ key := by
    intro new kept
    split
    · rename_i hlt
      exact List.le_trans (List.le_of_lt (of_decide_eq_true hlt))
    · rename_i hnot
      exact List.le_trans fun hlt => hnot (decide_eq_true hlt)
  rw [greatestLower, foldl_narrow_forall_iff hnarrows]
  simp only [mem_lowers_iff]
  exact and_iff_right nofun

theorem mem_of_greatestLower {bounds : List (Option Bound)} {least : Bytes}
    (h : greatestLower bounds = some least) : some (.lower least) ∈ bounds :=
  mem_lowers_iff.mp ((mem_of_foldl_narrow h).resolve_left nofun)

/-- A key that is below the least upper bound is below all. -/
theorem lt_leastUpper_iff {bounds : List (Option Bound)} {key : Bytes} :
    (∀ above, leastUpper bounds = some above → key < above) ↔
      ∀ above, some (.upper above) ∈ bounds → key < above := by
  have hnarrows : ∀ new kept : Bytes,
      if decide (new < kept) then key < new → key < kept else key < kept → key < new := by
    intro new kept
    split
    · rename_i hlt
      exact fun hkey => List.lt_trans hkey (of_decide_eq_true hlt)
    · rename_i hnot
      exact fun hkey => Bytes.lt_of_lt_of_le hkey fun hlt => hnot (decide_eq_true hlt)
  rw [leastUpper, foldl_narrow_forall_iff hnarrows]
  simp only [mem_uppers_iff]
  exact and_iff_right nofun

theorem mem_of_leastUpper {bounds : List (Option Bound)} {above : Bytes}
    (h : leastUpper bounds = some above) : some (.upper above) ∈ bounds :=
  mem_uppers_iff.mp ((mem_of_foldl_narrow h).resolve_left nofun)

theorem inRange_successor?_iff {stem key : Bytes} :
    Scan.inRange stem (Bytes.successor? stem) key = true ↔ stem <+: key := by
  rw [Scan.inRange_iff]
  cases h : Bytes.successor? stem with
  | none => simp [Bytes.prefix_iff_of_no_successor? h]
  | some above => simp [Bytes.prefix_iff_of_successor? h]

/-- The keys in the range are those with the stem in front that every bound admits. -/
theorem inRange_iff_forall_admits {bounds : List (Option Bound)} {stem key : Bytes}
    (h : ∀ bound, some bound ∈ bounds → ∃ op bytes, Sets op (stem ++ bytes) bound) :
    Scan.inRange ((greatestLower bounds).getD stem)
        ((leastUpper bounds).or (Bytes.successor? stem)) key = true ↔
      stem <+: key ∧ ∀ bound, some bound ∈ bounds → bound.Admits key := by
  have hstart : (greatestLower bounds).getD stem ≤ key ↔
      stem ≤ key ∧ ∀ least, greatestLower bounds = some least → least ≤ key := by
    cases hlow : greatestLower bounds with
    | none => simp
    | some least =>
      obtain ⟨op, bytes, hsets⟩ := h _ (mem_of_greatestLower hlow)
      simpa using fun hle => List.le_trans hsets.stem_le hle
  -- with an upper bound the stem's successor is left out, as the bound is not above it
  have hstop : stem ≤ key →
      ((∀ above, (leastUpper bounds).or (Bytes.successor? stem) = some above → key < above) ↔
        stem <+: key ∧ ∀ above, leastUpper bounds = some above → key < above) := by
    intro hle
    cases hup : leastUpper bounds with
    | none =>
      have hin : Scan.inRange stem (Bytes.successor? stem) key = true ↔ stem <+: key :=
        inRange_successor?_iff
      rw [Scan.inRange_iff] at hin
      simpa [hle] using hin
    | some above =>
      obtain ⟨op, bytes, hsets⟩ := h _ (mem_of_leastUpper hup)
      simpa using hsets.prefix_of_le hle
  rw [Scan.inRange_iff, hstart, greatestLower_le_iff]
  constructor
  · rintro ⟨⟨hle, hlower⟩, habove⟩
    obtain ⟨hfront, hupper⟩ := (hstop hle).mp habove
    refine ⟨hfront, fun bound hmem => ?_⟩
    cases bound with
    | lower least => exact hlower least hmem
    | upper above => exact lt_leastUpper_iff.mp hupper above hmem
  · rintro ⟨hfront, hadmits⟩
    have hle := Bytes.prefix_le hfront
    refine ⟨⟨hle, fun least hmem => hadmits _ hmem⟩, (hstop hle).mpr ⟨hfront, ?_⟩⟩
    exact lt_leastUpper_iff.mpr fun above hmem => hadmits _ hmem

end KeyConstraints

end GraphTable
