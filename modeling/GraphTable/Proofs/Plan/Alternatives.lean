import GraphTable.Plan.Basic
import GraphTable.Proofs.Plan.Constraints
import GraphTable.Proofs.Predicate.Disjuncts

/-!
# The scans of a whole predicate

A plan for a predicate reads all rows of the type, or it has one scan for each alternative
(`PlannedBy`, `forall_alternatives_of_ofDisjuncts`). What is done to the scans in the end,
leaving out repetitions and turning lookups into ranges of one key, changes nothing about the keys
that they cover together (`exists_covers_iff`).
-/

namespace GraphTable.Plan

/-! ### Scans together -/

theorem mem_distinct {scans : List Scan} {s : Scan} : s ∈ distinct scans ↔ s ∈ scans := by
  have hfold : ∀ kept : List Scan,
      s ∈ scans.foldl (fun kept s => if kept.contains s then kept else kept ++ [s]) kept ↔
        s ∈ kept ∨ s ∈ scans := by
    induction scans with
    | nil => simp
    | cons t scans ih =>
      intro kept
      rw [List.foldl_cons, ih]
      by_cases ht : t ∈ kept
      · rw [if_pos (List.contains_iff_mem.mpr ht)]
        constructor
        · rintro (hs | hs)
          · exact .inl hs
          · exact .inr (List.mem_cons_of_mem t hs)
        · rintro (hs | hs)
          · exact .inl hs
          · rcases List.mem_cons.mp hs with rfl | hs
            · exact .inl ht
            · exact .inr hs
      · rw [if_neg fun h => ht (List.contains_iff_mem.mp h)]
        simp [or_assoc]
  exact (hfold []).trans (by simp)

/-- The range of a single key. -/
theorem covers_demote (s : Scan) (key : Bytes) : (demote s).covers key = s.covers key := by
  cases s with
  | point own =>
    have hone : Scan.inRange own (some (own ++ [0])) key = true ↔ own = key := by
      rw [Scan.inRange_iff]
      constructor
      · rintro ⟨hle, hlt⟩
        -- what lies between extends the key by bytes below a single null byte, so by none
        have hfront := Bytes.prefix_of_between hle (hlt _ rfl) (List.prefix_append own [0])
        obtain ⟨rest, rfl⟩ := hfront
        have hrest := (Bytes.append_lt_append_left_iff own).mp (hlt _ rfl)
        cases rest with
        | nil => exact (List.append_nil own).symm
        | cons b rest =>
          rcases List.cons_lt_cons_iff.mp hrest with hb | ⟨-, hnil⟩
          · exact absurd hb UInt8.not_lt_zero
          · exact absurd hnil (List.not_lt_nil rest)
      · rintro rfl
        refine ⟨List.le_refl own, fun above habove => ?_⟩
        obtain rfl := Option.some.inj habove
        have hlt := (Bytes.append_lt_append_left_iff own).mpr (List.nil_lt_cons (0 : UInt8) [])
        rwa [List.append_nil] at hlt
    change (Scan.inRange own (some (own ++ [0])) key && true) = (own == key)
    rw [Bool.and_true, Bool.eq_iff_iff, hone, beq_iff_eq]
  | range start stop sample => rfl
  | fuzzy template mask start stop => rfl

theorem exists_covers_unmixed_iff {scans : List Scan} {key : Bytes} :
    (∃ s ∈ unmixed scans, s.covers key = true) ↔ ∃ s ∈ scans, s.covers key = true := by
  unfold unmixed
  split
  · constructor
    · rintro ⟨s, hs, hcovers⟩
      obtain ⟨t, ht, rfl⟩ := List.mem_map.mp hs
      exact ⟨t, ht, (covers_demote t key).symm.trans hcovers⟩
    · rintro ⟨s, hs, hcovers⟩
      exact ⟨demote s, List.mem_map_of_mem hs, (covers_demote s key).trans hcovers⟩
  · exact Iff.rfl

/-- A key is covered by a scan of the plan if it is by one of the alternatives. -/
theorem exists_covers_iff {scans : List Scan} {key : Bytes} :
    (∃ s ∈ unmixed (distinct scans), s.covers key = true) ↔
      ∃ s ∈ scans, s.covers key = true := by
  rw [exists_covers_unmixed_iff]
  simp only [mem_distinct]

/-! ### Alternatives -/

variable {root : TypeDef} {mapping : TypeMapping}

/-- A plan belongs to an alternative. -/
def PlannedFor (root : TypeDef) (mapping : TypeMapping) (terms : List Expr)
    (p : DisjunctPlan) : Prop :=
  ∃ c, KeyConstraints.Gathered root mapping terms c ∧ KeyConstraints.Planned c p

/-- Every alternative has its plan, and every plan belongs to an alternative. -/
theorem forall_alternatives_of_ofDisjuncts {alternatives : List (List Expr)}
    {plans : List DisjunctPlan} (h : ofDisjuncts root mapping alternatives = .ok (some plans)) :
    (∀ terms ∈ alternatives, ∃ p ∈ plans, PlannedFor root mapping terms p) ∧
      ∀ p ∈ plans, ∃ terms ∈ alternatives, PlannedFor root mapping terms p := by
  induction alternatives generalizing plans with
  | nil =>
    cases h
    exact ⟨fun _ hmem => (by cases hmem), fun _ hmem => (by cases hmem)⟩
  | cons terms alternatives ih =>
    obtain ⟨c, hc, h⟩ := Outcome.bind_eq_ok.mp h
    obtain ⟨found, hfound, h⟩ := Outcome.bind_eq_ok.mp h
    cases found with
    | none => cases h
    | some p =>
      obtain ⟨rest, hrest, h⟩ := Outcome.bind_eq_ok.mp h
      cases rest with
      | none => cases h
      | some more =>
        cases h
        have hp : PlannedFor root mapping terms p :=
          ⟨c, KeyConstraints.gathered_of_gather hc, KeyConstraints.planned_of_plan hfound⟩
        obtain ⟨hleft, hright⟩ := ih hrest
        constructor
        · intro ts hts
          rcases List.mem_cons.mp hts with rfl | hts
          · exact ⟨p, List.mem_cons_self, hp⟩
          · obtain ⟨q, hq, hplanned⟩ := hleft ts hts
            exact ⟨q, List.mem_cons_of_mem p hq, hplanned⟩
        · intro q hq
          rcases List.mem_cons.mp hq with rfl | hq
          · exact ⟨terms, List.mem_cons_self, hp⟩
          · obtain ⟨ts, hts, hplanned⟩ := hright q hq
            exact ⟨ts, List.mem_cons_of_mem terms hts, hplanned⟩

/-- How a plan for a predicate comes about. -/
inductive PlannedBy (root : TypeDef) (mapping : TypeMapping) (e : Expr) (plan : Plan) : Prop
  /-- There are too many alternatives. -/
  | tooMany (hmany : e.disjuncts? = none) (h : ofType true root mapping = .ok plan)
  /-- Some alternative says nothing about the key. -/
  | unconstrained {alternatives : List (List Expr)} (he : e.disjuncts? = some alternatives)
      (hnone : ofDisjuncts root mapping alternatives = .ok none)
      (h : ofType true root mapping = .ok plan)
  | scans {alternatives : List (List Expr)} {plans : List DisjunctPlan}
      (he : e.disjuncts? = some alternatives)
      (hplans : ofDisjuncts root mapping alternatives = .ok (some plans))
      (h : plan = ⟨unmixed (distinct (plans.map DisjunctPlan.scan)),
        plans.any DisjunctPlan.residual, false⟩)

/-- A plan reads all rows of the type, or has a scan for each alternative. -/
theorem plannedBy_of_ofPredicate {catalog : Catalog} {e : Expr} {plan : Plan}
    (h : ofPredicate catalog root mapping (some e) = .ok plan) :
    e.validate catalog root = .ok () ∧ PlannedBy root mapping e plan := by
  obtain ⟨_, hvalid, h⟩ := Outcome.bind_eq_ok.mp h
  refine ⟨Outcome.mapError_eq_ok.mp hvalid, ?_⟩
  split at h
  · exact .tooMany ‹_› h
  · rename_i alternatives halternatives
    obtain ⟨found, hfound, h⟩ := Outcome.bind_eq_ok.mp h
    cases found with
    | none => exact .unconstrained halternatives hfound h
    | some plans =>
      cases h
      exact .scans halternatives hfound rfl

/-- If there is no plan, some alternative sets no bound. -/
theorem exists_alternative_of_ofDisjuncts {alternatives : List (List Expr)}
    (h : ofDisjuncts root mapping alternatives = .ok none) :
    ∃ terms ∈ alternatives, ∃ c, KeyConstraints.Gathered root mapping terms c ∧
      c.plan = .ok none := by
  induction alternatives with
  | nil => cases h
  | cons terms alternatives ih =>
    obtain ⟨c, hc, h⟩ := Outcome.bind_eq_ok.mp h
    obtain ⟨found, hfound, h⟩ := Outcome.bind_eq_ok.mp h
    cases found with
    | none => exact ⟨terms, List.mem_cons_self, c, KeyConstraints.gathered_of_gather hc, hfound⟩
    | some p =>
      obtain ⟨rest, hrest, h⟩ := Outcome.bind_eq_ok.mp h
      cases rest with
      | none =>
        obtain ⟨ts, hts, hnone⟩ := ih hrest
        exact ⟨ts, List.mem_cons_of_mem terms hts, hnone⟩
      | some more => cases h

end GraphTable.Plan
