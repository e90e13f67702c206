import GraphTable.Proofs.Plan.Misplaced

/-!
# No row too many

A plan that leaves no term to the recognizer covers just rows that the predicate is true of, if
all fields of the key have a fixed width (`evaluate_of_covers`). Every term of an alternative is
then settled by its scan: its field is fixed to bytes that stand for one value only, or the term
sets a bound on the first field that is not fixed.

Again a padded date of a year above 9999 is in the way. If it sets a lower bound, the range above
it has every stored date, though all of them are below the literal (`KeyTerm.IncludesStored`).
-/

namespace GraphTable

/-- A comparison that sets a lower bound below everything stored. -/
def KeyTerm.IncludesStored (t : KeyTerm) : Prop :=
  (t.op = .gt ∨ t.op = .ge) ∧ t.Misplaced

namespace KeyConstraints

variable {root : TypeDef} {mapping : TypeMapping} {terms : List Expr} {c : KeyConstraints}
  {t : KeyTerm} {b : Bytes} {limit : Nat}

/-! ### Terms that a scan settles -/

/-- A term fixes its field to bytes that can be read back, and the scan fixes it to these. -/
structure Settled (c : KeyConstraints) (limit : Nat) (t : KeyTerm) (b : Bytes) : Prop where
  op_eq : t.op = .eq
  encode : t.field.encode t.value = .ok b
  lt : t.index < limit
  bound : c.bound? t.index = some b
  reversible : t.field.codec.isReversible = true

theorem Settled.getElem?_bound (h : Settled c limit t b) (hlimit : limit ≤ c.fields.length) :
    c.bound[t.index]? = some (some b) := by
  rw [KeyConstraints.getElem?_bound, if_pos (Nat.lt_of_lt_of_le h.lt hlimit), h.bound]

/-- A term sets a bound on the first field that is not fixed. -/
def SetsBound (c : KeyConstraints) (t : KeyTerm) : Prop :=
  t.index = c.leading.length ∧ ∃ bound, t.bound? c.start = .ok (some bound)

private theorem settled_of_settledBelow (hg : Gathered root mapping terms c)
    {term : Option KeyTerm} {slot : Option Bytes} (hmem : (term, slot) ∈ c.terms.zip c.equalities)
    (h : c.settledBelow limit (term, slot) = true) :
    ∃ t b, term = some t ∧ Settled c limit t b := by
  unfold settledBelow at h
  split at h
  · rename_i t b heq
    cases heq
    simp only [Bool.and_eq_true, decide_eq_true_eq, beq_iff_eq] at h
    obtain ⟨⟨⟨-, hlt⟩, hbound⟩, hrev⟩ := h
    obtain ⟨hop, hencode⟩ := hg.equality_of_mem hmem
    exact ⟨t, b, rfl, hop, hencode, hlt, hbound, hrev⟩
  · cases h

/-- Without residual terms the fields below the place settle all terms. -/
theorem settled_of_residualBelow (hg : Gathered root mapping terms c)
    (h : c.residualBelow limit = false) {term : Option KeyTerm} (hterm : term ∈ c.terms) :
    ∃ t b, term = some t ∧ Settled c limit t b := by
  obtain ⟨i, hi⟩ := List.mem_iff_getElem?.mp hterm
  obtain ⟨slot, hslot, -⟩ := Outcome.exists_of_mapM hg.equalities_eq hi
  have hmem : (term, slot) ∈ c.terms.zip c.equalities :=
    List.mem_of_getElem? (List.getElem?_zip_eq_some.mpr ⟨hi, hslot⟩)
  rw [residualBelow, Bool.not_eq_false'] at h
  exact settled_of_settledBelow hg hmem (List.all_eq_true.mp h _ hmem)

/-- Without residual terms in a range, those that are not settled set bounds. -/
theorem settled_or_setsBound (hg : Gathered root mapping terms c)
    {bounds : List (Option KeyTerm.Bound)} (hbounds : c.bounds = .ok bounds)
    (h : c.residualInRange bounds = false) {term : Option KeyTerm} (hterm : term ∈ c.terms) :
    ∃ t, term = some t ∧ ((∃ b, Settled c c.leading.length t b) ∨ SetsBound c t) := by
  obtain ⟨i, hi⟩ := List.mem_iff_getElem?.mp hterm
  obtain ⟨slot, hslot, -⟩ := Outcome.exists_of_mapM hg.equalities_eq hi
  obtain ⟨bound, hbound, hset⟩ := Outcome.exists_of_mapM hbounds hi
  have hmem : (c.terms.zip c.equalities)[i]? = some (term, slot) :=
    List.getElem?_zip_eq_some.mpr ⟨hi, hslot⟩
  rw [residualInRange, Bool.not_eq_false'] at h
  have hsettles := List.all_eq_true.mp h ((term, slot), bound)
    (List.mem_of_getElem? (List.getElem?_zip_eq_some.mpr ⟨hmem, hbound⟩))
  rcases (Bool.or_eq_true _ _).mp hsettles with hbelow | hsome
  · obtain ⟨t, b, rfl, hsettled⟩ := settled_of_settledBelow hg (List.mem_of_getElem? hmem) hbelow
    exact ⟨t, rfl, .inl ⟨b, hsettled⟩⟩
  · obtain ⟨bound, rfl⟩ := Option.isSome_iff_exists.mp hsome
    cases term with
    | none => cases hset
    | some t =>
      simp only at hset
      split at hset
      · exact ⟨t, rfl, .inr ⟨‹_›, bound, hset⟩⟩
      · cases hset

end KeyConstraints

namespace Plan

open KeyConstraints

variable {catalog : Catalog} {root : TypeDef} {mapping : TypeMapping} {values : List Value}
  {key : Bytes} {g : Graph} {r : Recognizer} {predicate : Expr} {terms : List Expr}
  {c : KeyConstraints} {pieces : List Bytes} {t : KeyTerm} {v : Value} {b : Bytes}

/-! ### One alternative -/

/-- A settled term is true of a row whose field has the bytes that it is fixed to. -/
private theorem satisfies_of_settled {limit : Nat} {bytes : Bytes} (h : Settled c limit t bytes)
    (hcompared : t.Compared v b) (hother : t.field.type.flavor ≠ .other)
    (hnull : t.value.NoNullAtEnd) (hb : pieces[t.index]? = some b)
    (hbytes : pieces[t.index]? = some bytes) :
    t.field.type.satisfies t.op v t.value = .ok true := by
  obtain rfl : b = bytes := Option.some.inj (hb.symm.trans hbytes)
  exact hcompared.satisfies_of_eq h.op_eq hother hnull h.reversible h.encode

/-- A term that set a bound is true of the values above or below it that the bound admits. -/
private theorem satisfies_of_holds {bytes stem : Bytes} {bound : KeyTerm.Bound}
    (hcompared : t.Compared v b) (hother : t.field.type.flavor ≠ .other)
    (hnull : t.value.NoNullAtEnd) (hincludes : ¬ t.IncludesStored)
    (hwidth : t.field.width?.isSome = true)
    (hsafe : t.field.codec.preservesOrder t.value = true)
    (hbytes : t.field.encode t.value = .ok bytes) (hsets : KeyTerm.Sets t.op stem bound)
    (hholds : t.op.holds (Bytes.compare b bytes) = true) :
    t.field.type.satisfies t.op v t.value = .ok true := by
  cases hplaced : t.field.codec.misplaces t.value with
  | false => rw [hcompared.satisfies_eq hother hnull hsafe hplaced hbytes, hholds]
  | true =>
    -- the operator holds of bytes above the literal's, so the bound is a lower one
    rw [(hcompared.satisfies_of_misplaces hother hsafe hplaced hbytes).2] at hholds
    refine absurd ⟨?_, hwidth, hplaced, bytes, hbytes⟩ hincludes
    generalize t.op = op at hsets hholds
    cases hsets with
    | lt => cases hholds
    | le _ => cases hholds
    | ge => exact .inr rfl
    | gt _ => exact .inl rfl

/-- The scan of an alternative without residual terms covers rows that all its terms hold of. -/
private theorem satisfies_of_covers (hg : Gathered root mapping terms c) {p : DisjunctPlan}
    (hp : Planned c p) (hres : p.residual = false)
    (ha : RowKey.Aligned c.fields c.bound pieces)
    (hwidth : ∀ f ∈ mapping.fields, f.width?.isSome = true)
    (hcovers : p.scan.covers pieces.flatten = true) {term : Option KeyTerm}
    (hterm : term ∈ c.terms) :
    ∃ t, term = some t ∧ ∀ v b, pieces[t.index]? = some b → t.Compared v b →
      t.field.type.flavor ≠ .other → t.value.NoNullAtEnd → ¬ t.IncludesStored →
      t.field.type.satisfies t.op v t.value = .ok true := by
  have hstands : ∀ (i : Nat) (b : Bytes), c.bound[i]? = some (some b) →
      RowKey.StandsAt pieces i b → pieces[i]? = some b := by
    intro i b hb hstands
    have hi := (List.getElem?_eq_some_iff.mp hb).1
    rw [length_bound] at hi
    have hmem : c.fields[i] ∈ mapping.fields := hg.fields_eq ▸ List.getElem_mem hi
    exact (ha.standsAt_iff (List.getElem?_eq_getElem hi) (hwidth _ hmem) hb).mp hstands
  cases hp with
  | point h =>
    obtain ⟨t, bytes, rfl, hsettled⟩ := settled_of_residualBelow hg hres hterm
    refine ⟨t, rfl, fun v b hb hcompared hother hnull _ => ?_⟩
    have hpiece := (covers_point_iff ha h).mp hcovers _ _ (hsettled.getElem?_bound (Nat.le_refl _))
    exact satisfies_of_settled hsettled hcompared hother hnull hb hpiece
  | fuzzy _ h =>
    obtain ⟨t, bytes, rfl, hsettled⟩ := settled_of_residualBelow hg hres hterm
    refine ⟨t, rfl, fun v b hb hcompared hother hnull _ => ?_⟩
    have hbound := hsettled.getElem?_bound (Nat.le_refl _)
    have hpiece := hstands _ _ hbound ((covers_fuzzy_iff ha h).mp hcovers _ _ hbound)
    exact satisfies_of_settled hsettled hcompared hother hnull hb hpiece
  | range hfree h =>
    obtain ⟨hleading, hadmits⟩ := (covers_range_iff ha h).mp hcovers
    obtain ⟨t, rfl, ⟨bytes, hsettled⟩ | ⟨hindex, bound, hset⟩⟩ :=
      settled_or_setsBound hg h hres hterm
    · refine ⟨t, rfl, fun v b hb hcompared hother hnull _ => ?_⟩
      have hbound := hsettled.getElem?_bound c.length_leading
      have hpiece := hstands _ _ hbound (hleading _ _ hsettled.lt hbound)
      exact satisfies_of_settled hsettled hcompared hother hnull hb hpiece
    · refine ⟨t, rfl, fun v b hb hcompared hother hnull hincludes => ?_⟩
      obtain ⟨bytes, hbytes, hwidth, hsafe, hsets⟩ := KeyTerm.exists_sets_of_bound? hset
      refine satisfies_of_holds hcompared hother hnull hincludes hwidth hsafe hbytes hsets ?_
      refine (admits_iff ha hfree ((start_prefix_iff ha).mpr hleading) hsets hindex hwidth hbytes
        hb hcompared.encode).mp (hadmits bound ?_)
      exact (mem_bounds_iff h).mpr ⟨t, hterm, hindex, hset⟩

/-! ### Whole predicates -/

/-- A scan without residual terms is about key fields only, so all its terms have truth values. -/
private theorem exists_term_of_planned (hg : Gathered root mapping terms c) {p : DisjunctPlan}
    (hp : Planned c p) (hres : p.residual = false) {x : Expr} (hx : x ∈ terms) :
    ∃ t, some t ∈ c.terms ∧ KeyTerm.ofExpr? mapping.fields x = .ok (some t) := by
  obtain ⟨term, hterm, hof⟩ := hg.exists_term hx
  have hsome : ∃ t, term = some t := by
    cases hp with
    | point _ =>
      obtain ⟨t, -, rfl, -⟩ := settled_of_residualBelow hg hres hterm
      exact ⟨t, rfl⟩
    | fuzzy _ _ =>
      obtain ⟨t, -, rfl, -⟩ := settled_of_residualBelow hg hres hterm
      exact ⟨t, rfl⟩
    | range _ h =>
      obtain ⟨t, rfl, -⟩ := settled_or_setsBound hg h hres hterm
      exact ⟨t, rfl⟩
  obtain ⟨t, rfl⟩ := hsome
  exact ⟨t, hterm, hof⟩

theorem requiresRecognizer_of_ofType {filtered : Bool} {plan : Plan}
    (h : ofType filtered root mapping = .ok plan) : plan.requiresRecognizer = filtered := by
  obtain ⟨stem, -, h⟩ := Outcome.bind_eq_ok.mp h
  cases h
  rfl

/-- The predicate is true of the rows that are covered, if no comparison includes too much. -/
theorem evaluate_of_covers (hcat : ∀ f ∈ mapping.fields, f.Catalogued catalog root)
    (hwidth : ∀ f ∈ mapping.fields, f.width?.isSome = true) (hlabels : predicate.Labelled)
    {plan : Plan} (hplan : ofPredicate catalog root mapping (some predicate) = .ok plan)
    (hres : plan.requiresRecognizer = false)
    (hcreate : Recognizer.create catalog root predicate = .ok r)
    (hrow : StoredRow root mapping values key g)
    (hnull : ∀ t : KeyTerm, t.Among mapping.fields predicate.nodes → t.value.NoNullAtEnd)
    (hincludes : ∀ t : KeyTerm, t.Among mapping.fields predicate.nodes → ¬ t.IncludesStored)
    (hcovers : ∃ s ∈ plan.scans, s.covers key = true) : r.evaluate g predicate = .ok true := by
  obtain ⟨hvalid, hplanned⟩ := plannedBy_of_ofPredicate hplan
  obtain ⟨pieces, henc, rfl⟩ := hrow.exists_encodes
  cases hplanned with
  | tooMany _ h => cases hres.symm.trans (requiresRecognizer_of_ofType h)
  | unconstrained _ _ h => cases hres.symm.trans (requiresRecognizer_of_ofType h)
  | @scans alternatives plans he hplans h =>
    subst h
    have hres : ∀ p ∈ plans, p.residual = false := by simpa using hres
    have halts := Expr.alternatives_of_disjuncts? he
    obtain ⟨hleft, hright⟩ := forall_alternatives_of_ofDisjuncts hplans
    obtain ⟨s, hs, hcovers⟩ := exists_covers_iff.mp hcovers
    obtain ⟨p, hp, rfl⟩ := List.mem_map.mp hs
    obtain ⟨terms, hmem, c, hg, hplanned⟩ := hright p hp
    refine Recognizer.evaluate_of_alternative halts (fun others hothers x hx => ?_) hmem
      fun x hx => ?_
    -- the terms of all alternatives have truth values, and those of this one are true
    · obtain ⟨q, hq, d, hg, hplanned⟩ := hleft others hothers
      obtain ⟨t, -, hof⟩ := exists_term_of_planned hg hplanned (hres q hq) hx
      obtain ⟨v, b, -, -, hcompared, hother, heval⟩ := hrow.exists_evaluate_eq hcat hlabels hvalid
        hcreate henc (halts.mem_nodes others hothers x hx) (KeyTerm.written_of_ofExpr? hof)
      obtain ⟨o, ho⟩ := DataType.exists_compareAs? hcompared.not_real hother
        hcompared.storable.fits hcompared.fits
      exact ⟨_, heval.trans (DataType.satisfies_of_compareAs? hcompared.storable.fits hother ho)⟩
    · obtain ⟨t, ht, hof⟩ := exists_term_of_planned hg hplanned (hres p hp) hx
      have hx := halts.mem_nodes terms hmem x hx
      obtain ⟨v, b, -, hb, hcompared, hother, heval⟩ := hrow.exists_evaluate_eq hcat hlabels hvalid
        hcreate henc hx (KeyTerm.written_of_ofExpr? hof)
      obtain ⟨_, hterm, hsat⟩ := satisfies_of_covers hg hplanned (hres p hp)
        (hg.fields_eq ▸ hg.aligned henc) hwidth hcovers ht
      cases hterm
      rw [heval]
      exact hsat v b hb hcompared hother (hnull t ⟨x, hx, hof⟩) (hincludes t ⟨x, hx, hof⟩)

/-- A comparison that includes what is stored covers every row, and is true of none. -/
theorem covers_of_includesStored (hcat : ∀ f ∈ mapping.fields, f.Catalogued catalog root)
    (hlabels : predicate.Labelled) {plan : Plan}
    (hplan : ofPredicate catalog root mapping (some predicate) = .ok plan)
    (hcreate : Recognizer.create catalog root predicate = .ok r)
    (hrow : StoredRow root mapping values key g)
    (hof : KeyTerm.ofExpr? mapping.fields predicate = .ok (some t)) (h : t.IncludesStored)
    (hindex : t.index = mapping.predefined.length) :
    (∃ s ∈ plan.scans, s.covers key = true) ∧ r.evaluate g predicate = .ok false := by
  have hops : t.op ≠ .eq ∧ t.op.holds .lt = false ∧ t.op.holds .gt = true := by
    rcases h.1 with hop | hop <;> rw [hop] <;> decide
  obtain ⟨heq, hlt, hgt⟩ := hops
  have heval := evaluate_of_misplaced hcat hcreate hlabels hof h.2 hrow
  rw [hlt] at heval
  exact ⟨(covers_iff_of_misplaced hcat hplan hof h.2 heq hindex hrow).mpr hgt, heval⟩

/--
A plan that leaves nothing to the recognizer, for a key of fixed width, covers just rows that the
predicate is true of, as long as no comparison includes what is stored on its other side. If the
predicate is such a comparison, of the first field that is not predefined, its plan covers all
rows, and it is true of none.
-/
theorem true_of_covered_unless_included
    (hcat : ∀ f ∈ mapping.fields, f.Catalogued catalog root)
    (hwidth : ∀ f ∈ mapping.fields, f.width?.isSome = true) (hlabels : predicate.Labelled)
    {plan : Plan} (hplan : ofPredicate catalog root mapping (some predicate) = .ok plan)
    (hres : plan.requiresRecognizer = false) (hrow : StoredRow root mapping values key g)
    (hnull : ∀ t : KeyTerm, t.Among mapping.fields predicate.nodes → t.value.NoNullAtEnd) :
    ∃ r, Recognizer.create catalog root predicate = .ok r ∧
      ((∀ t : KeyTerm, t.Among mapping.fields predicate.nodes → ¬ t.IncludesStored) →
        ∀ s ∈ plan.scans, s.covers key = true → r.evaluate g predicate = .ok true) ∧
      ∀ t, KeyTerm.ofExpr? mapping.fields predicate = .ok (some t) → t.IncludesStored →
        t.index = mapping.predefined.length →
        (∃ s ∈ plan.scans, s.covers key = true) ∧ r.evaluate g predicate = .ok false := by
  have hvalid := (plannedBy_of_ofPredicate hplan).1
  obtain ⟨r, hcreate⟩ := Recognizer.exists_create_of_validate hlabels hvalid
  refine ⟨r, hcreate, fun hincludes s hs hcovers => ?_, fun t hof h hindex => ?_⟩
  · exact evaluate_of_covers hcat hwidth hlabels hplan hres hcreate hrow hnull hincludes
      ⟨s, hs, hcovers⟩
  · exact covers_of_includesStored hcat hlabels hplan hcreate hrow hof h hindex

/-- The days up to the end of June are told by the keys alone, and New Year is one of them. -/
theorem newYear_true_up_to_june :
    ∃ plan r s, ofPredicate Log.catalog Log.event Log.byDay
        (some (Log.compares .le "day" "2024-06-30")) = .ok plan ∧
      plan.requiresRecognizer = false ∧
      Recognizer.create Log.catalog Log.event (Log.compares .le "day" "2024-06-30") = .ok r ∧
      s ∈ plan.scans ∧ s.covers Log.newYearEntry.rowKey = true ∧
      r.evaluate Log.newYearEntry (Log.compares .le "day" "2024-06-30") = .ok true := by
  have hof : KeyTerm.ofExpr? Log.byDay.fields (Log.compares .le "day" "2024-06-30") =
      .ok (some ⟨0, Log.day, .le, .date ⟨2024, 6, 30, by decide⟩⟩) := rfl
  obtain ⟨plan, s, hplan, hres, hs, hcovers⟩ : ∃ plan s, ofPredicate Log.catalog Log.event
      Log.byDay (some (Log.compares .le "day" "2024-06-30")) = .ok plan ∧
      plan.requiresRecognizer = false ∧ s ∈ plan.scans ∧
      s.covers Log.newYearEntry.rowKey = true :=
    ⟨_, _, rfl, rfl, List.mem_singleton_self _, by decide⟩
  obtain ⟨r, hcreate, htrue, -⟩ := true_of_covered_unless_included Log.catalogued_byDay (by decide)
    (by decide) hplan hres Log.storedRow_newYear fun t ht => (by rw [ht.eq_of_nodes hof]; trivial)
  have hincludes : ∀ t : KeyTerm,
      t.Among Log.byDay.fields (Log.compares .le "day" "2024-06-30").nodes →
      ¬ t.IncludesStored := by
    intro t ht hincluded
    rw [ht.eq_of_nodes hof] at hincluded
    exact absurd hincluded.2.2.1 (by decide)
  exact ⟨plan, r, s, hplan, hres, hcreate, hs, hcovers, htrue hincludes s hs hcovers⟩

/-- The days from one of the year 12345 on are a range of keys that has New Year in it. -/
theorem newYear_covered_from_far_day :
    ∃ plan r, ofPredicate Log.catalog Log.event Log.byDay
        (some (Log.compares .ge "day" "+12345-01-01")) = .ok plan ∧
      plan.requiresRecognizer = false ∧
      Recognizer.create Log.catalog Log.event (Log.compares .ge "day" "+12345-01-01") = .ok r ∧
      (∀ f ∈ Log.byDay.fields, f.Catalogued Log.catalog Log.event ∧ f.width?.isSome = true) ∧
      StoredRow Log.event Log.byDay [.date Log.newYear] Log.newYearEntry.rowKey
        Log.newYearEntry ∧
      (∃ s ∈ plan.scans, s.covers Log.newYearEntry.rowKey = true) ∧
      r.evaluate Log.newYearEntry (Log.compares .ge "day" "+12345-01-01") = .ok false := by
  have hwidth : ∀ f ∈ Log.byDay.fields, f.width?.isSome = true := by decide
  exact ⟨_, _, rfl, rfl, rfl, fun f hf => ⟨Log.catalogued_byDay f hf, hwidth f hf⟩,
    Log.storedRow_newYear, ⟨_, List.mem_singleton_self _, by decide⟩, rfl⟩

end Plan

end GraphTable
