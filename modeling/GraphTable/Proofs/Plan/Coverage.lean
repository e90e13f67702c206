import GraphTable.Proofs.Plan.Misplaced

/-!
# No row is lost

A plan covers the key of every stored row that the predicate is true of (`covers_of_evaluate`).
For some alternative all terms are true of the row, and its scan covers the key: the fields that
it binds have these very bytes, and the bounds that it sets admit the key.

The one thing in the way is a comparison with a padded date of a year above 9999. If it sets an
upper bound, the range below it has no stored date at all, though all of them are below the
literal (`KeyTerm.ExcludesStored`). The statement leaves such comparisons out, and says what
becomes of them: a predicate that is just such a comparison, of the first field that is not
predefined, is true of every row, and its plan covers none.
-/

namespace GraphTable

/-- A comparison that sets an upper bound below everything stored. -/
def KeyTerm.ExcludesStored (t : KeyTerm) : Prop :=
  (t.op = .lt ∨ t.op = .le) ∧ t.Misplaced

namespace Plan

open KeyConstraints

variable {catalog : Catalog} {root : TypeDef} {mapping : TypeMapping} {values : List Value}
  {key : Bytes} {g : Graph} {r : Recognizer} {predicate : Expr} {terms : List Expr}
  {c : KeyConstraints} {pieces : List Bytes}

/-! ### One alternative -/

/-- A true term is about the value that the row has at its field. -/
private theorem exists_compared_of_true (hg : Gathered root mapping terms c)
    (hrow : StoredRow root mapping values key g)
    (hcat : ∀ f ∈ mapping.fields, f.Catalogued catalog root)
    (hcreate : Recognizer.create catalog root predicate = .ok r)
    (henc : RowKey.Encodes mapping.fields values pieces)
    (htrue : ∀ x ∈ terms, r.evaluate g x = .ok true) {t : KeyTerm} (ht : some t ∈ c.terms) :
    ∃ v b, pieces[t.index]? = some b ∧ t.Compared v b ∧
      t.field.type.satisfies t.op v t.value = .ok true := by
  obtain ⟨e, he, hof⟩ := hg.mem_terms_iff.mp ht
  have hwritten := KeyTerm.written_of_ofExpr? hof
  obtain ⟨v, b, hv, hb, hcompared⟩ := hrow.exists_compared hcat henc hwritten
  refine ⟨v, b, hb, hcompared, ?_⟩
  rw [← hrow.evaluate_eq hcat hcreate hwritten ?_ hv]
  · exact htrue e he
  · rintro i op j p l rfl
    exact Recognizer.exists_resolve_of_evaluate (htrue _ he)

/-- The fields that an alternative binds have these bytes in every row it is true of. -/
private theorem getElem?_of_bound (hg : Gathered root mapping terms c)
    (hrow : StoredRow root mapping values key g)
    (hcat : ∀ f ∈ mapping.fields, f.Catalogued catalog root)
    (hcreate : Recognizer.create catalog root predicate = .ok r)
    (henc : RowKey.Encodes mapping.fields values pieces)
    (htrue : ∀ x ∈ terms, r.evaluate g x = .ok true) {i : Nat} {b : Bytes}
    (hb : c.bound[i]? = some (some b)) : pieces[i]? = some b := by
  obtain ⟨f, hf, hboundBy⟩ := hg.exists_boundBy hb
  cases hboundBy with
  | stem v hv hencode => exact hrow.getElem?_of_boundBy_stem henc hf hv hencode
  | term t hmem hi =>
    subst hi
    obtain ⟨hop, hencode⟩ := hg.equality_of_mem hmem
    obtain ⟨v, d, hd, hcompared, hsat⟩ :=
      exists_compared_of_true hg hrow hcat hcreate henc htrue (List.of_mem_zip hmem).1
    rw [hd, hcompared.eq_of_satisfies hop hencode hsat]

/-- A bound admits the rows that its term is true of, unless it excludes everything stored. -/
private theorem holds_of_true {t : KeyTerm} {v : Value} {b bytes : Bytes}
    (h : t.Compared v b) (htrue : t.field.type.satisfies t.op v t.value = .ok true)
    (hnull : t.value.NoNullAtEnd) (hincludes : ¬ t.ExcludesStored)
    (hwidth : t.field.width?.isSome = true)
    (hsafe : t.field.codec.preservesOrder t.value = true)
    (hbytes : t.field.encode t.value = .ok bytes) {bound : KeyTerm.Bound} {stem : Bytes}
    (hsets : KeyTerm.Sets t.op stem bound) : t.op.holds (Bytes.compare b bytes) = true := by
  obtain ⟨hother, -⟩ := (DataType.satisfies_eq_true_iff h.storable.fits).mp htrue
  cases hplaced : t.field.codec.misplaces t.value with
  | false =>
    rw [h.satisfies_eq hother hnull hsafe hplaced hbytes] at htrue
    exact Except.ok.inj htrue
  | true =>
    -- the operator holds of values below the literal, so the bound is an upper one
    rw [(h.satisfies_of_misplaces hother hsafe hplaced hbytes).1] at htrue
    have hlt := Except.ok.inj htrue
    refine absurd ⟨?_, hwidth, hplaced, bytes, hbytes⟩ hincludes
    generalize t.op = op at hsets hlt
    cases hsets with
    | lt => exact .inl rfl
    | le _ => exact .inr rfl
    | ge => cases hlt
    | gt _ => cases hlt

/-- The scan of an alternative covers the rows that all its terms are true of. -/
theorem covers_of_forall_true (hg : Gathered root mapping terms c) {p : DisjunctPlan}
    (hp : Planned c p) (hrow : StoredRow root mapping values key g)
    (hcat : ∀ f ∈ mapping.fields, f.Catalogued catalog root)
    (hcreate : Recognizer.create catalog root predicate = .ok r)
    (hnull : ∀ t, some t ∈ c.terms → t.value.NoNullAtEnd)
    (hincludes : ∀ t, some t ∈ c.terms → ¬ t.ExcludesStored)
    (htrue : ∀ x ∈ terms, r.evaluate g x = .ok true) : p.scan.covers key = true := by
  obtain ⟨pieces, henc, rfl⟩ := hrow.exists_encodes
  have ha : RowKey.Aligned c.fields c.bound pieces := hg.fields_eq ▸ hg.aligned henc
  have hbound : ∀ (i : Nat) (b : Bytes), c.bound[i]? = some (some b) → pieces[i]? = some b :=
    fun i b hb => getElem?_of_bound hg hrow hcat hcreate henc htrue hb
  cases hp with
  | point h => exact (covers_point_iff ha h).mpr hbound
  | fuzzy _ h =>
    exact (covers_fuzzy_iff ha h).mpr fun i b hb => RowKey.standsAt_of_getElem? (hbound i b hb)
  | range hfree h =>
    have hleading : ∀ (i : Nat) (b : Bytes), i < c.leading.length →
        c.bound[i]? = some (some b) → RowKey.StandsAt pieces i b :=
      fun i b _ hb => RowKey.standsAt_of_getElem? (hbound i b hb)
    refine (covers_range_iff ha h).mpr ⟨hleading, fun bound hmem => ?_⟩
    obtain ⟨t, ht, hindex, hset⟩ := (mem_bounds_iff h).mp hmem
    obtain ⟨v, b, hb, hcompared, hsat⟩ :=
      exists_compared_of_true hg hrow hcat hcreate henc htrue ht
    obtain ⟨bytes, hbytes, hwidth, hsafe, hsets⟩ := KeyTerm.exists_sets_of_bound? hset
    rw [admits_iff ha hfree ((start_prefix_iff ha).mpr hleading) hsets hindex hwidth hbytes hb
      hcompared.encode]
    exact holds_of_true hcompared hsat (hnull t ht) (hincludes t ht) hwidth hsafe hbytes hsets

/-! ### The rows of the type -/

/-- All rows of a type have keys that begin with its stem. -/
theorem prefix_of_typeStem (hrow : StoredRow root mapping values key g) {stem : Bytes}
    (h : mapping.typeStem root = .ok stem) : stem <+: key := by
  obtain ⟨pieces, henc, rfl⟩ := hrow.exists_encodes
  obtain ⟨vs, hvs, hstem⟩ := Outcome.bind_eq_ok.mp h
  obtain ⟨rest, happ⟩ : mapping.predefined <+: mapping.fields := List.takeWhile_prefix _
  refine (happ ▸ henc).prefix_of_composeFront ?_ hstem
  refine List.prefix_iff_getElem?.mpr fun i hi => ?_
  obtain ⟨f, hf, hvalue⟩ :=
    Outcome.exists_of_mapM_result hvs (List.getElem?_eq_getElem hi)
  have hfield := mapping.getElem?_of_predefined hf
  obtain ⟨v, b, hv, -, -⟩ := henc.at hfield
  rw [hv]
  unfold TypeMapping.predefinedValue at hvalue
  split at hvalue
  · rename_i w hw
    cases hrow.holds i f v hfield hv with
    | predefined hpre => rw [← Except.ok.inj hvalue, ← Option.some.inj (hw.symm.trans hpre)]
    | property hsource _ _ =>
      rw [hsource] at hw
      cases hw
  · cases hvalue

/-- The plan that reads all rows of the type covers each of them. -/
theorem covers_of_ofType (hrow : StoredRow root mapping values key g) {filtered : Bool}
    {plan : Plan} (h : ofType filtered root mapping = .ok plan) :
    ∃ s ∈ plan.scans, s.covers key = true := by
  obtain ⟨stem, hstem, h⟩ := Outcome.bind_eq_ok.mp h
  cases h
  refine ⟨_, List.mem_singleton_self _, ?_⟩
  change (Scan.inRange stem (Bytes.successor? stem) key && true) = true
  rw [Bool.and_true, inRange_successor?_iff]
  exact prefix_of_typeStem hrow (Outcome.mapError_eq_ok.mp hstem)

/-! ### Whole predicates -/

/-- A row that the predicate is true of is covered, if no comparison excludes what is stored. -/
theorem covers_of_evaluate
    (hcat : ∀ f ∈ mapping.fields, f.Catalogued catalog root) {plan : Plan}
    (hplan : ofPredicate catalog root mapping (some predicate) = .ok plan)
    (hcreate : Recognizer.create catalog root predicate = .ok r)
    (hrow : StoredRow root mapping values key g)
    (hnull : ∀ t : KeyTerm, t.Among mapping.fields predicate.nodes → t.value.NoNullAtEnd)
    (hincludes : ∀ t : KeyTerm, t.Among mapping.fields predicate.nodes → ¬ t.ExcludesStored)
    (htrue : r.evaluate g predicate = .ok true) : ∃ s ∈ plan.scans, s.covers key = true := by
  obtain ⟨-, hplanned⟩ := plannedBy_of_ofPredicate hplan
  cases hplanned with
  | tooMany _ h => exact covers_of_ofType hrow h
  | unconstrained _ _ h => exact covers_of_ofType hrow h
  | @scans alternatives plans he hplans h =>
    have halts := Expr.alternatives_of_disjuncts? he
    obtain ⟨terms, hmem, hall⟩ := Recognizer.exists_alternative_of_evaluate halts htrue
    obtain ⟨p, hp, c, hg, hplanned⟩ := (forall_alternatives_of_ofDisjuncts hplans).1 terms hmem
    have hcompares : ∀ t, some t ∈ c.terms → t.Among mapping.fields predicate.nodes := by
      intro t ht
      obtain ⟨x, hx, hof⟩ := hg.mem_terms_iff.mp ht
      exact ⟨x, halts.mem_nodes terms hmem x hx, hof⟩
    subst h
    refine exists_covers_iff.mpr ⟨p.scan, List.mem_map_of_mem hp, ?_⟩
    exact covers_of_forall_true hg hplanned hrow hcat hcreate
      (fun t ht => hnull t (hcompares t ht)) (fun t ht => hincludes t (hcompares t ht)) hall

/-- A comparison that excludes what is stored is true of every row, and covers none. -/
theorem not_covers_of_excludesStored
    (hcat : ∀ f ∈ mapping.fields, f.Catalogued catalog root) {plan : Plan}
    (hplan : ofPredicate catalog root mapping (some predicate) = .ok plan)
    (hcreate : Recognizer.create catalog root predicate = .ok r) (hlabels : predicate.Labelled)
    (hrow : StoredRow root mapping values key g) {t : KeyTerm}
    (hof : KeyTerm.ofExpr? mapping.fields predicate = .ok (some t))
    (h : t.ExcludesStored) (hindex : t.index = mapping.predefined.length) :
    r.evaluate g predicate = .ok true ∧ ∀ s ∈ plan.scans, s.covers key = false := by
  have hops : t.op ≠ .eq ∧ t.op.holds .lt = true ∧ t.op.holds .gt = false := by
    rcases h.1 with hop | hop <;> rw [hop] <;> decide
  obtain ⟨heq, hlt, hgt⟩ := hops
  have heval := evaluate_of_misplaced hcat hcreate hlabels hof h.2 hrow
  have hcovers := covers_iff_of_misplaced hcat hplan hof h.2 heq hindex hrow
  rw [hgt] at hcovers
  refine ⟨heval.trans (congrArg _ hlt), fun s hs => ?_⟩
  exact Bool.eq_false_iff.mpr fun hcov => Bool.false_ne_true (hcovers.mp ⟨s, hs, hcov⟩)

/--
Every row that a predicate is true of is covered by its plan, as long as no comparison of the
predicate excludes what is stored. If the predicate is such a comparison, of the first field that
is not predefined, it is true of all rows, and its plan covers none.
-/
theorem covers_true_rows_unless_excluded
    (hcat : ∀ f ∈ mapping.fields, f.Catalogued catalog root) {plan : Plan}
    (hplan : ofPredicate catalog root mapping (some predicate) = .ok plan)
    (hcreate : Recognizer.create catalog root predicate = .ok r)
    (hrow : StoredRow root mapping values key g)
    (hnull : ∀ t : KeyTerm, t.Among mapping.fields predicate.nodes → t.value.NoNullAtEnd) :
    ((∀ t : KeyTerm, t.Among mapping.fields predicate.nodes → ¬ t.ExcludesStored) →
      r.evaluate g predicate = .ok true → ∃ s ∈ plan.scans, s.covers key = true) ∧
    ∀ t, KeyTerm.ofExpr? mapping.fields predicate = .ok (some t) → predicate.Labelled →
      t.ExcludesStored → t.index = mapping.predefined.length →
      r.evaluate g predicate = .ok true ∧ ∀ s ∈ plan.scans, s.covers key = false := by
  constructor
  · intro hincludes htrue
    exact covers_of_evaluate hcat hplan hcreate hrow hnull hincludes htrue
  · intro t hof hlabels h hindex
    exact not_covers_of_excludesStored hcat hplan hcreate hlabels hrow hof h hindex

/-- The entry of the first day of 2024 is found by asking for the days up to the end of June. -/
theorem covers_newYear_up_to_june :
    ∃ plan r, ofPredicate Log.catalog Log.event Log.byDay
        (some (Log.compares .le "day" "2024-06-30")) = .ok plan ∧
      Recognizer.create Log.catalog Log.event (Log.compares .le "day" "2024-06-30") = .ok r ∧
      r.evaluate Log.newYearEntry (Log.compares .le "day" "2024-06-30") = .ok true ∧
      ∃ s ∈ plan.scans, s.covers Log.newYearEntry.rowKey = true := by
  have hof : KeyTerm.ofExpr? Log.byDay.fields (Log.compares .le "day" "2024-06-30") =
      .ok (some ⟨0, Log.day, .le, .date ⟨2024, 6, 30, by decide⟩⟩) := rfl
  obtain ⟨plan, hplan⟩ : ∃ plan, ofPredicate Log.catalog Log.event Log.byDay
      (some (Log.compares .le "day" "2024-06-30")) = .ok plan := ⟨_, rfl⟩
  obtain ⟨r, hcreate, htrue⟩ : ∃ r,
      Recognizer.create Log.catalog Log.event (Log.compares .le "day" "2024-06-30") = .ok r ∧
      r.evaluate Log.newYearEntry (Log.compares .le "day" "2024-06-30") = .ok true :=
    ⟨_, rfl, rfl⟩
  refine ⟨plan, r, hplan, hcreate, htrue, (covers_true_rows_unless_excluded Log.catalogued_byDay
    hplan hcreate Log.storedRow_newYear ?_).1 ?_ htrue⟩
  · intro t ht
    rw [ht.eq_of_nodes hof]
    trivial
  · intro t ht hexcluded
    rw [ht.eq_of_nodes hof] at hexcluded
    exact absurd hexcluded.2.2.1 (by decide)

/-- The days before one of the year 12345 are no range of keys, though that of the entry is. -/
theorem loses_newYear_before_far_day :
    ∃ plan r, ofPredicate Log.catalog Log.event Log.byDay
        (some (Log.compares .lt "day" "+12345-01-01")) = .ok plan ∧
      Recognizer.create Log.catalog Log.event (Log.compares .lt "day" "+12345-01-01") = .ok r ∧
      (∀ f ∈ Log.byDay.fields, f.Catalogued Log.catalog Log.event) ∧
      StoredRow Log.event Log.byDay [.date Log.newYear] Log.newYearEntry.rowKey
        Log.newYearEntry ∧
      r.evaluate Log.newYearEntry (Log.compares .lt "day" "+12345-01-01") = .ok true ∧
      ¬ ∃ s ∈ plan.scans, s.covers Log.newYearEntry.rowKey = true :=
  ⟨_, _, rfl, rfl, Log.catalogued_byDay, Log.storedRow_newYear, rfl, by decide⟩

end Plan

end GraphTable
