import GraphTable.Proofs.Plan.Row

/-!
# Misplaced literals

A padded date of a year above 9999 is above all stored dates, but its bytes are below theirs. The
range of keys that a comparison with it is turned into is therefore the opposite of what the
comparison says: a predicate that is just such a comparison, of the first field that is not
predefined, has a plan that covers the rows that the predicate is not true of
(`covers_iff_of_misplaced`).
-/

namespace GraphTable

namespace KeyTerm

variable {t : KeyTerm}

/-- A misplaced literal is a date, and padded. -/
private theorem Misplaced.exists_date (h : t.Misplaced) :
    ∃ type n d, t.field.codec = .pad type n ∧ 0 < n ∧ t.value = .date d := by
  obtain ⟨hwidth, hplaced, -⟩ := h
  unfold Codec.misplaces at hplaced
  split at hplaced
  · rename_i type n d hcodec hvalue
    refine ⟨type, n, d, hcodec, ?_, hvalue⟩
    rw [KeyField.width?, hcodec, Codec.width?] at hwidth
    split at hwidth
    · assumption
    · cases hwidth
  · cases hplaced

theorem Misplaced.flavor_ne_other (h : t.Misplaced)
    (hfits : t.field.type.fits t.value = true) : t.field.type.flavor ≠ .other := by
  obtain ⟨type, n, d, -, -, hvalue⟩ := h.exists_date
  rw [hvalue] at hfits
  generalize t.field.type = type at hfits
  cases type <;> cases hfits; decide

theorem Misplaced.preservesOrder (h : t.Misplaced) (hfits : t.field.type.fits t.value = true) :
    t.field.codec.preservesOrder t.value = true := by
  obtain ⟨type, n, d, hcodec, hn, hvalue⟩ := h.exists_date
  rw [← t.field.codec_type] at hfits
  rw [Codec.preservesOrder, DataType.coerce_of_fits hfits, hcodec, hvalue]
  exact decide_eq_true hn

/-- The bytes of a date have a successor, whatever stands before them. -/
private theorem Misplaced.exists_successor? (h : t.Misplaced)
    (hfits : t.field.type.fits t.value = true) {bytes : Bytes}
    (hbytes : t.field.encode t.value = .ok bytes) (stem : Bytes) :
    ∃ above, Bytes.successor? (stem ++ bytes) = some above := by
  obtain ⟨type, n, d, hcodec, -, hvalue⟩ := h.exists_date
  rw [← t.field.codec_type] at hfits
  rw [KeyField.encode, Codec.encode_of_fits hfits, hcodec, hvalue] at hbytes
  have hhyphen : (45 : UInt8) ∈ bytes := by
    rw [(Codec.padEncode_text rfl hbytes).1]
    refine List.mem_append_left _ ?_
    change 45 ∈ Text.utf8 (String.ofList d.text)
    rw [Date.utf8_text]
    exact List.mem_map.mpr ⟨'-', by rw [Date.text_eq]; simp, rfl⟩
  cases hs : Bytes.successor? (stem ++ bytes) with
  | some above => exact ⟨above, rfl⟩
  | none =>
    cases Bytes.successor?_eq_none_iff.mp hs 45 (List.mem_append_right stem hhyphen)

/-- A comparison of order with a misplaced literal sets a bound. -/
theorem Misplaced.exists_bound? (h : t.Misplaced) (hfits : t.field.type.fits t.value = true)
    (heq : t.op ≠ .eq) (hne : t.op ≠ .ne) (stem : Bytes) :
    ∃ bound, t.bound? stem = .ok (some bound) := by
  obtain ⟨bytes, hbytes⟩ := h.2.2
  obtain ⟨above, habove⟩ := h.exists_successor? hfits hbytes stem
  have hcond : ¬ (t.field.width?.isNone = true ∨
      t.field.codec.preservesOrder t.value = false) := by
    rw [h.preservesOrder hfits]
    simp [Option.isNone_iff_eq_none, Option.ne_none_iff_isSome, h.1]
  rw [bound?, if_neg hcond, encode?_eq_some.mpr hbytes]
  simp only [bind, Except.bind, habove]
  cases hop : t.op with
  | eq => exact absurd hop heq
  | ne => exact absurd hop hne
  | ge => exact ⟨_, rfl⟩
  | gt => exact ⟨_, rfl⟩
  | lt => exact ⟨_, rfl⟩
  | le => exact ⟨_, rfl⟩

end KeyTerm

namespace Plan

open KeyConstraints

variable {catalog : Catalog} {root : TypeDef} {mapping : TypeMapping} {values : List Value}
  {key : Bytes} {g : Graph} {e : Expr} {t : KeyTerm} {c : KeyConstraints} {pieces : List Bytes}
  {v : Value} {b : Bytes}

private theorem terms_eq_singleton (hg : Gathered root mapping [e] c)
    (hof : KeyTerm.ofExpr? mapping.fields e = .ok (some t)) : c.terms = [some t] := by
  obtain ⟨term, terms, hterm, hterms, heq⟩ := Outcome.mapM_cons_eq_ok.mp hg.terms_eq
  cases hof.symm.trans hterm
  cases hterms
  exact heq

/-- The field of the comparison is the first one that is not bound. -/
private theorem index_eq (hg : Gathered root mapping [e] c)
    (hof : KeyTerm.ofExpr? mapping.fields e = .ok (some t)) (hop : t.op ≠ .eq)
    (hindex : t.index = mapping.predefined.length) :
    t.index = c.leading.length ∧ c.leading.length < c.fields.length ∧
      ∀ (i : Nat) (d : Bytes), c.bound[i]? = some (some d) → i < c.leading.length := by
  have hops : ∀ s, some s ∈ c.terms → s.op ≠ .eq := by
    intro s hs
    rw [terms_eq_singleton hg hof] at hs
    cases List.mem_singleton.mp hs
    exact hop
  have hlt : c.stem.length < c.fields.length := by
    rw [hg.length_stem, ← hindex, hg.fields_eq]
    exact (List.getElem?_eq_some_iff.mp (KeyTerm.written_of_ofExpr? hof).field).1
  rw [hg.length_leading_eq hops hlt, hindex, ← hg.length_stem]
  exact ⟨rfl, hlt, fun i d hd => hg.lt_of_bound hops hd⟩

/-- All rows have the bytes of the bound fields, as these are predefined. -/
private theorem standsAt_of_bound (hg : Gathered root mapping [e] c)
    (hof : KeyTerm.ofExpr? mapping.fields e = .ok (some t)) (hop : t.op ≠ .eq)
    (hrow : StoredRow root mapping values key g)
    (henc : RowKey.Encodes mapping.fields values pieces) {i : Nat} {d : Bytes}
    (hd : c.bound[i]? = some (some d)) : RowKey.StandsAt pieces i d := by
  obtain ⟨f, hfield, hboundBy⟩ := hg.exists_boundBy hd
  cases hboundBy with
  | stem w hw hencode =>
    exact RowKey.standsAt_of_getElem? (hrow.getElem?_of_boundBy_stem henc hfield hw hencode)
  | term s hs _ =>
    have hmem := terms_eq_singleton hg hof ▸ (List.of_mem_zip hs).1
    cases List.mem_singleton.mp hmem
    exact absurd (hg.equality_of_mem hs).1 hop

/-- A bound that is set by a misplaced literal admits the rows on the wrong side of it. -/
private theorem admits_iff_of_misplaced (ha : RowKey.Aligned c.fields c.bound pieces)
    (hfree : c.leading.length ≠ c.fields.length) (hfront : c.start <+: pieces.flatten)
    (h : t.Misplaced) (hplace : t.index = c.leading.length) (hb : pieces[t.index]? = some b)
    (hcompared : t.Compared v b) {bound : KeyTerm.Bound}
    (hbound : t.bound? c.start = .ok (some bound)) :
    bound.Admits pieces.flatten ↔ t.op.holds .gt = true := by
  obtain ⟨bytes, hbytes, hwidth, hsafe, hsets⟩ := KeyTerm.exists_sets_of_bound? hbound
  have hother := h.flavor_ne_other hcompared.fits
  rw [admits_iff ha hfree hfront hsets hplace hwidth hbytes hb hcompared.encode,
    (hcompared.satisfies_of_misplaces hother hsafe h.2.1 hbytes).2]

/-- The scan of a comparison covers the rows on the wrong side. -/
private theorem covers_iff_of_planned (hg : Gathered root mapping [e] c) {p : DisjunctPlan}
    (hp : Planned c p) (hcat : ∀ f ∈ mapping.fields, f.Catalogued catalog root)
    (hof : KeyTerm.ofExpr? mapping.fields e = .ok (some t)) (h : t.Misplaced) (hop : t.op ≠ .eq)
    (hindex : t.index = mapping.predefined.length)
    (hrow : StoredRow root mapping values key g) :
    p.scan.covers key = true ↔ t.op.holds .gt = true := by
  obtain ⟨pieces, henc, rfl⟩ := hrow.exists_encodes
  have ha : RowKey.Aligned c.fields c.bound pieces := hg.fields_eq ▸ hg.aligned henc
  have hwritten := KeyTerm.written_of_ofExpr? hof
  obtain ⟨v, b, -, hb, hcompared⟩ := hrow.exists_compared hcat henc hwritten
  obtain ⟨hplace, hfree, hlt⟩ := index_eq hg hof hop hindex
  cases hp with
  | point h => exact absurd h (Nat.ne_of_lt hfree)
  | fuzzy hlater _ =>
    -- no field after the free one is bound
    obtain ⟨slot, hslot, hsome⟩ := List.any_eq_true.mp hlater
    obtain ⟨i, hi⟩ := List.mem_iff_getElem?.mp hslot
    obtain ⟨d, rfl⟩ := Option.isSome_iff_exists.mp hsome
    rw [List.getElem?_drop] at hi
    exact absurd (hlt _ d hi) (by omega)
  | @range bounds hne hbounds =>
    have hleading : ∀ (i : Nat) (d : Bytes), i < c.leading.length →
        c.bound[i]? = some (some d) → RowKey.StandsAt pieces i d :=
      fun i d _ hd => standsAt_of_bound hg hof hop hrow henc hd
    have hadmits : ∀ bound, t.bound? c.start = .ok (some bound) →
        (bound.Admits pieces.flatten ↔ t.op.holds .gt = true) := fun bound hbound =>
      admits_iff_of_misplaced ha hne ((start_prefix_iff ha).mpr hleading) h hplace hb hcompared
        hbound
    rw [covers_range_iff ha hbounds, and_iff_right hleading]
    constructor
    · intro hall
      obtain ⟨bound, hbound⟩ := h.exists_bound? hcompared.fits hop hwritten.op_ne c.start
      have hmem : some t ∈ c.terms := terms_eq_singleton hg hof ▸ List.mem_singleton_self _
      refine (hadmits bound hbound).mp (hall bound ?_)
      exact (mem_bounds_iff hbounds).mpr ⟨t, hmem, hplace, hbound⟩
    · intro hholds bound hmem
      obtain ⟨s, hs, -, hbound⟩ := (mem_bounds_iff hbounds).mp hmem
      rw [terms_eq_singleton hg hof] at hs
      cases List.mem_singleton.mp hs
      exact (hadmits bound hbound).mpr hholds

/-- An alternative that is such a comparison has a plan. -/
private theorem plan_ne_none (hg : Gathered root mapping [e] c)
    (hcat : ∀ f ∈ mapping.fields, f.Catalogued catalog root)
    (hof : KeyTerm.ofExpr? mapping.fields e = .ok (some t)) (h : t.Misplaced) (hop : t.op ≠ .eq)
    (hindex : t.index = mapping.predefined.length)
    (hrow : StoredRow root mapping values key g) : c.plan ≠ .ok none := by
  intro hplan
  obtain ⟨bounds, hbounds, hempty⟩ := bounds_of_plan_eq_none hplan
  obtain ⟨hplace, -, -⟩ := index_eq hg hof hop hindex
  obtain ⟨pieces, henc, -⟩ := hrow.exists_encodes
  have hwritten := KeyTerm.written_of_ofExpr? hof
  obtain ⟨v, b, -, -, hcompared⟩ := hrow.exists_compared hcat henc hwritten
  obtain ⟨bound, hbound⟩ := h.exists_bound? hcompared.fits hop hwritten.op_ne c.start
  have hmem : some t ∈ c.terms := terms_eq_singleton hg hof ▸ List.mem_singleton_self _
  exact hempty bound ((mem_bounds_iff hbounds).mpr ⟨t, hmem, hplace, hbound⟩)

/--
The plan of a comparison with a misplaced literal covers a row if the comparison would hold of a
value above the literal. All values are below it.
-/
theorem covers_iff_of_misplaced (hcat : ∀ f ∈ mapping.fields, f.Catalogued catalog root)
    {plan : Plan} (hplan : ofPredicate catalog root mapping (some e) = .ok plan)
    (hof : KeyTerm.ofExpr? mapping.fields e = .ok (some t)) (h : t.Misplaced) (hop : t.op ≠ .eq)
    (hindex : t.index = mapping.predefined.length)
    (hrow : StoredRow root mapping values key g) :
    (∃ s ∈ plan.scans, s.covers key = true) ↔ t.op.holds .gt = true := by
  have hdisjuncts : e.disjuncts? = some [[e]] := by
    obtain ⟨_, _, _, _, _, rfl, -⟩ := (KeyTerm.written_of_ofExpr? hof).shape
    rfl
  have hiff : ∀ p, PlannedFor root mapping [e] p →
      (p.scan.covers key = true ↔ t.op.holds .gt = true) :=
    fun p ⟨c, hg, hp⟩ => covers_iff_of_planned hg hp hcat hof h hop hindex hrow
  cases (plannedBy_of_ofPredicate hplan).2 with
  | tooMany hmany _ =>
    rw [hdisjuncts] at hmany
    cases hmany
  | unconstrained he hnone _ =>
    cases hdisjuncts.symm.trans he
    obtain ⟨terms, hterms, c, hg, hplan⟩ := exists_alternative_of_ofDisjuncts hnone
    cases List.mem_singleton.mp hterms
    exact absurd hplan (plan_ne_none hg hcat hof h hop hindex hrow)
  | scans he hplans hscans =>
    cases hdisjuncts.symm.trans he
    obtain ⟨hleft, hright⟩ := forall_alternatives_of_ofDisjuncts hplans
    subst hscans
    rw [exists_covers_iff]
    constructor
    · rintro ⟨s, hs, hcovers⟩
      obtain ⟨p, hp, rfl⟩ := List.mem_map.mp hs
      obtain ⟨terms, hterms, hplanned⟩ := hright p hp
      cases List.mem_singleton.mp hterms
      exact (hiff p hplanned).mp hcovers
    · intro hholds
      obtain ⟨p, hp, hplanned⟩ := hleft [e] (List.mem_singleton_self _)
      exact ⟨p.scan, List.mem_map_of_mem hp, (hiff p hplanned).mpr hholds⟩

/-- A comparison with a misplaced literal is decided by all values being below it. -/
theorem evaluate_of_misplaced (hcat : ∀ f ∈ mapping.fields, f.Catalogued catalog root)
    {r : Recognizer} (hcreate : Recognizer.create catalog root e = .ok r) (hlabels : e.Labelled)
    (hof : KeyTerm.ofExpr? mapping.fields e = .ok (some t)) (h : t.Misplaced)
    (hrow : StoredRow root mapping values key g) :
    r.evaluate g e = .ok (t.op.holds .lt) := by
  have hwritten := KeyTerm.written_of_ofExpr? hof
  obtain ⟨pieces, henc, -⟩ := hrow.exists_encodes
  obtain ⟨v, b, hv, -, hcompared⟩ := hrow.exists_compared hcat henc hwritten
  obtain ⟨bytes, hbytes⟩ := h.2.2
  rw [hrow.evaluate_eq hcat hcreate hwritten ?_ hv]
  · exact (hcompared.satisfies_of_misplaces (h.flavor_ne_other hcompared.fits)
      (h.preservesOrder hcompared.fits) h.2.1 hbytes).1
  · rintro i op j p l rfl
    exact Recognizer.exists_resolve_of_mem_nodes hlabels hcreate (Expr.mem_nodes_self _)

end Plan

end GraphTable
