import GraphTable.Proofs.Plan.Precision

/-!
# What a template matches

A template fixes the fields that the terms of an alternative say are equal to their literals, and
leaves those between them free. If no term is left to the recognizer, the keys that it matches are
told by the values of these fields (`TemplateOf.covers_iff_matches`): a field of fixed width has the
literal as its value. Of a last field that varies in width a key may have more bytes than the
template, so it need only begin with the bytes of the literal (`KeyTerm.Matches`), and the scan
then reads rows that the alternative is not true of.
-/

namespace GraphTable

/--
The field of a term has the literal as its value, or it varies in width and its bytes begin with
those of the literal.
-/
def KeyTerm.Matches (t : KeyTerm) (values : List Value) : Prop :=
  ∃ v, values[t.index]? = some v ∧
    (v = t.value ∨ t.field.width? = none ∧ ∃ b bytes, t.field.encode v = .ok b ∧
      t.field.encode t.value = .ok bytes ∧ bytes <+: b)

namespace Plan

open KeyConstraints

variable {catalog : Catalog} {root : TypeDef} {mapping : TypeMapping} {values : List Value}
  {key : Bytes} {g : Graph} {r : Recognizer} {predicate : Expr} {terms : List Expr}
  {c : KeyConstraints} {pieces : List Bytes} {t : KeyTerm} {v : Value} {b bytes : Bytes}

/-! ### Single fields -/

/-- A field that varies in width is the last one. -/
private theorem index_of_width?_eq_none (henc : RowKey.Encodes mapping.fields values pieces)
    {i : Nat} {f : KeyField} (hf : mapping.fields[i]? = some f) (hwidth : f.width? = none) :
    i + 1 = pieces.length := by
  obtain ⟨hi, hfield⟩ := List.getElem?_eq_some_iff.mp hf
  rw [henc.length_pieces]
  refine Nat.le_antisymm hi (Nat.le_of_not_lt fun hlt => ?_)
  have hmem : f ∈ mapping.fields.dropLast := by
    refine List.mem_of_getElem? (i := i) ?_
    rw [List.getElem?_dropLast, if_pos (by omega), hf]
  have hsome := RowKey.width?_isSome_of_check mapping.checked f hmem
  rw [hwidth] at hsome
  cases hsome

/-- The bytes of the literal stand at the field if the field matches the literal. -/
private theorem standsAt_iff_matches {slots : List (Option Bytes)}
    (ha : RowKey.Aligned mapping.fields slots pieces)
    (henc : RowKey.Encodes mapping.fields values pieces)
    (hfield : mapping.fields[t.index]? = some t.field)
    (hslot : slots[t.index]? = some (some bytes)) (hbytes : t.field.encode t.value = .ok bytes)
    (hv : values[t.index]? = some v) (hb : pieces[t.index]? = some b) (h : t.Compared v b)
    (hother : t.field.type.flavor ≠ .other) (hnull : t.value.NoNullAtEnd)
    (hrev : t.field.codec.isReversible = true) :
    RowKey.StandsAt pieces t.index bytes ↔ t.Matches values := by
  cases hwidth : t.field.width? with
  -- the last field may go on after the bytes that stand there
  | none =>
    rw [RowKey.standsAt_iff_of_last hb (index_of_width?_eq_none henc hfield hwidth)]
    constructor
    · exact fun hfront => ⟨v, hv, .inr ⟨hwidth, b, bytes, h.encode, hbytes, hfront⟩⟩
    · rintro ⟨w, hw, heq⟩
      cases hv.symm.trans hw
      rcases heq with rfl | ⟨-, d, other, hd, hother, hfront⟩
      · cases h.encode.symm.trans hbytes
        exact List.prefix_refl _
      · cases h.encode.symm.trans hd
        cases hbytes.symm.trans hother
        exact hfront
  | some width =>
    rw [ha.standsAt_iff hfield (by rw [hwidth]; rfl) hslot]
    constructor
    · intro hpiece
      cases hb.symm.trans hpiece
      exact ⟨v, hv, .inl (h.eq_value hother hnull hrev hbytes)⟩
    · rintro ⟨w, hw, heq⟩
      cases hv.symm.trans hw
      rcases heq with rfl | ⟨hnone, -⟩
      · cases h.encode.symm.trans hbytes
        exact hb
      · cases hwidth.symm.trans hnone

/-! ### One alternative -/

/-- A scan is the template of an alternative, and settles all its terms. -/
structure TemplateOf (root : TypeDef) (mapping : TypeMapping) (terms : List Expr) (scan : Scan)
    (c : KeyConstraints) : Prop where
  gathered : Gathered root mapping terms c
  isFuzzy : ∃ template mask, RowKey.fuzzy c.fields c.bound = .ok (template, mask) ∧
    scan = .fuzzy template mask c.start (Bytes.successor? c.start)
  residual : c.residualBelow c.fields.length = false

/-- All terms are equalities on key fields. -/
private theorem TemplateOf.exists_equality {scan : Scan} (h : TemplateOf root mapping terms scan c)
    {x : Expr} (hx : x ∈ terms) :
    ∃ t, KeyTerm.ofExpr? mapping.fields x = .ok (some t) ∧ t.op = .eq := by
  obtain ⟨term, hterm, hof⟩ := h.gathered.exists_term hx
  obtain ⟨t, bytes, rfl, hsettled⟩ := settled_of_residualBelow h.gathered h.residual hterm
  exact ⟨t, hof, hsettled.op_eq⟩

private theorem TemplateOf.exists_settled {scan : Scan} (h : TemplateOf root mapping terms scan c)
    (ht : t.Among mapping.fields terms) : ∃ bytes, Settled c c.fields.length t bytes := by
  obtain ⟨s, bytes, hs, hsettled⟩ :=
    settled_of_residualBelow h.gathered h.residual (h.gathered.mem_terms_iff.mpr ht)
  cases hs
  exact ⟨bytes, hsettled⟩

/-- A template covers the keys whose fields match the literals of the terms. -/
private theorem TemplateOf.covers_iff_matches {scan : Scan}
    (h : TemplateOf root mapping terms scan c) (hrow : StoredRow root mapping values key g)
    (henc : RowKey.Encodes mapping.fields values pieces)
    (hcompared : ∀ t : KeyTerm, t.Among mapping.fields terms → ∃ v b,
      values[t.index]? = some v ∧ pieces[t.index]? = some b ∧ t.Compared v b ∧
      t.field.type.flavor ≠ .other)
    (hnull : ∀ t : KeyTerm, t.Among mapping.fields terms → t.value.NoNullAtEnd) :
    scan.covers pieces.flatten = true ↔
      ∀ t : KeyTerm, t.Among mapping.fields terms → t.Matches values := by
  have hg := h.gathered
  have ha : RowKey.Aligned c.fields c.bound pieces := hg.fields_eq ▸ hg.aligned henc
  have hterm : ∀ t : KeyTerm, t.Among mapping.fields terms → ∀ bytes,
      t.field.encode t.value = .ok bytes → c.bound[t.index]? = some (some bytes) →
      (RowKey.StandsAt pieces t.index bytes ↔ t.Matches values) := by
    intro t ht bytes hbytes hslot
    obtain ⟨v, b, hv, hb, hcompared, hother⟩ := hcompared t ht
    obtain ⟨_, hsettled⟩ := h.exists_settled ht
    have hnull := hnull t ht
    obtain ⟨e, -, hof⟩ := ht
    exact standsAt_iff_matches (hg.fields_eq ▸ ha) henc (KeyTerm.written_of_ofExpr? hof).field
      hslot hbytes hv hb hcompared hother hnull hsettled.reversible
  obtain ⟨template, mask, hfuzzy, rfl⟩ := h.isFuzzy
  rw [covers_fuzzy_iff ha hfuzzy]
  constructor
  · intro hstands t ht
    obtain ⟨bytes, hsettled⟩ := h.exists_settled ht
    have hslot := hsettled.getElem?_bound (Nat.le_refl _)
    exact (hterm t ht bytes hsettled.encode hslot).mp (hstands t.index bytes hslot)
  · intro hmatches i bytes hslot
    obtain ⟨f, hfield, hboundBy⟩ := hg.exists_boundBy hslot
    cases hboundBy with
    | stem v hv hencode =>
      exact RowKey.standsAt_of_getElem? (hrow.getElem?_of_boundBy_stem henc hfield hv hencode)
    | term t hmem hindex =>
      subst hindex
      have ht := hg.mem_terms_iff.mp (List.of_mem_zip hmem).1
      exact (hterm t ht bytes (hg.equality_of_mem hmem).2 hslot).mpr (hmatches t ht)

/-- An alternative is true of the rows whose fields have the literals as their values. -/
private theorem TemplateOf.forall_true_iff {scan : Scan} (h : TemplateOf root mapping terms scan c)
    (hdecided : ∀ x ∈ terms, ∀ t, KeyTerm.ofExpr? mapping.fields x = .ok (some t) →
      ∃ v b, values[t.index]? = some v ∧ pieces[t.index]? = some b ∧ t.Compared v b ∧
        t.field.type.flavor ≠ .other ∧
        r.evaluate g x = t.field.type.satisfies t.op v t.value) :
    (∀ x ∈ terms, r.evaluate g x = .ok true) ↔
      ∀ t : KeyTerm, t.Among mapping.fields terms → values[t.index]? = some t.value := by
  have htrue : ∀ x ∈ terms, ∀ t, KeyTerm.ofExpr? mapping.fields x = .ok (some t) →
      (r.evaluate g x = .ok true ↔ values[t.index]? = some t.value) := by
    intro x hx t hof
    obtain ⟨v, b, hv, -, hcompared, hother, heval⟩ := hdecided x hx t hof
    obtain ⟨s, hs, hop⟩ := h.exists_equality hx
    cases hof.symm.trans hs
    rw [heval, hcompared.satisfies_iff_eq hop hother, hv, Option.some.injEq]
  constructor
  · rintro hall t ⟨x, hx, hof⟩
    exact (htrue x hx t hof).mp (hall x hx)
  · intro hall x hx
    obtain ⟨t, hof, -⟩ := h.exists_equality hx
    exact (htrue x hx t hof).mpr (hall t ⟨x, hx, hof⟩)

/-! ### Plans -/

/-- What is done to the scans in the end leaves templates alone. -/
private theorem mem_of_fuzzy_mem_unmixed {scans : List Scan} {template mask start : Bytes}
    {stop : Option Bytes} (h : .fuzzy template mask start stop ∈ unmixed (distinct scans)) :
    .fuzzy template mask start stop ∈ scans := by
  unfold unmixed at h
  split at h
  · obtain ⟨s, hs, hdemote⟩ := List.mem_map.mp h
    cases s with
    | point own => cases hdemote
    | range start stop sample => cases hdemote
    | fuzzy t m lo hi =>
      cases hdemote
      exact mem_distinct.mp hs
  · exact mem_distinct.mp h

private theorem exists_templateOf_of_mem {plan : Plan}
    (hplan : ofPredicate catalog root mapping (some predicate) = .ok plan)
    (hres : plan.requiresRecognizer = false) {template mask start : Bytes} {stop : Option Bytes}
    (hmem : .fuzzy template mask start stop ∈ plan.scans) :
    ∃ alternatives terms c, predicate.disjuncts? = some alternatives ∧ terms ∈ alternatives ∧
      TemplateOf root mapping terms (.fuzzy template mask start stop) c := by
  cases (plannedBy_of_ofPredicate hplan).2 with
  | tooMany _ h => cases hres.symm.trans (requiresRecognizer_of_ofType h)
  | unconstrained _ _ h => cases hres.symm.trans (requiresRecognizer_of_ofType h)
  | @scans alternatives plans he hplans h =>
    subst h
    have hres : ∀ p ∈ plans, p.residual = false := by simpa using hres
    obtain ⟨p, hp, hscan⟩ := List.mem_map.mp (mem_of_fuzzy_mem_unmixed hmem)
    have hres := hres p hp
    obtain ⟨terms, hterms, c, hg, hplanned⟩ := (forall_alternatives_of_ofDisjuncts hplans).2 p hp
    cases hplanned with
    | point _ => cases hscan
    | range _ _ => cases hscan
    | fuzzy _ hfuzzy =>
      cases hscan
      exact ⟨alternatives, terms, c, he, hterms, hg, ⟨_, _, hfuzzy, rfl⟩, hres⟩

/--
A template in a plan that leaves nothing to the recognizer belongs to an alternative of
equalities. It covers the keys whose fields match the literals of these, whereas the alternative
is true of a row only if the fields have the literals as their values.
-/
theorem template_covers_matching (hcat : ∀ f ∈ mapping.fields, f.Catalogued catalog root)
    (hlabels : predicate.Labelled) {plan : Plan}
    (hplan : ofPredicate catalog root mapping (some predicate) = .ok plan)
    (hres : plan.requiresRecognizer = false)
    (hnull : ∀ t : KeyTerm, t.Among mapping.fields predicate.nodes → t.value.NoNullAtEnd)
    {template mask start : Bytes} {stop : Option Bytes}
    (hmem : .fuzzy template mask start stop ∈ plan.scans) :
    ∃ r alternatives terms, Recognizer.create catalog root predicate = .ok r ∧
      predicate.disjuncts? = some alternatives ∧ terms ∈ alternatives ∧
      (∀ x ∈ terms, ∃ t, KeyTerm.ofExpr? mapping.fields x = .ok (some t) ∧ t.op = .eq) ∧
      ∀ values key g, StoredRow root mapping values key g →
        ((Scan.fuzzy template mask start stop).covers key = true ↔
          ∀ t : KeyTerm, t.Among mapping.fields terms → t.Matches values) ∧
        ((∀ x ∈ terms, r.evaluate g x = .ok true) ↔
          ∀ t : KeyTerm, t.Among mapping.fields terms → values[t.index]? = some t.value) := by
  have hvalid := (plannedBy_of_ofPredicate hplan).1
  obtain ⟨r, hcreate⟩ := Recognizer.exists_create_of_validate hlabels hvalid
  obtain ⟨alternatives, terms, c, he, hterms, h⟩ := exists_templateOf_of_mem hplan hres hmem
  have hnodes := (Expr.alternatives_of_disjuncts? he).mem_nodes terms hterms
  refine ⟨r, alternatives, terms, hcreate, he, hterms, fun x hx => h.exists_equality hx, ?_⟩
  intro values key g hrow
  obtain ⟨pieces, henc, rfl⟩ := hrow.exists_encodes
  have hdecided : ∀ x ∈ terms, ∀ t, KeyTerm.ofExpr? mapping.fields x = .ok (some t) →
      ∃ v b, values[t.index]? = some v ∧ pieces[t.index]? = some b ∧ t.Compared v b ∧
        t.field.type.flavor ≠ .other ∧ r.evaluate g x = t.field.type.satisfies t.op v t.value :=
    fun x hx t hof => hrow.exists_evaluate_eq hcat hlabels hvalid hcreate henc (hnodes x hx)
      (KeyTerm.written_of_ofExpr? hof)
  refine ⟨h.covers_iff_matches hrow henc ?_ ?_, h.forall_true_iff hdecided⟩
  · rintro t ⟨x, hx, hof⟩
    obtain ⟨v, b, hv, hb, hcompared, hother, -⟩ := hdecided x hx t hof
    exact ⟨v, b, hv, hb, hcompared, hother⟩
  · rintro t ⟨x, hx, hof⟩
    exact hnull t ⟨x, hnodes x hx, hof⟩

/-- The entry tagged abc matches the template of the tag ab. -/
theorem abcEntry_matches_ab :
    ∃ template mask start stop, ofPredicate Log.catalog Log.event Log.byTag
        (some (Log.compares .eq "tag" "ab")) =
          .ok ⟨[.fuzzy template mask start stop], false, false⟩ ∧
      ((Scan.fuzzy template mask start stop).covers Log.abcEntry.rowKey = true ↔
        ∀ t : KeyTerm, t.Among Log.byTag.fields [Log.compares .eq "tag" "ab"] →
          t.Matches [.int 2, .string "abc"]) := by
  have hof : KeyTerm.ofExpr? Log.byTag.fields (Log.compares .eq "tag" "ab") =
      .ok (some ⟨1, Log.tag, .eq, .string "ab"⟩) := rfl
  obtain ⟨template, mask, start, stop, hplan⟩ : ∃ template mask start stop,
      ofPredicate Log.catalog Log.event Log.byTag (some (Log.compares .eq "tag" "ab")) =
        .ok ⟨[.fuzzy template mask start stop], false, false⟩ := ⟨_, _, _, _, rfl⟩
  refine ⟨template, mask, start, stop, hplan, ?_⟩
  obtain ⟨r, alternatives, terms, -, he, hterms, -, hrows⟩ := template_covers_matching
    Log.catalogued_byTag (by decide) hplan rfl (fun t ht => by rw [ht.eq_of_nodes hof]; decide)
    (List.mem_singleton_self _)
  cases he
  cases List.mem_singleton.mp hterms
  exact (hrows _ _ _ Log.storedRow_abc).1

/-- So it is read though it does not have that tag, and no recognizer leaves it out. -/
theorem abcEntry_covered_by_ab :
    ∃ plan r, ofPredicate Log.catalog Log.event Log.byTag
        (some (Log.compares .eq "tag" "ab")) = .ok plan ∧
      plan.requiresRecognizer = false ∧
      Recognizer.create Log.catalog Log.event (Log.compares .eq "tag" "ab") = .ok r ∧
      StoredRow Log.event Log.byTag [.int 2, .string "abc"] Log.abcEntry.rowKey Log.abcEntry ∧
      (∃ template mask start stop, .fuzzy template mask start stop ∈ plan.scans ∧
        (Scan.fuzzy template mask start stop).covers Log.abcEntry.rowKey = true) ∧
      r.evaluate Log.abcEntry (Log.compares .eq "tag" "ab") = .ok false :=
  ⟨_, _, rfl, rfl, rfl, Log.storedRow_abc, ⟨_, _, _, _, List.mem_singleton_self _, by decide⟩, rfl⟩

end Plan

end GraphTable
