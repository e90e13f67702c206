import GraphTable.Proofs.Key.Pieces
import GraphTable.Proofs.Plan.Bounds

/-!
# The scan of one alternative, field by field

What is gathered from the terms of an alternative (`Gathered`) binds some fields of the key to
bytes, and a plan for it is one of three scans (`Planned`). Which composed keys each of them
selects is told by the fields alone:

* **A lookup** selects the key whose fields are the bound bytes (`covers_point_iff`).
* **A template** selects the keys in which the bytes of every bound field stand at that field
  (`covers_fuzzy_iff`).
* **A range** selects the keys in which those of the leading fields do, and which every bound on
  the field after them admits (`covers_range_iff`).
-/

namespace GraphTable

theorem TypeMapping.getElem?_of_predefined (m : TypeMapping) {i : Nat} {f : KeyField}
    (h : m.predefined[i]? = some f) : m.fields[i]? = some f := by
  obtain ⟨rest, happ⟩ : m.predefined <+: m.fields := List.takeWhile_prefix _
  rw [← happ, List.getElem?_append_left (List.getElem?_eq_some_iff.mp h).1, h]

/-! ### Terms -/

/-- How a comparison of a key field is written. -/
structure KeyTerm.Written (fields : List KeyField) (e : Expr) (t : KeyTerm) : Prop where
  shape : ∃ i j p text path, e = .relational i t.op (.property j p) (.text text) ∧
    p.functions = [] ∧ p.names? = some path ∧ t.field.source = .property path ∧
    t.field.type.read text = .ok t.value
  op_ne : t.op ≠ .ne
  field : fields[t.index]? = some t.field

theorem KeyTerm.source_of_fieldOf? {fields : List KeyField} {names : List String} {index : Nat}
    {field : KeyField} (h : KeyTerm.fieldOf? fields names = some (index, field)) :
    fields[index]? = some field ∧ field.source = .property names := by
  obtain ⟨⟨f, i⟩, hfind, heq⟩ := Option.map_eq_some_iff.mp h
  obtain ⟨rfl, rfl⟩ := Prod.mk.inj heq
  refine ⟨List.mem_zipIdx_iff_getElem?.mp (List.mem_of_find?_eq_some hfind), ?_⟩
  have hpath : f.source.path? = some names := by simpa using List.find?_some hfind
  unfold KeySource.path? at hpath
  split at hpath
  · rename_i path hsource
    rw [hsource, Option.some.inj hpath]
  · cases hpath

theorem KeyTerm.written_of_ofExpr? {fields : List KeyField} {e : Expr} {t : KeyTerm}
    (h : KeyTerm.ofExpr? fields e = .ok (some t)) : t.Written fields e := by
  unfold ofExpr? at h
  split at h
  · rename_i i op j p text
    split at h
    · cases h
    · rename_i hop
      rw [not_or, Decidable.not_not] at hop
      split at h
      · cases h
      · rename_i index field hfield
        obtain ⟨path, hpath, hfield⟩ := Option.bind_eq_some_iff.mp hfield
        obtain ⟨hindex, hsource⟩ := source_of_fieldOf? hfield
        split at h
        · rename_i value hread
          cases h
          exact ⟨⟨i, j, p, text, path, rfl, hop.2, hpath, hsource, hread⟩, hop.1, hindex⟩
        · cases h
  · cases h

/-- A comparison of a key field is among some terms. -/
def KeyTerm.Among (fields : List KeyField) (terms : List Expr) (t : KeyTerm) : Prop :=
  ∃ e ∈ terms, KeyTerm.ofExpr? fields e = .ok (some t)

namespace KeyConstraints

/-- What gathering finds out about a list of terms. -/
structure Gathered (root : TypeDef) (mapping : TypeMapping) (exprs : List Expr)
    (c : KeyConstraints) : Prop where
  fields_eq : c.fields = mapping.fields
  stem_eq : stemOf root mapping.predefined = .ok c.stem
  terms_eq : exprs.mapM (KeyTerm.ofExpr? mapping.fields) = .ok c.terms
  equalities_eq : c.terms.mapM equalityOf = .ok c.equalities

theorem gathered_of_gather {root : TypeDef} {mapping : TypeMapping} {exprs : List Expr}
    {c : KeyConstraints} (h : gather root mapping exprs = .ok c) :
    Gathered root mapping exprs c := by
  obtain ⟨stem, hstem, h⟩ := Outcome.bind_eq_ok.mp h
  obtain ⟨terms, hterms, h⟩ := Outcome.bind_eq_ok.mp h
  obtain ⟨equalities, hequalities, h⟩ := Outcome.bind_eq_ok.mp h
  cases h
  exact ⟨rfl, hstem, hterms, hequalities⟩

variable {root : TypeDef} {mapping : TypeMapping} {exprs : List Expr} {c : KeyConstraints}

theorem Gathered.exists_term (h : Gathered root mapping exprs c) {e : Expr} (he : e ∈ exprs) :
    ∃ t ∈ c.terms, KeyTerm.ofExpr? mapping.fields e = .ok t := by
  obtain ⟨i, hi⟩ := List.mem_iff_getElem?.mp he
  obtain ⟨t, ht, hof⟩ := Outcome.exists_of_mapM h.terms_eq hi
  exact ⟨t, List.mem_of_getElem? ht, hof⟩

theorem Gathered.mem_terms_iff (h : Gathered root mapping exprs c) {t : KeyTerm} :
    some t ∈ c.terms ↔ t.Among mapping.fields exprs := by
  constructor
  · intro ht
    obtain ⟨i, hi⟩ := List.mem_iff_getElem?.mp ht
    obtain ⟨e, he, hof⟩ := Outcome.exists_of_mapM_result h.terms_eq hi
    exact ⟨e, List.mem_of_getElem? he, hof⟩
  · rintro ⟨e, he, hof⟩
    obtain ⟨term, hterm, hfound⟩ := h.exists_term he
    cases hof.symm.trans hfound
    exact hterm

/-- The bytes that a term says its field has are those of its literal. -/
theorem Gathered.equality_of_mem (h : Gathered root mapping exprs c) {t : KeyTerm} {b : Bytes}
    (hmem : (some t, some b) ∈ c.terms.zip c.equalities) :
    t.op = .eq ∧ t.field.encode t.value = .ok b := by
  have heq := (Outcome.mapM_eq_ok_iff.mp h.equalities_eq).2 _ hmem
  simp only [equalityOf, KeyTerm.equality?] at heq
  split at heq
  · exact ⟨‹_›, KeyTerm.encode?_eq_some.mp heq⟩
  · cases heq

theorem exists_of_equalityAt? {index : Nat} {b : Bytes} (h : c.equalityAt? index = some b) :
    ∃ t, (some t, some b) ∈ c.terms.zip c.equalities ∧ t.index = index := by
  obtain ⟨⟨term, slot⟩, hmem, hsome⟩ := List.exists_of_findSome?_eq_some h
  split at hsome
  · rename_i t bytes heq
    cases heq
    split at hsome
    · obtain rfl := Option.some.inj hsome
      exact ⟨t, hmem, ‹_›⟩
    · cases hsome
  · cases hsome

/-! ### Bound fields -/

theorem getElem?_bound (c : KeyConstraints) (i : Nat) :
    c.bound[i]? = if i < c.fields.length then some (c.bound? i) else none := by
  rw [bound, List.getElem?_map]
  split
  · rw [List.getElem?_range ‹_›]
    rfl
  · rw [List.getElem?_eq_none (by rw [List.length_range]; omega)]
    rfl

theorem length_bound (c : KeyConstraints) : c.bound.length = c.fields.length := by
  rw [bound, List.length_map, List.length_range]

theorem bound?_of_getElem? {i : Nat} {b : Bytes} (h : c.bound[i]? = some (some b)) :
    c.bound? i = some b := by
  rw [getElem?_bound] at h
  split at h
  · exact Option.some.inj h
  · cases h

/-- Where the bytes of a bound field come from. -/
inductive BoundBy (root : TypeDef) (c : KeyConstraints) (i : Nat) (f : KeyField) (b : Bytes) : Prop
  /-- The field is one of the predefined ones in front. -/
  | stem (v : Value) (hv : f.source.value? root = some v) (hb : f.encode v = .ok b)
  /-- A term says so. -/
  | term (t : KeyTerm) (hmem : (some t, some b) ∈ c.terms.zip c.equalities) (hi : t.index = i)

theorem Gathered.boundBy (h : Gathered root mapping exprs c) {i : Nat} {f : KeyField} {b : Bytes}
    (hf : mapping.fields[i]? = some f) (hb : c.bound[i]? = some (some b)) :
    BoundBy root c i f b := by
  have hbound := bound?_of_getElem? hb
  unfold bound? at hbound
  split at hbound
  · -- the stem comes before any term on the same field
    obtain ⟨g, hg, hencode⟩ := Outcome.exists_of_mapM_result h.stem_eq hbound
    obtain rfl : g = f := by
      rw [mapping.getElem?_of_predefined hg] at hf
      exact Option.some.inj hf
    split at hencode
    · cases hencode
    · exact .stem _ ‹_› (Outcome.mapError_eq_ok.mp hencode)
  · obtain ⟨t, hmem, hi⟩ := exists_of_equalityAt? hbound
    exact .term t hmem hi

theorem Gathered.exists_boundBy (h : Gathered root mapping exprs c) {i : Nat} {b : Bytes}
    (hb : c.bound[i]? = some (some b)) :
    ∃ f, mapping.fields[i]? = some f ∧ BoundBy root c i f b := by
  have hi := (List.getElem?_eq_some_iff.mp hb).1
  rw [length_bound, h.fields_eq] at hi
  have hf := List.getElem?_eq_getElem hi
  exact ⟨_, hf, h.boundBy hf hb⟩

/-- A term is about the field at its place. -/
theorem Gathered.field_eq (h : Gathered root mapping exprs c) {t : KeyTerm} {f : KeyField}
    (ht : some t ∈ c.terms) (hf : mapping.fields[t.index]? = some f) : f = t.field := by
  obtain ⟨e, -, hof⟩ := h.mem_terms_iff.mp ht
  rw [(KeyTerm.written_of_ofExpr? hof).field] at hf
  exact (Option.some.inj hf).symm

theorem Gathered.exists_encode (h : Gathered root mapping exprs c) {i : Nat} {f : KeyField}
    {b : Bytes} (hf : mapping.fields[i]? = some f) (hb : c.bound[i]? = some (some b)) :
    ∃ v, f.encode v = .ok b := by
  cases h.boundBy hf hb with
  | stem v _ hv => exact ⟨v, hv⟩
  | term t hmem hi =>
    subst hi
    rw [h.field_eq (List.of_mem_zip hmem).1 hf]
    exact ⟨t.value, (h.equality_of_mem hmem).2⟩

/-- Fields are bound to bytes that are as wide as they are in keys. -/
theorem Gathered.aligned (h : Gathered root mapping exprs c) {values : List Value}
    {pieces : List Bytes} (henc : RowKey.Encodes mapping.fields values pieces) :
    RowKey.Aligned mapping.fields c.bound pieces := by
  refine RowKey.aligned_of_encodes henc (RowKey.width?_isSome_of_check mapping.checked) ?_ ?_
  · rw [length_bound, h.fields_eq]
  · exact fun i f b hf hb => h.exists_encode hf hb

theorem Gathered.length_stem (h : Gathered root mapping exprs c) :
    c.stem.length = mapping.predefined.length :=
  Outcome.length_of_mapM h.stem_eq

/-- Without equalities only predefined fields are bound. -/
theorem Gathered.lt_of_bound (h : Gathered root mapping exprs c)
    (hop : ∀ t, some t ∈ c.terms → t.op ≠ .eq) {i : Nat} {b : Bytes}
    (hb : c.bound[i]? = some (some b)) : i < c.stem.length := by
  have hbound := bound?_of_getElem? hb
  unfold bound? at hbound
  split at hbound
  · assumption
  · obtain ⟨t, hmem, -⟩ := exists_of_equalityAt? hbound
    exact absurd (h.equality_of_mem hmem).1 (hop t (List.of_mem_zip hmem).1)

/-- Without equalities the first free field is the first one that is not predefined. -/
theorem Gathered.length_leading_eq (h : Gathered root mapping exprs c)
    (hop : ∀ t, some t ∈ c.terms → t.op ≠ .eq) (hlt : c.stem.length < c.fields.length) :
    c.leading.length = c.stem.length := by
  refine RowKey.length_leading_eq (fun i hi => ?_) ?_
  · refine ⟨c.stem[i], ?_⟩
    rw [getElem?_bound, if_pos (Nat.lt_trans hi hlt), bound?, if_pos hi,
      List.getElem?_eq_getElem hi]
  · cases hb : c.bound? c.stem.length with
    | none => rw [getElem?_bound, if_pos hlt, hb]
    | some b =>
      refine absurd (h.lt_of_bound hop (i := c.stem.length) (b := b) ?_) (Nat.lt_irrefl _)
      rw [getElem?_bound, if_pos hlt, hb]

/-! ### Plans -/

/-- The scans that an alternative may be given. -/
inductive Planned (c : KeyConstraints) : DisjunctPlan → Prop
  | point (h : c.leading.length = c.fields.length) :
      Planned c ⟨.point c.start, c.residualBelow c.fields.length⟩
  | fuzzy {template mask : Bytes}
      (hlater : (c.bound.drop c.leading.length).any Option.isSome = true)
      (h : RowKey.fuzzy c.fields c.bound = .ok (template, mask)) :
      Planned c ⟨.fuzzy template mask c.start (Bytes.successor? c.start),
        c.residualBelow c.fields.length⟩
  | range {bounds : List (Option KeyTerm.Bound)} (hfree : c.leading.length ≠ c.fields.length)
      (h : c.bounds = .ok bounds) : Planned c ⟨c.range bounds, c.residualInRange bounds⟩

theorem planned_of_plan {p : DisjunctPlan} (h : c.plan = .ok (some p)) : Planned c p := by
  unfold plan at h
  split at h
  · cases h
    exact .point ‹_›
  · split at h
    · rename_i template mask htemplate
      cases h
      unfold template? at htemplate
      split at htemplate
      · cases hfuzzy : RowKey.fuzzy c.fields c.bound with
        | error e =>
          rw [hfuzzy] at htemplate
          cases htemplate
        | ok found =>
          rw [hfuzzy] at htemplate
          cases htemplate
          exact .fuzzy ‹_› hfuzzy
      · cases htemplate
    · obtain ⟨bounds, hbounds, h⟩ := Outcome.bind_eq_ok.mp h
      split at h
      · cases h
      · cases h
        exact .range ‹_› hbounds

/-- Without a plan there is no bound on the first field that is not bound. -/
theorem bounds_of_plan_eq_none (h : c.plan = .ok none) :
    ∃ bounds, c.bounds = .ok bounds ∧ ∀ bound, some bound ∉ bounds := by
  unfold plan at h
  split at h
  · cases h
  · split at h
    · cases h
    · obtain ⟨bounds, hbounds, h⟩ := Outcome.bind_eq_ok.mp h
      split at h
      · rename_i hnone
        refine ⟨bounds, hbounds, fun bound hmem => ?_⟩
        cases List.all_eq_true.mp hnone.2 _ hmem
      · cases h

/-- A range sets the bounds of the terms on the first field that is not bound. -/
theorem mem_bounds_iff {bounds : List (Option KeyTerm.Bound)} (h : c.bounds = .ok bounds)
    {bound : KeyTerm.Bound} :
    some bound ∈ bounds ↔
      ∃ t, some t ∈ c.terms ∧ t.index = c.leading.length ∧ t.bound? c.start = .ok (some bound) := by
  constructor
  · intro hmem
    obtain ⟨i, hi⟩ := List.mem_iff_getElem?.mp hmem
    obtain ⟨term, hterm, hbound⟩ := Outcome.exists_of_mapM_result h hi
    cases term with
    | none => cases hbound
    | some t =>
      simp only at hbound
      split at hbound
      · exact ⟨t, List.mem_of_getElem? hterm, ‹_›, hbound⟩
      · cases hbound
  · rintro ⟨t, hmem, hindex, hbound⟩
    obtain ⟨i, hi⟩ := List.mem_iff_getElem?.mp hmem
    obtain ⟨slot, hslot, hset⟩ := Outcome.exists_of_mapM h hi
    simp only [if_pos hindex] at hset
    rw [hbound] at hset
    exact Except.ok.inj hset ▸ List.mem_of_getElem? hslot

/-! ### What the scans select -/

variable {pieces : List Bytes}

theorem length_leading (c : KeyConstraints) : c.leading.length ≤ c.fields.length :=
  c.length_bound ▸ RowKey.length_leading_le c.bound

theorem covers_point_iff (ha : RowKey.Aligned c.fields c.bound pieces)
    (h : c.leading.length = c.fields.length) :
    (Scan.point c.start).covers pieces.flatten = true ↔
      ∀ (i : Nat) (b : Bytes), c.bound[i]? = some (some b) → pieces[i]? = some b := by
  rw [← ha.flatten_leading_eq_iff (h.trans c.length_bound.symm)]
  exact beq_iff_eq

theorem start_prefix_iff (ha : RowKey.Aligned c.fields c.bound pieces) :
    c.start <+: pieces.flatten ↔
      ∀ (i : Nat) (b : Bytes), i < c.leading.length → c.bound[i]? = some (some b) →
        RowKey.StandsAt pieces i b :=
  ha.flatten_leading_prefix_iff

theorem covers_fuzzy_iff (ha : RowKey.Aligned c.fields c.bound pieces) {template mask : Bytes}
    (h : RowKey.fuzzy c.fields c.bound = .ok (template, mask)) :
    (Scan.fuzzy template mask c.start (Bytes.successor? c.start)).covers pieces.flatten = true ↔
      ∀ (i : Nat) (b : Bytes), c.bound[i]? = some (some b) → RowKey.StandsAt pieces i b := by
  change (Scan.inRange _ _ _ && Scan.matchesTemplate _ _ _) = true ↔ _
  rw [Bool.and_eq_true, inRange_successor?_iff, start_prefix_iff ha, ha.matchesTemplate_iff h]
  exact and_iff_right_of_imp fun hall i b _ hb => hall i b hb

theorem covers_range_iff (ha : RowKey.Aligned c.fields c.bound pieces)
    {bounds : List (Option KeyTerm.Bound)} (h : c.bounds = .ok bounds) :
    (c.range bounds).covers pieces.flatten = true ↔
      (∀ (i : Nat) (b : Bytes), i < c.leading.length → c.bound[i]? = some (some b) →
        RowKey.StandsAt pieces i b) ∧
      ∀ bound, some bound ∈ bounds → bound.Admits pieces.flatten := by
  have hsets : ∀ bound, some bound ∈ bounds →
      ∃ op bytes, KeyTerm.Sets op (c.start ++ bytes) bound := by
    intro bound hmem
    obtain ⟨t, -, -, hbound⟩ := (mem_bounds_iff h).mp hmem
    obtain ⟨bytes, -, -, -, hset⟩ := KeyTerm.exists_sets_of_bound? hbound
    exact ⟨t.op, bytes, hset⟩
  change (Scan.inRange _ _ _ && true) = true ↔ _
  rw [Bool.and_true, ← start_prefix_iff ha]
  exact inRange_iff_forall_admits hsets

/--
A bound on the first field that is not bound admits the keys whose field compares with the
literal as the operator says.
-/
theorem admits_iff (ha : RowKey.Aligned c.fields c.bound pieces)
    (hfree : c.leading.length ≠ c.fields.length) (hfront : c.start <+: pieces.flatten)
    {t : KeyTerm} {bound : KeyTerm.Bound} {bytes : Bytes}
    (hsets : KeyTerm.Sets t.op (c.start ++ bytes) bound) (hindex : t.index = c.leading.length)
    (hwidth : t.field.width?.isSome = true) (hbytes : t.field.encode t.value = .ok bytes)
    {v : Value} {p : Bytes} (hp : pieces[t.index]? = some p) (hv : t.field.encode v = .ok p) :
    bound.Admits pieces.flatten ↔ t.op.holds (Bytes.compare p bytes) = true := by
  obtain ⟨width, hw⟩ := Option.isSome_iff_exists.mp hwidth
  have hlen : bytes.length = p.length :=
    (KeyField.length_encode hw hbytes).trans (KeyField.length_encode hw hv).symm
  have hlt : c.leading.length < c.fields.length := Nat.lt_of_le_of_ne c.length_leading hfree
  obtain ⟨q, rest, hq, hkey⟩ := ha.exists_free_piece hlt hfront
  obtain rfl : q = p := by
    rw [hindex] at hp
    exact Option.some.inj (hq.symm.trans hp)
  rw [hkey]
  exact hsets.admits_iff hlen rest

end KeyConstraints

end GraphTable
