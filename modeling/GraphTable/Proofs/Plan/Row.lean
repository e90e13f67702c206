import GraphTable.Proofs.Plan.Alternatives
import GraphTable.Proofs.Predicate.Comparison

/-!
# Rows and the terms that are about them

The key of a stored row is composed of values that its graph carries (`StoredRow`). So a term on
a key field says something about the bytes of that field: the recognizer finds the value there
that the field's bytes encode (`StoredRow.exists_compared`), and the term is true if the operator
holds of how value and literal compare.

How this looks in bytes depends on the kind of term. A true equality fixes the bytes of the field
(`Compared.eq_of_satisfies`), and these make it true if the codec is reversible
(`Compared.satisfies_of_eq`). A literal that is a safe bound compares with the value as their bytes
do (`Compared.satisfies_eq`), unless the codec misplaces it (`Compared.satisfies_of_misplaces`).
-/

namespace GraphTable

namespace KeyField

/--
A key field that takes its value from a property has the type that the catalog gives the property,
which holds one value and no real.
-/
structure Catalogued (catalog : Catalog) (root : TypeDef) (f : KeyField) : Prop where
  resolves : ∀ path, f.source = .property path → ∀ p : Property, p.names? = some path →
    p.resolve catalog root = .ok ⟨f.type, false, false⟩
  not_real : ∀ path, f.source = .property path → f.type.flavor ≠ .real

/-- A key field has a value: that of the root type, or one that the graph carries. -/
inductive Holds (root : TypeDef) (g : Graph) (f : KeyField) (v : Value) : Prop
  | predefined (h : f.source.value? root = some v)
  | property {path : List String} (hsource : f.source = .property path)
      (hv : f.type.Storable v) (hcarries : g.Carries path v)

end KeyField

/-- A row whose key is composed of the values that the fields of the key have in its graph. -/
structure StoredRow (root : TypeDef) (mapping : TypeMapping) (values : List Value) (key : Bytes)
    (g : Graph) : Prop where
  composed : RowKey.compose mapping.fields values = .ok key
  holds : ∀ (i : Nat) (f : KeyField) (v : Value), mapping.fields[i]? = some f →
    values[i]? = some v → f.Holds root g v

/-! ### Terms on stored values -/

/-- A predicate that is one comparison has no other among its nodes. -/
theorem KeyTerm.Among.eq_of_nodes {fields : List KeyField} {i j : NodeId} {op : RelationalOp}
    {p : Property} {l : Literal} {s t : KeyTerm}
    (h : t.Among fields (Expr.relational i op (.property j p) l).nodes)
    (hs : KeyTerm.ofExpr? fields (.relational i op (.property j p) l) = .ok (some s)) : t = s := by
  obtain ⟨x, hx, hof⟩ := h
  rcases List.mem_cons.mp hx with rfl | hx
  · cases hs.symm.trans hof
    rfl
  · cases List.mem_singleton.mp hx
    cases hof

/-- A term on a key field, a value that the field may hold, and its bytes. -/
structure KeyTerm.Compared (t : KeyTerm) (v : Value) (b : Bytes) : Prop where
  encode : t.field.encode v = .ok b
  storable : t.field.type.Storable v
  fits : t.field.type.fits t.value = true
  not_real : t.field.type.flavor ≠ .real

/-- A literal that the codec misplaces, although it sets a bound. -/
def KeyTerm.Misplaced (t : KeyTerm) : Prop :=
  t.field.width?.isSome = true ∧ t.field.codec.misplaces t.value = true ∧
    ∃ b, t.field.encode t.value = .ok b

namespace KeyTerm.Compared

variable {t : KeyTerm} {v : Value} {b bytes : Bytes}

/-- An equality is true if the value is the literal. -/
theorem satisfies_iff_eq (h : t.Compared v b) (hop : t.op = .eq)
    (hother : t.field.type.flavor ≠ .other) :
    t.field.type.satisfies t.op v t.value = .ok true ↔ v = t.value := by
  rw [DataType.satisfies_eq_true_iff h.storable.fits,
    ← DataType.compareAs?_eq_iff h.not_real hother h.storable.fits h.fits, hop]
  constructor
  · rintro ⟨-, o, hcmp, ho⟩
    rwa [beq_iff_eq.mp ho] at hcmp
  · exact fun hcmp => ⟨hother, .eq, hcmp, rfl⟩

/-- A true equality fixes the bytes of the field. -/
theorem eq_of_satisfies (h : t.Compared v b) (hop : t.op = .eq)
    (hbytes : t.field.encode t.value = .ok bytes)
    (htrue : t.field.type.satisfies t.op v t.value = .ok true) : b = bytes := by
  obtain ⟨hother, -⟩ := (DataType.satisfies_eq_true_iff h.storable.fits).mp htrue
  obtain rfl := (h.satisfies_iff_eq hop hother).mp htrue
  exact Except.ok.inj (h.encode.symm.trans hbytes)

/-- The bytes of a field stand for one value, if they can be read back. -/
theorem eq_value (h : t.Compared v b) (hother : t.field.type.flavor ≠ .other)
    (hnull : t.value.NoNullAtEnd) (hrev : t.field.codec.isReversible = true)
    (hbytes : t.field.encode t.value = .ok b) : v = t.value := by
  have htype := t.field.codec_type
  exact Codec.encode_injective hrev (htype ▸ h.not_real) (htype ▸ hother) (htype ▸ h.storable)
    (htype ▸ h.fits) hnull h.encode hbytes

/-- Fixed bytes make an equality true, if they can be read back. -/
theorem satisfies_of_eq (h : t.Compared v b) (hop : t.op = .eq)
    (hother : t.field.type.flavor ≠ .other) (hnull : t.value.NoNullAtEnd)
    (hrev : t.field.codec.isReversible = true) (hbytes : t.field.encode t.value = .ok b) :
    t.field.type.satisfies t.op v t.value = .ok true :=
  (h.satisfies_iff_eq hop hother).mpr (h.eq_value hother hnull hrev hbytes)

/-- A safe literal that is not misplaced compares with the value as their bytes compare. -/
theorem satisfies_eq (h : t.Compared v b) (hother : t.field.type.flavor ≠ .other)
    (hnull : t.value.NoNullAtEnd) (hsafe : t.field.codec.preservesOrder t.value = true)
    (hplaced : t.field.codec.misplaces t.value = false)
    (hbytes : t.field.encode t.value = .ok bytes) :
    t.field.type.satisfies t.op v t.value = .ok (t.op.holds (Bytes.compare b bytes)) := by
  have htype := t.field.codec_type
  have hcmp := Codec.compare_encode (htype ▸ hother) (htype ▸ h.storable) (htype ▸ h.fits) hnull
    hsafe hplaced h.encode hbytes
  rw [htype] at hcmp
  exact DataType.satisfies_of_compareAs? h.storable.fits hother hcmp

/-- A misplaced literal is above the value, and its bytes are below the value's. -/
theorem satisfies_of_misplaces (h : t.Compared v b) (hother : t.field.type.flavor ≠ .other)
    (hsafe : t.field.codec.preservesOrder t.value = true)
    (hplaced : t.field.codec.misplaces t.value = true)
    (hbytes : t.field.encode t.value = .ok bytes) :
    t.field.type.satisfies t.op v t.value = .ok (t.op.holds .lt) ∧
      Bytes.compare b bytes = .gt := by
  have htype := t.field.codec_type
  obtain ⟨hcmp, hgt⟩ := Codec.compare_encode_of_misplaces (htype ▸ h.storable) (htype ▸ h.fits)
    hsafe hplaced h.encode hbytes
  rw [htype] at hcmp
  exact ⟨DataType.satisfies_of_compareAs? h.storable.fits hother hcmp, hgt⟩

end KeyTerm.Compared

/-! ### Terms on rows -/

namespace StoredRow

variable {catalog : Catalog} {root : TypeDef} {mapping : TypeMapping} {values : List Value}
  {key : Bytes} {g : Graph} {r : Recognizer} {e predicate : Expr} {t : KeyTerm}
  {pieces : List Bytes}

theorem exists_encodes (h : StoredRow root mapping values key g) :
    ∃ pieces, RowKey.Encodes mapping.fields values pieces ∧ key = pieces.flatten :=
  RowKey.exists_encodes_of_compose h.composed

/-- A term compares the value that the row has at its field. -/
theorem exists_compared (h : StoredRow root mapping values key g)
    (hcat : ∀ f ∈ mapping.fields, f.Catalogued catalog root)
    (henc : RowKey.Encodes mapping.fields values pieces) (ht : t.Written mapping.fields e) :
    ∃ v b, values[t.index]? = some v ∧ pieces[t.index]? = some b ∧ t.Compared v b := by
  obtain ⟨i, j, p, text, path, -, -, -, hsource, hread⟩ := ht.shape
  obtain ⟨v, b, hv, hb, hencode⟩ := henc.at ht.field
  refine ⟨v, b, hv, hb, hencode, ?_, DataType.fits_of_read hread, ?_⟩
  · cases h.holds t.index t.field v ht.field hv with
    | predefined hpre =>
      rw [hsource] at hpre
      cases hpre
    | property _ hstorable _ => exact hstorable
  · exact (hcat t.field (List.mem_of_getElem? ht.field)).not_real path hsource

/-- A term that resolves is decided by the value that the row has at its field. -/
theorem evaluate_eq (h : StoredRow root mapping values key g)
    (hcat : ∀ f ∈ mapping.fields, f.Catalogued catalog root)
    (hcreate : Recognizer.create catalog root predicate = .ok r)
    (ht : t.Written mapping.fields e)
    (hresolves : ∀ i op j p l, e = .relational i op (.property j p) l →
      ∃ found, r.resolve p = .ok found) {v : Value} (hv : values[t.index]? = some v) :
    r.evaluate g e = t.field.type.satisfies t.op v t.value := by
  obtain ⟨i, j, p, text, path, rfl, hfun, hpath, hsource, hread⟩ := ht.shape
  obtain ⟨found, hfound⟩ := hresolves _ _ _ _ _ rfl
  have hresolved := Recognizer.resolve_of_create hcreate hfound
  rw [(hcat t.field (List.mem_of_getElem? ht.field)).resolves path hsource p hpath] at hresolved
  cases hresolved
  cases h.holds t.index t.field v ht.field hv with
  | predefined hpre =>
    rw [hsource] at hpre
    cases hpre
  | @property path' hsource' _ hcarries =>
    rw [hsource] at hsource'
    cases hsource'
    exact Recognizer.evaluate_comparison hfound hfun hpath hcarries hread

/-- A term of a valid predicate is decided by a value that compares with the literal. -/
theorem exists_evaluate_eq (h : StoredRow root mapping values key g)
    (hcat : ∀ f ∈ mapping.fields, f.Catalogued catalog root) (hlabels : predicate.Labelled)
    (hvalid : predicate.validate catalog root = .ok ())
    (hcreate : Recognizer.create catalog root predicate = .ok r)
    (henc : RowKey.Encodes mapping.fields values pieces) (hmem : e ∈ predicate.nodes)
    (ht : t.Written mapping.fields e) :
    ∃ v b, values[t.index]? = some v ∧ pieces[t.index]? = some b ∧ t.Compared v b ∧
      t.field.type.flavor ≠ .other ∧
      r.evaluate g e = t.field.type.satisfies t.op v t.value := by
  obtain ⟨v, b, hv, hb, hcompared⟩ := h.exists_compared hcat henc ht
  refine ⟨v, b, hv, hb, hcompared, ?_, h.evaluate_eq hcat hcreate ht ?_ hv⟩
  · obtain ⟨i, j, p, text, path, rfl, hfun, hpath, hsource, -⟩ := ht.shape
    have hcat := hcat t.field (List.mem_of_getElem? ht.field)
    exact Expr.flavor_of_checkNode (Expr.checkNode_of_validate hlabels hvalid _ hmem) hfun
      (hcat.resolves path hsource p hpath)
  · rintro i op j p l rfl
    exact Recognizer.exists_resolve_of_mem_nodes hlabels hcreate hmem

/-- The predefined fields of a row have the bytes that all rows of the type have there. -/
theorem getElem?_of_boundBy_stem (h : StoredRow root mapping values key g)
    (henc : RowKey.Encodes mapping.fields values pieces) {i : Nat} {f : KeyField}
    (hf : mapping.fields[i]? = some f) {v : Value} {b : Bytes}
    (hv : f.source.value? root = some v) (hb : f.encode v = .ok b) : pieces[i]? = some b := by
  obtain ⟨w, c, hw, hc, hencode⟩ := henc.at hf
  cases h.holds i f w hf hw with
  | predefined hpre =>
    rw [hv] at hpre
    cases hpre
    rw [hc, Except.ok.inj (hencode.symm.trans hb)]
  | property hsource _ _ =>
    rw [hsource] at hv
    cases hv

end StoredRow

/-! ### The entries of a log

A small catalog for the examples that go with the theorems on plans.
-/

namespace Log

/-- An entry has a day, a site and a tag. -/
def event : TypeDef where
  uri := "http://log"
  name := "Event"
  properties :=
    [⟨"day", .data .date, false⟩, ⟨"site", .data .int, false⟩, ⟨"tag", .data .string, false⟩]

def catalog : Catalog := ⟨[event]⟩

def table : TableMapping := ⟨"events", [102], .jenkins, true⟩

/-- The comparison of a property with a literal. -/
def compares (op : RelationalOp) (name text : String) : Expr :=
  .relational 0 op (.property 1 ⟨[], name, []⟩) (.text text)

/-- The day of entries, padded to twelve bytes. -/
def day : KeyField := ⟨0, 1, .property ["day"], .date, .pad, 12, .jenkins, by decide⟩

/-- Entries are found by their day. -/
def byDay : TypeMapping where
  typeName := "Event"
  table := table
  fields := [day]
  checked := rfl

/-- A field of a property of events that has the type of the property. -/
private theorem catalogued_of_resolves {f : KeyField} {name : String}
    (hsource : f.source = .property [name]) (hreal : f.type.flavor ≠ .real)
    (h : ∀ p, Property.resolveNames catalog p event false [name] = .ok ⟨f.type, false, false⟩) :
    f.Catalogued catalog event where
  resolves path hpath p hp := by
    cases hsource.symm.trans hpath
    rw [Property.resolve, hp]
    exact h p
  not_real _ _ := hreal

theorem catalogued_byDay : ∀ f ∈ byDay.fields, f.Catalogued catalog event := by
  intro f hf
  cases List.mem_singleton.mp hf
  exact catalogued_of_resolves rfl (by decide) fun _ => rfl

/-- The first day of 2024. -/
def newYear : Date := ⟨2024, 1, 1, by decide⟩

/-- The entry of that day, without site and tag. -/
def newYearEntry : Graph :=
  .single [50, 48, 50, 52, 45, 48, 49, 45, 48, 49, 0, 0]
    ⟨"Event", [("day", .value (.date newYear))]⟩

theorem storedRow_newYear :
    StoredRow event byDay [.date newYear] newYearEntry.rowKey newYearEntry where
  composed := rfl
  holds
    | 0, _, _, rfl, rfl =>
      .property rfl ⟨rfl, trivial, fun _ h => Value.date.inj h ▸ by decide⟩ (.value rfl rfl)
    | _ + 1, _, _, h, _ => by cases h

/-- The tag of entries. -/
def tag : KeyField := ⟨1, 2, .property ["tag"], .string, .native, 0, .jenkins, by decide⟩

/-- Entries are found by their site, in four bytes, and their tag. -/
def byTag : TypeMapping where
  typeName := "Event"
  table := table
  fields := [⟨0, 2, .property ["site"], .int, .native, 0, .jenkins, by decide⟩, tag]
  checked := rfl

theorem catalogued_byTag : ∀ f ∈ byTag.fields, f.Catalogued catalog event := by
  intro f hf
  rcases List.mem_cons.mp hf with rfl | hf
  · exact catalogued_of_resolves rfl (by decide) fun _ => rfl
  · cases List.mem_singleton.mp hf
    exact catalogued_of_resolves rfl (by decide) fun _ => rfl

/-- An entry of site 2 that is tagged abc. -/
def abcEntry : Graph :=
  .single [0, 0, 0, 2, 97, 98, 99]
    ⟨"Event", [("site", .value (.int 2)), ("tag", .value (.string "abc"))]⟩

theorem storedRow_abc :
    StoredRow event byTag [.int 2, .string "abc"] abcEntry.rowKey abcEntry where
  composed := rfl
  holds
    | 0, _, _, rfl, rfl => .property rfl ⟨rfl, trivial, fun _ h => by cases h⟩ (.value rfl rfl)
    | 1, _, _, rfl, rfl =>
      .property rfl ⟨rfl, by decide, fun _ h => by cases h⟩ (.value rfl rfl)
    | _ + 2, _, _, h, _ => by cases h

end Log

end GraphTable
