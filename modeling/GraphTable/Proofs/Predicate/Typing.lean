import GraphTable.Proofs.Predicate.Comparison

/-!
# Well-typed graphs

In a graph that is well-typed for a catalog, the set properties of every node hold what its type
declares: data in the variant of the declared type, or numbers of nodes of the declared target
type (`Graph.WellTyped`). Nothing is asked of properties that are not set, and nodes may refer to
each other in cycles.

Where a property resolves, it can be read in such a graph (`Property.reach_of_wellTyped`): the
references on its path lead to nodes only, each of the type that resolving has found for it
(`Property.follow_of_wellTyped`), and what stands at the end is data of the type that the property
resolves to.
-/

namespace GraphTable

/--
Whether a property of a type may hold a value: one of the variant that the type expects. Objects
have no variant of their own, and any value may stand for one.
-/
def DataType.Admits (type : DataType) (v : Value) : Prop :=
  type = .object ∨ type.fits v = true

instance (type : DataType) (v : Value) : Decidable (type.Admits v) := by
  unfold DataType.Admits
  infer_instance

/-- Whether a number is that of a node of a type. -/
def Graph.Refers (g : Graph) (target : String) (i : Nat) : Prop :=
  (g.node? i).map Node.typeName = some target

instance (g : Graph) (target : String) (i : Nat) : Decidable (g.Refers target i) := by
  unfold Graph.Refers
  infer_instance

/-- Whether the content of a property is as declared, be it one value or many. -/
def Field.Matches (g : Graph) (kind : PropertyKind) (content : Field) : Prop :=
  match kind, content with
  | .data type, .value v => type.Admits v
  | .data type, .values vs => ∀ v ∈ vs, type.Admits v
  | .reference target, .one i => g.Refers target i
  | .reference target, .many is => ∀ i ∈ is, g.Refers target i
  | _, _ => False

instance (g : Graph) (kind : PropertyKind) (content : Field) :
    Decidable (content.Matches g kind) := by
  unfold Field.Matches
  split <;> infer_instance

/-- Whether all set properties of a node that a type declares are as declared. -/
def Node.Conforms (g : Graph) (t : TypeDef) (n : Node) : Prop :=
  ∀ p ∈ n.fields, ∀ d ∈ t.property? p.1, p.2.Matches g d.kind

instance (g : Graph) (t : TypeDef) (n : Node) : Decidable (n.Conforms g t) := by
  unfold Node.Conforms
  infer_instance

/-- A graph in which every node conforms to its type, and the node of the row to the root type. -/
structure Graph.WellTyped (catalog : Catalog) (root : TypeDef) (g : Graph) : Prop where
  root : g.root.Conforms g root
  nodes : ∀ n ∈ g.nodes, ∀ t ∈ catalog.find? n.typeName, n.Conforms g t

theorem Node.mem_fields_of_get? {n : Node} {name : String} {content : Field}
    (h : n.get? name = some content) : (name, content) ∈ n.fields := by
  obtain ⟨before, after, hfields, -⟩ := List.lookup_eq_some_iff.mp h
  rw [hfields]
  exact List.mem_append_right before List.mem_cons_self

theorem Node.matches_of_get? {g : Graph} {t : TypeDef} {n : Node} {name : String}
    {d : PropertyDef} {content : Field} (h : n.Conforms g t) (hd : t.property? name = some d)
    (hcontent : n.get? name = some content) : content.Matches g d.kind :=
  h (name, content) (mem_fields_of_get? hcontent) d hd

/-- Whether a number is that of a node that conforms to a type. -/
def Graph.Stands (g : Graph) (t : TypeDef) (i : Nat) : Prop :=
  ∃ n, g.node? i = some n ∧ n.Conforms g t

theorem Graph.stands_of_refers {catalog : Catalog} {root : TypeDef} {g : Graph}
    {target : String} {t : TypeDef} {i : Nat} (hg : g.WellTyped catalog root)
    (ht : catalog.find? target = some t) (h : g.Refers target i) : g.Stands t i := by
  obtain ⟨n, hn, hname⟩ := Option.map_eq_some_iff.mp h
  exact ⟨n, hn, hg.nodes n (List.mem_of_getElem? hn) t (hname ▸ ht)⟩

namespace Property

variable {catalog : Catalog} {root : TypeDef} {g : Graph} {p : Property}

/-- A step along a declared reference leads to nodes of its target type. -/
theorem step_of_stands {target name : String} {t next : TypeDef} {d : PropertyDef} {i : Nat}
    (hg : g.WellTyped catalog root) (hd : t.property? name = some d)
    (hkind : d.kind = .reference target) (hnext : catalog.find? target = some next)
    (hi : g.Stands t i) :
    ∃ js, p.step g name i = .ok js ∧ ∀ j ∈ js, g.Stands next j := by
  obtain ⟨n, hn, hconforms⟩ := hi
  rw [step, Graph.referred, hn]
  simp only [bind, Except.bind]
  rcases hcontent : n.get? name with _ | content
  · exact ⟨[], rfl, fun _ hj => by cases hj⟩
  · have hmatches := Node.matches_of_get? hconforms hd hcontent
    rw [hkind] at hmatches
    cases content with
    | one j =>
      refine ⟨[j], rfl, fun k hk => ?_⟩
      cases List.mem_singleton.mp hk
      exact Graph.stands_of_refers hg hnext hmatches
    | many js => exact ⟨js, rfl, fun j hj => Graph.stands_of_refers hg hnext (hmatches j hj)⟩
    | value v => exact hmatches.elim
    | values vs => exact hmatches.elim

theorem data_of_resolveNames {t : TypeDef} {many : Bool} {last : String} {found : Resolved}
    (h : p.resolveNames catalog t many [last] = .ok found) :
    ∃ d, t.property? last = some d ∧ d.kind = .data found.type := by
  rw [resolveNames] at h
  rcases hd : t.property? last with _ | d
  · rw [hd] at h
    cases h
  · refine ⟨d, rfl, ?_⟩
    simp only [hd] at h
    rcases hkind : d.kind with type | target
    · simp only [hkind] at h
      cases h
      rfl
    · simp only [hkind] at h
      cases h

/-- A name that others follow is that of a reference, whose target type is in the catalog. -/
theorem reference_of_resolveNames {t : TypeDef} {many : Bool} {name next : String}
    {rest : List String} {found : Resolved}
    (h : p.resolveNames catalog t many (name :: next :: rest) = .ok found) :
    ∃ d target t', t.property? name = some d ∧ d.kind = .reference target ∧
      catalog.find? target = some t' ∧
      p.resolveNames catalog t' (many || d.many) (next :: rest) = .ok found := by
  rw [resolveNames] at h
  rcases hd : t.property? name with _ | d
  · rw [hd] at h
    cases h
  · simp only [hd] at h
    rcases hkind : d.kind with type | target
    · simp only [hkind] at h
      cases h
    · simp only [hkind] at h
      rcases ht : catalog.find? target with _ | t'
      · simp only [ht] at h
        cases h
      · simp only [ht] at h
        exact ⟨d, target, t', rfl, hkind, ht, h⟩

/-- The names of a path lead from nodes of a type to nodes that declare the data at its end. -/
theorem follow_of_wellTyped {names : List String} {last : String} {t : TypeDef} {many : Bool}
    {found : Resolved} {is : List Nat} (hg : g.WellTyped catalog root)
    (hfound : p.resolveNames catalog t many (names ++ [last]) = .ok found)
    (his : ∀ i ∈ is, g.Stands t i) :
    ∃ js t' d, p.follow g names is = .ok js ∧ (∀ j ∈ js, g.Stands t' j) ∧
      t'.property? last = some d ∧ d.kind = .data found.type := by
  -- one name at a time; the nodes reached so far are any nodes of one type, so cycles do not matter
  induction names generalizing t many is with
  | nil =>
    obtain ⟨d, hd, hkind⟩ := data_of_resolveNames hfound
    exact ⟨is, t, d, rfl, his, hd, hkind⟩
  | cons name names ih =>
    obtain ⟨next, rest, hrest⟩ : ∃ next rest, names ++ [last] = next :: rest := by
      cases names <;> exact ⟨_, _, rfl⟩
    rw [List.cons_append, hrest] at hfound
    obtain ⟨d, target, t', hd, hkind, ht', hfound⟩ := reference_of_resolveNames hfound
    obtain ⟨steps, hsteps, hstand⟩ := Outcome.exists_mapM (P := fun js => ∀ j ∈ js, g.Stands t' j)
      fun i hi => step_of_stands (p := p) hg hd hkind ht' (his i hi)
    have hreached : ∀ j ∈ steps.flatten, g.Stands t' j := by
      intro j hj
      obtain ⟨js, hjs, hj⟩ := List.mem_flatten.mp hj
      exact hstand js hjs j hj
    obtain ⟨js, t'', e, hfollow, hend⟩ := ih (hrest ▸ hfound) hreached
    exact ⟨js, t'', e, Outcome.bind_eq_ok.mpr ⟨steps, hsteps, hfollow⟩, hend⟩

/-- At a node that declares data, all values are such data. -/
theorem valuesAt_of_stands {t : TypeDef} {d : PropertyDef} {type : DataType} {i : Nat}
    (hfun : p.functions = []) (hd : t.property? p.name = some d) (hkind : d.kind = .data type)
    (endMany : Bool) (hi : g.Stands t i) :
    ∃ vs, p.valuesAt endMany g i = .ok vs ∧ ∀ v, some v ∈ vs → type.Admits v := by
  obtain ⟨n, hn, hconforms⟩ := hi
  have happlied : ∀ v, p.applied v = .ok v := fun v => by rw [applied, hfun]
  rw [valuesAt, Graph.referred, hn]
  simp only [bind, Except.bind, happlied]
  rcases hcontent : n.get? p.name with _ | content
  · refine ⟨_, rfl, fun v hv => ?_⟩
    cases endMany <;> simp at hv
  · have hmatches := Node.matches_of_get? hconforms hd hcontent
    rw [hkind] at hmatches
    cases content with
    | value v =>
      refine ⟨[some v], rfl, fun w hw => ?_⟩
      cases List.mem_singleton.mp hw
      exact hmatches
    | values vs =>
      obtain ⟨ws, hws, hadmits⟩ := Outcome.exists_mapM (P := type.Admits)
        fun v hv => ⟨v, happlied v, hmatches v hv⟩
      simp only [hws]
      refine ⟨_, rfl, fun v hv => ?_⟩
      obtain ⟨w, hw, heq⟩ := List.mem_map.mp hv
      cases heq
      exact hadmits v hw
    | one j => exact hmatches.elim
    | many js => exact hmatches.elim

/-- A property that resolves can be read, and the values that it reaches are of its type. -/
theorem reach_of_wellTyped {found : Resolved} (hg : g.WellTyped catalog root)
    (hfound : p.resolve catalog root = .ok found) (hfun : p.functions = []) (endMany : Bool) :
    ∃ vs, p.reach endMany g = .ok vs ∧ ∀ v, some v ∈ vs → found.type.Admits v := by
  rw [resolve, names?] at hfound
  rcases hnames : stepNames? p.path with _ | names
  · rw [hnames] at hfound
    cases hfound
  · rw [hnames] at hfound
    have hroot : ∀ i ∈ [0], g.Stands root i := by
      intro i hi
      cases List.mem_singleton.mp hi
      exact ⟨g.root, rfl, hg.root⟩
    obtain ⟨js, t, d, hfollow, hstand, hd, hkind⟩ := follow_of_wellTyped hg hfound hroot
    obtain ⟨vss, hvss, hadmits⟩ := Outcome.exists_mapM
      (P := fun vs => ∀ v, some v ∈ vs → found.type.Admits v)
      fun j hj => valuesAt_of_stands hfun hd hkind endMany (hstand j hj)
    refine ⟨vss.flatten, ?_, fun v hv => ?_⟩
    · rw [reach, hnames]
      exact Outcome.bind_eq_ok.mpr ⟨js, hfollow, Outcome.bind_eq_ok.mpr ⟨vss, hvss, rfl⟩⟩
    · obtain ⟨vs, hvs, hv⟩ := List.mem_flatten.mp hv
      exact hadmits vs hvs v hv

end Property

end GraphTable
