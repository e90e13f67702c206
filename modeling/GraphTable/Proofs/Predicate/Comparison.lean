import GraphTable.Predicate.Recognizer
import GraphTable.Predicate.Validate
import GraphTable.Proofs.Outcome
import GraphTable.Proofs.Predicate.Walk

/-!
# Comparisons of single properties

A property of one value is compared with a literal by that value: the path leads to it
(`reach_of_carries`), and the comparison is true if the operator holds of how the value and the
literal compare (`evaluate_comparison`, `satisfies_eq_true_iff`). What a property resolves to does
not depend on the recognizer that asks (`resolve_of_create`).

Validation checks every node (`checkNode_of_validate`), so no comparison or test of a valid
predicate is about values that do not have it (`flavor_of_checkNode`, `flavor_of_checkNode_test`),
and a valid predicate has a recognizer (`exists_create_of_validate`).
-/

namespace GraphTable

/-! ### Single values in graphs -/

/-- From a node on, single references along a path lead to a value. -/
inductive Graph.CarriesAt (g : Graph) : Nat → List String → Value → Prop
  | value {i : Nat} {name : String} {v : Value} {n : Node} (hn : g.node? i = some n)
      (hv : n.get? name = some (.value v)) : CarriesAt g i [name] v
  | reference {i j : Nat} {name : String} {path : List String} {v : Value} {n : Node}
      (hn : g.node? i = some n) (hj : n.get? name = some (.one j)) (rest : CarriesAt g j path v) :
      CarriesAt g i (name :: path) v

/-- A graph holds a value at the end of a path from its root. -/
def Graph.Carries (g : Graph) (path : List String) (v : Value) : Prop :=
  g.CarriesAt 0 path v

theorem Resolved.effectiveType_of_plain {found : Resolved} {p : Property}
    (hfun : p.functions = []) : found.effectiveType p = found.type := by
  rw [effectiveType, hfun]

namespace Property

theorem exists_follow_of_carriesAt (p : Property) {g : Graph} {names : List String}
    {last : String} {i : Nat} {v : Value} (h : g.CarriesAt i (names ++ [last]) v) :
    ∃ j n, p.follow g names [i] = .ok [j] ∧ g.node? j = some n ∧
      n.get? last = some (.value v) := by
  induction names generalizing i with
  | nil =>
    cases h with
    | value hn hv => exact ⟨i, _, rfl, hn, hv⟩
    | reference _ _ rest => cases rest
  | cons name names ih =>
    cases hpath : names ++ [last] with
    | nil => simp at hpath
    | cons next path =>
      rw [List.cons_append, hpath] at h
      cases h with
      | @reference _ j _ _ _ n hn hj rest =>
        rw [← hpath] at rest
        obtain ⟨k, m, hfollow, hm⟩ := ih rest
        refine ⟨k, m, ?_, hm⟩
        have hstep : p.step g name i = .ok [j] := by
          rw [step, Graph.referred, hn]
          simp only [Except.bind, bind, hj]
          rfl
        rw [follow, List.mapM_cons, hstep]
        exact hfollow

/-- A property of one value reaches just that value. -/
theorem reach_of_carries {p : Property} {g : Graph} {path : List String} {v : Value}
    (hpath : p.names? = some path) (hfun : p.functions = []) (h : g.Carries path v)
    (endMany : Bool) : p.reach endMany g = .ok [some v] := by
  obtain ⟨names, hnames, rfl⟩ := Option.map_eq_some_iff.mp hpath
  obtain ⟨j, n, hfollow, hn, hv⟩ := p.exists_follow_of_carriesAt h
  have hvalues : p.valuesAt endMany g j = .ok [some v] := by
    rw [valuesAt, Graph.referred, hn]
    simp only [Except.bind, bind, hv, applied, hfun]
    rfl
  rw [reach, hnames]
  simp only [hfollow, Except.bind, bind, List.mapM_cons, hvalues]
  rfl

end Property

/-! ### Truth of comparisons -/

namespace DataType

theorem satisfies_of_compareAs? {type : DataType} {op : RelationalOp} {v literal : Value}
    {o : Ordering} (hfits : type.fits v = true) (hflavor : type.flavor ≠ .other)
    (h : Value.compareAs? type.flavor v literal = some o) :
    type.satisfies op v literal = .ok (op.holds o) := by
  rw [satisfies, coerceEval, coerce_of_fits hfits]
  simp only [Outcome.mapError_ok, Except.bind, bind, if_neg hflavor, h]
  rfl

/-- A comparison is true if the operator holds of how the two values compare. -/
theorem satisfies_eq_true_iff {type : DataType} {op : RelationalOp} {v literal : Value}
    (hfits : type.fits v = true) :
    type.satisfies op v literal = .ok true ↔ type.flavor ≠ .other ∧
      ∃ o, Value.compareAs? type.flavor v literal = some o ∧ op.holds o = true := by
  by_cases hflavor : type.flavor = .other
  · rw [satisfies, coerceEval, coerce_of_fits hfits]
    simp only [Outcome.mapError_ok, Except.bind, bind, if_pos hflavor]
    exact ⟨fun h => (by cases h), fun h => absurd hflavor h.1⟩
  · cases hcmp : Value.compareAs? type.flavor v literal with
    | some o =>
      rw [satisfies_of_compareAs? hfits hflavor hcmp]
      simp [hflavor]
    | none =>
      rw [satisfies, coerceEval, coerce_of_fits hfits]
      simp only [Outcome.mapError_ok, Except.bind, bind, if_neg hflavor, hcmp]
      split <;> simp [pure, Except.pure]

end DataType

namespace Recognizer

variable {r : Recognizer} {g : Graph}

/-- A comparison of a property of one value is that of the value. -/
theorem evaluate_comparison {i j : NodeId} {op : RelationalOp} {p : Property} {text : String}
    {path : List String} {type : DataType} {v literal : Value} {many endMany : Bool}
    (hresolve : r.resolve p = .ok ⟨type, many, endMany⟩) (hfun : p.functions = [])
    (hpath : p.names? = some path) (hcarries : g.Carries path v)
    (hread : type.read text = .ok literal) :
    r.evaluate g (.relational i op (.property j p) (.text text)) =
      type.satisfies op v literal := by
  have hreach := Property.reach_of_carries hpath hfun hcarries endMany
  rw [evaluate, relational, compared, collect]
  simp only [hresolve, hreach, Except.bind, bind, compareText, DataType.readEval, hread,
    Outcome.mapError_ok, Resolved.effectiveType_of_plain hfun, present, pure, Except.pure]
  simp only [List.filterMap_cons, id, List.filterMap_nil, List.anyM_cons, List.anyM_nil]
  cases type.satisfies op v literal with
  | error e => rfl
  | ok b => cases b <;> rfl

/-- What was true or false was resolved. -/
theorem exists_resolve_of_evaluate {i j : NodeId} {op : RelationalOp} {p : Property}
    {l : Literal} {b : Bool} (h : r.evaluate g (.relational i op (.property j p) l) = .ok b) :
    ∃ found, r.resolve p = .ok found := by
  rw [evaluate, relational, compared] at h
  cases hresolve : r.resolve p with
  | ok found => exact ⟨found, rfl⟩
  | error e =>
    rw [hresolve] at h
    cases h

/-! ### Resolving -/

variable {catalog : Catalog} {root : TypeDef} {e : Expr}

/-- There is a recognizer if all properties resolve. -/
theorem exists_create_of_resolve
    (h : ∀ p ∈ e.properties, ∃ found, p.resolve catalog root = .ok found) :
    ∃ r, create catalog root e = .ok r := by
  have hall : ∀ p ∈ e.properties, ∃ pair,
      (do return (p, ← p.resolve catalog root) : Except PlanFault (Property × Resolved)) =
        .ok pair ∧ True := by
    intro p hp
    obtain ⟨found, hfound⟩ := h p hp
    exact ⟨(p, found), Outcome.bind_eq_ok.mpr ⟨found, hfound, rfl⟩, trivial⟩
  obtain ⟨resolved, hresolved, -⟩ := Outcome.exists_mapM (P := fun _ => True) hall
  exact ⟨_, Outcome.bind_eq_ok.mpr ⟨resolved, hresolved, rfl⟩⟩

theorem resolve_of_create {p : Property} {found : Resolved} (h : create catalog root e = .ok r)
    (hp : r.resolve p = .ok found) : p.resolve catalog root = .ok found := by
  obtain ⟨resolved, hresolved, h⟩ := Outcome.bind_eq_ok.mp h
  cases h
  unfold resolve at hp
  split at hp
  · rename_i other hlookup
    cases hp
    obtain ⟨before, after, heq, -⟩ := List.lookup_eq_some_iff.mp hlookup
    have hmem : (p, found) ∈ resolved := by
      change resolved = _ at heq
      rw [heq]
      exact List.mem_append_right before List.mem_cons_self
    obtain ⟨q, -, hq⟩ := Outcome.exists_mem_of_mapM_result hresolved hmem
    obtain ⟨other, hother, hpair⟩ := Outcome.bind_eq_ok.mp hq
    cases hpair
    exact hother
  · cases hp

theorem exists_resolve_of_mem {p : Property} (h : create catalog root e = .ok r)
    (hp : p ∈ e.properties) : ∃ found, r.resolve p = .ok found := by
  obtain ⟨resolved, hresolved, h⟩ := Outcome.bind_eq_ok.mp h
  cases h
  obtain ⟨pair, hpair, hq⟩ := Outcome.exists_mem_of_mapM hresolved hp
  obtain ⟨found, -, hq⟩ := Outcome.bind_eq_ok.mp hq
  cases hq
  have hsome : (resolved.lookup p).isSome = true :=
    List.lookup_isSome_iff.mpr ⟨_, hpair, by simp⟩
  obtain ⟨other, hother⟩ := Option.isSome_iff_exists.mp hsome
  exact ⟨other, by rw [resolve, hother]⟩

end Recognizer

/-! ### Validation -/

namespace Expr

theorem establishes_checkVisitor (catalog : Catalog) (root : TypeDef) :
    Establishes (checkVisitor catalog root) (· = .ok ())
      (fun _ x => x.checkNode catalog root = .ok ()) where
  good_before {s e _ _} h := by
    unfold checkVisitor at h
    split at h
    · cases h
    · rfl
  goesOn {s e _ _} h := by
    unfold checkVisitor at h ⊢
    split at h
    · cases h
    · split at h
      · rfl
      · cases h
  done {s e _ _} h := by
    unfold checkVisitor at h
    split at h
    · cases h
    · split at h
      · assumption
      · cases h
  kept _ h := h

/-- Validation checks every node. -/
theorem checkNode_of_validate {catalog : Catalog} {root : TypeDef} {e : Expr}
    (hlabels : e.Labelled) (h : e.validate catalog root = .ok ()) :
    ∀ x ∈ e.nodes, x.checkNode catalog root = .ok () := by
  unfold validate at h
  split at h
  · exact forall_nodes_of_walk (establishes_checkVisitor catalog root) hlabels h
  · cases h

theorem isCondition_of_validate {catalog : Catalog} {root : TypeDef} {e : Expr}
    (h : e.validate catalog root = .ok ()) : e.isCondition = true := by
  unfold validate at h
  split at h
  · assumption
  · cases h

/-- A property that applies no function is checked by resolving it. -/
theorem check_of_resolve {catalog : Catalog} {root : TypeDef} {p : Property} {found : Resolved}
    (hfun : p.functions = []) (hp : p.resolve catalog root = .ok found) :
    p.check catalog root = .ok found := by
  rw [Property.check, hp]
  simp only [bind, Except.bind, hfun]
  rfl

/-- A property that is compared is of a flavor that compares. -/
theorem flavor_of_checkNode {catalog : Catalog} {root : TypeDef} {i j : NodeId}
    {op : RelationalOp} {p : Property} {l : Literal} {found : Resolved}
    (h : (relational i op (.property j p) l).checkNode catalog root = .ok ())
    (hfun : p.functions = []) (hp : p.resolve catalog root = .ok found) :
    found.type.flavor ≠ .other := by
  intro hother
  rw [checkNode, check_of_resolve hfun hp] at h
  simp only [bind, Except.bind, Resolved.effectiveType_of_plain hfun, hother, if_true] at h
  cases h

/-- A property is tested by what its flavor has: patterns are for texts. -/
theorem flavor_of_checkNode_test {catalog : Catalog} {root : TypeDef} {i : NodeId} {op : MatchOp}
    {p : Property} {l : Literal} {d : Option String} {found : Resolved}
    (h : (test i op p l d).checkNode catalog root = .ok ())
    (hfun : p.functions = []) (hp : p.resolve catalog root = .ok found) :
    match op with
    | .like => found.type.flavor = .string
    | _ => found.type.flavor ≠ .temporal ∧ found.type.flavor ≠ .other := by
  rw [checkNode, check_of_resolve hfun hp] at h
  simp only [bind, Except.bind, Resolved.effectiveType_of_plain hfun] at h
  cases op with
  | like =>
    by_cases hstring : found.type.flavor = .string
    · exact hstring
    · simp only [if_neg hstring] at h
      cases h
  | isIn | notIn =>
    by_cases hflavor : found.type.flavor = .temporal ∨ found.type.flavor = .other
    · simp only [if_pos hflavor] at h
      cases h
    · exact not_or.mp hflavor

/-- A side of a conjunction or disjunction is a condition. -/
theorem isCondition_of_check {e : Expr} (h : e.checkCondition = .ok ()) :
    e.isCondition = true := by
  unfold checkCondition at h
  split at h
  · assumption
  · cases h

private theorem exists_resolve_of_check {catalog : Catalog} {root : TypeDef} {p : Property}
    {found : Resolved} (h : p.check catalog root = .ok found) :
    ∃ found, p.resolve catalog root = .ok found := by
  obtain ⟨found, hfound, -⟩ := Outcome.bind_eq_ok.mp h
  exact ⟨found, hfound⟩

/-- A property is resolved when the node above it is checked, for it is no condition itself. -/
private theorem exists_resolve_of_checkNode {catalog : Catalog} {root : TypeDef} {e : Expr}
    (h : e.checkNode catalog root = .ok ()) {j : NodeId} {p : Property}
    (hmem : property j p ∈ e.children) : ∃ found, p.resolve catalog root = .ok found := by
  cases e with
  | logical i op l r =>
    obtain ⟨_, hl, hr⟩ := Outcome.bind_eq_ok.mp h
    rcases List.mem_cons.mp hmem with rfl | hmem
    · cases hl
    · cases List.mem_singleton.mp hmem
      cases hr
  | arithmetic i op l r =>
    obtain ⟨_, hl, hr⟩ := Outcome.bind_eq_ok.mp h
    rcases List.mem_cons.mp hmem with rfl | hmem
    · obtain ⟨_, hcheck, -⟩ := Outcome.bind_eq_ok.mp hl
      exact exists_resolve_of_check hcheck
    · cases List.mem_singleton.mp hmem
      obtain ⟨_, hcheck, -⟩ := Outcome.bind_eq_ok.mp hr
      exact exists_resolve_of_check hcheck
  | relational i op left l =>
    cases List.mem_singleton.mp hmem
    obtain ⟨_, hcheck, -⟩ := Outcome.bind_eq_ok.mp h
    exact exists_resolve_of_check hcheck
  | test i op p l d => cases hmem
  | property i p => cases hmem
  | literal i l => cases hmem

/-- All properties of a valid predicate resolve. -/
theorem exists_resolve_of_validate {catalog : Catalog} {root : TypeDef} {e : Expr}
    (hlabels : e.Labelled) (h : e.validate catalog root = .ok ()) :
    ∀ p ∈ e.properties, ∃ found, p.resolve catalog root = .ok found := by
  have hchecked := checkNode_of_validate hlabels h
  have hproperty : ∀ x ∈ e.nodes, ∀ j p, x = property j p →
      ∃ found, p.resolve catalog root = .ok found := by
    refine forall_nodes_of_children ?_ fun x hx _ c hc j p hcp => ?_
    · rintro j p rfl
      cases h
    · exact exists_resolve_of_checkNode (hchecked x hx) (hcp ▸ hc)
  intro p hp
  obtain ⟨x, hx, hown⟩ := (mem_properties_iff hlabels).mp hp
  cases x with
  | property j q =>
    cases List.mem_singleton.mp hown
    exact hproperty _ hx j p rfl
  | test i op q l d =>
    cases List.mem_singleton.mp hown
    obtain ⟨_, hcheck, -⟩ := Outcome.bind_eq_ok.mp (hchecked _ hx)
    exact exists_resolve_of_check hcheck
  | logical i op l r => cases hown
  | arithmetic i op l r => cases hown
  | relational i op left l => cases hown
  | literal i l => cases hown

end Expr

namespace Recognizer

variable {catalog : Catalog} {root : TypeDef} {e : Expr} {r : Recognizer}

/-- A valid predicate has a recognizer. -/
theorem exists_create_of_validate (hlabels : e.Labelled) (h : e.validate catalog root = .ok ()) :
    ∃ r, create catalog root e = .ok r :=
  exists_create_of_resolve (Expr.exists_resolve_of_validate hlabels h)

/-- The properties that a predicate compares are resolved. -/
theorem exists_resolve_of_mem_nodes (hlabels : e.Labelled) (h : create catalog root e = .ok r)
    {i j : NodeId} {op : RelationalOp} {p : Property} {l : Literal}
    (hmem : .relational i op (.property j p) l ∈ e.nodes) : ∃ found, r.resolve p = .ok found := by
  refine exists_resolve_of_mem h ((Expr.mem_properties_iff hlabels).mpr ⟨.property j p, ?_, ?_⟩)
  · exact Expr.nodes_subset_of_mem hmem (List.mem_cons_of_mem _ (Expr.mem_nodes_self _))
  · exact List.mem_singleton_self p

end Recognizer

end GraphTable
