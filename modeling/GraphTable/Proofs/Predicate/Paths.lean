import GraphTable.Proofs.Predicate.Safety
import GraphTable.Proofs.Predicate.Scalars

/-!
# Comparisons are about chains of nodes

A property is looked up level by level: from the nodes reached so far to all nodes that one of them
refers to, with those that are reached twice being there twice. None of this shows in the truth of
a comparison. What counts are the chains of nodes from the root along the names of the path
(`Graph.Ends`), whatever the graph looks like:

* A comparison with a text is true if some chain ends in a node one of whose values satisfies it.
* A comparison with the null literal for equality is true if some chain ends in a node that does not
  hold the property, and the property is one that holds a single value; for inequality, if some
  chain ends in a node that holds a value.

So an end that no chain reaches satisfies nothing at all, and one that does not hold the property
satisfies no comparison with a text (`Recognizer.evaluate_existential`).

The chains are an induction on the names, in step with the levels of the search
(`Property.mem_follow_iff`); that the graph is well-typed is needed for the search to succeed, and
not for what it finds.
-/

namespace GraphTable

/-! ### What nodes hold -/

/-- The numbers of nodes that the content of a property refers to. -/
def Field.targets : Field → List Nat
  | .one j => [j]
  | .many js => js
  | .value _ | .values _ => []

/-- The values that the content of a property consists of. -/
def Field.data : Field → List Value
  | .value v => [v]
  | .values vs => vs
  | .one _ | .many _ => []

namespace Node

/-- The numbers of nodes that a property of a node refers to. -/
def targets (n : Node) (name : String) : List Nat :=
  (n.get? name).elim [] Field.targets

/-- The values that a node holds of a property. -/
def data (n : Node) (name : String) : List Value :=
  (n.get? name).elim [] Field.data

/-- What counts of a node where a path ends: the values of the property, or their absence, if the
property is not set and holds a single value. -/
def counted (n : Node) (endMany : Bool) (name : String) : List (Option Value) :=
  match n.get? name with
  | some content => content.data.map some
  | none => if endMany then [] else [none]

@[simp] theorem some_mem_counted {n : Node} {endMany : Bool} {name : String} {v : Value} :
    some v ∈ n.counted endMany name ↔ v ∈ n.data name := by
  rw [counted, data]
  cases n.get? name with
  | none => cases endMany <;> simp
  | some content => simp

@[simp] theorem none_mem_counted {n : Node} {endMany : Bool} {name : String} :
    none ∈ n.counted endMany name ↔ endMany = false ∧ n.get? name = none := by
  rw [counted]
  cases n.get? name with
  | none => cases endMany <;> simp
  | some content => simp

end Node

namespace Graph

/-- From a node, references of some names, one after the other, lead to a node. -/
inductive Leads (g : Graph) : Nat → List String → Nat → Prop
  | here {i : Nat} : Leads g i [] i
  | step {i j k : Nat} {name : String} {names : List String} {n : Node}
      (hn : g.node? i = some n) (hj : j ∈ n.targets name) (rest : Leads g j names k) :
      Leads g i (name :: names) k

/-- A chain of references of some names leads from the root to a node. -/
def Ends (g : Graph) (names : List String) (n : Node) : Prop :=
  ∃ j, g.Leads 0 names j ∧ g.node? j = some n

theorem leads_nil_iff {g : Graph} {i k : Nat} : g.Leads i [] k ↔ i = k := by
  constructor
  · intro h
    cases h
    rfl
  · rintro rfl
    exact .here

theorem leads_cons_iff {g : Graph} {i k : Nat} {name : String} {names : List String} :
    g.Leads i (name :: names) k ↔
      ∃ n, g.node? i = some n ∧ ∃ j ∈ n.targets name, g.Leads j names k := by
  constructor
  · intro h
    cases h with
    | step hn hj rest => exact ⟨_, hn, _, hj, rest⟩
  · rintro ⟨n, hn, j, hj, rest⟩
    exact .step hn hj rest

theorem referred_eq_ok_iff {g : Graph} {i : Nat} {n : Node} :
    g.referred i = .ok n ↔ g.node? i = some n := by
  rw [referred]
  cases g.node? i with
  | none => simp
  | some m => simp

end Graph

/-! ### The search along a path -/

namespace Property

variable {g : Graph} {p : Property}

/-- A step that succeeds leads to all nodes that the property refers to. -/
theorem exists_of_step {name : String} {i : Nat} {js : List Nat} (h : p.step g name i = .ok js) :
    ∃ n, g.node? i = some n ∧ js = n.targets name := by
  obtain ⟨n, hn, h⟩ := Outcome.bind_eq_ok.mp h
  refine ⟨n, Graph.referred_eq_ok_iff.mp hn, ?_⟩
  rw [Node.targets]
  rcases hcontent : n.get? name with _ | content
  · rw [hcontent] at h
    cases h
    rfl
  · rw [hcontent] at h
    cases content with
    | one j => exact (Except.ok.inj h).symm
    | many js => exact (Except.ok.inj h).symm
    | value v => cases h
    | values vs => cases h

/-- The nodes that a search along some names ends at are those that chains lead to. -/
theorem mem_follow_iff {names : List String} {is ends : List Nat} {k : Nat}
    (h : p.follow g names is = .ok ends) : k ∈ ends ↔ ∃ i ∈ is, g.Leads i names k := by
  induction names generalizing is with
  | nil =>
    cases h
    simp [Graph.leads_nil_iff]
  | cons name names ih =>
    obtain ⟨steps, hsteps, h⟩ := Outcome.bind_eq_ok.mp h
    rw [ih h]
    constructor
    · rintro ⟨j, hj, hrest⟩
      obtain ⟨js, hjs, hj⟩ := List.mem_flatten.mp hj
      obtain ⟨i, hi, hstep⟩ := Outcome.exists_mem_of_mapM_result hsteps hjs
      obtain ⟨n, hn, rfl⟩ := exists_of_step hstep
      exact ⟨i, hi, .step hn hj hrest⟩
    · rintro ⟨i, hi, hleads⟩
      obtain ⟨n, hn, j, hj, hrest⟩ := Graph.leads_cons_iff.mp hleads
      obtain ⟨js, hjs, hstep⟩ := Outcome.exists_mem_of_mapM hsteps hi
      obtain ⟨m, hm, rfl⟩ := exists_of_step hstep
      obtain rfl := Option.some.inj (hn.symm.trans hm)
      exact ⟨j, List.mem_flatten_of_mem hjs hj, hrest⟩

/-! ### The ends of chains -/

section Ends

variable (hfun : p.functions = []) {endMany : Bool}

include hfun

theorem mapM_applied (vs : List Value) : vs.mapM p.applied = .ok vs := by
  have hsame : p.applied = pure := by
    funext v
    rw [applied, hfun]
    rfl
  rw [hsame]
  exact (List.mapM_pure (f := id)).trans (congrArg Except.ok (List.map_id vs))

theorem exists_of_valuesAt {i : Nat} {vs : List (Option Value)}
    (h : p.valuesAt endMany g i = .ok vs) :
    ∃ n, g.node? i = some n ∧ vs = n.counted endMany p.name := by
  obtain ⟨n, hn, -⟩ := Outcome.bind_eq_ok.mp h
  refine ⟨n, Graph.referred_eq_ok_iff.mp hn, ?_⟩
  rw [Node.counted]
  rcases hcontent : n.get? p.name with _ | content
  · rw [valuesAt_of_unset hn hcontent] at h
    exact (Except.ok.inj h).symm
  · cases content with
    | value v =>
      rw [valuesAt_of_value hn hcontent, applied, hfun] at h
      exact (Except.ok.inj h).symm
    | values vs =>
      rw [valuesAt_of_values hn hcontent, mapM_applied hfun] at h
      exact (Except.ok.inj h).symm
    | one j =>
      rw [valuesAt_of_reference hn hcontent (.inl ⟨j, rfl⟩)] at h
      cases h
    | many js =>
      rw [valuesAt_of_reference hn hcontent (.inr ⟨js, rfl⟩)] at h
      cases h

/-- A property reaches what counts at the ends of chains. -/
theorem mem_reach_iff {names : List String} {vs : List (Option Value)}
    (hnames : stepNames? p.path = some names) (h : p.reach endMany g = .ok vs)
    {x : Option Value} : x ∈ vs ↔ ∃ n, g.Ends names n ∧ x ∈ n.counted endMany p.name := by
  rw [reach, hnames] at h
  obtain ⟨ends, hends, h⟩ := Outcome.bind_eq_ok.mp h
  obtain ⟨vss, hvss, h⟩ := Outcome.bind_eq_ok.mp h
  cases h
  constructor
  · intro hx
    obtain ⟨ws, hws, hx⟩ := List.mem_flatten.mp hx
    obtain ⟨j, hj, hvalues⟩ := Outcome.exists_mem_of_mapM_result hvss hws
    obtain ⟨i, hi, hleads⟩ := (mem_follow_iff hends).mp hj
    obtain rfl := List.mem_singleton.mp hi
    obtain ⟨n, hn, rfl⟩ := exists_of_valuesAt hfun hvalues
    exact ⟨n, ⟨j, hleads, hn⟩, hx⟩
  · rintro ⟨n, ⟨j, hleads, hn⟩, hx⟩
    have hj := (mem_follow_iff hends).mpr ⟨0, List.mem_singleton_self 0, hleads⟩
    obtain ⟨ws, hws, hvalues⟩ := Outcome.exists_mem_of_mapM hvss hj
    obtain ⟨m, hm, rfl⟩ := exists_of_valuesAt hfun hvalues
    obtain rfl := Option.some.inj (hn.symm.trans hm)
    exact List.mem_flatten_of_mem hws hx

end Ends

theorem reads_of_read {catalog : Catalog} {root : TypeDef} {found : Resolved} {text : String}
    {literal : Value} (h : p.resolve catalog root = .ok found)
    (hread : found.type.read text = .ok literal) : p.reads catalog root text = true := by
  rw [reads, h]
  dsimp only
  rw [hread]
  rfl

theorem exists_stepNames? {catalog : Catalog} {root : TypeDef} {found : Resolved}
    (h : p.resolve catalog root = .ok found) : ∃ names, stepNames? p.path = some names := by
  rw [resolve, names?] at h
  cases hnames : stepNames? p.path with
  | none =>
    rw [hnames] at h
    cases h
  | some names => exact ⟨names, rfl⟩

end Property

/-! ### Comparisons -/

/-- What has a truth value is of a type that compares. -/
theorem DataType.flavor_of_satisfies {type : DataType} {op : RelationalOp} {v literal : Value}
    {holds : Bool} (h : type.satisfies op v literal = .ok holds) : type.flavor ≠ .other := by
  intro hother
  obtain ⟨w, -, h⟩ := Outcome.bind_eq_ok.mp h
  rw [if_pos hother] at h
  cases h

namespace Recognizer

variable {catalog : Catalog} {root : TypeDef} {e : Expr} {r : Recognizer} {g : Graph}
  {p : Property} {found : Resolved} {names : List String} {i j : NodeId}

theorem evaluate_of_compared {left : Expr} {type : DataType} {vs : List (Option Value)}
    (h : r.compared g left = .ok (type, vs)) (op : RelationalOp) (l : Literal) :
    r.evaluate g (.relational i op left l) =
      match l with
      | .null => compareNull op vs
      | .text s => compareText type op s vs := by
  rw [evaluate, relational, h]
  rfl

theorem compareText_of_read {type : DataType} {op : RelationalOp} {text : String} {literal : Value}
    (h : type.read text = .ok literal) (vs : List (Option Value)) :
    compareText type op text vs =
      (present vs).anyM fun v => type.satisfies op v literal := by
  rw [compareText, DataType.readEval, h]
  rfl

section Plain

variable (hg : g.WellTyped catalog root) (hfound : p.resolve catalog root = .ok found)
  (hr : r.resolve p = .ok found) (hfun : p.functions = [])
  (hnames : Property.stepNames? p.path = some names)

include hg hfound hr hfun hnames

/-- A comparison is that of the values, of the type of the property, at the ends of chains. -/
theorem exists_compared :
    ∃ vs, r.compared g (.property j p) = .ok (found.type, vs) ∧
      (∀ v ∈ present vs, found.type.Admits v) ∧
      ∀ x, x ∈ vs ↔ ∃ n, g.Ends names n ∧ x ∈ n.counted found.endMany p.name := by
  obtain ⟨vs, hvs, hadmits⟩ := exists_collect hg hfound hr hfun
  have hreach : p.reach found.endMany g = .ok vs := by
    rw [collect, hr] at hvs
    exact hvs
  refine ⟨vs, ?_, hadmits, fun x => Property.mem_reach_iff hfun hnames hreach⟩
  rw [compared, hr, hvs, ← Resolved.effectiveType_of_plain hfun]
  rfl

theorem evaluate_text_iff {op : RelationalOp} {text : String} {literal : Value}
    (hread : found.type.read text = .ok literal) :
    r.evaluate g (.relational i op (.property j p) (.text text)) = .ok true ↔
      ∃ n, g.Ends names n ∧ ∃ v ∈ n.data p.name, found.type.satisfies op v literal = .ok true := by
  obtain ⟨vs, hvs, hadmits, hmem⟩ := exists_compared (j := j) hg hfound hr hfun hnames
  have hpresent : ∀ v, v ∈ present vs ↔ ∃ n, g.Ends names n ∧ v ∈ n.data p.name := by
    intro v
    rw [mem_present, hmem]
    simp only [Node.some_mem_counted]
  rw [evaluate_of_compared hvs]
  dsimp only
  rw [compareText_of_read hread]
  constructor
  · intro h
    obtain ⟨v, hv, hsatisfies⟩ := Outcome.exists_of_anyM h
    obtain ⟨n, hends, hv⟩ := (hpresent v).mp hv
    exact ⟨n, hends, v, hv, hsatisfies⟩
  · rintro ⟨n, hends, v, hv, hsatisfies⟩
    -- a type whose values do not compare has none that satisfies anything
    have hother : found.type.flavor ≠ .other := DataType.flavor_of_satisfies hsatisfies
    refine Outcome.anyM_of_mem (fun w hw => ?_) ((hpresent v).mpr ⟨n, hends, hv⟩) hsatisfies
    exact DataType.exists_satisfies hother (DataType.fits_of_admits hother (hadmits w hw))
      (DataType.fits_of_read hread) op

theorem evaluate_text_of_unset {op : RelationalOp} {text : String} {literal : Value}
    (hread : found.type.read text = .ok literal)
    (hunset : ∀ n, g.Ends names n → n.get? p.name = none) :
    r.evaluate g (.relational i op (.property j p) (.text text)) = .ok false := by
  obtain ⟨vs, hvs, -, hmem⟩ := exists_compared (j := j) hg hfound hr hfun hnames
  have hpresent : present vs = [] := by
    refine List.eq_nil_iff_forall_not_mem.mpr fun v hv => ?_
    obtain ⟨n, hends, hv⟩ := (hmem _).mp (mem_present.mp hv)
    rw [Node.some_mem_counted, Node.data, hunset n hends] at hv
    cases hv
  rw [evaluate_of_compared hvs]
  dsimp only
  rw [compareText_of_read hread, hpresent]
  rfl

theorem evaluate_eq_null :
    ∃ holds, r.evaluate g (.relational i .eq (.property j p) .null) = .ok holds ∧
      (holds = true ↔ found.endMany = false ∧ ∃ n, g.Ends names n ∧ n.get? p.name = none) := by
  obtain ⟨vs, hvs, -, hmem⟩ := exists_compared (j := j) hg hfound hr hfun hnames
  refine ⟨vs.any Option.isNone, ?_, ?_⟩
  · rw [evaluate_of_compared hvs]
    rfl
  · simp only [List.any_eq_true, Option.isNone_iff_eq_none, exists_eq_right, hmem,
      Node.none_mem_counted]
    constructor
    · rintro ⟨n, hends, hsingle, hunset⟩
      exact ⟨hsingle, n, hends, hunset⟩
    · rintro ⟨hsingle, n, hends, hunset⟩
      exact ⟨n, hends, hsingle, hunset⟩

theorem evaluate_ne_null :
    ∃ holds, r.evaluate g (.relational i .ne (.property j p) .null) = .ok holds ∧
      (holds = true ↔ ∃ n, g.Ends names n ∧ ∃ v, v ∈ n.data p.name) := by
  obtain ⟨vs, hvs, -, hmem⟩ := exists_compared (j := j) hg hfound hr hfun hnames
  refine ⟨vs.any Option.isSome, ?_, ?_⟩
  · rw [evaluate_of_compared hvs]
    rfl
  · simp only [List.any_eq_true, Option.isSome_iff_exists, hmem]
    constructor
    · rintro ⟨_, ⟨n, hends, hcounted⟩, v, rfl⟩
      exact ⟨n, hends, v, Node.some_mem_counted.mp hcounted⟩
    · rintro ⟨n, hends, v, hv⟩
      exact ⟨some v, ⟨n, hends, Node.some_mem_counted.mpr hv⟩, v, rfl⟩

/-- What no chain reaches satisfies no comparison, whatever the literal. -/
theorem evaluate_of_unreached (hunreached : ∀ n, ¬ g.Ends names n) (op : RelationalOp)
    (l : Literal) : r.evaluate g (.relational i op (.property j p) l) ≠ .ok true := by
  obtain ⟨vs, hvs, -, hmem⟩ := exists_compared (j := j) hg hfound hr hfun hnames
  have hnil : vs = [] := by
    refine List.eq_nil_iff_forall_not_mem.mpr fun x hx => ?_
    obtain ⟨n, hends, -⟩ := (hmem x).mp hx
    exact hunreached n hends
  rw [evaluate_of_compared hvs, hnil]
  intro h
  cases l with
  | null => cases op <;> cases h
  | text s =>
    obtain ⟨literal, -, h⟩ := Outcome.bind_eq_ok.mp h
    cases h

end Plain

/--
Comparisons of a property of a predicate, without functions, on a well-typed graph. With a text
that is a literal of its type, one is true exactly if a chain of nodes from the root along the names
of its path ends in a node that holds a value which satisfies it; it has a truth value, unless
values of the type do not compare; and it is false if the property is not set at any end. Equality
with the null literal is true exactly if the property holds a single value and a chain ends in a
node where it is not set, and inequality exactly if a chain ends in a node that holds a value.
Nothing is true of an end that no chain reaches.
-/
theorem evaluate_existential (hcreate : create catalog root e = .ok r) (hp : p ∈ e.properties)
    (hfun : p.functions = []) (hg : g.WellTyped catalog root) (delimiter : String) :
    ∃ names found, Property.stepNames? p.path = some names ∧
      p.resolve catalog root = .ok found ∧ ∀ i j,
        let truth op l :=
          (r.withDelimiter delimiter).evaluate g (.relational i op (.property j p) l)
        (∀ op text literal, found.type.read text = .ok literal →
          (truth op (.text text) = .ok true ↔ ∃ n, g.Ends names n ∧
            ∃ v ∈ n.data p.name, found.type.satisfies op v literal = .ok true) ∧
          (found.type.flavor ≠ .other → ∃ holds, truth op (.text text) = .ok holds) ∧
          ((∀ n, g.Ends names n → n.get? p.name = none) → truth op (.text text) = .ok false)) ∧
        (∃ holds, truth .eq .null = .ok holds ∧ (holds = true ↔
          found.endMany = false ∧ ∃ n, g.Ends names n ∧ n.get? p.name = none)) ∧
        (∃ holds, truth .ne .null = .ok holds ∧ (holds = true ↔
          ∃ n, g.Ends names n ∧ ∃ v, v ∈ n.data p.name)) ∧
        ((∀ n, ¬ g.Ends names n) → ∀ op l, truth op l ≠ .ok true) := by
  obtain ⟨found, hfound⟩ := exists_resolve_of_mem hcreate hp
  have hresolve := resolve_of_create hcreate hfound
  obtain ⟨names, hnames⟩ := Property.exists_stepNames? hresolve
  have hr := (resolve_withDelimiter delimiter p).trans hfound
  refine ⟨names, found, hnames, hresolve, fun i j => ⟨fun op text literal hread => ?_,
    evaluate_eq_null hg hresolve hr hfun hnames, evaluate_ne_null hg hresolve hr hfun hnames,
    fun hunreached => evaluate_of_unreached hg hresolve hr hfun hnames hunreached⟩⟩
  refine ⟨evaluate_text_iff hg hresolve hr hfun hnames hread, fun hother => ?_,
    evaluate_text_of_unset hg hresolve hr hfun hnames hread⟩
  exact exists_relational hg hresolve hr hfun hother (i := i) (j := j)
    (Property.reads_of_read hresolve hread)

/-- The age of friends of friends. -/
def ageOfFriends : Property := ⟨[.named "friends", .named "friends"], "age", []⟩

/-- Ann is a friend of a friend of herself and of age 30, and her other friend of a friend, who is
her friend as well, has no age. -/
theorem evaluate_ageOfFriends :
    ageOfFriends ∈ friendly.properties ∧ annAndBob.WellTyped ⟨[person]⟩ person ∧
      DataType.int.read "18" = .ok (.int 18) ∧
      ∃ r, create ⟨[person]⟩ person friendly = .ok r ∧
        (r.withDelimiter ",").evaluate annAndBob
            (.relational 2 .ge (.property 3 ageOfFriends) (.text "18")) = .ok true ∧
        (r.withDelimiter ",").evaluate annAndBob
            (.relational 2 .eq (.property 3 ageOfFriends) .null) = .ok true := by
  have hmem : ageOfFriends ∈ friendly.properties := by decide +kernel
  have htyped : annAndBob.WellTyped ⟨[person]⟩ person := ⟨by decide +kernel, by decide +kernel⟩
  refine ⟨hmem, htyped, rfl, _, rfl, ?_⟩
  obtain ⟨names, found, hnames, hfound, h⟩ :=
    evaluate_existential (e := friendly) rfl hmem rfl htyped ","
  cases hnames
  cases hfound
  obtain ⟨htext, ⟨holds, hnull, hunset⟩, -⟩ := h 2 3
  constructor
  · refine (htext .ge "18" (.int 18) rfl).1.mpr ⟨annAndBob.root, ⟨0, ?_, rfl⟩, ?_⟩
    · have hback : annAndBob.Leads 1 ["friends"] 0 := .step rfl List.mem_cons_self .here
      exact .step rfl List.mem_cons_self hback
    · exact ⟨.int 30, List.mem_singleton_self _, rfl⟩
  · refine hnull.trans (congrArg _ (hunset.mpr ⟨rfl, _, ⟨1, ?_, rfl⟩, rfl⟩))
    have hself : annAndBob.Leads 1 ["friends"] 1 :=
      .step rfl (List.mem_cons_of_mem _ List.mem_cons_self) .here
    exact .step rfl List.mem_cons_self hself

end Recognizer

end GraphTable
