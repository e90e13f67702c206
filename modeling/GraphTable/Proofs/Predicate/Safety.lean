import GraphTable.Proofs.Predicate.Disjuncts
import GraphTable.Proofs.Predicate.Typing
import GraphTable.Proofs.Value.Order

/-!
# Valid predicates do not fail

The evaluation of a predicate can fail in many ways: a path leads through data or to no node at
all, the values at its end are not of the type that they are compared as, the type does not
compare, or the literal is none of the type. Validation looks neither at values nor at literals.
Still, a predicate that it accepts is evaluated without failure on every well-typed graph, if its
literals can be read (`exists_evaluate_of_validate`).

For every node that is evaluated was checked (`Ready`). So a comparison, a pattern test or a
membership test finds values of the type that its property resolves to, and that type has the test
(`exists_relational`, `exists_like`, `exists_membership`).

Arithmetic and scalar functions are left out. They fail on single values, when a result has no room
or a divisor is zero, whatever the types are.
-/

namespace GraphTable

namespace DataType

/-- Values of a type that compares can be compared with its literals. -/
theorem exists_satisfies {type : DataType} {v literal : Value} (hother : type.flavor ≠ .other)
    (hv : type.fits v = true) (hliteral : type.fits literal = true) (op : RelationalOp) :
    ∃ b, type.satisfies op v literal = .ok b := by
  by_cases hreal : type.flavor = .real
  · rcases hcmp : Value.compareAs? type.flavor v literal with _ | o
    · -- no comparison holds with what is not a number
      refine ⟨false, ?_⟩
      rw [satisfies, coerceEval, coerce_of_fits hv]
      simp only [Outcome.mapError_ok, bind, Except.bind, if_neg hother, hcmp, if_pos hreal]
      rfl
    · exact ⟨op.holds o, satisfies_of_compareAs? hv hother hcmp⟩
  · obtain ⟨o, hcmp⟩ := exists_compareAs? hreal hother hv hliteral
    exact ⟨op.holds o, satisfies_of_compareAs? hv hother hcmp⟩

theorem fits_of_admits {type : DataType} {v : Value} (hother : type.flavor ≠ .other)
    (h : type.Admits v) : type.fits v = true := by
  refine h.resolve_left ?_
  rintro rfl
  exact hother rfl

end DataType

/-- Whether a text is a literal of the type that a property resolves to. -/
def Property.reads (catalog : Catalog) (root : TypeDef) (p : Property) (text : String) : Bool :=
  match p.resolve catalog root with
  | .ok found => (found.type.read text).isOk
  | .error _ => false

namespace Expr

/-- Whether a node is free of arithmetic and applies no function to a property. -/
def isPlain : Expr → Bool
  | .arithmetic _ _ _ _ => false
  | e => e.ownProperties.all fun p => p.functions.isEmpty

theorem functions_of_isPlain {x : Expr} {p : Property} (h : x.isPlain = true)
    (hp : p ∈ x.ownProperties) : p.functions = [] := by
  unfold isPlain at h
  split at h
  · cases h
  · exact List.isEmpty_iff.mp (List.all_eq_true.mp h p hp)

end Expr

namespace Recognizer

/--
Whether the literal of a node, if it has one, suits the node. Nothing but a test for absence or
presence takes the null literal. A text that a property is compared with is a literal of its type,
and so are all members of a list that a property is looked up in.
-/
def suits (catalog : Catalog) (root : TypeDef) (r : Recognizer) : Expr → Bool
  | .relational _ op _ .null => op == .eq || op == .ne
  | .relational _ _ (.property _ p) (.text s) => p.reads catalog root s
  | .test _ _ _ .null _ => false
  | .test _ .isIn p (.text s) d | .test _ .notIn p (.text s) d =>
    (pieces (r.delimiterOf d) s).all (p.reads catalog root)
  | _ => true

variable {catalog : Catalog} {root : TypeDef} {r : Recognizer} {g : Graph} {p : Property}
  {found : Resolved}

/-! ### Literals -/

theorem exists_read (hfound : p.resolve catalog root = .ok found) {text : String}
    (h : p.reads catalog root text = true) :
    ∃ v, found.type.readEval text = .ok v ∧ found.type.fits v = true := by
  simp only [Property.reads, hfound] at h
  rcases hread : found.type.read text with fault | v
  · rw [hread] at h
    cases h
  · refine ⟨v, ?_, DataType.fits_of_read hread⟩
    rw [DataType.readEval, hread]
    rfl

/-- The members of a list are values of the type of the property, or any texts if that is text. -/
theorem exists_members (hfound : p.resolve catalog root = .ok found) {texts : List String}
    (h : texts.all (p.reads catalog root) = true) :
    ∃ ms, members found.type texts = .ok ms ∧
      (found.type.flavor ≠ .string → ∀ m ∈ ms, found.type.fits m = true) := by
  rw [members]
  by_cases hstring : found.type.flavor = .string
  · rw [if_pos hstring]
    exact ⟨_, rfl, fun hne => absurd hstring hne⟩
  · rw [if_neg hstring]
    obtain ⟨ms, hms, hfits⟩ := Outcome.exists_mapM (P := fun m => found.type.fits m = true)
      fun text htext => exists_read hfound (List.all_eq_true.mp h text htext)
    exact ⟨ms, hms, fun _ => hfits⟩

/-! ### Single conditions -/

section

variable (hg : g.WellTyped catalog root) (hfound : p.resolve catalog root = .ok found)
  (hr : r.resolve p = .ok found) (hfun : p.functions = [])

include hg hfound hr hfun

theorem exists_collect :
    ∃ vs, r.collect g p = .ok vs ∧ ∀ v ∈ present vs, found.type.Admits v := by
  obtain ⟨vs, hvs, hadmits⟩ := Property.reach_of_wellTyped hg hfound hfun found.endMany
  refine ⟨vs, Outcome.bind_eq_ok.mpr ⟨found, hr, hvs⟩, fun v hv => hadmits v ?_⟩
  simpa [present] using hv

/-- A comparison of a property has a truth value, if its type compares. -/
theorem exists_relational (hother : found.type.flavor ≠ .other) {i j : NodeId}
    {op : RelationalOp} {l : Literal}
    (hsuits : r.suits catalog root (.relational i op (.property j p) l) = true) :
    ∃ b, r.relational g op (.property j p) l = .ok b := by
  obtain ⟨vs, hvs, hadmits⟩ := exists_collect hg hfound hr hfun
  have hcompared : r.compared g (.property j p) = .ok (found.type, vs) := by
    rw [compared, hr, hvs, ← Resolved.effectiveType_of_plain hfun]
    rfl
  rw [relational, hcompared]
  cases l with
  | null =>
    have hop : op = .eq ∨ op = .ne := by simpa [suits] using hsuits
    rcases hop with rfl | rfl
    · exact ⟨_, rfl⟩
    · exact ⟨_, rfl⟩
  | text s =>
    obtain ⟨literal, hliteral, hfits⟩ := exists_read hfound hsuits
    obtain ⟨b, hb⟩ := Outcome.exists_anyM (f := fun v => found.type.satisfies op v literal)
      fun v hv => DataType.exists_satisfies hother
        (DataType.fits_of_admits hother (hadmits v hv)) hfits op
    refine ⟨b, ?_⟩
    change compareText found.type op s vs = .ok b
    exact Outcome.bind_eq_ok.mpr ⟨literal, hliteral, hb⟩

/-- A pattern test of a property has a truth value, if its type is text. -/
theorem exists_like (hstring : found.type.flavor = .string) (pattern : String) :
    ∃ b, r.like g p (.text pattern) = .ok b := by
  obtain ⟨vs, hvs, -⟩ := exists_collect hg hfound hr hfun
  have htexts : r.likeTexts g p (.text pattern) =
      .ok (pattern, (present vs).map fun v => Text.trim v.text) := by
    rw [likeTexts, hr, hvs]
    simp only [bind, Except.bind, Resolved.effectiveType_of_plain hfun, hstring]
    rfl
  exact ⟨_, Outcome.bind_eq_ok.mpr ⟨_, htexts, rfl⟩⟩

/-- A membership test of a property has a truth value, if its type has members to be told apart. -/
theorem exists_membership (htemporal : found.type.flavor ≠ .temporal)
    (hother : found.type.flavor ≠ .other) {text : String} {delimiter : Option String}
    (h : (pieces (r.delimiterOf delimiter) text).all (p.reads catalog root) = true)
    (isIn : Bool) : ∃ b, r.membership g isIn p (.text text) delimiter = .ok b := by
  obtain ⟨vs, hvs, hadmits⟩ := exists_collect hg hfound hr hfun
  obtain ⟨ms, hms, hfits⟩ := exists_members hfound h
  have htests : ∀ v ∈ present vs,
      ∃ b, (do return (← isMember found.type ms v) == isIn : Except EvalFault Bool) = .ok b := by
    intro v hv
    obtain ⟨b, hb⟩ : ∃ b, isMember found.type ms v = .ok b := by
      rw [isMember]
      by_cases hstring : found.type.flavor = .string
      · exact ⟨_, if_pos hstring⟩
      · rw [if_neg hstring]
        have hvfits := DataType.fits_of_admits hother (hadmits v hv)
        exact Outcome.exists_anyM fun m hm => DataType.exists_satisfies hother hvfits
          (hfits hstring m hm) .eq
    exact ⟨b == isIn, Outcome.bind_eq_ok.mpr ⟨b, hb, rfl⟩⟩
  obtain ⟨b, hb⟩ := Outcome.exists_anyM htests
  refine ⟨b, ?_⟩
  rw [membership, hr]
  simp only [bind, Except.bind, Resolved.effectiveType_of_plain hfun,
    if_neg (not_or.mpr ⟨htemporal, hother⟩), hms, hvs]
  exact hb

end

/-! ### Whole predicates -/

/-- What is known of a node of a valid predicate whose literals can be read. -/
structure Ready (catalog : Catalog) (root : TypeDef) (r : Recognizer) (x : Expr) : Prop where
  checked : x.checkNode catalog root = .ok ()
  plain : x.isPlain = true
  suits : r.suits catalog root x = true
  resolved : ∀ p ∈ x.ownProperties,
    ∃ found, p.resolve catalog root = .ok found ∧ r.resolve p = .ok found

/-- A condition whose nodes are ready has a truth value. -/
theorem exists_evaluate_of_ready (hg : g.WellTyped catalog root) {e : Expr}
    (hready : ∀ x ∈ e.nodes, Ready catalog root r x) (hcondition : e.isCondition = true) :
    ∃ b, r.evaluate g e = .ok b := by
  -- the parts of a conjunction or disjunction were checked to be conditions
  induction e with
  | logical i op left right ihl ihr =>
    obtain ⟨_, hleft, hright⟩ := Outcome.bind_eq_ok.mp (hready _ (Expr.mem_nodes_self _)).checked
    have hl := ihl (fun x hx => hready x (by simp [Expr.nodes, hx]))
      (Expr.isCondition_of_check hleft)
    have hr := ihr (fun x hx => hready x (by simp [Expr.nodes, hx]))
      (Expr.isCondition_of_check hright)
    cases op with
    | and => exact evaluate_and_ok hl hr
    | or => exact evaluate_or_ok hl hr
  | relational i op left l _ =>
    have hself := hready _ (Expr.mem_nodes_self _)
    have hleft := hready left (by simp [Expr.nodes, Expr.mem_nodes_self])
    cases left with
    | property j p =>
      obtain ⟨found, hfound, hr⟩ := hleft.resolved p (List.mem_singleton_self p)
      have hfun := Expr.functions_of_isPlain hleft.plain (List.mem_singleton_self p)
      have hother := Expr.flavor_of_checkNode hself.checked hfun hfound
      exact exists_relational hg hfound hr hfun hother hself.suits
    | arithmetic j op a b => cases hleft.plain
    | _ => cases hself.checked
  | test i op p l d =>
    have hself := hready _ (Expr.mem_nodes_self _)
    obtain ⟨found, hfound, hr⟩ := hself.resolved p (List.mem_singleton_self p)
    have hfun := Expr.functions_of_isPlain hself.plain (List.mem_singleton_self p)
    have hflavor := Expr.flavor_of_checkNode_test hself.checked hfun hfound
    cases l with
    | null => cases op <;> cases hself.suits
    | text s =>
      cases op with
      | like => exact exists_like hg hfound hr hfun hflavor s
      | isIn => exact exists_membership hg hfound hr hfun hflavor.1 hflavor.2 hself.suits true
      | notIn => exact exists_membership hg hfound hr hfun hflavor.1 hflavor.2 hself.suits false
  | arithmetic i op left right _ _ => cases hcondition
  | property i p => cases hcondition
  | literal i l => cases hcondition

theorem resolve_withDelimiter (delimiter : String) (p : Property) :
    (r.withDelimiter delimiter).resolve p = r.resolve p := by
  rw [withDelimiter]
  split <;> rfl

theorem collect_withDelimiter (delimiter : String) (g : Graph) (p : Property) :
    (r.withDelimiter delimiter).collect g p = r.collect g p := by
  rw [collect, collect, resolve_withDelimiter]

/-- A recognizer knows what the properties of its predicate resolve to. -/
theorem exists_resolved {e : Expr} (hcreate : create catalog root e = .ok r)
    (hp : p ∈ e.properties) (delimiter : String) :
    ∃ found, p.resolve catalog root = .ok found ∧
      (r.withDelimiter delimiter).resolve p = .ok found := by
  obtain ⟨found, hfound⟩ := exists_resolve_of_mem hcreate hp
  exact ⟨found, resolve_of_create hcreate hfound, (resolve_withDelimiter delimiter p).trans hfound⟩

/--
A valid predicate without arithmetic and scalar functions has a recognizer. With every delimiter
for which its literals suit it, that gives it a truth value on every well-typed graph.
-/
theorem exists_evaluate_of_validate {catalog : Catalog} {root : TypeDef} {e : Expr}
    (hlabels : e.Labelled) (hvalid : e.validate catalog root = .ok ())
    (hplain : ∀ x ∈ e.nodes, x.isPlain = true) :
    ∃ r, create catalog root e = .ok r ∧ ∀ delimiter,
      (∀ x ∈ e.nodes, (r.withDelimiter delimiter).suits catalog root x = true) →
        ∀ g, Graph.WellTyped catalog root g →
          ∃ b, (r.withDelimiter delimiter).evaluate g e = .ok b := by
  obtain ⟨r, hr⟩ := exists_create_of_validate hlabels hvalid
  refine ⟨r, hr, fun delimiter hsuits g hg => ?_⟩
  have hready : ∀ x ∈ e.nodes, Ready catalog root (r.withDelimiter delimiter) x := by
    intro x hx
    refine ⟨Expr.checkNode_of_validate hlabels hvalid x hx, hplain x hx, hsuits x hx, ?_⟩
    intro p hp
    have hmem : p ∈ e.properties := (Expr.mem_properties_iff hlabels).mpr ⟨x, hx, hp⟩
    obtain ⟨found, hfound⟩ := exists_resolve_of_mem hr hmem
    exact ⟨found, resolve_of_create hr hfound, (resolve_withDelimiter delimiter p).trans hfound⟩
  exact exists_evaluate_of_ready hg hready (Expr.isCondition_of_validate hvalid)

/-- People with a name, an age and friends. -/
def person : TypeDef :=
  ⟨"http://ex", "Person", [⟨"name", .data .string, false⟩, ⟨"age", .data .int, false⟩,
    ⟨"friends", .reference "Person", true⟩]⟩

/--
Some friend of a friend is at least 18 and the name of some friend begins with A, or the age is
neither 30 nor 31.
-/
def friendly : Expr :=
  .logical 0 .or
    (.logical 1 .and
      (.relational 2 .ge (.property 3 ⟨[.named "friends", .named "friends"], "age", []⟩)
        (.text "18"))
      (.test 4 .like ⟨[.named "friends"], "name", []⟩ (.text "A*") none))
    (.test 5 .notIn ⟨[], "age", []⟩ (.text "30, 31") none)

/-- Ann and Bob, who are friends of each other. Bob is a friend of himself and has no age. -/
def annAndBob : Graph :=
  ⟨[1], ⟨"Person", [("name", .value (.string "Ann")), ("age", .value (.int 30)),
      ("friends", .many [1])]⟩,
    [⟨"Person", [("name", .value (.string "Bob")), ("friends", .many [0, 1])]⟩]⟩

theorem exists_evaluate_friendly :
    friendly.Labelled ∧ friendly.validate ⟨[person]⟩ person = .ok () ∧
      (∀ x ∈ friendly.nodes, x.isPlain = true) ∧ annAndBob.WellTyped ⟨[person]⟩ person ∧
      ∃ r, create ⟨[person]⟩ person friendly = .ok r ∧
        (∀ x ∈ friendly.nodes, (r.withDelimiter ",").suits ⟨[person]⟩ person x = true) ∧
        ∃ b, (r.withDelimiter ",").evaluate annAndBob friendly = .ok b := by
  have hlabels : friendly.Labelled := by decide +kernel
  have hvalid : friendly.validate ⟨[person]⟩ person = .ok () := rfl
  have hplain : ∀ x ∈ friendly.nodes, x.isPlain = true := by decide +kernel
  have htyped : annAndBob.WellTyped ⟨[person]⟩ person := ⟨by decide +kernel, by decide +kernel⟩
  obtain ⟨r, hr, h⟩ := exists_evaluate_of_validate hlabels hvalid hplain
  have hsuits : ∀ x ∈ friendly.nodes, (r.withDelimiter ",").suits ⟨[person]⟩ person x = true := by
    cases hr
    decide +kernel
  exact ⟨hlabels, hvalid, hplain, htyped, r, hr, hsuits, h "," hsuits annAndBob htyped⟩

end Recognizer

end GraphTable
