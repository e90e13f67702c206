import GraphTable.Proofs.Predicate.Scalars

/-!
# Comparisons of arithmetic with literals

Where arithmetic of a valid predicate fails on a well-typed graph, it is for the values and not for
their types (`Recognizer.isArithmetic_of_number`):

* a sum, a difference, a product or a quotient has no room,
* a divisor is zero,
* a function refuses its argument,
* or a literal in it is not a number.

Otherwise it comes to a number or is absent, and the comparison with a literal that is a number goes
by what it comes to (`evaluate_arithmetic`). A real is compared with the literal as a real. A whole
number, and also what is absent, is compared with it **as a whole number**, so that a literal that
has decimal places is refused there: a third of 40 can be compared with 13.3, a third of 39 cannot.
-/

namespace GraphTable

/-- The faults of arithmetic that no types are to blame for. -/
inductive EvalFault.IsArithmetic : EvalFault → Prop
  | overflow (op : ArithmeticOp) : IsArithmetic (.overflow op)
  | divisionByZero : IsArithmetic .divisionByZero
  | literal (text : String) : IsArithmetic (.arithmeticLiteral text)
  | refused {f : ScalarFunction} {v : Value} {fault : EvalFault} (h : f.Refuses v fault) :
      IsArithmetic fault

/-! ### Numbers -/

namespace Number

/-- Values of types that arithmetic is for are numbers. -/
theorem exists_ofValue {type : DataType} {v : Value} (hv : type.fits v = true)
    (hflavor : type.flavor = .integral ∨ type.flavor = .real) : ∃ n, ofValue v = .ok n := by
  cases v with
  | bool b => exact ⟨_, rfl⟩
  | int i => exact ⟨_, rfl⟩
  | float x => exact ⟨_, rfl⟩
  | _ => rcases hflavor with hflavor | hflavor <;> cases type <;> cases hflavor <;> cases hv

variable {fault : EvalFault} {op : ArithmeticOp}

theorem isArithmetic_of_checked {z : Int} (h : checked op z = .error fault) :
    fault.IsArithmetic := by
  unfold checked at h
  split at h
  · cases h
  · cases h
    exact .overflow op

theorem isArithmetic_of_combineWhole {a b : Int} (h : combineWhole op a b = .error fault) :
    fault.IsArithmetic := by
  cases op with
  | add => exact isArithmetic_of_checked h
  | sub => exact isArithmetic_of_checked h
  | mul => exact isArithmetic_of_checked h
  | div =>
    simp only [combineWhole] at h
    split at h
    · cases h
      exact .divisionByZero
    · split at h
      · exact isArithmetic_of_checked h
      · cases h
  | mod =>
    simp only [combineWhole] at h
    split at h
    · cases h
      exact .divisionByZero
    · rcases hquotient : checked .mod (Int.tdiv a b) with fault' | n
      · rw [hquotient] at h
        cases h
        exact isArithmetic_of_checked hquotient
      · rw [hquotient] at h
        exact isArithmetic_of_checked h

theorem isArithmetic_of_combine {a b : Number} (h : combine op a b = .error fault) :
    fault.IsArithmetic := by
  cases a with
  | whole i =>
    cases b with
    | whole j => exact isArithmetic_of_combineWhole h
    | real y => cases h
  | real x => cases h

theorem isArithmetic_of_read {s : String} (h : read s = .error fault) : fault.IsArithmetic := by
  unfold read at h
  dsimp only at h
  split at h
  · cases h
  · split at h
    · cases h
    · cases h
      exact .literal _

/-! ### Literals that are numbers -/

variable {s : String}

/-- What is read as a number is read as a real. -/
theorem exists_read_double {m : Number} (h : read s = .ok m) :
    ∃ y, DataType.double.read s = .ok (.float y) := by
  obtain ⟨y, hy⟩ : ∃ y, Binary64.read? (Text.trimChars s.toList) = some y := by
    unfold read at h
    dsimp only at h
    split at h
    · rename_i i hword
      obtain ⟨z, hz, -⟩ := Option.bind_eq_some_iff.mp hword
      exact Binary64.exists_read?_of_integer? hz
    · split at h
      · rename_i y hy
        exact ⟨y, hy⟩
      · cases h
  refine ⟨y, ?_⟩
  rw [DataType.read, hy]
  rfl

theorem read_long_of_whole {z : Int64} (h : read s = .ok (.whole z)) :
    DataType.long.read s = .ok (.int z) := by
  unfold read at h
  dsimp only at h
  split at h
  · rename_i i hword
    cases h
    have hbounds : ¬ (z < Int64.minValue ∨ Int64.maxValue < z) :=
      not_or.mpr ⟨Int64.not_lt.mpr (Int64.minValue_le z), Int64.not_lt.mpr (Int64.le_maxValue z)⟩
    rw [DataType.read, DataType.readInt, hword]
    exact if_neg hbounds
  · split at h <;> cases h

/-- What is read as a real in arithmetic is no whole number. -/
theorem read_long_of_real {y : Binary64} (h : read s = .ok (.real y)) :
    DataType.long.read s = .error (.invalid s .long) := by
  unfold read at h
  dsimp only at h
  split at h
  · cases h
  · rename_i hword
    rw [DataType.read, DataType.readInt, hword]

end Number

namespace Recognizer

variable {catalog : Catalog} {root : TypeDef} {e : Expr} {r : Recognizer} {g : Graph}
  {fault : EvalFault}

/-! ### Operands -/

/-- A checked property has values of the type that it is compared as, or a function refuses one. -/
theorem collect_of_operand {p : Property} {found : Resolved}
    (hcheck : p.check catalog root = .ok found) (hr : r.resolve p = .ok found)
    (hother : (found.effectiveType p).flavor ≠ .other) (hg : g.WellTyped catalog root) :
    (∃ vs, r.collect g p = .ok vs ∧ ∀ v ∈ present vs, (found.effectiveType p).fits v = true) ∨
      ∃ fault, r.collect g p = .error fault ∧ fault.IsArithmetic := by
  rcases hfun : p.functions with _ | ⟨f, fs⟩
  · obtain ⟨vs, hvs, hadmits⟩ := exists_collect hg (Property.resolve_of_check hcheck) hr hfun
    rw [Resolved.effectiveType_of_plain hfun] at hother ⊢
    exact .inl ⟨vs, hvs, fun v hv => DataType.fits_of_admits hother (hadmits v hv)⟩
  · obtain ⟨ws, -, -, ⟨w, -, fault, hrefuses, hfault⟩ | ⟨-, vs, hvs, -, hfits⟩⟩ :=
      collect_cases hcheck hr hfun hg
    · exact .inr ⟨fault, hfault, .refused hrefuses⟩
    · exact .inl ⟨vs, hvs, hfits⟩

/-- A property that is an operand is of a flavor that arithmetic is for. -/
theorem exists_check_of_operand {i : NodeId} {p : Property}
    (h : (Expr.property i p).checkOperand catalog root = .ok ()) :
    ∃ found, p.check catalog root = .ok found ∧
      ((found.effectiveType p).flavor = .integral ∨ (found.effectiveType p).flavor = .real) := by
  obtain ⟨found, hcheck, h⟩ := Outcome.bind_eq_ok.mp h
  refine ⟨found, hcheck, ?_⟩
  dsimp only at h
  split at h
  · assumption
  · cases h

theorem exists_firstNumber {type : DataType} {vs : List (Option Value)}
    (hvs : ∀ v ∈ present vs, type.fits v = true)
    (hflavor : type.flavor = .integral ∨ type.flavor = .real) : ∃ n, firstNumber vs = .ok n := by
  unfold firstNumber
  split
  · exact ⟨none, rfl⟩
  · rename_i v rest hpresent
    obtain ⟨n, hn⟩ := Number.exists_ofValue (hvs v (by simp [hpresent])) hflavor
    exact ⟨some n, by rw [hn]; rfl⟩

theorem isArithmetic_of_property {i : NodeId} {p : Property}
    (hoperand : (Expr.property i p).checkOperand catalog root = .ok ())
    (hresolved : ∃ found, p.resolve catalog root = .ok found ∧ r.resolve p = .ok found)
    (hg : g.WellTyped catalog root) (h : r.number g (.property i p) = .error fault) :
    fault.IsArithmetic := by
  obtain ⟨found, hcheck, hflavor⟩ := exists_check_of_operand hoperand
  obtain ⟨found', hfound, hr⟩ := hresolved
  rw [Property.resolve_of_check hcheck] at hfound
  cases hfound
  have hother : (found.effectiveType p).flavor ≠ .other := by
    intro heq
    rw [heq] at hflavor
    rcases hflavor with heq | heq <;> cases heq
  rw [number] at h
  obtain ⟨vs, hvs, hfits⟩ | ⟨fault', hfault, harithmetic⟩ := collect_of_operand hcheck hr hother hg
  · obtain ⟨n, hn⟩ := exists_firstNumber hfits hflavor
    rw [hvs] at h
    exact absurd (hn.symm.trans h) nofun
  · rw [hfault] at h
    cases h
    exact harithmetic

theorem isArithmetic_of_combine? {op : ArithmeticOp} {x y : Option Number}
    (h : combine? op x y = .error fault) : fault.IsArithmetic := by
  unfold combine? at h
  split at h
  · obtain h | ⟨n, -, h⟩ := Outcome.bind_eq_error.mp h
    · exact Number.isArithmetic_of_combine h
    · cases h
  · cases h

/-- Arithmetic whose operands were checked fails for their values only. -/
theorem isArithmetic_of_number {x : Expr} (hoperand : x.checkOperand catalog root = .ok ())
    (hchecked : ∀ y ∈ x.nodes, y.checkNode catalog root = .ok ())
    (hresolved : ∀ y ∈ x.nodes, ∀ p ∈ y.ownProperties,
      ∃ found, p.resolve catalog root = .ok found ∧ r.resolve p = .ok found)
    (hg : g.WellTyped catalog root) (h : r.number g x = .error fault) : fault.IsArithmetic := by
  -- checking a node of arithmetic is checking its two operands
  induction x generalizing fault with
  | property i p =>
    have hown := hresolved _ (Expr.mem_nodes_self _) p (List.mem_singleton_self p)
    exact isArithmetic_of_property hoperand hown hg h
  | literal i l =>
    cases l with
    | null => cases h
    | text s =>
      rw [number] at h
      obtain h | ⟨n, -, h⟩ := Outcome.bind_eq_error.mp h
      · exact Number.isArithmetic_of_read h
      · cases h
  | arithmetic i op a b iha ihb =>
    obtain ⟨_, ha, hb⟩ := Outcome.bind_eq_ok.mp (hchecked _ (Expr.mem_nodes_self _))
    rw [number] at h
    obtain h | ⟨x, -, h⟩ := Outcome.bind_eq_error.mp h
    · exact iha ha (fun y hy => hchecked y (by simp [Expr.nodes, hy]))
        (fun y hy => hresolved y (by simp [Expr.nodes, hy])) h
    · obtain h | ⟨y, -, h⟩ := Outcome.bind_eq_error.mp h
      · exact ihb hb (fun y hy => hchecked y (by simp [Expr.nodes, hy]))
          (fun y hy => hresolved y (by simp [Expr.nodes, hy])) h
      · exact isArithmetic_of_combine? h
  | logical i op a b iha ihb => cases hoperand
  | relational i op left l ih => cases hoperand
  | test i op p l d => cases hoperand

/-! ### Comparisons -/

/--
How a number that may be absent compares with a literal, of which is given its text, what it is as
a real, and what it is in arithmetic.
-/
def compareNumber (op : RelationalOp) (s : String) (y : Binary64) (literal : Number) :
    Option Number → Except EvalFault Bool
  | some (.real x) => .ok ((x.compare? y).any op.holds)
  | some (.whole k) =>
    match literal with
    | .whole z => .ok (op.holds (compare k.toInt z.toInt))
    | .real _ => .error (.read (.invalid s .long))
  | none =>
    match literal with
    | .whole _ => .ok false
    | .real _ => .error (.read (.invalid s .long))

variable {op : RelationalOp} {s : String} {m : Number}

theorem compareText_of_read_error {type : DataType} {reason : ReadError}
    (h : type.read s = .error reason) (vs : List (Option Value)) :
    compareText type op s vs = .error (.read reason) := by
  rw [compareText, DataType.readEval, h]
  rfl

theorem compareText_absent {type : DataType} {literal : Value} (h : type.read s = .ok literal) :
    compareText type op s [none] = .ok false := by
  rw [compareText, DataType.readEval, h]
  rfl

theorem compareText_single {type : DataType} {v literal : Value} (h : type.read s = .ok literal) :
    compareText type op s [some v] = type.satisfies op v literal := by
  rw [compareText, DataType.readEval, h]
  change [v].anyM (fun v => type.satisfies op v literal) = _
  rw [List.anyM_cons]
  rcases type.satisfies op v literal with fault | b
  · rfl
  · cases b <;> rfl

/-- No comparison with what is not a number holds. -/
theorem satisfies_real (op : RelationalOp) (x y : Binary64) :
    DataType.double.satisfies op (.float x) (.float y) = .ok ((x.compare? y).any op.holds) := by
  have hother : DataType.double.flavor ≠ .other := by decide
  have hsame : Value.compareAs? DataType.double.flavor (.float x) (.float y) = x.compare? y := rfl
  rcases hcompare : x.compare? y with _ | o
  · rw [DataType.satisfies, DataType.coerceEval, DataType.coerce_of_fits rfl]
    simp only [Outcome.mapError_ok, bind, Except.bind, if_neg hother, hsame, hcompare]
    rfl
  · exact DataType.satisfies_of_compareAs? rfl hother (hsame.trans hcompare)

theorem satisfies_whole (op : RelationalOp) (k z : Int64) :
    DataType.long.satisfies op (.int k) (.int z) = .ok (op.holds (compare k.toInt z.toInt)) :=
  DataType.satisfies_of_compareAs? rfl (by decide) rfl

/-- The number that arithmetic comes to is compared with a literal that is a number. -/
theorem relational_of_number {i : NodeId} {aop : ArithmeticOp} {a b : Expr} {n : Option Number}
    {y : Binary64} (hs : Number.read s = .ok m) (hy : DataType.double.read s = .ok (.float y))
    (hn : r.number g (.arithmetic i aop a b) = .ok n) :
    r.relational g op (.arithmetic i aop a b) (.text s) = compareNumber op s y m n := by
  have hcompared : r.compared g (.arithmetic i aop a b) =
      .ok ((n.map Number.type).getD .long, [n.map Number.toValue]) := by
    rw [compared, hn]
    rfl
  rw [relational, hcompared]
  change compareText _ op s _ = _
  -- only a real is compared as one; then the literal is read as a whole number
  cases n with
  | some n =>
    cases n with
    | real x => exact (compareText_single hy).trans (satisfies_real op x y)
    | whole k =>
      cases m with
      | whole z =>
        exact (compareText_single (Number.read_long_of_whole hs)).trans (satisfies_whole op k z)
      | real w => exact compareText_of_read_error (Number.read_long_of_real hs) _
  | none =>
    cases m with
    | whole z => exact compareText_absent (Number.read_long_of_whole hs)
    | real w => exact compareText_of_read_error (Number.read_long_of_real hs) _

theorem resolved_of_mem_nodes (hlabels : e.Labelled) (hr : create catalog root e = .ok r)
    {x : Expr} (hx : x ∈ e.nodes) {p : Property} (hp : p ∈ x.ownProperties) :
    ∃ found, p.resolve catalog root = .ok found ∧ r.resolve p = .ok found := by
  obtain ⟨found, hfound⟩ :=
    exists_resolve_of_mem hr ((Expr.mem_properties_iff hlabels).mpr ⟨x, hx, hp⟩)
  exact ⟨found, resolve_of_create hr hfound, hfound⟩

/--
A comparison of arithmetic with a literal that is a number, somewhere in a valid predicate, on a
well-typed graph. If the arithmetic fails, for its values, the comparison fails alike. Otherwise
the arithmetic comes to a number or is absent, and what the comparison gives follows from this and
the literal alone: a real is compared as a real; a whole number and what is absent, which satisfies
nothing, are compared as whole numbers, and it is an error if the literal is none.
-/
theorem evaluate_arithmetic (hlabels : e.Labelled) (hvalid : e.validate catalog root = .ok ())
    (hr : create catalog root e = .ok r) {i j : NodeId} {aop : ArithmeticOp} {a b : Expr}
    (hx : .relational i op (.arithmetic j aop a b) (.text s) ∈ e.nodes)
    (hs : Number.read s = .ok m) (hg : g.WellTyped catalog root) :
    (∃ fault, fault.IsArithmetic ∧ r.number g (.arithmetic j aop a b) = .error fault ∧
      r.evaluate g (.relational i op (.arithmetic j aop a b) (.text s)) = .error fault) ∨
    ∃ n y, r.number g (.arithmetic j aop a b) = .ok n ∧ DataType.double.read s = .ok (.float y) ∧
      r.evaluate g (.relational i op (.arithmetic j aop a b) (.text s)) =
        compareNumber op s y m n := by
  have hbelow : (Expr.arithmetic j aop a b).nodes ⊆ e.nodes := fun y hy =>
    Expr.nodes_subset_of_mem hx (List.mem_cons_of_mem _ hy)
  have hchecked := Expr.checkNode_of_validate hlabels hvalid
  rcases hn : r.number g (.arithmetic j aop a b) with fault | n
  · refine .inl ⟨fault, ?_, rfl, ?_⟩
    · exact isArithmetic_of_number rfl (fun y hy => hchecked y (hbelow hy))
        (fun y hy p hp => resolved_of_mem_nodes hlabels hr (hbelow hy) hp) hg hn
    · rw [evaluate, relational, compared, hn]
      rfl
  · obtain ⟨y, hy⟩ := Number.exists_read_double hs
    exact .inr ⟨n, y, rfl, hy, relational_of_number hs hy hn⟩

/-! ### A third of the age -/

/-- A person of an age, or without one. -/
def aged (age : Option Int64) : Graph :=
  ⟨[1], ⟨"Person", age.toList.map fun i => ("age", .value (.int i))⟩, []⟩

/-- A third of the age. -/
def third : Expr := .arithmetic 1 .div (.property 2 ⟨[], "age", []⟩) (.literal 3 (.text "3"))

/-- A third of the age is above 13.3. -/
def aboveThird : Expr := .relational 0 .gt third (.text "13.3")

/-- A third of 40 leaves a remainder, and is compared with 13.3. -/
theorem recognizes_aged_40 :
    ∃ r, create ⟨[person]⟩ person aboveThird = .ok r ∧ r.recognizes (aged (some 40)) = .ok true := by
  have hlabels : aboveThird.Labelled := by decide +kernel
  have htyped : (aged (some 40)).WellTyped ⟨[person]⟩ person := ⟨by decide +kernel, by decide +kernel⟩
  refine ⟨_, rfl, ?_⟩
  obtain ⟨fault, -, hfault, -⟩ | ⟨n, y, hn, hy, hevaluate⟩ :=
    evaluate_arithmetic hlabels rfl rfl (Expr.mem_nodes_self aboveThird) rfl htyped
  · cases hfault
  · cases hn
    cases hy
    exact hevaluate

/-- A third of 39 is whole, and 13.3 is no whole number; nor is it without an age. -/
theorem not_recognizes_aged_39 :
    aboveThird.Labelled ∧ aboveThird.validate ⟨[person]⟩ person = .ok () ∧
      (Number.read "13.3").isOk = true ∧
      (aged (some 39)).WellTyped ⟨[person]⟩ person ∧ (aged none).WellTyped ⟨[person]⟩ person ∧
      ∃ r, create ⟨[person]⟩ person aboveThird = .ok r ∧
        r.number (aged (some 39)) third = .ok (some (.whole 13)) ∧
        r.recognizes (aged (some 39)) = .error (.read (.invalid "13.3" .long)) ∧
        r.number (aged none) third = .ok none ∧
        r.recognizes (aged none) = .error (.read (.invalid "13.3" .long)) :=
  ⟨by decide +kernel, rfl, rfl, ⟨by decide +kernel, by decide +kernel⟩,
    ⟨by decide +kernel, by decide +kernel⟩, _, rfl, rfl, rfl, rfl, rfl⟩

end Recognizer

end GraphTable
