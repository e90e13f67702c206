import GraphTable.Proofs.Predicate.Arithmetic
import GraphTable.Proofs.Predicate.Paths

/-!
# Graphs without dangling references

In a closed graph every number that a property refers to is that of a node (`Graph.Closed`). What is
looked up in such a graph is there: whatever else may be wrong with a predicate, its evaluation does
not fail for a node that is missing (`Recognizer.evaluate_intact`).

Only a look at a node can fail in this way, so that all other steps are settled by the kinds of
their faults.
-/

namespace GraphTable

/-- Every number that a property of a node refers to is that of a node. -/
def Graph.Closed (g : Graph) : Prop :=
  ∀ n ∈ g.nodes, ∀ f ∈ n.fields, ∀ i ∈ f.2.targets, i < g.size

instance (g : Graph) : Decidable g.Closed := by
  unfold Graph.Closed
  infer_instance

/-- Something that does not fail for a node that is missing. -/
def Intact {α : Type} (x : Except EvalFault α) : Prop :=
  ∀ i, x ≠ .error (.danglingNode i)

namespace Intact

variable {α β : Type}

theorem ok (a : α) : Intact (.ok a) := by
  intro i h
  cases h

theorem bind {x : Except EvalFault α} {f : α → Except EvalFault β} (hx : Intact x)
    (hf : ∀ a, x = .ok a → Intact (f a)) : Intact (x >>= f) := by
  intro i h
  obtain h | ⟨a, ha, h⟩ := Outcome.bind_eq_error.mp h
  · exact hx i h
  · exact hf a ha i h

theorem mapM {f : α → Except EvalFault β} {xs : List α} (h : ∀ x ∈ xs, Intact (f x)) :
    Intact (xs.mapM f) := by
  intro i hi
  obtain ⟨ys, hys⟩ | ⟨x, hx, fault, hfault, hxs⟩ := Outcome.ok_or_error_of_mapM f xs
  · rw [hys] at hi
    cases hi
  · rw [hxs] at hi
    cases hi
    exact h x hx i hfault

theorem anyM {f : α → Except EvalFault Bool} {xs : List α} (h : ∀ x ∈ xs, Intact (f x)) :
    Intact (xs.anyM f) := by
  induction xs with
  | nil => exact ok false
  | cons x xs ih =>
    obtain ⟨hx, hxs⟩ := List.forall_mem_cons.mp h
    rw [List.anyM_cons]
    refine hx.bind fun holds _ => ?_
    cases holds with
    | true => exact ok true
    | false => exact ih hxs

theorem mapError_read (x : Except ReadError α) : Intact (x.mapError EvalFault.read) := by
  intro i h
  cases x with
  | error e => cases h
  | ok a => cases h

theorem of_isArithmetic {x : Except EvalFault α}
    (h : ∀ fault, x = .error fault → fault.IsArithmetic) : Intact x := by
  intro i hx
  rcases h _ hx with _ | _ | _ | hrefused
  cases hrefused

end Intact

/-! ### Nodes of closed graphs -/

namespace Graph

variable {g : Graph}

theorem Closed.lt_size (hg : g.Closed) {i j : Nat} {n : Node} {name : String}
    (hn : g.node? i = some n) (hj : j ∈ n.targets name) : j < g.size := by
  rw [Node.targets] at hj
  rcases hcontent : n.get? name with _ | content
  · rw [hcontent] at hj
    cases hj
  · rw [hcontent] at hj
    have hmem := Node.mem_fields_of_get? hcontent
    exact hg n (List.mem_of_getElem? hn) (name, content) hmem j hj

theorem referred_of_lt {i : Nat} (hi : i < g.size) : ∃ n, g.referred i = .ok n := by
  obtain ⟨n, hn⟩ : ∃ n, g.node? i = some n := ⟨_, List.getElem?_eq_getElem hi⟩
  exact ⟨n, referred_eq_ok_iff.mpr hn⟩

end Graph

namespace Property

variable {g : Graph} {p : Property} {names : List String} {is ends : List Nat}

theorem step_intact {name : String} {i : Nat} (hi : i < g.size) : Intact (p.step g name i) := by
  obtain ⟨n, hn⟩ := Graph.referred_of_lt hi
  rw [step, hn]
  simp only [bind, Except.bind]
  intro j h
  split at h <;> cases h

/-- The search for the nodes at the end of a path meets existing nodes only. -/
theorem follow_intact (hg : g.Closed) (his : ∀ i ∈ is, i < g.size) :
    Intact (p.follow g names is) ∧
      ∀ ends, p.follow g names is = .ok ends → ∀ i ∈ ends, i < g.size := by
  induction names generalizing is with
  | nil =>
    refine ⟨.ok is, fun ends h => ?_⟩
    cases h
    exact his
  | cons name names ih =>
    have hnext : ∀ steps, is.mapM (p.step g name) = .ok steps →
        ∀ j ∈ steps.flatten, j < g.size := by
      intro steps hsteps j hj
      obtain ⟨js, hjs, hj⟩ := List.mem_flatten.mp hj
      obtain ⟨i, -, hstep⟩ := Outcome.exists_mem_of_mapM_result hsteps hjs
      obtain ⟨n, hn, rfl⟩ := exists_of_step hstep
      exact hg.lt_size hn hj
    constructor
    · refine Intact.bind (.mapM fun i hi => step_intact (his i hi)) fun steps hsteps => ?_
      exact (ih (hnext steps hsteps)).1
    · intro ends h
      obtain ⟨steps, hsteps, h⟩ := Outcome.bind_eq_ok.mp h
      exact (ih (hnext steps hsteps)).2 ends h

theorem apply_intact (f : ScalarFunction) (v : Value) : Intact (f.apply v) := by
  intro i h
  unfold ScalarFunction.apply at h
  split at h
  · split at h <;> cases h
  all_goals cases h

theorem applied_intact (v : Value) : Intact (p.applied v) := by
  rw [applied]
  split
  · exact .ok v
  · exact apply_intact _ v

theorem valuesAt_intact {endMany : Bool} {i : Nat} (hi : i < g.size) :
    Intact (p.valuesAt endMany g i) := by
  obtain ⟨n, hn⟩ := Graph.referred_of_lt hi
  rw [valuesAt, hn]
  simp only [bind, Except.bind]
  split
  · exact Intact.bind (applied_intact _) fun _ _ => .ok _
  · exact Intact.bind (.mapM fun v _ => applied_intact v) fun _ _ => .ok _
  · exact .ok _
  all_goals
    intro j h
    cases h

theorem reach_intact (hg : g.Closed) (endMany : Bool) : Intact (p.reach endMany g) := by
  rw [reach]
  split
  · intro i h
    cases h
  · have hroot : ∀ i ∈ [0], i < g.size := by
      intro i hi
      obtain rfl := List.mem_singleton.mp hi
      exact Nat.zero_lt_succ _
    obtain ⟨hintact, hends⟩ := follow_intact (p := p) hg hroot
    refine hintact.bind fun ends hfollow => ?_
    exact Intact.bind (.mapM fun i hi => valuesAt_intact (hends ends hfollow i hi)) fun _ _ => .ok _

end Property

/-! ### Evaluation on closed graphs -/

theorem DataType.satisfies_intact (type : DataType) (op : RelationalOp) (v literal : Value) :
    Intact (type.satisfies op v literal) := by
  refine Intact.bind (.mapError_read _) fun w _ => ?_
  intro i h
  split at h
  · cases h
  · split at h
    · cases h
    · split at h <;> cases h

namespace Recognizer

variable {r : Recognizer} {g : Graph}

theorem resolve_intact (p : Property) : Intact (r.resolve p) := by
  intro i h
  unfold resolve at h
  split at h <;> cases h

theorem collect_intact (hg : g.Closed) (p : Property) : Intact (r.collect g p) :=
  (resolve_intact p).bind fun found _ => Property.reach_intact hg found.endMany

theorem firstNumber_intact (vs : List (Option Value)) : Intact (firstNumber vs) := by
  rw [firstNumber]
  split
  · exact .ok none
  · rename_i v _ _
    refine Intact.bind (fun i h => ?_) fun _ _ => .ok _
    cases v <;> cases h

theorem number_intact (hg : g.Closed) (e : Expr) : Intact (r.number g e) := by
  induction e with
  | property i p => exact (collect_intact hg p).bind fun vs _ => firstNumber_intact vs
  | literal i l =>
    cases l with
    | null => exact .ok none
    | text s =>
      exact Intact.bind (.of_isArithmetic fun _ => Number.isArithmetic_of_read) fun _ _ => .ok _
  | arithmetic i op a b iha ihb =>
    refine iha.bind fun x _ => ihb.bind fun y _ => ?_
    exact .of_isArithmetic fun _ => isArithmetic_of_combine?
  | _ =>
    intro i h
    cases h

theorem compared_intact (hg : g.Closed) (left : Expr) : Intact (r.compared g left) := by
  cases left with
  | property i p =>
    exact (resolve_intact p).bind fun _ _ => (collect_intact hg p).bind fun _ _ => .ok _
  | arithmetic i op a b => exact (number_intact hg _).bind fun _ _ => .ok _
  | _ =>
    intro i h
    cases h

theorem relational_intact (hg : g.Closed) (op : RelationalOp) (left : Expr) (l : Literal) :
    Intact (r.relational g op left l) := by
  refine (compared_intact hg left).bind fun compared _ => ?_
  cases l with
  | null =>
    intro i h
    cases op <;> cases h
  | text s =>
    exact Intact.bind (.mapError_read _) fun literal _ =>
      .anyM fun v _ => compared.1.satisfies_intact op v literal

theorem like_intact (hg : g.Closed) (p : Property) (l : Literal) : Intact (r.like g p l) := by
  refine Intact.bind ((resolve_intact p).bind fun found _ => ?_) fun _ _ => .ok _
  dsimp only
  by_cases hflavor : (found.effectiveType p).flavor ≠ .string
  · rw [if_pos hflavor]
    intro i h
    cases h
  · rw [if_neg hflavor]
    cases l with
    | null =>
      intro i h
      cases h
    | text s => exact (collect_intact hg p).bind fun _ _ => .ok _

theorem members_intact (type : DataType) (texts : List String) : Intact (members type texts) := by
  rw [members]
  split
  · exact .ok _
  · exact .mapM fun _ _ => .mapError_read _

theorem isMember_intact (type : DataType) (ms : List Value) (v : Value) :
    Intact (isMember type ms v) := by
  rw [isMember]
  split
  · exact .ok _
  · exact .anyM fun m _ => type.satisfies_intact .eq v m

theorem membership_intact (hg : g.Closed) (isIn : Bool) (p : Property) (l : Literal)
    (delimiter : Option String) : Intact (r.membership g isIn p l delimiter) := by
  refine (resolve_intact p).bind fun found _ => ?_
  dsimp only
  split
  · intro i h
    cases h
  · cases l with
    | null =>
      intro i h
      cases h
    | text s =>
      refine (members_intact _ _).bind fun ms _ => (collect_intact hg p).bind fun vs _ => ?_
      exact .anyM fun v _ => (isMember_intact _ ms v).bind fun _ _ => .ok _

/-- The evaluation of a predicate on a closed graph does not fail for a node that is missing. -/
theorem evaluate_intact (hg : g.Closed) (e : Expr) : Intact (r.evaluate g e) := by
  induction e with
  | logical i op a b iha ihb =>
    cases op with
    | and =>
      refine iha.bind fun holds _ => ?_
      cases holds with
      | true => exact ihb
      | false => exact .ok false
    | or =>
      refine iha.bind fun holds _ => ?_
      cases holds with
      | true => exact .ok true
      | false => exact ihb
  | relational i op left l _ => exact relational_intact hg op left l
  | test i op p l d =>
    cases op with
    | like => exact like_intact hg p l
    | isIn => exact membership_intact hg true p l d
    | notIn => exact membership_intact hg false p l d
  | _ =>
    intro i h
    cases h

-- Ann and Bob have no friends but each other
example : annAndBob.Closed := by decide

end Recognizer

end GraphTable
