import GraphTable.Predicate.Expr

/-!
# What a walk reaches

A walk enters every node of a tree on the first way to it only, and goes by labels. Where nodes
of one label are one node (`Labelled`), it nevertheless deals with all of them: at its end, the
labels that were seen are closed under going down, and the root is among them. So whatever a
visitor establishes at each node that it enters holds of all nodes (`forall_nodes_of_walk`). That
it goes on everywhere may depend on its last state, as in a visitor that stops at a fault.

The other way round, what every visit of a node keeps is kept by the walk (`walk_invariant`),
whatever the labels are.
-/

namespace GraphTable.Expr

/-! ### Nodes -/

/-- The nodes directly below a node. -/
def children : Expr → List Expr
  | logical _ _ l r | arithmetic _ _ l r => [l, r]
  | relational _ _ left _ => [left]
  | _ => []

/-- All nodes of a tree. -/
def nodes : Expr → List Expr
  | logical i op l r => logical i op l r :: (l.nodes ++ r.nodes)
  | arithmetic i op l r => arithmetic i op l r :: (l.nodes ++ r.nodes)
  | relational i op left l => relational i op left l :: left.nodes
  | e => [e]

/-- Nodes of one label are one node. -/
def Labelled (e : Expr) : Prop :=
  ∀ x ∈ e.nodes, ∀ y ∈ e.nodes, x.id = y.id → x = y

instance (e : Expr) : Decidable e.Labelled := by
  unfold Labelled
  infer_instance

theorem mem_nodes_self (e : Expr) : e ∈ e.nodes := by
  cases e <;> simp [nodes]

theorem nodes_eq (e : Expr) : e.nodes = e :: e.children.flatMap nodes := by
  cases e <;> simp [nodes, children]

theorem nodes_subset_of_mem_children {e c : Expr} (h : c ∈ e.children) : c.nodes ⊆ e.nodes := by
  intro x hx
  rw [nodes_eq e]
  exact List.mem_cons_of_mem _ (List.mem_flatMap.mpr ⟨c, h, hx⟩)

/-- What holds of a node if it holds of those below holds of all. -/
theorem induction_on_children {P : Expr → Prop} (h : ∀ e, (∀ c ∈ e.children, P c) → P e)
    (e : Expr) : P e := by
  induction e with
  | logical i op l r hl hr => exact h _ (by simp [children, hl, hr])
  | arithmetic i op l r hl hr => exact h _ (by simp [children, hl, hr])
  | relational i op left l hleft => exact h _ (by simp [children, hleft])
  | test i op p l d => exact h _ (by simp [children])
  | property i p => exact h _ (by simp [children])
  | literal i l => exact h _ (by simp [children])

/-- What is true of the root, and of what is below whatever it is true of, is true of all nodes. -/
theorem forall_nodes_of_children {P : Expr → Prop} {e : Expr} (hroot : P e)
    (hdown : ∀ x ∈ e.nodes, P x → ∀ c ∈ x.children, P c) : ∀ x ∈ e.nodes, P x := by
  induction e using induction_on_children with
  | h e ih =>
    intro x hx
    rw [nodes_eq] at hx
    rcases List.mem_cons.mp hx with rfl | hx
    · exact hroot
    · obtain ⟨c, hc, hx⟩ := List.mem_flatMap.mp hx
      have hsub := nodes_subset_of_mem_children hc
      exact ih c hc (hdown e (mem_nodes_self e) hroot c hc) (fun y hy => hdown y (hsub hy)) x hx

theorem nodes_subset_of_mem {e x : Expr} (h : x ∈ e.nodes) : x.nodes ⊆ e.nodes := by
  refine forall_nodes_of_children (P := fun x => x.nodes ⊆ e.nodes) (fun _ hy => hy) ?_ x h
  exact fun y _ hy c hc z hz => hy (nodes_subset_of_mem_children hc hz)

/-! ### Walks -/

variable {σ : Type}

theorem enter_of_seen {visit : Visitor σ} {e : Expr} {parent : Option Expr} {level : Nat}
    {below : WalkState σ → WalkState σ} {s : WalkState σ} (h : e.id ∈ s.seen) :
    enter visit e parent level below s = s := by
  rw [enter, if_pos (List.contains_iff_mem.mpr h)]

theorem enter_of_not_seen {visit : Visitor σ} {e : Expr} {parent : Option Expr} {level : Nat}
    {below : WalkState σ → WalkState σ} {s : WalkState σ} (h : e.id ∉ s.seen) :
    enter visit e parent level below s =
      if (visit s.visitor e parent level).2
      then below ⟨(visit s.visitor e parent level).1, e.id :: s.seen⟩
      else ⟨(visit s.visitor e parent level).1, e.id :: s.seen⟩ := by
  rw [enter, if_neg fun hin => h (List.contains_iff_mem.mp hin)]

/-- A walk enters a node and goes on with the nodes below, one after the other. -/
theorem walkFrom_eq (visit : Visitor σ) (parent : Option Expr) (level : Nat) (e : Expr)
    (s : WalkState σ) :
    e.walkFrom visit parent level s =
      enter visit e parent level
        (fun s => e.children.foldl (fun s c => c.walkFrom visit (some e) (level + 1) s) s) s := by
  cases e <;> rfl

/-- What every visit of a node keeps is kept by a walk. -/
theorem walkFrom_invariant {visit : Visitor σ} {P : σ → Prop} {e : Expr}
    (h : ∀ x ∈ e.nodes, ∀ s parent level, P s → P (visit s x parent level).1)
    {parent : Option Expr} {level : Nat} {s : WalkState σ} (hs : P s.visitor) :
    P (e.walkFrom visit parent level s).visitor := by
  induction e using induction_on_children generalizing parent level s with
  | h e ih =>
    -- every child is walked from the state that the one before it left
    have hbelow : ∀ cs : List Expr, cs ⊆ e.children → ∀ s : WalkState σ, P s.visitor →
        P (cs.foldl (fun s c => c.walkFrom visit (some e) (level + 1) s) s).visitor := by
      intro cs
      induction cs with
      | nil => exact fun _ _ hs => hs
      | cons c cs ihcs =>
        intro hsub s hs
        have hc := hsub List.mem_cons_self
        refine ihcs (fun _ hd => hsub (List.mem_cons_of_mem _ hd)) _ (ih c hc ?_ hs)
        exact fun x hx => h x (nodes_subset_of_mem_children hc hx)
    rw [walkFrom_eq]
    by_cases hseen : e.id ∈ s.seen
    · rw [enter_of_seen hseen]
      exact hs
    · have hvisit := h e (mem_nodes_self e) s.visitor parent level hs
      rw [enter_of_not_seen hseen]
      split
      · exact hbelow e.children (fun _ hc => hc) _ hvisit
      · exact hvisit

theorem walk_invariant {visit : Visitor σ} {P : σ → Prop} {e : Expr}
    (h : ∀ x ∈ e.nodes, ∀ s parent level, P s → P (visit s x parent level).1) {s : σ} (hs : P s) :
    P (e.walk visit s) :=
  walkFrom_invariant h hs

/-! ### Walks that reach everything -/

/--
A visitor establishes something of each node that it enters, and keeps it. It may stop going on,
but then no state after that is `Good`.
-/
structure Establishes (visit : Visitor σ) (Good : σ → Prop) (Done : σ → Expr → Prop) : Prop where
  good_before : ∀ {s e parent level}, Good (visit s e parent level).1 → Good s
  goesOn : ∀ {s e parent level}, Good (visit s e parent level).1 →
    (visit s e parent level).2 = true
  done : ∀ {s e parent level}, Good (visit s e parent level).1 →
    Done (visit s e parent level).1 e
  kept : ∀ {s e parent level x}, Good (visit s e parent level).1 → Done s x →
    Done (visit s e parent level).1 x

/-- How the state of a walk may change, for the nodes of a tree. -/
structure Progress (Good : σ → Prop) (Done : σ → Expr → Prop) (all : List Expr)
    (s t : WalkState σ) : Prop where
  good : Good s.visitor
  seen : s.seen ⊆ t.seen
  kept : ∀ x, Done s.visitor x → Done t.visitor x
  /-- Nodes that were entered are done with, and those below were reached. -/
  closed : ∀ x ∈ all, x.id ∈ t.seen →
    x.id ∈ s.seen ∨ (Done t.visitor x ∧ ∀ c ∈ x.children, c.id ∈ t.seen)

variable {visit : Visitor σ} {Good : σ → Prop} {Done : σ → Expr → Prop} {all : List Expr}

theorem Progress.refl {s : WalkState σ} (h : Good s.visitor) : Progress Good Done all s s :=
  ⟨h, fun _ hx => hx, fun _ hx => hx, fun _ _ hx => .inl hx⟩

theorem Progress.trans {s t u : WalkState σ} (hst : Progress Good Done all s t)
    (htu : Progress Good Done all t u) : Progress Good Done all s u where
  good := hst.good
  seen := fun _ hx => htu.seen (hst.seen hx)
  kept := fun x hx => htu.kept x (hst.kept x hx)
  closed := by
    intro x hx hseen
    rcases htu.closed x hx hseen with hbefore | hdone
    · rcases hst.closed x hx hbefore with hbefore | ⟨hdone, hchildren⟩
      · exact .inl hbefore
      · exact .inr ⟨htu.kept x hdone, fun c hc => htu.seen (hchildren c hc)⟩
    · exact .inr hdone

/-- Walking over a list of trees makes progress if walking over each does, and reaches them. -/
private theorem progress_foldl {walk : Expr → WalkState σ → WalkState σ} {cs : List Expr}
    (h : ∀ c ∈ cs, ∀ s, Good (walk c s).visitor →
      Progress Good Done all s (walk c s) ∧ c.id ∈ (walk c s).seen)
    {s : WalkState σ} (hgood : Good (cs.foldl (fun s c => walk c s) s).visitor) :
    Progress Good Done all s (cs.foldl (fun s c => walk c s) s) ∧
      ∀ c ∈ cs, c.id ∈ (cs.foldl (fun s c => walk c s) s).seen := by
  induction cs generalizing s with
  | nil => exact ⟨.refl hgood, fun _ hc => by cases hc⟩
  | cons c cs ih =>
    obtain ⟨hrest, hreached⟩ := ih (fun d hd => h d (List.mem_cons_of_mem c hd)) hgood
    obtain ⟨hfirst, hself⟩ := h c List.mem_cons_self s hrest.good
    refine ⟨hfirst.trans hrest, fun d hd => ?_⟩
    rcases List.mem_cons.mp hd with rfl | hd
    · exact hrest.seen hself
    · exact hreached d hd

/-- Walking over a tree makes progress and reaches its root. -/
private theorem progress_walkFrom (hv : Establishes visit Good Done)
    (hlabels : ∀ x ∈ all, ∀ y ∈ all, x.id = y.id → x = y) {e : Expr} (he : e.nodes ⊆ all)
    {parent : Option Expr} {level : Nat} {s : WalkState σ}
    (hgood : Good (e.walkFrom visit parent level s).visitor) :
    Progress Good Done all s (e.walkFrom visit parent level s) ∧
      e.id ∈ (e.walkFrom visit parent level s).seen := by
  induction e using induction_on_children generalizing parent level s with
  | h e ih =>
    rw [walkFrom_eq] at hgood ⊢
    by_cases hseen : e.id ∈ s.seen
    · rw [enter_of_seen hseen] at hgood ⊢
      exact ⟨.refl hgood, hseen⟩
    · rw [enter_of_not_seen hseen] at hgood ⊢
      have hbelow : ∀ c ∈ e.children, ∀ s : WalkState σ,
          Good (c.walkFrom visit (some e) (level + 1) s).visitor →
          Progress Good Done all s (c.walkFrom visit (some e) (level + 1) s) ∧
            c.id ∈ (c.walkFrom visit (some e) (level + 1) s).seen := by
        intro c hc s hgood
        exact ih c hc (fun x hx => he (nodes_subset_of_mem_children hc hx)) hgood
      cases hgoes : (visit s.visitor e parent level).2 with
      | false =>
        -- a visitor that stops does not leave a good state
        rw [hgoes, if_neg Bool.false_ne_true] at hgood
        rw [hv.goesOn hgood] at hgoes
        cases hgoes
      | true =>
        rw [hgoes, if_pos rfl] at hgood
        rw [if_pos rfl]
        obtain ⟨hrest, hreached⟩ := progress_foldl hbelow hgood
        refine ⟨⟨hv.good_before hrest.good, ?_, ?_, ?_⟩, hrest.seen List.mem_cons_self⟩
        · exact fun x hx => hrest.seen (List.mem_cons_of_mem _ hx)
        · exact fun x hx => hrest.kept x (hv.kept hrest.good hx)
        · intro x hx hin
          rcases hrest.closed x hx hin with hbefore | hdone
          · rcases List.mem_cons.mp hbefore with hid | hbefore
            · -- a node with the label of the root is the root
              obtain rfl := hlabels x hx e (he (mem_nodes_self e)) hid
              exact .inr ⟨hrest.kept x (hv.done hrest.good), hreached⟩
            · exact .inl hbefore
          · exact .inr hdone

/--
What a visitor establishes at each node that it enters holds of all nodes after a walk, if nodes
of one label are one node.
-/
theorem forall_nodes_of_walk (hv : Establishes visit Good Done) {e : Expr} (hlabels : e.Labelled)
    {s : σ} (hgood : Good (e.walk visit s)) : ∀ x ∈ e.nodes, Done (e.walk visit s) x := by
  obtain ⟨hprogress, hroot⟩ := progress_walkFrom hv hlabels (fun _ hx => hx) hgood
  have hclosed : ∀ x ∈ e.nodes, x.id ∈ (e.walkFrom visit none 0 ⟨s, []⟩).seen →
      Done (e.walk visit s) x ∧ ∀ c ∈ x.children, c.id ∈ (e.walkFrom visit none 0 ⟨s, []⟩).seen :=
    fun x hx hseen => (hprogress.closed x hx hseen).resolve_left List.not_mem_nil
  have hreached := forall_nodes_of_children hroot fun x hx hseen => (hclosed x hx hseen).2
  exact fun x hx => (hclosed x hx (hreached x hx)).1

/-! ### Properties -/

theorem establishes_properties :
    Establishes (fun ps node _ _ => (ps ++ node.ownProperties, true)) (fun _ => True)
      (fun ps x => ∀ p ∈ x.ownProperties, p ∈ ps) where
  good_before _ := trivial
  goesOn _ := rfl
  done _ := fun _ hp => List.mem_append_right _ hp
  kept _ h := fun p hp => List.mem_append_left _ (h p hp)

/-- A tree names the properties that its nodes name themselves. -/
theorem mem_properties_iff {e : Expr} (hlabels : e.Labelled) {p : Property} :
    p ∈ e.properties ↔ ∃ x ∈ e.nodes, p ∈ x.ownProperties := by
  constructor
  · refine walk_invariant (P := fun ps => p ∈ ps → ∃ x ∈ e.nodes, p ∈ x.ownProperties) ?_
      (fun h => by cases h)
    intro x hx ps _ _ hps hp
    rcases List.mem_append.mp hp with hp | hp
    · exact hps hp
    · exact ⟨x, hx, hp⟩
  · rintro ⟨x, hx, hp⟩
    exact forall_nodes_of_walk establishes_properties hlabels trivial x hx p hp

end GraphTable.Expr
