import GraphTable.Plan.Basic
import GraphTable.Predicate.Recognizer
import GraphTable.Proofs.Outcome
import GraphTable.Proofs.Predicate.Walk

/-!
# Alternatives of a predicate

The alternatives of a predicate stand for its truth in two ways:

* If a predicate is true of a graph, all terms of some alternative are
  (`exists_alternative_of_evaluate`). Nothing is assumed of the other terms, which may as well
  fail to have a truth value.
* If every term has a truth value and all terms of some alternative are true, the predicate is
  true (`evaluate_of_alternative`). A term without a truth value could hide the alternative,
  since what stands on its left is evaluated before it.
-/

namespace GraphTable

namespace Expr

/-! ### The form of alternatives -/

/-- How the alternatives of a predicate come from those of its parts. -/
inductive Alternatives : Expr → List (List Expr) → Prop
  | or {i : NodeId} {l r : Expr} {ls rs : List (List Expr)} (left : Alternatives l ls)
      (right : Alternatives r rs) : Alternatives (logical i .or l r) (ls ++ rs)
  | and {i : NodeId} {l r : Expr} {ls rs : List (List Expr)} (left : Alternatives l ls)
      (right : Alternatives r rs) : Alternatives (logical i .and l r) (distribute ls rs)
  | term (e : Expr) : Alternatives e [[e]]

theorem alternatives_of_disjuncts? {e : Expr} {alternatives : List (List Expr)}
    (h : e.disjuncts? = some alternatives) : Alternatives e alternatives := by
  induction e generalizing alternatives with
  | logical i op l r ihl ihr =>
    cases op with
    | or =>
      rw [disjuncts?] at h
      obtain ⟨ls, hls, h⟩ := Option.bind_eq_some_iff.mp h
      obtain ⟨rs, hrs, h⟩ := Option.bind_eq_some_iff.mp h
      simp only at h
      split at h
      · cases h
        exact .or (ihl hls) (ihr hrs)
      · cases h
    | and =>
      rw [disjuncts?] at h
      obtain ⟨ls, hls, h⟩ := Option.bind_eq_some_iff.mp h
      obtain ⟨rs, hrs, h⟩ := Option.bind_eq_some_iff.mp h
      split at h
      · cases h
        exact .and (ihl hls) (ihr hrs)
      · cases h
  | relational i op left l _ => cases h; exact .term _
  | test i op p l d => cases h; exact .term _
  | arithmetic i op l r _ _ => cases h; exact .term _
  | property i p => cases h; exact .term _
  | literal i l => cases h; exact .term _

theorem mem_distribute {ls rs : List (List Expr)} {terms : List Expr} :
    terms ∈ distribute ls rs ↔ ∃ l ∈ ls, ∃ r ∈ rs, l ++ r = terms := by
  simp [distribute]

/-- There is always some alternative. -/
theorem Alternatives.ne_nil {e : Expr} {alternatives : List (List Expr)}
    (h : Alternatives e alternatives) : ∃ terms, terms ∈ alternatives := by
  induction h with
  | or _ _ ihl _ =>
    obtain ⟨terms, hterms⟩ := ihl
    exact ⟨terms, List.mem_append_left _ hterms⟩
  | and _ _ ihl ihr =>
    obtain ⟨ls, hls⟩ := ihl
    obtain ⟨rs, hrs⟩ := ihr
    exact ⟨ls ++ rs, mem_distribute.mpr ⟨ls, hls, rs, hrs, rfl⟩⟩
  | term e => exact ⟨[e], List.mem_singleton_self _⟩

/-- The terms of alternatives are nodes of the predicate. -/
theorem Alternatives.mem_nodes {e : Expr} {alternatives : List (List Expr)}
    (h : Alternatives e alternatives) : ∀ terms ∈ alternatives, ∀ x ∈ terms, x ∈ e.nodes := by
  induction h with
  | or _ _ ihl ihr =>
    intro terms hterms x hx
    rcases List.mem_append.mp hterms with hmem | hmem
    · exact List.mem_cons_of_mem _ (List.mem_append_left _ (ihl terms hmem x hx))
    · exact List.mem_cons_of_mem _ (List.mem_append_right _ (ihr terms hmem x hx))
  | and _ _ ihl ihr =>
    intro terms hterms x hx
    obtain ⟨ls, hls, rs, hrs, rfl⟩ := mem_distribute.mp hterms
    rcases List.mem_append.mp hx with hmem | hmem
    · exact List.mem_cons_of_mem _ (List.mem_append_left _ (ihl ls hls x hmem))
    · exact List.mem_cons_of_mem _ (List.mem_append_right _ (ihr rs hrs x hmem))
  | term e =>
    intro terms hterms x hx
    obtain rfl := List.mem_singleton.mp hterms
    obtain rfl := List.mem_singleton.mp hx
    exact x.mem_nodes_self

end Expr

namespace Recognizer

variable {r : Recognizer} {g : Graph}

/-! ### Truth -/

theorem evaluate_and_eq_true {i : NodeId} {a b : Expr} :
    r.evaluate g (.logical i .and a b) = .ok true ↔
      r.evaluate g a = .ok true ∧ r.evaluate g b = .ok true := by
  rw [evaluate]
  cases r.evaluate g a with
  | error e => exact ⟨fun h => (by cases h), fun h => (by cases h.1)⟩
  | ok x =>
    cases x with
    | false => exact ⟨fun h => (by cases h), fun h => (by cases h.1)⟩
    | true => exact (and_iff_right rfl).symm

theorem evaluate_or_eq_true {i : NodeId} {a b : Expr} :
    r.evaluate g (.logical i .or a b) = .ok true ↔
      r.evaluate g a = .ok true ∨ r.evaluate g a = .ok false ∧ r.evaluate g b = .ok true := by
  rw [evaluate]
  cases r.evaluate g a with
  | error e => exact ⟨fun h => (by cases h), fun h => by rcases h with h | ⟨h, -⟩ <;> cases h⟩
  | ok x =>
    cases x with
    | false => exact ⟨fun h => .inr ⟨rfl, h⟩, fun h => (h.resolve_left (by simp)).2⟩
    | true => exact ⟨fun _ => .inl rfl, fun _ => rfl⟩

/-- If a predicate is true, all terms of some alternative are. -/
theorem exists_alternative_of_evaluate {e : Expr} {alternatives : List (List Expr)}
    (h : e.Alternatives alternatives) (htrue : r.evaluate g e = .ok true) :
    ∃ terms ∈ alternatives, ∀ x ∈ terms, r.evaluate g x = .ok true := by
  induction h with
  | or _ _ ihl ihr =>
    rcases evaluate_or_eq_true.mp htrue with hleft | ⟨-, hright⟩
    · obtain ⟨terms, hmem, hall⟩ := ihl hleft
      exact ⟨terms, List.mem_append_left _ hmem, hall⟩
    · obtain ⟨terms, hmem, hall⟩ := ihr hright
      exact ⟨terms, List.mem_append_right _ hmem, hall⟩
  | and _ _ ihl ihr =>
    obtain ⟨hleft, hright⟩ := evaluate_and_eq_true.mp htrue
    obtain ⟨ls, hls, hlall⟩ := ihl hleft
    obtain ⟨rs, hrs, hrall⟩ := ihr hright
    refine ⟨ls ++ rs, Expr.mem_distribute.mpr ⟨ls, hls, rs, hrs, rfl⟩, fun x hx => ?_⟩
    exact (List.mem_append.mp hx).elim (hlall x) (hrall x)
  | term e =>
    refine ⟨[e], List.mem_singleton_self _, fun x hx => ?_⟩
    rwa [List.mem_singleton.mp hx]

theorem evaluate_and_ok {i : NodeId} {a b : Expr}
    (ha : ∃ x, r.evaluate g a = .ok x) (hb : ∃ x, r.evaluate g b = .ok x) :
    ∃ x, r.evaluate g (.logical i .and a b) = .ok x := by
  obtain ⟨x, ha⟩ := ha
  obtain ⟨y, hb⟩ := hb
  rw [evaluate, ha, hb]
  cases x <;> exact ⟨_, rfl⟩

theorem evaluate_or_ok {i : NodeId} {a b : Expr}
    (ha : ∃ x, r.evaluate g a = .ok x) (hb : ∃ x, r.evaluate g b = .ok x) :
    ∃ x, r.evaluate g (.logical i .or a b) = .ok x := by
  obtain ⟨x, ha⟩ := ha
  obtain ⟨y, hb⟩ := hb
  rw [evaluate, ha, hb]
  cases x <;> exact ⟨_, rfl⟩

/-- If all terms have a truth value, so has the predicate. -/
theorem exists_evaluate_of_alternatives {e : Expr} {alternatives : List (List Expr)}
    (h : e.Alternatives alternatives)
    (hterms : ∀ terms ∈ alternatives, ∀ x ∈ terms, ∃ b, r.evaluate g x = .ok b) :
    ∃ b, r.evaluate g e = .ok b := by
  induction h with
  | or _ _ ihl ihr =>
    exact evaluate_or_ok (ihl fun ts hts => hterms ts (List.mem_append_left _ hts))
      (ihr fun ts hts => hterms ts (List.mem_append_right _ hts))
  | and left right ihl ihr =>
    obtain ⟨ls, hls⟩ := left.ne_nil
    obtain ⟨rs, hrs⟩ := right.ne_nil
    refine evaluate_and_ok (ihl fun ts hts x hx => ?_) (ihr fun ts hts x hx => ?_)
    · exact hterms _ (Expr.mem_distribute.mpr ⟨ts, hts, rs, hrs, rfl⟩) x
        (List.mem_append_left _ hx)
    · exact hterms _ (Expr.mem_distribute.mpr ⟨ls, hls, ts, hts, rfl⟩) x
        (List.mem_append_right _ hx)
  | term e => exact hterms [e] (List.mem_singleton_self _) e (List.mem_singleton_self _)

/--
If all terms have a truth value and those of some alternative are true, the predicate is true.
-/
theorem evaluate_of_alternative {e : Expr} {alternatives : List (List Expr)}
    (h : e.Alternatives alternatives)
    (hterms : ∀ terms ∈ alternatives, ∀ x ∈ terms, ∃ b, r.evaluate g x = .ok b)
    {terms : List Expr} (hmem : terms ∈ alternatives)
    (hall : ∀ x ∈ terms, r.evaluate g x = .ok true) : r.evaluate g e = .ok true := by
  induction h generalizing terms with
  | or left _ ihl ihr =>
    rw [evaluate_or_eq_true]
    have hleft := fun ts hts => hterms ts (List.mem_append_left _ hts)
    rcases List.mem_append.mp hmem with hmem | hmem
    · exact .inl (ihl hleft hmem hall)
    · -- the left side is evaluated first, and has a truth value
      have hright := ihr (fun ts hts => hterms ts (List.mem_append_right _ hts)) hmem hall
      obtain ⟨x, hx⟩ := exists_evaluate_of_alternatives left hleft
      cases x with
      | true => exact .inl hx
      | false => exact .inr ⟨hx, hright⟩
  | and left right ihl ihr =>
    rw [evaluate_and_eq_true]
    obtain ⟨ls, hls, rs, hrs, rfl⟩ := Expr.mem_distribute.mp hmem
    constructor
    · refine ihl (fun ts hts x hx => ?_) hls fun x hx => hall x (List.mem_append_left _ hx)
      exact hterms _ (Expr.mem_distribute.mpr ⟨ts, hts, rs, hrs, rfl⟩) x
        (List.mem_append_left _ hx)
    · refine ihr (fun ts hts x hx => ?_) hrs fun x hx => hall x (List.mem_append_right _ hx)
      exact hterms _ (Expr.mem_distribute.mpr ⟨ls, hls, ts, hts, rfl⟩) x
        (List.mem_append_right _ hx)
  | term e =>
    obtain rfl := List.mem_singleton.mp hmem
    exact hall e (List.mem_singleton_self _)

end Recognizer

end GraphTable
