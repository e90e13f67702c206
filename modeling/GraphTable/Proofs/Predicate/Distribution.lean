import GraphTable.Proofs.Predicate.Safety

/-!
# Alternatives in full

The full disjunctive form of a predicate (`distributed`) has as many alternatives as can be told
from the predicate alone: sums at disjunctions, products at conjunctions and one for each condition
(`length_distributed`). The search for alternatives gives up as soon as a part has too many. It
still finds the full form whenever that is small enough (`disjuncts?_eq`): no factor of a product
is zero, so a part never has more alternatives than the whole.

Where every condition has a truth value, the predicate is true exactly if all terms of some
alternative are (`distributes_exactly`).
-/

namespace GraphTable.Expr

/-- The conditions of a predicate: what its conjunctions and disjunctions join in the end. -/
def conditions : Expr → List Expr
  | logical _ _ l r => l.conditions ++ r.conditions
  | e => [e]

/-- The number of alternatives of the full disjunctive form. -/
def alternativeCount : Expr → Nat
  | logical _ .or l r => l.alternativeCount + r.alternativeCount
  | logical _ .and l r => l.alternativeCount * r.alternativeCount
  | _ => 1

/-- The full disjunctive form, however many alternatives it has. -/
def distributed : Expr → List (List Expr)
  | logical _ .or l r => l.distributed ++ r.distributed
  | logical _ .and l r => distribute l.distributed r.distributed
  | e => [[e]]

/-! ### The number of alternatives -/

theorem length_distribute (ls rs : List (List Expr)) :
    (distribute ls rs).length = ls.length * rs.length := by
  simp [distribute, List.length_flatMap, List.map_const']

theorem length_distributed (e : Expr) : e.distributed.length = e.alternativeCount := by
  induction e with
  | logical i op l r ihl ihr =>
    cases op with
    | or => rw [distributed, alternativeCount, List.length_append, ihl, ihr]
    | and => rw [distributed, alternativeCount, length_distribute, ihl, ihr]
  | relational | test | arithmetic | property | literal => rfl

theorem alternativeCount_pos (e : Expr) : 0 < e.alternativeCount := by
  induction e with
  | logical i op l r ihl ihr =>
    cases op with
    | or => exact Nat.add_pos_left ihl _
    | and => exact Nat.mul_pos ihl ihr
  | relational | test | arithmetic | property | literal => exact Nat.one_pos

/-- The limits on two parts follow from the limit on the whole, if that is no smaller. -/
private theorem bind_limited {limit : Nat} {ls rs : List (List Expr)}
    (size : List (List Expr) → List (List Expr) → Nat)
    (join : List (List Expr) → List (List Expr) → List (List Expr))
    (hl : ls.length ≤ size ls rs) (hr : rs.length ≤ size ls rs) :
    ((if ls.length ≤ limit then some ls else none).bind fun ls =>
      (if rs.length ≤ limit then some rs else none).bind fun rs =>
        if size ls rs ≤ limit then some (join ls rs) else none) =
      if size ls rs ≤ limit then some (join ls rs) else none := by
  by_cases hleft : ls.length ≤ limit
  · by_cases hright : rs.length ≤ limit
    · rw [if_pos hleft, if_pos hright]
      rfl
    · have hmany : ¬ size ls rs ≤ limit := fun h => hright (Nat.le_trans hr h)
      rw [if_pos hleft, if_neg hright, if_neg hmany]
      rfl
  · have hmany : ¬ size ls rs ≤ limit := fun h => hleft (Nat.le_trans hl h)
    rw [if_neg hleft, if_neg hmany]
    rfl

/-- The alternatives that are found are those of the full form, unless these are too many. -/
theorem disjuncts?_eq (e : Expr) :
    e.disjuncts? = if e.alternativeCount ≤ maxDisjuncts then some e.distributed else none := by
  induction e with
  | logical i op l r ihl ihr =>
    have hpos : 0 < l.distributed.length ∧ 0 < r.distributed.length := by
      rw [length_distributed, length_distributed]
      exact ⟨l.alternativeCount_pos, r.alternativeCount_pos⟩
    rw [← length_distributed] at ihl ihr ⊢
    cases op with
    | or =>
      rw [disjuncts?, ihl, ihr, distributed]
      refine bind_limited (fun ls rs => (ls ++ rs).length) (fun ls rs => ls ++ rs) ?_ ?_
      · rw [List.length_append]
        exact Nat.le_add_right _ _
      · rw [List.length_append]
        exact Nat.le_add_left _ _
    | and =>
      -- a factor is at most the product, since the other one is not zero
      rw [disjuncts?, ihl, ihr, distributed, length_distribute]
      exact bind_limited (fun ls rs => ls.length * rs.length) distribute
        (Nat.le_mul_of_pos_right _ hpos.2) (Nat.le_mul_of_pos_left _ hpos.1)
  | relational | test | arithmetic | property | literal => rfl

theorem disjuncts?_eq_some_iff {e : Expr} {alternatives : List (List Expr)} :
    e.disjuncts? = some alternatives ↔
      e.alternativeCount ≤ maxDisjuncts ∧ e.distributed = alternatives := by
  rw [disjuncts?_eq]
  simp

/-! ### The terms of alternatives -/

/-- Every term of an alternative is a condition of the predicate. -/
theorem mem_conditions_of_mem_distributed {e : Expr} :
    ∀ terms ∈ e.distributed, ∀ x ∈ terms, x ∈ e.conditions := by
  induction e with
  | logical i op l r ihl ihr =>
    intro terms hterms x hx
    rw [conditions, List.mem_append]
    cases op with
    | or => exact (List.mem_append.mp hterms).imp (ihl terms · x hx) (ihr terms · x hx)
    | and =>
      obtain ⟨ls, hls, rs, hrs, rfl⟩ := mem_distribute.mp hterms
      exact (List.mem_append.mp hx).imp (ihl ls hls x) (ihr rs hrs x)
  | relational | test | arithmetic | property | literal =>
    intro terms hterms x hx
    rwa [List.mem_singleton.mp hterms] at hx

/--
A predicate has alternatives exactly if its full disjunctive form has at most 64 of them, and it
then has just as many. Where every condition has a truth value, so has the predicate, and it is true
exactly if all terms of some alternative are.
-/
theorem distributes_exactly (e : Expr) :
    ((∃ alternatives, e.disjuncts? = some alternatives) ↔ e.alternativeCount ≤ 64) ∧
      ∀ alternatives, e.disjuncts? = some alternatives →
        alternatives.length = e.alternativeCount ∧
          ∀ (r : Recognizer) (g : Graph), (∀ x ∈ e.conditions, ∃ b, r.evaluate g x = .ok b) →
            ∃ b, r.evaluate g e = .ok b ∧
              (b = true ↔ ∃ terms ∈ alternatives, ∀ x ∈ terms, r.evaluate g x = .ok true) := by
  constructor
  · constructor
    · rintro ⟨alternatives, h⟩
      exact (disjuncts?_eq_some_iff.mp h).1
    · intro h
      exact ⟨e.distributed, disjuncts?_eq_some_iff.mpr ⟨h, rfl⟩⟩
  · intro alternatives h
    have hform := alternatives_of_disjuncts? h
    obtain ⟨-, rfl⟩ := disjuncts?_eq_some_iff.mp h
    refine ⟨e.length_distributed, fun r g hconditions => ?_⟩
    have hterms : ∀ terms ∈ e.distributed, ∀ x ∈ terms, ∃ b, r.evaluate g x = .ok b :=
      fun terms hterms x hx => hconditions x (mem_conditions_of_mem_distributed terms hterms x hx)
    obtain ⟨b, hb⟩ := Recognizer.exists_evaluate_of_alternatives hform hterms
    refine ⟨b, hb, fun htrue => ?_, fun ⟨terms, hmem, hall⟩ => ?_⟩
    · exact Recognizer.exists_alternative_of_evaluate hform (hb.trans (congrArg _ htrue))
    · have htrue := Recognizer.evaluate_of_alternative hform hterms hmem hall
      exact Except.ok.inj (hb.symm.trans htrue)

/-- The age is above 30 or at most that, and the name is Bob or begins with A. -/
def agedAndNamed : Expr :=
  logical 0 .and
    (logical 1 .or (relational 2 .gt (property 3 ⟨[], "age", []⟩) (.text "30"))
      (relational 4 .le (property 5 ⟨[], "age", []⟩) (.text "30")))
    (logical 6 .or (relational 7 .eq (property 8 ⟨[], "name", []⟩) (.text "Bob"))
      (test 9 .like ⟨[], "name", []⟩ (.text "A*") none))

open Recognizer in
/-- Only the last of the four alternatives is true of Ann, whose age is 30. -/
theorem distributes_agedAndNamed :
    agedAndNamed.alternativeCount ≤ 64 ∧
      ∃ alternatives, agedAndNamed.disjuncts? = some alternatives ∧ alternatives.length = 4 ∧
        ∃ r, create ⟨[person]⟩ person agedAndNamed = .ok r ∧
          (∀ x ∈ agedAndNamed.conditions, ∃ b, r.evaluate annAndBob x = .ok b) ∧
          r.evaluate annAndBob agedAndNamed = .ok true := by
  have hcount : agedAndNamed.alternativeCount ≤ 64 := by decide
  obtain ⟨hexists, hall⟩ := distributes_exactly agedAndNamed
  obtain ⟨alternatives, hfound⟩ := hexists.mpr hcount
  obtain ⟨hlength, htruth⟩ := hall alternatives hfound
  obtain ⟨r, hr⟩ : ∃ r, create ⟨[person]⟩ person agedAndNamed = .ok r := ⟨_, rfl⟩
  have hconditions : ∀ x ∈ agedAndNamed.conditions, ∃ b, r.evaluate annAndBob x = .ok b := by
    cases hr
    exact List.forall_mem_cons.mpr ⟨⟨false, rfl⟩, List.forall_mem_cons.mpr ⟨⟨true, rfl⟩,
      List.forall_mem_cons.mpr ⟨⟨false, rfl⟩, List.forall_mem_singleton.mpr ⟨true, rfl⟩⟩⟩⟩
  obtain ⟨b, hb, htrue⟩ := htruth r annAndBob hconditions
  refine ⟨hcount, alternatives, hfound, hlength, r, hr, hconditions, hb.trans (congrArg _ ?_)⟩
  cases hr
  cases hfound
  refine htrue.mpr ⟨_, List.mem_of_getLast? rfl, ?_⟩
  exact List.forall_mem_cons.mpr ⟨rfl, List.forall_mem_singleton.mpr rfl⟩

end GraphTable.Expr
