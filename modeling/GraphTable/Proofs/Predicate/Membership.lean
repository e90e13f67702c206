import GraphTable.Proofs.Predicate.Paths

/-!
# Membership tests are disjunctions of equalities

A membership test takes the members of its list apart and compares each value of the property with
each of them, the values on the outside. A disjunction of comparisons goes the other way round: the
members are on the outside, and every comparison looks the property up again. On types whose values
are whole numbers or truth values the two come to the same, in whatever way the comparisons are
nested (`Recognizer.membership_eq_disjunction`):

* A value is in the list if the text of some member reads as that value.
* The test for not being in the list is true if **some** value that is there is none of the members.
  So it is not the negation of the other test in general: both are true if one value is a member and
  another one is not, and both are false if there is no value. It is the negation if there is just
  one value.
* A list of blanks and delimiters alone has no members, and nothing is in it.

Since a type has one value for each number, comparing for equality is being the same value
(`DataType.satisfies_eq_of_fits`).
-/

namespace GraphTable

/-- Equality of values of one type is being the same value. -/
theorem DataType.satisfies_eq_of_fits {type : DataType} {v w : Value} (hreal : type.flavor ≠ .real)
    (hother : type.flavor ≠ .other) (hv : type.fits v = true) (hw : type.fits w = true) :
    type.satisfies .eq v w = .ok (decide (v = w)) := by
  obtain ⟨o, ho⟩ := exists_compareAs? hreal hother hv hw
  have hsame : o = .eq ↔ v = w := by
    rw [← compareAs?_eq_iff hreal hother hv hw, ho, Option.some.injEq]
  have hholds : RelationalOp.eq.holds o = decide (v = w) := by
    rw [Bool.eq_iff_iff, decide_eq_true_iff, ← hsame]
    exact beq_iff_eq
  rw [satisfies_of_compareAs? hv hother ho, hholds]

/-- Comparisons of a property with some texts for equality, joined by disjunctions in any
nesting. -/
inductive Expr.EqualsAny (p : Property) : List String → Expr → Prop
  | one (i j : NodeId) (text : String) :
      EqualsAny p [text] (.relational i .eq (.property j p) (.text text))
  | or (i : NodeId) {texts more : List String} {a b : Expr} (left : EqualsAny p texts a)
      (right : EqualsAny p more b) : EqualsAny p (texts ++ more) (.logical i .or a b)

namespace Recognizer

variable {r : Recognizer} {g : Graph} {p : Property}

/-- A disjunction of comparisons that have truth values has the disjunction of these. -/
theorem evaluate_of_equalsAny {holds : String → Bool} {texts : List String} {e : Expr}
    (h : e.EqualsAny p texts)
    (hholds : ∀ i j, ∀ text ∈ texts,
      r.evaluate g (.relational i .eq (.property j p) (.text text)) = .ok (holds text)) :
    r.evaluate g e = .ok (texts.any holds) := by
  induction h with
  | one i j text =>
    rw [hholds i j text (List.mem_singleton_self text), List.any_cons, List.any_nil, Bool.or_false]
  | @or i texts more a b _ _ iha ihb =>
    have ha := iha fun i j text htext => hholds i j text (List.mem_append_left more htext)
    have hb := ihb fun i j text htext => hholds i j text (List.mem_append_right texts htext)
    rw [evaluate, ha, hb, List.any_append]
    cases texts.any holds <;> rfl

/-! ### Members -/

/-- Whether a text reads as one of some values. -/
def readsAmong (type : DataType) (vs : List Value) (text : String) : Bool :=
  match type.read text with
  | .ok w => decide (w ∈ vs)
  | .error _ => false

theorem readsAmong_iff {type : DataType} {vs : List Value} {text : String} :
    readsAmong type vs text = true ↔ ∃ v ∈ vs, type.read text = .ok v := by
  unfold readsAmong
  rcases type.read text with reason | w
  · simp
  · simp

variable {type : DataType} {texts : List String}

/-- The members of a list are the values that their texts read as. -/
theorem exists_members_iff (hstring : type.flavor ≠ .string)
    (h : ∀ text ∈ texts, ∃ w, type.read text = .ok w) :
    ∃ ws, members type texts = .ok ws ∧
      ∀ w, w ∈ ws ↔ ∃ text ∈ texts, type.read text = .ok w := by
  have hread : ∀ text ∈ texts, ∃ w, type.readEval text = .ok w ∧ True := by
    intro text htext
    obtain ⟨w, hw⟩ := h text htext
    exact ⟨w, Outcome.mapError_eq_ok.mpr hw, trivial⟩
  obtain ⟨ws, hws, -⟩ := Outcome.exists_mapM (P := fun _ => True) hread
  refine ⟨ws, (if_neg hstring).trans hws, fun w => ⟨fun hw => ?_, ?_⟩⟩
  · obtain ⟨text, htext, heval⟩ := Outcome.exists_mem_of_mapM_result hws hw
    exact ⟨text, htext, Outcome.mapError_eq_ok.mp heval⟩
  · rintro ⟨text, htext, hw⟩
    obtain ⟨w', hw', heval⟩ := Outcome.exists_mem_of_mapM hws htext
    have hsame := (Outcome.mapError_eq_ok.mp heval).symm.trans hw
    rwa [← Except.ok.inj hsame]

theorem isMember_eq_mem (hintegral : type.flavor = .integral) {ws : List Value} {v : Value}
    (hv : type.fits v = true) (hws : ∀ w ∈ ws, type.fits w = true) :
    isMember type ws v = .ok (decide (v ∈ ws)) := by
  have hequal : ∀ w ∈ ws, type.satisfies .eq v w = .ok (decide (v = w)) := fun w hw =>
    DataType.satisfies_eq_of_fits (by simp [hintegral]) (by simp [hintegral]) hv (hws w hw)
  have hmem : ws.any (fun w => decide (v = w)) = decide (v ∈ ws) := by
    rw [Bool.eq_iff_iff]
    simp
  rw [isMember, if_neg (by simp [hintegral]), Outcome.anyM_eq_any hequal, hmem]

/-- The delimiter of a list: its own one, or else that of the recognizer, if they are not empty. -/
theorem delimiterOf_withDelimiter {catalog : Catalog} {root : TypeDef} {e : Expr}
    (h : create catalog root e = .ok r) (delimiter : String) (own : Option String) :
    (r.withDelimiter delimiter).delimiterOf own =
      (own.filter (· ≠ "")).getD (if delimiter = "" then " " else delimiter) := by
  have hspace : r.delimiter = " " := by
    obtain ⟨resolved, -, hr⟩ := Outcome.bind_eq_ok.mp h
    rw [← Except.ok.inj hr]
  have hdefault : (r.withDelimiter delimiter).delimiter =
      if delimiter = "" then " " else delimiter := by
    rw [withDelimiter]
    split
    · exact hspace
    · rfl
  unfold delimiterOf
  rw [hdefault]
  rcases own with _ | d
  · rfl
  · by_cases hd : d = "" <;> simp [Option.filter, hd]

/-! ### Membership and equality -/

section Plain

variable {found : Resolved} {vs : List (Option Value)} {i j : NodeId} (hr : r.resolve p = .ok found)
  (hfun : p.functions = []) (hvs : r.collect g p = .ok vs)
  (hintegral : found.type.flavor = .integral)
  (hfits : ∀ v ∈ present vs, found.type.fits v = true)

include hr hfun hvs hintegral hfits

/-- A comparison for equality is true if the value of the literal is there. -/
theorem evaluate_equality {text : String} {w : Value} (hread : found.type.read text = .ok w) :
    r.evaluate g (.relational i .eq (.property j p) (.text text)) =
      .ok (readsAmong found.type (present vs) text) := by
  have hcompared : r.compared g (.property j p) = .ok (found.type, vs) := by
    rw [compared, hr, hvs, ← Resolved.effectiveType_of_plain hfun]
    rfl
  have hequal : ∀ v ∈ present vs, found.type.satisfies .eq v w = .ok (decide (v = w)) :=
    fun v hv => DataType.satisfies_eq_of_fits (by simp [hintegral]) (by simp [hintegral])
      (hfits v hv) (DataType.fits_of_read hread)
  have hmem : (present vs).any (fun v => decide (v = w)) =
      readsAmong found.type (present vs) text := by
    rw [Bool.eq_iff_iff, readsAmong_iff, hread]
    simp
  rw [evaluate_of_compared hcompared]
  dsimp only
  rw [compareText_of_read hread, Outcome.anyM_eq_any hequal, hmem]

/-- A membership test asks for a value that is, or is not, among those of the members. -/
theorem membership_eq_any {text : String} {own : Option String} {ws : List Value}
    (hws : members found.type (pieces (r.delimiterOf own) text) = .ok ws)
    (hwsfits : ∀ w ∈ ws, found.type.fits w = true) (isIn : Bool) :
    r.membership g isIn p (.text text) own =
      .ok ((present vs).any fun v => decide (v ∈ ws) == isIn) := by
  have hflavor : ¬ (found.type.flavor = .temporal ∨ found.type.flavor = .other) := by
    simp [hintegral]
  have htests : ∀ v ∈ present vs,
      (do return (← isMember found.type ws v) == isIn : Except EvalFault Bool) =
        .ok (decide (v ∈ ws) == isIn) := by
    intro v hv
    rw [isMember_eq_mem hintegral (hfits v hv) hwsfits]
    rfl
  rw [membership, hr]
  simp only [bind, Except.bind, Resolved.effectiveType_of_plain hfun, if_neg hflavor, hws, hvs]
  exact Outcome.anyM_eq_any htests

end Plain

/--
Tests of a property without functions for being in a list and for not being in it, where the type of
the property is integral and the texts of all members are literals of it, on a well-typed graph. The
members are set apart by the delimiter of the list, or if it has none or an empty one, by that of
the recognizer, which is a space if it is empty. Both tests have a truth value. That of the first is
the one of every disjunction of comparisons with the members for equality, however it is nested. A
value is in the list if the text of a member reads as it; the first test asks for a value that is,
and the second one for a value that is not.
-/
theorem membership_eq_disjunction {catalog : Catalog} {root : TypeDef} {e : Expr}
    {found : Resolved} (hcreate : create catalog root e = .ok r) (hp : p ∈ e.properties)
    (hfun : p.functions = []) (hfound : p.resolve catalog root = .ok found)
    (hintegral : found.type.flavor = .integral) (delimiter : String) (own : Option String)
    (text : String) :
    let separator := (own.filter (· ≠ "")).getD (if delimiter = "" then " " else delimiter)
    let truth := (r.withDelimiter delimiter).evaluate g
    (∀ m ∈ pieces separator text, ∃ w, found.type.read m = .ok w) → g.WellTyped catalog root →
      ∃ vs isIn notIn, r.collect g p = .ok vs ∧
        (∀ i, truth (.test i .isIn p (.text text) own) = .ok isIn) ∧
        (∀ i, truth (.test i .notIn p (.text text) own) = .ok notIn) ∧
        (∀ x : Expr, x.EqualsAny p (pieces separator text) → truth x = .ok isIn) ∧
        (pieces separator text = [] → isIn = false) ∧
        (isIn = true ↔
          ∃ v ∈ present vs, ∃ m ∈ pieces separator text, found.type.read m = .ok v) ∧
        (notIn = true ↔
          ∃ v ∈ present vs, ∀ m ∈ pieces separator text, found.type.read m ≠ .ok v) ∧
        ((present vs).length = 1 → notIn = !isIn) := by
  intro separator truth hread hg
  obtain ⟨found', hfound', hr⟩ := exists_resolved hcreate hp delimiter
  obtain rfl := Except.ok.inj (hfound.symm.trans hfound')
  obtain ⟨vs, hvs, hadmits⟩ := exists_collect hg hfound hr hfun
  have hfits : ∀ v ∈ present vs, found.type.fits v = true := fun v hv =>
    DataType.fits_of_admits (by simp [hintegral]) (hadmits v hv)
  obtain ⟨ws, hws, hmem⟩ := exists_members_iff (by simp [hintegral]) hread
  have hwsfits : ∀ w ∈ ws, found.type.fits w = true := by
    intro w hw
    obtain ⟨m, -, hm⟩ := (hmem w).mp hw
    exact DataType.fits_of_read hm
  have hseparator : (r.withDelimiter delimiter).delimiterOf own = separator :=
    delimiterOf_withDelimiter hcreate delimiter own
  have htest := membership_eq_any hr hfun hvs hintegral hfits (hseparator.symm ▸ hws) hwsfits
  have hin : ((present vs).any fun v => decide (v ∈ ws) == true) = true ↔
      ∃ v ∈ present vs, ∃ m ∈ pieces separator text, found.type.read m = .ok v := by
    simp [hmem]
  have hcollect : r.collect g p = .ok vs := (collect_withDelimiter delimiter g p).symm.trans hvs
  refine ⟨vs, _, _, hcollect, fun i => htest true, fun i => htest false, ?_, ?_, hin, ?_, ?_⟩
  · intro x hx
    have hequality : ∀ i j, ∀ m ∈ pieces separator text,
        truth (.relational i .eq (.property j p) (.text m)) =
          .ok (readsAmong found.type (present vs) m) := by
      intro i j m hm
      obtain ⟨w, hw⟩ := hread m hm
      exact evaluate_equality hr hfun hvs hintegral hfits hw
    refine (evaluate_of_equalsAny hx hequality).trans (congrArg Except.ok ?_)
    -- the members are on the outside on one side, and the values on the other
    rw [Bool.eq_iff_iff, hin]
    simp only [List.any_eq_true, readsAmong_iff]
    constructor
    · rintro ⟨m, hm, v, hv, hw⟩
      exact ⟨v, hv, m, hm, hw⟩
    · rintro ⟨v, hv, m, hm, hw⟩
      exact ⟨m, hm, v, hv, hw⟩
  · intro hnone
    refine Bool.eq_false_iff.mpr fun htrue => ?_
    obtain ⟨v, -, m, hm, -⟩ := hin.mp htrue
    rw [hnone] at hm
    cases hm
  · simp [hmem]
  · intro hone
    obtain ⟨v, hv⟩ := List.length_eq_one_iff.mp hone
    rw [hv]
    simp

/-- The age is 31 or, on the other side, 30 or again 31. -/
def thirtyOrSo : Expr :=
  .logical 10 .or (.relational 11 .eq (.property 12 ⟨[], "age", []⟩) (.text "31"))
    (.logical 13 .or (.relational 14 .eq (.property 15 ⟨[], "age", []⟩) (.text "30"))
      (.relational 16 .eq (.property 17 ⟨[], "age", []⟩) (.text "31")))

/-- Ann is of age 30, and this is among the ages that have blanks around them and between them a
delimiter that is not the one of the recognizer. -/
theorem membership_thirtyOrSo :
    (∀ m ∈ pieces ";" " 31;; 30 ;31", ∃ w, DataType.int.read m = .ok w) ∧
      annAndBob.WellTyped ⟨[person]⟩ person ∧
      thirtyOrSo.EqualsAny ⟨[], "age", []⟩ (pieces ";" " 31;; 30 ;31") ∧
      ∃ r, create ⟨[person]⟩ person friendly = .ok r ∧
        (r.withDelimiter ",").evaluate annAndBob
          (.test 6 .isIn ⟨[], "age", []⟩ (.text " 31;; 30 ;31") (some ";")) = .ok true ∧
        (r.withDelimiter ",").evaluate annAndBob thirtyOrSo = .ok true ∧
        (r.withDelimiter ",").evaluate annAndBob
          (.test 6 .notIn ⟨[], "age", []⟩ (.text " 31;; 30 ;31") (some ";")) = .ok false := by
  have hmembers : pieces ";" " 31;; 30 ;31" = ["31", "30", "31"] := by decide +kernel
  have hread : ∀ m ∈ pieces ";" " 31;; 30 ;31", ∃ w, DataType.int.read m = .ok w := by
    rw [hmembers]
    exact List.forall_mem_cons.mpr ⟨⟨.int 31, rfl⟩, List.forall_mem_cons.mpr ⟨⟨.int 30, rfl⟩,
      List.forall_mem_singleton.mpr ⟨.int 31, rfl⟩⟩⟩
  have htyped : annAndBob.WellTyped ⟨[person]⟩ person := ⟨by decide +kernel, by decide +kernel⟩
  have hequals : thirtyOrSo.EqualsAny ⟨[], "age", []⟩ (pieces ";" " 31;; 30 ;31") := by
    rw [hmembers]
    exact .or 10 (.one 11 12 "31") (.or 13 (.one 14 15 "30") (.one 16 17 "31"))
  refine ⟨hread, htyped, hequals, _, rfl, ?_⟩
  have hmem : ⟨[], "age", []⟩ ∈ friendly.properties := by decide +kernel
  have hfound : (⟨[], "age", []⟩ : Property).resolve ⟨[person]⟩ person =
      .ok ⟨.int, false, false⟩ := rfl
  obtain ⟨vs, isIn, notIn, hvs, hin, hnot, hor, -, hiff, -, hone⟩ :=
    membership_eq_disjunction (e := friendly) rfl hmem rfl hfound rfl "," (some ";") " 31;; 30 ;31"
      hread htyped
  cases hvs
  have hthirty : "30" ∈ pieces ";" " 31;; 30 ;31" := by
    rw [hmembers]
    exact List.mem_cons_of_mem _ List.mem_cons_self
  have htrue : isIn = true := hiff.mpr ⟨.int 30, List.mem_singleton_self _, "30", hthirty, rfl⟩
  have hfalse : notIn = false := (hone rfl).trans (by rw [htrue]; rfl)
  rw [htrue] at hin hor
  rw [hfalse] at hnot
  exact ⟨hin 6, hor thirtyOrSo hequals, hnot 6⟩

end Recognizer

end GraphTable
