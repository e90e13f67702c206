import GraphTable.Proofs.Predicate.Safety

/-!
# Scalar functions on typed data

Validation lets a function be applied to a property by the flavor of its type: functions of text to
text, all others to what is integral or real. Whether there is a value is decided by the variant of
the argument. The two agree but for **truth values**, which are integral and have no function
(`ScalarFunction.apply_cases`); the least whole number has no absolute value, either.

So a property that was checked with a function reaches the values of the function on every
well-typed graph, unless one of these is among its arguments (`Recognizer.collect_of_check`): they
are those that the property without its function reaches (`Property.reach_of_bare`), and which of
them are there is a matter of the graph alone. The values are of the type that the property is
compared as, so that comparing them with literals of that type does not fail.
-/

namespace GraphTable

/-! ### Single values -/

namespace DataType

variable {type : DataType}

theorem fits_int_iff {i : Int64} :
    type.fits (.int i) = true ↔ type.flavor = .integral ∧ type ≠ .boolean := by
  cases type <;> simp [fits, flavor]

theorem fits_float_iff {x : Binary64} : type.fits (.float x) = true ↔ type.flavor = .real := by
  cases type <;> simp [fits, flavor]

end DataType

namespace ScalarFunction

variable {f : ScalarFunction}

theorem apply_bool (f : ScalarFunction) (b : Bool) :
    f.apply (.bool b) = .error (.functionValue f (.bool b)) := by
  cases f <;> rfl

theorem apply_int (hf : f.isText = false) {i : Int64}
    (hleast : ¬ (f = .abs ∧ i = Int64.minValue)) : ∃ j, f.apply (.int i) = .ok (.int j) := by
  cases f with
  | abs => exact ⟨_, if_neg fun h => hleast ⟨rfl, h⟩⟩
  | ceiling => exact ⟨i, rfl⟩
  | floor => exact ⟨i, rfl⟩
  | round => exact ⟨i, rfl⟩
  | lower => cases hf
  | upper => cases hf

theorem apply_float (hf : f.isText = false) (x : Binary64) :
    ∃ y, f.apply (.float x) = .ok (.float y) := by
  cases f with
  | lower => cases hf
  | upper => cases hf
  | _ => exact ⟨_, rfl⟩

theorem apply_string (hf : f.isText = true) (s : String) :
    ∃ t, f.apply (.string s) = .ok (.string t) := by
  cases f with
  | lower => exact ⟨_, rfl⟩
  | upper => exact ⟨_, rfl⟩
  | _ => cases hf

/-- The type of the values of a function. -/
def resultType (f : ScalarFunction) (type : DataType) : DataType :=
  if f.isText then .string else type

theorem flavor_of_functionFits {flavor : Flavor} (h : Property.functionFits f flavor = true) :
    flavor ≠ .other := by
  rintro rfl
  cases f <;> cases h

/-- What a function gives can be compared. -/
theorem flavor_resultType {type : DataType} (h : Property.functionFits f type.flavor = true) :
    (f.resultType type).flavor ≠ .other := by
  rw [resultType]
  split
  · intro heq
    cases heq
  · exact flavor_of_functionFits h

/-- Arguments of a flavor that a function fits but for which it has no value. -/
inductive Refuses (f : ScalarFunction) : Value → EvalFault → Prop
  | truth (b : Bool) : Refuses f (.bool b) (.functionValue f (.bool b))
  | least (hf : f = .abs) : Refuses f (.int Int64.minValue) .absOverflow

theorem apply_of_refuses {v : Value} {fault : EvalFault} (h : f.Refuses v fault) :
    f.apply v = .error fault := by
  cases h with
  | truth b => exact apply_bool f b
  | least hf =>
    subst hf
    rfl

/-- What comes of an argument of a type that was checked. -/
theorem apply_cases {type : DataType} {v : Value}
    (hfits : Property.functionFits f type.flavor = true) (hv : type.fits v = true) :
    (∃ w, f.apply v = .ok w ∧ (f.resultType type).fits w = true) ∨ ∃ fault, f.Refuses v fault := by
  unfold Property.functionFits at hfits
  cases htext : f.isText with
  | true =>
    rw [htext, if_pos rfl, beq_iff_eq] at hfits
    obtain rfl : type = .string := by
      cases type <;> first | rfl | cases hfits
    obtain ⟨s, rfl⟩ : ∃ s, v = .string s := by
      cases v with
      | string s => exact ⟨s, rfl⟩
      | _ => cases hv
    obtain ⟨t, ht⟩ := apply_string htext s
    exact .inl ⟨_, ht, by rw [resultType, htext]; rfl⟩
  | false =>
    have hresult : f.resultType type = type := by
      rw [resultType, htext]
      rfl
    simp only [htext, Bool.false_eq_true, if_false, Bool.or_eq_true, beq_iff_eq] at hfits
    rw [hresult]
    cases v with
    | bool b => exact .inr ⟨_, .truth b⟩
    | int i =>
      by_cases hleast : f = .abs ∧ i = Int64.minValue
      · obtain ⟨hf, rfl⟩ := hleast
        exact .inr ⟨_, .least hf⟩
      · obtain ⟨j, hj⟩ := apply_int htext hleast
        exact .inl ⟨_, hj, DataType.fits_int_iff.mpr (DataType.fits_int_iff.mp hv)⟩
    | float x =>
      obtain ⟨y, hy⟩ := apply_float htext x
      exact .inl ⟨_, hy, DataType.fits_float_iff.mpr (DataType.fits_float_iff.mp hv)⟩
    | _ => rcases hfits with hfits | hfits <;> cases type <;> cases hfits <;> cases hv

end ScalarFunction

/-! ### Properties without their functions -/

namespace Property

variable {p : Property} {g : Graph}

/-- A property without its functions. -/
def bare (p : Property) : Property :=
  { p with functions := [] }

/-- The first function of a property applied to a value that may be absent. -/
def appliedTo (p : Property) : Option Value → Except EvalFault (Option Value)
  | none => .ok none
  | some v => (p.applied v).map some

theorem step_of_bare {name : String} {i : Nat} {js : List Nat}
    (h : p.bare.step g name i = .ok js) : p.step g name i = .ok js := by
  unfold step at h ⊢
  obtain ⟨n, hn, h⟩ := Outcome.bind_eq_ok.mp h
  refine Outcome.bind_eq_ok.mpr ⟨n, hn, ?_⟩
  split at h <;> first | exact h | cases h

theorem follow_of_bare {names : List String} {is js : List Nat}
    (h : p.bare.follow g names is = .ok js) : p.follow g names is = .ok js := by
  induction names generalizing is with
  | nil => exact h
  | cons name names ih =>
    obtain ⟨steps, hsteps, h⟩ := Outcome.bind_eq_ok.mp h
    exact Outcome.bind_eq_ok.mpr
      ⟨steps, Outcome.mapM_of_imp (fun _ _ => step_of_bare) hsteps, ih h⟩

theorem mapM_appliedTo_some (vs : List Value) :
    (vs.map some).mapM p.appliedTo = (vs.mapM p.applied).map (·.map some) := by
  induction vs with
  | nil => rfl
  | cons v vs ih =>
    rw [List.map_cons, List.mapM_cons, List.mapM_cons, ih]
    change (p.applied v).map some >>= _ = _
    rcases p.applied v with e | w
    · rfl
    · rcases vs.mapM p.applied with e | ws <;> rfl

section Contents

variable {endMany : Bool} {i : Nat} {n : Node} (hn : g.referred i = .ok n)

include hn

theorem valuesAt_of_unset (h : n.get? p.name = none) :
    p.valuesAt endMany g i = .ok (if endMany then [] else [none]) := by
  rw [valuesAt, hn]
  simp only [bind, Except.bind, h]
  rfl

theorem valuesAt_of_value {v : Value} (h : n.get? p.name = some (.value v)) :
    p.valuesAt endMany g i = (p.applied v).map fun w => [some w] := by
  rw [valuesAt, hn]
  simp only [bind, Except.bind, h]
  rcases p.applied v with e | w <;> rfl

theorem valuesAt_of_values {vs : List Value} (h : n.get? p.name = some (.values vs)) :
    p.valuesAt endMany g i = (vs.mapM p.applied).map (·.map some) := by
  rw [valuesAt, hn]
  simp only [bind, Except.bind, h]
  rcases vs.mapM p.applied with e | ws <;> rfl

theorem valuesAt_of_reference {content : Field} (h : n.get? p.name = some content)
    (hcontent : (∃ j, content = .one j) ∨ ∃ js, content = .many js) :
    p.valuesAt endMany g i = .error (.endHoldsReferences p) := by
  rw [valuesAt, hn]
  simp only [bind, Except.bind, h]
  obtain ⟨j, rfl⟩ | ⟨js, rfl⟩ := hcontent <;> rfl

end Contents

/-- At a node the function is applied to each value that the property has there. -/
theorem valuesAt_of_bare {endMany : Bool} {i : Nat} {ws : List (Option Value)}
    (h : p.bare.valuesAt endMany g i = .ok ws) :
    p.valuesAt endMany g i = ws.mapM p.appliedTo := by
  obtain ⟨n, hn, -⟩ := Outcome.bind_eq_ok.mp h
  rcases hcontent : n.get? p.name with _ | content
  · rw [valuesAt_of_unset (p := p.bare) hn hcontent] at h
    rw [valuesAt_of_unset hn hcontent, ← Except.ok.inj h]
    cases endMany <;> rfl
  · cases content with
    | value v =>
      rw [valuesAt_of_value (p := p.bare) hn hcontent] at h
      rw [valuesAt_of_value hn hcontent, ← Except.ok.inj h, List.mapM_cons, List.mapM_nil,
        appliedTo]
      rcases p.applied v with e | w <;> rfl
    | values vs =>
      have hsame : vs.mapM p.bare.applied = .ok vs :=
        (List.mapM_pure (f := id)).trans (congrArg Except.ok (List.map_id vs))
      rw [valuesAt_of_values (p := p.bare) hn hcontent, hsame] at h
      rw [valuesAt_of_values hn hcontent, ← Except.ok.inj h, mapM_appliedTo_some]
    | one j =>
      rw [valuesAt_of_reference (p := p.bare) hn hcontent (.inl ⟨j, rfl⟩)] at h
      cases h
    | many js =>
      rw [valuesAt_of_reference (p := p.bare) hn hcontent (.inr ⟨js, rfl⟩)] at h
      cases h

theorem mapM_valuesAt_of_bare {endMany : Bool} {js : List Nat} {wss : List (List (Option Value))}
    (h : js.mapM (p.bare.valuesAt endMany g) = .ok wss) :
    (js.mapM (p.valuesAt endMany g)).map List.flatten = wss.flatten.mapM p.appliedTo := by
  induction js generalizing wss with
  | nil =>
    cases h
    rfl
  | cons j js ih =>
    obtain ⟨us, uss, hus, huss, rfl⟩ := Outcome.mapM_cons_eq_ok.mp h
    rw [List.mapM_cons, valuesAt_of_bare hus, List.flatten_cons, List.mapM_append, ← ih huss]
    rcases us.mapM p.appliedTo with e | vs
    · rfl
    · rcases js.mapM (p.valuesAt endMany g) with e | vss <;> rfl

/-- What a property reaches without its functions, it reaches with the first one applied. -/
theorem reach_of_bare {endMany : Bool} {ws : List (Option Value)}
    (h : p.bare.reach endMany g = .ok ws) : p.reach endMany g = ws.mapM p.appliedTo := by
  have hpath : p.bare.path = p.path := rfl
  rw [reach, hpath] at h
  rw [reach]
  rcases hnames : stepNames? p.path with _ | names
  · rw [hnames] at h
    cases h
  · rw [hnames] at h
    obtain ⟨js, hjs, h⟩ := Outcome.bind_eq_ok.mp h
    obtain ⟨wss, hwss, h⟩ := Outcome.bind_eq_ok.mp h
    rw [← Except.ok.inj h, ← mapM_valuesAt_of_bare hwss]
    simp only [follow_of_bare hjs]
    rfl

/-! ### Checked properties -/

variable {catalog : Catalog} {root : TypeDef} {found : Resolved} {f : ScalarFunction}
  {fs : List ScalarFunction}

/-- What names lead to does not depend on the property that they are followed for. -/
theorem resolveNames_of_resolveNames {q : Property} {t : TypeDef} {many : Bool}
    {names : List String} (h : p.resolveNames catalog t many names = .ok found) :
    q.resolveNames catalog t many names = .ok found := by
  induction names generalizing t many with
  | nil => cases h
  | cons name rest ih =>
    cases rest with
    | nil =>
      obtain ⟨d, hd, hkind⟩ := data_of_resolveNames h
      rw [resolveNames] at h ⊢
      simp only [hd, hkind] at h ⊢
      exact h
    | cons next rest =>
      obtain ⟨d, target, t', hd, hkind, ht', h⟩ := reference_of_resolveNames h
      rw [resolveNames]
      simp only [hd, hkind, ht']
      exact ih h

theorem resolve_bare (h : p.resolve catalog root = .ok found) :
    p.bare.resolve catalog root = .ok found := by
  have hbare : p.bare.names? = p.names? := rfl
  rw [resolve] at h ⊢
  rw [hbare]
  rcases hnames : p.names? with _ | names
  · rw [hnames] at h
    cases h
  · rw [hnames] at h
    exact resolveNames_of_resolveNames h

theorem resolve_of_check (h : p.check catalog root = .ok found) :
    p.resolve catalog root = .ok found := by
  obtain ⟨found', hfound, h⟩ := Outcome.bind_eq_ok.mp h
  rw [hfound]
  split at h
  · exact h
  · split at h
    · cases h
    · split at h
      · exact h
      · cases h

theorem effectiveType_eq (hfun : p.functions = f :: fs) :
    found.effectiveType p = f.resultType found.type := by
  rw [Resolved.effectiveType, hfun]
  rfl

/-- A function is checked by the flavor of the type that the property resolves to. -/
theorem functionFits_of_check (h : p.check catalog root = .ok found)
    (hfun : p.functions = f :: fs) : functionFits f found.type.flavor = true := by
  obtain ⟨found', hfound, h⟩ := Outcome.bind_eq_ok.mp h
  rw [hfun] at h
  dsimp only at h
  split at h
  · cases h
  · split at h
    · cases h
      assumption
    · cases h

end Property

namespace Recognizer

variable {catalog : Catalog} {root : TypeDef} {e : Expr} {r : Recognizer} {g : Graph}
  {p : Property} {found : Resolved} {f : ScalarFunction} {fs : List ScalarFunction}

theorem mem_present {vs : List (Option Value)} {v : Value} : v ∈ present vs ↔ some v ∈ vs := by
  simp [present]

/-- What is collected are the values reached without the function, with the function applied. -/
theorem collect_eq_mapM (hg : g.WellTyped catalog root)
    (hfound : p.resolve catalog root = .ok found) (hr : r.resolve p = .ok found) :
    ∃ ws, p.bare.reach found.endMany g = .ok ws ∧ (∀ w ∈ present ws, found.type.Admits w) ∧
      r.collect g p = ws.mapM p.appliedTo := by
  obtain ⟨ws, hws, hadmits⟩ :=
    Property.reach_of_wellTyped hg (Property.resolve_bare hfound) rfl found.endMany
  refine ⟨ws, hws, fun w hw => hadmits w (mem_present.mp hw), ?_⟩
  rw [collect, hr]
  exact Property.reach_of_bare hws

/-- What a checked function does with the values of a type. -/
theorem mapM_appliedTo_cases (hfun : p.functions = f :: fs) {type : DataType}
    (hfits : Property.functionFits f type.flavor = true) {ws : List (Option Value)}
    (hws : ∀ w ∈ present ws, type.fits w = true) :
    (∃ w ∈ present ws, ∃ fault, f.Refuses w fault ∧ ws.mapM p.appliedTo = .error fault) ∨
      (∀ w ∈ present ws, ∀ fault, ¬ f.Refuses w fault) ∧
        ∃ vs, ws.mapM p.appliedTo = .ok vs ∧
          ∀ v ∈ present vs, (f.resultType type).fits v = true := by
  have happlied : ∀ w, p.appliedTo (some w) = (f.apply w).map some := fun w => by
    rw [Property.appliedTo, Property.applied, hfun]
  obtain ⟨vs, hvs⟩ | ⟨x, hx, fault, hfault, hall⟩ :=
    Outcome.ok_or_error_of_mapM p.appliedTo ws
  · refine .inr ⟨fun w hw fault hrefuses => ?_, vs, hvs, fun v hv => ?_⟩
    · obtain ⟨y, -, hy⟩ := Outcome.exists_mem_of_mapM hvs (mem_present.mp hw)
      rw [happlied, ScalarFunction.apply_of_refuses hrefuses] at hy
      cases hy
    · obtain ⟨x, hx, hxv⟩ := Outcome.exists_mem_of_mapM_result hvs (mem_present.mp hv)
      cases x with
      | none => cases hxv
      | some w =>
        obtain ⟨u, hu, hresult⟩ | ⟨fault, hrefuses⟩ :=
          ScalarFunction.apply_cases hfits (hws w (mem_present.mpr hx))
        · rw [happlied, hu] at hxv
          cases hxv
          exact hresult
        · rw [happlied, ScalarFunction.apply_of_refuses hrefuses] at hxv
          cases hxv
  · left
    cases x with
    | none => cases hfault
    | some w =>
      have hw := mem_present.mpr hx
      obtain ⟨v, hv, -⟩ | ⟨fault', hrefuses⟩ := ScalarFunction.apply_cases hfits (hws w hw)
      · rw [happlied, hv] at hfault
        cases hfault
      · rw [happlied, ScalarFunction.apply_of_refuses hrefuses] at hfault
        cases hfault
        exact ⟨w, hw, _, hrefuses, hall⟩

/-- A property with a function has the values of the function, unless that refuses one. -/
theorem collect_cases (hcheck : p.check catalog root = .ok found) (hr : r.resolve p = .ok found)
    (hfun : p.functions = f :: fs) (hg : g.WellTyped catalog root) :
    ∃ ws, p.bare.reach found.endMany g = .ok ws ∧ (∀ w ∈ present ws, found.type.fits w = true) ∧
      ((∃ w ∈ present ws, ∃ fault, f.Refuses w fault ∧ r.collect g p = .error fault) ∨
        (∀ w ∈ present ws, ∀ fault, ¬ f.Refuses w fault) ∧
          ∃ vs, r.collect g p = .ok vs ∧ ws.mapM p.appliedTo = .ok vs ∧
            ∀ v ∈ present vs, (found.effectiveType p).fits v = true) := by
  have hfits := Property.functionFits_of_check hcheck hfun
  obtain ⟨ws, hws, hadmits, hcollect⟩ := collect_eq_mapM hg (Property.resolve_of_check hcheck) hr
  have hvalues : ∀ w ∈ present ws, found.type.fits w = true := fun w hw =>
    DataType.fits_of_admits (ScalarFunction.flavor_of_functionFits hfits) (hadmits w hw)
  refine ⟨ws, hws, hvalues, ?_⟩
  rw [hcollect, Property.effectiveType_eq hfun]
  obtain hrefused | ⟨hnone, vs, hvs, hresult⟩ := mapM_appliedTo_cases hfun hfits hvalues
  · exact .inl hrefused
  · exact .inr ⟨hnone, vs, hvs, hvs, hresult⟩

/--
A property of a predicate that was checked with a function, on a well-typed graph. Without the
function it reaches values of its type. If one of them is a truth value, or the least whole number
where the function is that of the absolute value, collecting fails with the fault of such a value,
and nowhere else does it fail: then the values of the function are collected, and each of them can
be compared with all literals of the type that the property is compared as.
-/
theorem collect_of_check (hr : create catalog root e = .ok r) (hp : p ∈ e.properties)
    (hcheck : p.check catalog root = .ok found) (hfun : p.functions = f :: fs)
    (hg : g.WellTyped catalog root) :
    ∃ ws, p.bare.reach found.endMany g = .ok ws ∧ (∀ w ∈ present ws, found.type.fits w = true) ∧
      ((∃ w ∈ present ws, ∃ fault, f.Refuses w fault ∧ r.collect g p = .error fault) ∨
        (∀ w ∈ present ws, ∀ fault, ¬ f.Refuses w fault) ∧
          ∃ vs, r.collect g p = .ok vs ∧ ws.mapM p.appliedTo = .ok vs ∧
            ∀ v ∈ present vs, (found.effectiveType p).fits v = true ∧
              ∀ op literal, (found.effectiveType p).fits literal = true →
                ∃ b, (found.effectiveType p).satisfies op v literal = .ok b) := by
  obtain ⟨found', hresolve⟩ := exists_resolve_of_mem hr hp
  have hsame := resolve_of_create hr hresolve
  rw [Property.resolve_of_check hcheck] at hsame
  cases hsame
  have hother : (found.effectiveType p).flavor ≠ .other := by
    rw [Property.effectiveType_eq hfun]
    exact ScalarFunction.flavor_resultType (Property.functionFits_of_check hcheck hfun)
  obtain ⟨ws, hws, hvalues, hcases⟩ := collect_cases hcheck hresolve hfun hg
  refine ⟨ws, hws, hvalues, hcases.imp id ?_⟩
  rintro ⟨hnone, vs, hvs, happlied, hresult⟩
  refine ⟨hnone, vs, hvs, happlied, fun v hv => ⟨hresult v hv, fun op literal hliteral => ?_⟩⟩
  exact DataType.exists_satisfies hother (hresult v hv) hliteral op

end Recognizer

/-! ### Members of a club -/

namespace Members

/-- Members have an age and are active or not. -/
def member : TypeDef :=
  ⟨"http://club", "Member", [⟨"age", .data .int, false⟩, ⟨"active", .data .boolean, false⟩]⟩

def catalog : Catalog := ⟨[member]⟩

/-- An active member whose age was entered with a sign too many. -/
def ann : Graph :=
  ⟨[1], ⟨"Member", [("age", .value (.int (-39))), ("active", .value (.bool true))]⟩, []⟩

theorem wellTyped_ann : ann.WellTyped catalog member :=
  ⟨by decide +kernel, by decide +kernel⟩

/-- The absolute value of a property. -/
def absolute (name : String) : Property := ⟨[], name, [.abs]⟩

/-- The absolute value of a property is at least a literal. -/
def atLeast (name literal : String) : Expr :=
  .relational 0 .ge (.property 1 (absolute name)) (.text literal)

/-- The age has an absolute value. -/
theorem collect_absolute_age :
    (atLeast "age" "18").validate catalog member = .ok () ∧
      ∃ r, Recognizer.create catalog member (atLeast "age" "18") = .ok r ∧
        ∃ vs, r.collect ann (absolute "age") = .ok vs ∧
          ∀ v ∈ Recognizer.present vs, DataType.int.fits v = true := by
  refine ⟨rfl, _, rfl, ?_⟩
  have hcheck : (absolute "age").check catalog member = .ok ⟨.int, false, false⟩ := rfl
  obtain ⟨ws, hws, -, ⟨w, hw, fault, hrefuses, -⟩ | ⟨-, vs, hvs, -, hresult⟩⟩ :=
    Recognizer.collect_of_check (e := atLeast "age" "18") rfl (List.mem_singleton_self _) hcheck rfl
      wellTyped_ann
  · cases hws
    obtain rfl := List.mem_singleton.mp hw
    cases hrefuses
  · exact ⟨vs, hvs, fun v hv => (hresult v hv).1⟩

/-- Being active is integral and passes validation, but has no absolute value. -/
theorem not_collect_absolute_active :
    (atLeast "active" "false").validate catalog member = .ok () ∧
      (absolute "active").check catalog member = .ok ⟨.boolean, false, false⟩ ∧
      ann.WellTyped catalog member ∧
      ∃ r, Recognizer.create catalog member (atLeast "active" "false") = .ok r ∧
        r.collect ann (absolute "active") = .error (.functionValue .abs (.bool true)) ∧
        r.recognizes ann = .error (.functionValue .abs (.bool true)) :=
  ⟨rfl, rfl, wellTyped_ann, _, rfl, rfl, rfl⟩

end Members

end GraphTable
