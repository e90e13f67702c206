/-!
# Steps that may fail

How a success is taken apart: a chain of steps succeeds exactly if every step does
(`bind_eq_ok`; it fails where one of them does, `bind_eq_error`), and a step that is made for every
element of a list succeeds exactly if it does for each of them, in which case the results stand
where their elements stood (`mapM_eq_ok_iff`). Where it is enough that there are results,
`exists_mapM` and `exists_anyM` say so; a failure is that of some element (`ok_or_error_of_mapM`).
A test is true of a list where it is true of some element (`exists_of_anyM`, `anyM_of_mem`).
-/

namespace GraphTable.Outcome

variable {ε α β : Type}

theorem bind_eq_ok {x : Except ε α} {f : α → Except ε β} {b : β} :
    (x >>= f) = .ok b ↔ ∃ a, x = .ok a ∧ f a = .ok b := by
  cases x with
  | error e =>
    constructor
    · intro h
      cases h
    · rintro ⟨a, ha, -⟩
      cases ha
  | ok a =>
    constructor
    · exact fun h => ⟨a, rfl, h⟩
    · rintro ⟨_, ha, h⟩
      cases ha
      exact h

theorem bind_eq_error {x : Except ε α} {f : α → Except ε β} {e : ε} :
    (x >>= f) = .error e ↔ x = .error e ∨ ∃ a, x = .ok a ∧ f a = .error e := by
  cases x with
  | error e' =>
    constructor
    · intro h
      cases h
      exact .inl rfl
    · rintro (h | ⟨a, ha, -⟩)
      · cases h
        rfl
      · cases ha
  | ok a =>
    constructor
    · exact fun h => .inr ⟨a, rfl, h⟩
    · rintro (h | ⟨_, ha, h⟩)
      · cases h
      · cases ha
        exact h

/-- The error alone is renamed. -/
theorem mapError_ok {δ : Type} (f : ε → δ) (a : α) :
    (Except.ok a).mapError f = .ok a :=
  rfl

theorem mapError_eq_ok {δ : Type} {x : Except ε α} {f : ε → δ} {a : α} :
    x.mapError f = .ok a ↔ x = .ok a := by
  cases x with
  | error e =>
    constructor
    · intro h
      cases h
    · intro h
      cases h
  | ok b =>
    rw [mapError_ok]
    exact ⟨fun h => congrArg _ (Except.ok.inj h), fun h => congrArg _ (Except.ok.inj h)⟩

/-- Steps that come to the same but for the wording of errors do so one after the other. -/
theorem mapError_bind_congr {δ : Type} {x x' : Except ε Unit} {y y' : Except ε Unit} {f : ε → δ}
    (hx : x.mapError f = x'.mapError f) (hy : y.mapError f = y'.mapError f) :
    (x >>= fun _ => y).mapError f = (x' >>= fun _ => y').mapError f := by
  rcases x with e | ⟨⟩ <;> rcases x' with e' | ⟨⟩
  · exact hx
  · cases hx
  · cases hx
  · exact hy

/-- Steps in a row succeed only if all of them do. -/
theorem of_forM_eq_ok {f : α → Except ε Unit} {xs : List α} (h : xs.forM f = .ok ()) :
    ∀ x ∈ xs, f x = .ok () := by
  induction xs with
  | nil => exact List.forall_mem_nil _
  | cons x xs ih =>
    have h : (f x >>= fun _ => xs.forM f) = .ok () := h
    obtain ⟨⟨⟩, hx, hxs⟩ := bind_eq_ok.mp h
    exact List.forall_mem_cons.mpr ⟨hx, ih hxs⟩

theorem mapM_cons_eq_ok {f : α → Except ε β} {x : α} {xs : List α} {zs : List β} :
    (x :: xs).mapM f = .ok zs ↔ ∃ y ys, f x = .ok y ∧ xs.mapM f = .ok ys ∧ zs = y :: ys := by
  rw [List.mapM_cons, bind_eq_ok]
  constructor
  · rintro ⟨y, hy, h⟩
    obtain ⟨ys, hys, h⟩ := bind_eq_ok.mp h
    exact ⟨y, ys, hy, hys, (Except.ok.inj h).symm⟩
  · rintro ⟨y, ys, hy, hys, rfl⟩
    exact ⟨y, hy, bind_eq_ok.mpr ⟨ys, hys, rfl⟩⟩

/-- The results of a list stand where their elements stand. -/
theorem mapM_eq_ok_iff {f : α → Except ε β} {xs : List α} {ys : List β} :
    xs.mapM f = .ok ys ↔
      ys.length = xs.length ∧ ∀ p ∈ xs.zip ys, f p.1 = .ok p.2 := by
  induction xs generalizing ys with
  | nil =>
    constructor
    · intro h
      cases h
      exact ⟨rfl, by simp⟩
    · rintro ⟨hlen, -⟩
      rw [List.eq_nil_of_length_eq_zero hlen]
      rfl
  | cons x xs ih =>
    rw [mapM_cons_eq_ok]
    constructor
    · rintro ⟨y, ys, hy, hys, rfl⟩
      obtain ⟨hlen, hmem⟩ := ih.mp hys
      refine ⟨by simp [hlen], ?_⟩
      rw [List.zip_cons_cons]
      exact List.forall_mem_cons.mpr ⟨hy, hmem⟩
    · rintro ⟨hlen, hmem⟩
      cases ys with
      | nil => simp at hlen
      | cons y ys =>
        rw [List.zip_cons_cons] at hmem
        obtain ⟨hy, hmem⟩ := List.forall_mem_cons.mp hmem
        exact ⟨y, ys, hy, ih.mpr ⟨by simpa using hlen, hmem⟩, rfl⟩

/-- A step that can be made for every element of a list can be made for the list. -/
theorem exists_mapM {f : α → Except ε β} {P : β → Prop} {xs : List α}
    (h : ∀ x ∈ xs, ∃ y, f x = .ok y ∧ P y) : ∃ ys, xs.mapM f = .ok ys ∧ ∀ y ∈ ys, P y := by
  induction xs with
  | nil => exact ⟨[], rfl, fun _ hy => by cases hy⟩
  | cons x xs ih =>
    obtain ⟨y, hy, hp⟩ := h x List.mem_cons_self
    obtain ⟨ys, hys, hps⟩ := ih fun x' hx' => h x' (List.mem_cons_of_mem x hx')
    exact ⟨y :: ys, mapM_cons_eq_ok.mpr ⟨y, ys, hy, hys, rfl⟩, List.forall_mem_cons.mpr ⟨hp, hps⟩⟩

/-- A test that can be made of every element of a list can be made of the list. -/
theorem exists_anyM {f : α → Except ε Bool} {xs : List α} (h : ∀ x ∈ xs, ∃ b, f x = .ok b) :
    ∃ b, xs.anyM f = .ok b := by
  induction xs with
  | nil => exact ⟨false, rfl⟩
  | cons x xs ih =>
    obtain ⟨b, hb⟩ := h x List.mem_cons_self
    rw [List.anyM_cons, hb]
    cases b with
    | true => exact ⟨true, rfl⟩
    | false => exact ih fun x' hx' => h x' (List.mem_cons_of_mem x hx')

/-- A test is true of a list only if it is true of some element. -/
theorem exists_of_anyM {f : α → Except ε Bool} {xs : List α} (h : xs.anyM f = .ok true) :
    ∃ x ∈ xs, f x = .ok true := by
  induction xs with
  | nil => cases h
  | cons x xs ih =>
    rw [List.anyM_cons] at h
    obtain ⟨b, hb, h⟩ := bind_eq_ok.mp h
    cases b with
    | true => exact ⟨x, List.mem_cons_self, hb⟩
    | false =>
      obtain ⟨x', hx', htrue⟩ := ih h
      exact ⟨x', List.mem_cons_of_mem x hx', htrue⟩

/-- A test that is true of an element is true of the list, if no element lets it fail before. -/
theorem anyM_of_mem {f : α → Except ε Bool} {xs : List α} (h : ∀ x ∈ xs, ∃ b, f x = .ok b)
    {x : α} (hx : x ∈ xs) (htrue : f x = .ok true) : xs.anyM f = .ok true := by
  induction xs with
  | nil => cases hx
  | cons y ys ih =>
    obtain ⟨b, hb⟩ := h y List.mem_cons_self
    rw [List.anyM_cons, hb]
    cases b with
    | true => rfl
    | false =>
      refine ih (fun y' hy' => h y' (List.mem_cons_of_mem y hy')) ?_
      refine (List.mem_cons.mp hx).resolve_left ?_
      rintro rfl
      rw [hb] at htrue
      cases htrue

/-- A test that can be made of every element of a list is true of the list if of some element. -/
theorem anyM_eq_any {f : α → Except ε Bool} {holds : α → Bool} {xs : List α}
    (h : ∀ x ∈ xs, f x = .ok (holds x)) : xs.anyM f = .ok (xs.any holds) := by
  induction xs with
  | nil => rfl
  | cons x xs ih =>
    have hx : f x = .ok (holds x) := h x List.mem_cons_self
    have hxs : xs.anyM f = .ok (xs.any holds) := ih fun y hy => h y (List.mem_cons_of_mem x hy)
    rw [List.anyM_cons, hx, List.any_cons]
    cases holds x with
    | true => rfl
    | false => exact hxs

/-- A step made for every element of a list fails, if it does, where it fails for an element. -/
theorem ok_or_error_of_mapM (f : α → Except ε β) (xs : List α) :
    (∃ ys, xs.mapM f = .ok ys) ∨ ∃ x ∈ xs, ∃ e, f x = .error e ∧ xs.mapM f = .error e := by
  induction xs with
  | nil => exact .inl ⟨[], rfl⟩
  | cons x xs ih =>
    rw [List.mapM_cons]
    rcases hx : f x with e | y
    · exact .inr ⟨x, List.mem_cons_self, e, hx, rfl⟩
    · obtain ⟨ys, hys⟩ | ⟨x', hx', e, he, hxs⟩ := ih
      · exact .inl ⟨y :: ys, by rw [hys]; rfl⟩
      · exact .inr ⟨x', List.mem_cons_of_mem x hx', e, he, by rw [hxs]; rfl⟩

/-- A step that gives what another one gives does so for lists. -/
theorem mapM_of_imp {f f' : α → Except ε β} (h : ∀ x y, f x = .ok y → f' x = .ok y) {xs : List α}
    {ys : List β} (hf : xs.mapM f = .ok ys) : xs.mapM f' = .ok ys := by
  obtain ⟨hlen, hmem⟩ := mapM_eq_ok_iff.mp hf
  exact mapM_eq_ok_iff.mpr ⟨hlen, fun p hp => h p.1 p.2 (hmem p hp)⟩

theorem length_of_mapM {f : α → Except ε β} {xs : List α} {ys : List β}
    (h : xs.mapM f = .ok ys) : ys.length = xs.length :=
  (mapM_eq_ok_iff.mp h).1

theorem exists_of_mapM {f : α → Except ε β} {xs : List α} {ys : List β}
    (h : xs.mapM f = .ok ys) {i : Nat} {x : α} (hx : xs[i]? = some x) :
    ∃ y, ys[i]? = some y ∧ f x = .ok y := by
  obtain ⟨hlen, hmem⟩ := mapM_eq_ok_iff.mp h
  obtain ⟨hi, rfl⟩ := List.getElem?_eq_some_iff.mp hx
  have hi' : i < ys.length := hlen ▸ hi
  refine ⟨ys[i], List.getElem?_eq_getElem hi', hmem (xs[i], ys[i]) ?_⟩
  exact List.mem_iff_getElem.mpr ⟨i, by simp [List.length_zip]; omega, by simp⟩

/-- Every result is that of the element in its place. -/
theorem exists_of_mapM_result {f : α → Except ε β} {xs : List α} {ys : List β}
    (h : xs.mapM f = .ok ys) {i : Nat} {y : β} (hy : ys[i]? = some y) :
    ∃ x, xs[i]? = some x ∧ f x = .ok y := by
  obtain ⟨hi, rfl⟩ := List.getElem?_eq_some_iff.mp hy
  have hi' : i < xs.length := length_of_mapM h ▸ hi
  obtain ⟨y, hy', hf⟩ := exists_of_mapM h (List.getElem?_eq_getElem hi')
  rw [hy] at hy'
  exact ⟨xs[i], List.getElem?_eq_getElem hi', by rw [hf, ← Option.some.inj hy']⟩

theorem exists_mem_of_mapM {f : α → Except ε β} {xs : List α} {ys : List β}
    (h : xs.mapM f = .ok ys) {x : α} (hx : x ∈ xs) : ∃ y ∈ ys, f x = .ok y := by
  obtain ⟨i, hi⟩ := List.mem_iff_getElem?.mp hx
  obtain ⟨y, hy, hf⟩ := exists_of_mapM h hi
  exact ⟨y, List.mem_of_getElem? hy, hf⟩

/-- Every result is that of some element. -/
theorem exists_mem_of_mapM_result {f : α → Except ε β} {xs : List α} {ys : List β}
    (h : xs.mapM f = .ok ys) {y : β} (hy : y ∈ ys) : ∃ x ∈ xs, f x = .ok y := by
  obtain ⟨i, hi⟩ := List.mem_iff_getElem?.mp hy
  obtain ⟨x, hx, hf⟩ := exists_of_mapM_result h hi
  exact ⟨x, List.mem_of_getElem? hx, hf⟩

end GraphTable.Outcome
