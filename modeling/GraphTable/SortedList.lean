/-!
# Lists sorted by a key

A finite map kept as a list in strictly increasing order of a key that each entry carries.
`alter` puts an entry at a key, from the entry that is there already if there is one;
`find?_alter_self` and `find?_alter_of_ne` say what is found afterwards, and
`sorted_alter` that the order stays strict.
-/

namespace GraphTable.SortedList

variable {α κ : Type} [LT κ] [DecidableLT κ]

/-- Strictly increasing keys. -/
def Sorted (key : α → κ) (xs : List α) : Prop :=
  xs.Pairwise fun a b => key a < key b

/--
Puts an entry at key `k`: `f` gives it from the entry found there, and is meant to give one of
key `k`.
-/
def alter (key : α → κ) (k : κ) (f : Option α → α) : List α → List α
  | [] => [f none]
  | x :: xs =>
    if k < key x then f none :: x :: xs
    else if key x < k then x :: alter key k f xs
    else f (some x) :: xs

theorem mem_alter {key : α → κ} {k : κ} {f : Option α → α} {xs : List α} {y : α}
    (h : y ∈ alter key k f xs) : (∃ o, y = f o) ∨ y ∈ xs := by
  induction xs with
  | nil => simp only [alter, List.mem_singleton] at h; exact .inl ⟨_, h⟩
  | cons x xs ih =>
    simp only [alter] at h
    split at h
    · rcases List.mem_cons.1 h with rfl | h
      · exact .inl ⟨_, rfl⟩
      · exact .inr h
    · split at h
      · rcases List.mem_cons.1 h with rfl | h
        · exact .inr (by simp)
        · exact (ih h).imp id (List.mem_cons_of_mem _)
      · rcases List.mem_cons.1 h with rfl | h
        · exact .inl ⟨_, rfl⟩
        · exact .inr (List.mem_cons_of_mem _ h)

theorem forall_mem_alter {key : α → κ} {k : κ} {f : Option α → α} {P : α → Prop}
    (hnone : P (f none)) (hsome : ∀ x, P x → P (f (some x))) {xs : List α}
    (h : ∀ x ∈ xs, P x) : ∀ y ∈ alter key k f xs, P y := by
  induction xs with
  | nil => simpa [alter] using hnone
  | cons x xs ih =>
    have hxs : ∀ y ∈ xs, P y := fun y hy => h y (List.mem_cons_of_mem _ hy)
    simp only [alter]
    split
    · simpa [hnone] using h
    · split
      · simpa [h x (by simp)] using ih hxs
      · simpa [hsome x (h x (by simp))] using hxs

section Laws

private theorem eq_of_not_lt {κ : Type} [LT κ] [Std.Trichotomous (α := κ) (· < ·)] {a b : κ}
    (hab : ¬ a < b) (hba : ¬ b < a) : a = b :=
  Std.Trichotomous.trichotomous a b hab hba

private theorem ne_of_lt {κ : Type} [LT κ] [Std.Irrefl (α := κ) (· < ·)] {a b : κ}
    (h : a < b) : a ≠ b := by
  rintro rfl
  exact Std.Irrefl.irrefl a h

theorem find?_alter_of_ne [BEq κ] [LawfulBEq κ] [Std.Trichotomous (α := κ) (· < ·)] {key : α → κ}
    {k : κ} {f : Option α → α} (hf : ∀ o, key (f o) = k) {j : κ} (hj : j ≠ k) (xs : List α) :
    (alter key k f xs).find? (fun x => key x == j) = xs.find? fun x => key x == j := by
  have hne : ∀ o, (key (f o) == j) = false := by
    intro o; rw [hf]; simpa using hj.symm
  induction xs with
  | nil => simp [alter, hne]
  | cons x xs ih =>
    simp only [alter]
    split
    · rw [List.find?_cons, hne]
    · split
      · rw [List.find?_cons, List.find?_cons, ih]
      · rename_i h1 h2
        have hx : (key x == j) = false := by
          rw [← eq_of_not_lt h1 h2]; simpa using hj.symm
        rw [List.find?_cons, hne, List.find?_cons, hx]

variable [Trans (α := κ) (· < ·) (· < ·) (· < ·)] [Std.Trichotomous (α := κ) (· < ·)]

theorem sorted_alter {key : α → κ} {k : κ} {f : Option α → α} (hf : ∀ o, key (f o) = k)
    {xs : List α} (h : Sorted key xs) : Sorted key (alter key k f xs) := by
  induction xs with
  | nil => simp [alter, Sorted]
  | cons x xs ih =>
    have hx := List.pairwise_cons.1 h
    simp only [alter]
    split
    · rename_i hk
      refine List.pairwise_cons.2 ⟨fun y hy => ?_, h⟩
      rw [hf]
      rcases List.mem_cons.1 hy with rfl | hy
      · exact hk
      · exact Trans.trans hk (hx.1 y hy)
    · split
      · rename_i hk
        refine List.pairwise_cons.2 ⟨fun y hy => ?_, ih hx.2⟩
        rcases mem_alter hy with ⟨o, rfl⟩ | hy
        · rw [hf]; exact hk
        · exact hx.1 y hy
      · rename_i h1 h2
        have heq := eq_of_not_lt h1 h2
        refine List.pairwise_cons.2 ⟨fun y hy => ?_, hx.2⟩
        rw [hf, heq]
        exact hx.1 y hy

variable [BEq κ] [LawfulBEq κ] [Std.Irrefl (α := κ) (· < ·)]

theorem find?_alter_self {key : α → κ} {k : κ} {f : Option α → α} (hf : ∀ o, key (f o) = k)
    {xs : List α} (h : Sorted key xs) :
    (alter key k f xs).find? (fun x => key x == k) =
      some (f (xs.find? fun x => key x == k)) := by
  induction xs with
  | nil => simp [alter, hf]
  | cons x xs ih =>
    have hx := List.pairwise_cons.1 h
    simp only [alter]
    split
    · rename_i hk
      have hnone : (x :: xs).find? (fun y => key y == k) = none := by
        rw [List.find?_eq_none]
        intro y hy heq
        have hy' : key y = k := by simpa using heq
        rcases List.mem_cons.1 hy with rfl | hy
        · exact ne_of_lt hk hy'.symm
        · exact ne_of_lt (Trans.trans hk (hx.1 y hy)) hy'.symm
      rw [List.find?_cons, hf, hnone]
      simp
    · split
      · rename_i hk
        have hne : (key x == k) = false := by simpa using ne_of_lt hk
        rw [List.find?_cons, hne, List.find?_cons, hne, ih hx.2]
      · rename_i h1 h2
        have heq : (key x == k) = true := by simpa using (eq_of_not_lt h1 h2).symm
        rw [List.find?_cons, hf, List.find?_cons, heq]
        simp

end Laws

end GraphTable.SortedList
