import GraphTable.Results.Order
import Mathlib.Order.Compare

/-!
# Sorting is stable

Elements are sorted by putting them, one after the other, into a list that is in descending order.
An element passes those that it is below and stays in front of all others, so of elements that
compare as equal the later one stands in front; in the end the list is turned around.

What is asked of a sorted list is all that can be said of it (`StableSort.IsSorting`): its elements
are those that were sorted, it is in order, and the elements that compare as equal to a given one
are in the order that they had. Sorting comes to this for every comparison that is a preorder. It is
**enough** that the comparison agrees with one on the elements that are sorted (`isSorting_sort`).
-/

namespace GraphTable.StableSort

variable {α : Type} {cmp cmp' : α → α → Ordering} {xs sorted : List α}

/-- A list is another one in order, where elements that compare as equal stay as they were. -/
structure IsSorting (cmp : α → α → Ordering) (xs ys : List α) : Prop where
  perm : ys.Perm xs
  ordered : ys.Pairwise fun x y => (cmp x y).isLE = true
  stable : ∀ x ∈ xs, ys.filter (fun y => cmp x y == .eq) = xs.filter (fun y => cmp x y == .eq)

/-! ### Preorders -/

section Preorder

variable [Std.TransCmp cmp]

theorem pairwise_place (h : sorted.Pairwise fun x y => (cmp x y).isGE = true) (x : α) :
    (place cmp x sorted).Pairwise fun x y => (cmp x y).isGE = true := by
  induction sorted with
  | nil => exact List.pairwise_singleton _ x
  | cons y ys ih =>
    obtain ⟨hy, hys⟩ := List.pairwise_cons.mp h
    rw [place]
    split
    · rename_i hlt
      refine List.pairwise_cons.mpr ⟨fun z hz => ?_, ih hys⟩
      rcases List.mem_cons.mp ((perm_place cmp x ys).mem_iff.mp hz) with rfl | hz
      · have hswap : cmp y z = (cmp z y).swap := Std.OrientedCmp.eq_swap
        rw [hswap, hlt]
        rfl
      · exact hy z hz
    · rename_i hnot
      have hge : (cmp x y).isGE = true := Ordering.isGE_iff_ne_lt.mpr hnot
      refine List.pairwise_cons.mpr ⟨fun z hz => ?_, h⟩
      rcases List.mem_cons.mp hz with rfl | hz
      · exact hge
      · exact Std.TransCmp.isGE_trans hge (hy z hz)

/-- Of the elements that compare as equal to a given one, the last that was placed is in front. -/
theorem filter_place (g x : α) (ys : List α) :
    (place cmp x ys).filter (fun y => cmp g y == .eq) =
      (x :: ys).filter (fun y => cmp g y == .eq) := by
  induction ys with
  | nil => rfl
  | cons y ys ih =>
    rw [place]
    split
    · rename_i hlt
      rw [List.filter_cons, ih]
      by_cases hx : cmp g x = .eq
      · -- an element that is passed does not compare as equal
        have hy : cmp g y = .lt := Std.TransCmp.lt_of_eq_of_lt hx hlt
        simp [List.filter_cons, hy]
      · simp [List.filter_cons, hx]
    · rfl

theorem pairwise_foldl_place (xs : List α)
    (h : sorted.Pairwise fun x y => (cmp x y).isGE = true) :
    (xs.foldl (fun sorted x => place cmp x sorted) sorted).Pairwise
      fun x y => (cmp x y).isGE = true := by
  induction xs generalizing sorted with
  | nil => exact h
  | cons x xs ih => exact ih (pairwise_place h x)

theorem filter_foldl_place (g : α) (xs sorted : List α) :
    (xs.foldl (fun sorted x => place cmp x sorted) sorted).filter (fun y => cmp g y == .eq) =
      (xs.reverse ++ sorted).filter (fun y => cmp g y == .eq) := by
  induction xs generalizing sorted with
  | nil => rfl
  | cons x xs ih =>
    rw [List.foldl_cons, ih, List.filter_append, filter_place, ← List.filter_append,
      List.reverse_cons, List.append_assoc, List.singleton_append]

theorem isSorting_sort_of_transCmp (cmp : α → α → Ordering) [Std.TransCmp cmp] (xs : List α) :
    IsSorting cmp xs (sort cmp xs) where
  perm := perm_sort cmp xs
  ordered := by
    refine List.pairwise_reverse.mpr ((pairwise_foldl_place xs List.Pairwise.nil).imp ?_)
    intro x y hge
    have hswap : cmp y x = (cmp x y).swap := Std.OrientedCmp.eq_swap
    rw [hswap, Ordering.isLE_swap]
    exact hge
  stable x _ := by
    rw [sort, List.filter_reverse, filter_foldl_place, List.append_nil, List.filter_reverse,
      List.reverse_reverse]

end Preorder

/-! ### Comparisons that agree with a preorder -/

theorem place_congr {x : α} (h : ∀ y ∈ sorted, cmp x y = cmp' x y) :
    place cmp x sorted = place cmp' x sorted := by
  induction sorted with
  | nil => rfl
  | cons y ys ih =>
    obtain ⟨hy, hys⟩ := List.forall_mem_cons.mp h
    rw [place, place, hy, ih hys]

theorem foldl_place_congr (h : ∀ x ∈ xs ++ sorted, ∀ y ∈ xs ++ sorted, cmp x y = cmp' x y) :
    xs.foldl (fun sorted x => place cmp x sorted) sorted =
      xs.foldl (fun sorted x => place cmp' x sorted) sorted := by
  induction xs generalizing sorted with
  | nil => rfl
  | cons x xs ih =>
    have hplaced : place cmp x sorted = place cmp' x sorted :=
      place_congr fun y hy => h x List.mem_cons_self y (List.mem_append_right _ hy)
    have hsame : ∀ y, y ∈ xs ++ place cmp' x sorted → y ∈ x :: xs ++ sorted := fun y hy =>
      (((perm_place cmp' x sorted).append_left xs).trans List.perm_middle).mem_iff.mp hy
    rw [List.foldl_cons, List.foldl_cons, hplaced]
    exact ih fun y hy z hz => h y (hsame y hy) z (hsame z hz)

theorem IsSorting.congr {ys : List α} (h : IsSorting cmp' xs ys)
    (hcmp : ∀ x ∈ xs, ∀ y ∈ xs, cmp x y = cmp' x y) : IsSorting cmp xs ys where
  perm := h.perm
  ordered := h.ordered.imp_of_mem fun {x y} hx hy hle => by
    rwa [hcmp x (h.perm.mem_iff.mp hx) y (h.perm.mem_iff.mp hy)]
  stable x hx := by
    have hfilter : ∀ zs : List α, (∀ z ∈ zs, z ∈ xs) →
        zs.filter (fun y => cmp x y == .eq) = zs.filter (fun y => cmp' x y == .eq) := fun zs hzs =>
      List.filter_congr fun z hz => by rw [hcmp x hx z (hzs z hz)]
    rw [hfilter ys fun z hz => h.perm.mem_iff.mp hz, hfilter xs fun z hz => hz, h.stable x hx]

/-- Sorting puts elements in order and is stable, if the comparison is a preorder on them. -/
theorem isSorting_sort [Std.TransCmp cmp'] (h : ∀ x ∈ xs, ∀ y ∈ xs, cmp x y = cmp' x y) :
    IsSorting cmp xs (sort cmp xs) := by
  have hsort : sort cmp xs = sort cmp' xs :=
    congrArg List.reverse (foldl_place_congr (by rwa [List.append_nil]))
  rw [hsort]
  exact (isSorting_sort_of_transCmp cmp' xs).congr h

end GraphTable.StableSort
