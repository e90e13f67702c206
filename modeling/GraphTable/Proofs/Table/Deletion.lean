import GraphTable.Table.Basic

/-!
# Tables without a row

Putting a cell into the row of a key and deleting that row touch no other row: the rows that are
left after deleting are the other rows after putting (`rows_deleteRow`), whether they are looked up
(`toList_row?_deleteRow`) or scanned (`scan_deleteRow`). The row itself has the cell that was put
into it (`contains_of_mem_put`).
-/

namespace GraphTable

namespace SortedList

variable {α κ : Type} [LT κ] [DecidableLT κ]

/-- What is put at a key is there. -/
theorem exists_mem_alter (key : α → κ) (k : κ) (f : Option α → α) (xs : List α) :
    ∃ o, f o ∈ alter key k f xs := by
  induction xs with
  | nil => exact ⟨none, List.mem_singleton_self _⟩
  | cons x xs ih =>
    unfold alter
    split
    · exact ⟨none, List.mem_cons_self⟩
    · split
      · obtain ⟨o, ho⟩ := ih
        exact ⟨o, List.mem_cons_of_mem _ ho⟩
      · exact ⟨some x, List.mem_cons_self⟩

/-- Putting at a key leaves the entries of all other keys. -/
theorem filter_alter [Std.Trichotomous (α := κ) (· < ·)] {key : α → κ} {k : κ}
    {f : Option α → α} (hf : ∀ o, key (f o) = k) {p : α → Bool}
    (hp : ∀ x, key x = k → p x = false) (xs : List α) :
    (alter key k f xs).filter p = xs.filter p := by
  have hdrop : ∀ x ys, key x = k → (x :: ys).filter p = ys.filter p := fun x ys hx =>
    List.filter_cons_of_neg (Bool.eq_false_iff.mp (hp x hx))
  induction xs with
  | nil => exact hdrop _ [] (hf none)
  | cons x xs ih =>
    unfold alter
    split
    · exact hdrop _ _ (hf none)
    · split
      · rw [List.filter_cons, List.filter_cons, ih]
      · rename_i hnot hnot'
        have hx : k = key x := Std.Trichotomous.trichotomous _ _ hnot hnot'
        rw [hdrop _ _ (hf _), hdrop _ _ hx.symm]

omit [DecidableLT κ] in
/-- A key has one entry. -/
theorem eq_of_key_eq [Std.Irrefl (α := κ) (· < ·)] {key : α → κ} {xs : List α}
    (h : Sorted key xs) {x y : α} (hx : x ∈ xs) (hy : y ∈ xs) (heq : key x = key y) : x = y := by
  induction xs with
  | nil => cases hx
  | cons z xs ih =>
    obtain ⟨hz, hxs⟩ := List.pairwise_cons.mp h
    rcases List.mem_cons.mp hx with rfl | hx'
    · rcases List.mem_cons.mp hy with rfl | hy'
      · rfl
      · exact absurd (heq ▸ hz y hy') (Std.Irrefl.irrefl _)
    · rcases List.mem_cons.mp hy with rfl | hy'
      · exact absurd (heq ▸ hz x hx') (Std.Irrefl.irrefl _)
      · exact ih hxs hx' hy'

end SortedList

namespace Table

theorem key_merge (key : Bytes) (cells : List Cell) (old : Option Row) :
    (merge key cells old).key = key :=
  rfl

theorem key_of_row? {t : Table} {key : Bytes} {filter : ColumnFilter} {r : Row}
    (h : t.row? key filter = some r) : r.key = key := by
  obtain ⟨own, hown, rfl⟩ := Option.map_eq_some_iff.mp h
  have hkey := List.find?_some hown
  exact eq_of_beq hkey

variable (t : Table) (key : Bytes) (c : Cell)

/-- The rows after deleting are the other rows after putting. -/
theorem rows_deleteRow :
    (t.deleteRow key).rows = (t.put key c).rows.filter fun r => r.key != key :=
  (SortedList.filter_alter (key_merge key [c]) (fun r hr => by simp [hr]) t.rows).symm

theorem scan_deleteRow (s : Scan) (filter : ColumnFilter) :
    (t.deleteRow key).scan s filter =
      ((t.put key c).scan s filter).filter fun r => r.key != key := by
  rw [scan, scan, rows_deleteRow t key c, List.filter_map, List.filter_filter, List.filter_filter]
  congr 1
  exact List.filter_congr fun r _ => Bool.and_comm _ _

/-- A row that is deleted is not found any more. -/
theorem row?_deleteRow_self (filter : ColumnFilter) : (t.deleteRow key).row? key filter = none := by
  rw [row?, Option.map_eq_none_iff, List.find?_eq_none]
  intro r hr hkey
  have hother := (List.mem_filter.mp hr).2
  rw [eq_of_beq hkey] at hother
  simp at hother

theorem row?_deleteRow_of_ne {other : Bytes} (h : other ≠ key) (filter : ColumnFilter) :
    (t.deleteRow key).row? other filter = (t.put key c).row? other filter := by
  rw [row?, row?, rows_deleteRow t key c, List.find?_filter]
  congr 2
  funext r
  by_cases hr : r.key = other
  · simp [hr, h]
  · simp [hr]

theorem toList_row?_deleteRow (other : Bytes) (filter : ColumnFilter) :
    ((t.deleteRow key).row? other filter).toList =
      ((t.put key c).row? other filter).toList.filter fun r => r.key != key := by
  by_cases hother : other = key
  · rw [hother, t.row?_deleteRow_self]
    refine (List.filter_eq_nil_iff.mpr fun r hr => ?_).symm
    rw [key_of_row? (Option.mem_toList.mp hr)]
    simp
  · rw [t.row?_deleteRow_of_ne key c hother]
    refine (List.filter_eq_self.mpr fun r hr => ?_).symm
    rw [key_of_row? (Option.mem_toList.mp hr)]
    simpa using hother

/-- The row that a cell was put into has it, as far as the cell is read. -/
theorem contains_of_mem_put {r : Row} {filter : ColumnFilter} (hr : r ∈ (t.put key c).rows)
    (hkey : r.key = key) (haccepts : filter.accepts c = true) :
    (filter.project r).contains c.column = true := by
  obtain ⟨old, hold⟩ := SortedList.exists_mem_alter Row.key key (merge key [c]) t.rows
  obtain rfl : r = merge key [c] old :=
    SortedList.eq_of_key_eq (t.put key c).ordered.1 hr hold hkey
  obtain ⟨o, hcell⟩ :=
    SortedList.exists_mem_alter Cell.column c.column (fun _ => c) ((old.map Row.cells).getD [])
  have hread : c ∈ (filter.project (merge key [c] old)).cells :=
    List.mem_filter.mpr ⟨hcell, haccepts⟩
  rw [Row.contains, Row.value?, Option.isSome_map, List.find?_isSome]
  exact ⟨c, hread, beq_self_eq_true _⟩

end Table

end GraphTable
