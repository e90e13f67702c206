import GraphTable.Proofs.Table.Deletion
import GraphTable.Table.Source
import Mathlib.Data.List.DropRight
import Mathlib.Data.List.Induction
import Mathlib.Data.List.Nodup

/-!
# Tables as histories of writes

Cells and rows are put into an empty table and rows are deleted (`Write`, `Table.written`). What the
table then holds of a row depends on the writes to its key after it was last deleted (`Write.since`)
and on nothing else:

* **There is a row** if there are such writes, be it that they put no cell into it.
* **Its cells** are, for every column that a cell was put into, the one that was put last
  (`Write.last?`).

Both follow from what a single write does to the row of a key (`find?_rows_after`), by induction on
the history from its end (`find?_rows_written`). Lookups and scans read the same rows: a range has
the rows that lookups of its keys find, in the order of their keys, and a template selects from
these (`reads_history`).
-/

namespace GraphTable

/-- A change to a table. -/
inductive Write
  | put (key : Bytes) (c : Cell)
  | putRow (r : Row)
  | deleteRow (key : Bytes)

namespace Write

/-- The key of the row that is written to. -/
def key : Write → Bytes
  | put key _ => key
  | putRow r => r.key
  | deleteRow key => key

/-- The cells that are put into the row, in order. -/
def cells : Write → List Cell
  | put _ c => [c]
  | putRow r => r.cells
  | deleteRow _ => []

/-- Whether the row is deleted. -/
def deletes : Write → Bool
  | deleteRow _ => true
  | _ => false

/-- The writes to a key after its row was last deleted, in order. -/
def since (key : Bytes) (ws : List Write) : List Write :=
  (ws.filter fun w => w.key == key).rtakeWhile fun w => !w.deletes

/-- The cells that were put into the row of a key after it was last deleted, in order. -/
def cellsSince (key : Bytes) (ws : List Write) : List Cell :=
  (since key ws).flatMap cells

/-- The content that was put last into a column of the row of a key, after that was last deleted. -/
def last? (key : Bytes) (ws : List Write) (column : Column) : Option Bytes :=
  ((cellsSince key ws).reverse.find? fun c => c.column == column).map Cell.value

variable {key : Bytes} {w : Write}

theorem since_concat_of_ne (h : w.key ≠ key) (ws : List Write) :
    since key (ws ++ [w]) = since key ws := by
  have hdropped : [w].filter (fun w => w.key == key) = [] :=
    List.filter_cons_of_neg (by simpa using h)
  rw [since, List.filter_append, hdropped, List.append_nil]
  rfl

theorem since_concat_of_deletes (hkey : w.key = key) (h : w.deletes = true) (ws : List Write) :
    since key (ws ++ [w]) = [] := by
  have hkept : [w].filter (fun w => w.key == key) = [w] :=
    List.filter_cons_of_pos (by simpa using hkey)
  rw [since, List.filter_append, hkept]
  exact List.rtakeWhile_concat_neg _ _ _ (by simp [h])

theorem since_concat_of_puts (hkey : w.key = key) (h : w.deletes = false) (ws : List Write) :
    since key (ws ++ [w]) = since key ws ++ [w] := by
  have hkept : [w].filter (fun w => w.key == key) = [w] :=
    List.filter_cons_of_pos (by simpa using hkey)
  rw [since, List.filter_append, hkept]
  exact List.rtakeWhile_concat_pos _ _ _ (by simp [h])

end Write

/-! ### Lists sorted by a key -/

namespace SortedList

variable {α κ : Type} [LT κ] [BEq κ] [LawfulBEq κ] [Std.Irrefl (α := κ) (· < ·)]

/-- What is found at a key is its only entry. -/
theorem find?_eq_some_iff_mem {key : α → κ} {xs : List α} (h : Sorted key xs) {x : α} {k : κ} :
    (xs.find? fun y => key y == k) = some x ↔ x ∈ xs ∧ key x = k := by
  constructor
  · intro hfound
    have hkey := List.find?_some hfound
    exact ⟨List.mem_of_find?_eq_some hfound, eq_of_beq hkey⟩
  · rintro ⟨hx, rfl⟩
    have hsome : (xs.find? fun y => key y == key x).isSome = true :=
      List.find?_isSome.mpr ⟨x, hx, beq_self_eq_true _⟩
    obtain ⟨y, hy⟩ := Option.isSome_iff_exists.mp hsome
    have hkey := List.find?_some hy
    rw [hy, eq_of_key_eq h (List.mem_of_find?_eq_some hy) hx (eq_of_beq hkey)]

omit [BEq κ] [LawfulBEq κ] in
/-- A sorted list is determined by its entries. -/
theorem eq_of_forall_mem_iff [Trans (α := κ) (· < ·) (· < ·) (· < ·)] {key : α → κ}
    {xs ys : List α} (hxs : Sorted key xs) (hys : Sorted key ys) (h : ∀ x, x ∈ xs ↔ x ∈ ys) :
    xs = ys := by
  have hirrefl : Std.Irrefl fun a b : α => key a < key b := ⟨fun a => Std.Irrefl.irrefl (key a)⟩
  have hperm : xs.Perm ys := (List.perm_ext_iff_of_nodup hxs.nodup hys.nodup).mpr h
  refine hperm.eq_of_pairwise ?_ hxs hys
  intro a b _ _ hab hba
  exact absurd (Trans.trans hab hba) (Std.Irrefl.irrefl (key a))

end SortedList

namespace Table

/-! ### Single writes -/

/-- The table after a write. -/
def after (t : Table) : Write → Table
  | .put key c => t.put key c
  | .putRow r => t.putRow r
  | .deleteRow key => t.deleteRow key

/-- The table after writes to an empty one. -/
def written (ws : List Write) : Table :=
  ws.foldl after empty

theorem written_concat (ws : List Write) (w : Write) :
    written (ws ++ [w]) = (written ws).after w := by
  rw [written, List.foldl_append]
  rfl

variable (t : Table) {w : Write} {key : Bytes}

/-- Deleting aside, writes put cells into a row. -/
theorem after_of_puts (h : w.deletes = false) : t.after w = t.putRow ⟨w.key, w.cells⟩ := by
  cases w with
  | put key c => rfl
  | putRow r => rfl
  | deleteRow key => cases h

/-- A write changes the row of its key, and no other one. -/
theorem find?_rows_after :
    (t.after w).rows.find? (fun r => r.key == key) =
      if w.key ≠ key then t.rows.find? fun r => r.key == key
      else if w.deletes then none
      else some (merge key w.cells (t.rows.find? fun r => r.key == key)) := by
  cases hdeletes : w.deletes with
  | false =>
    rw [t.after_of_puts hdeletes]
    by_cases hkey : w.key = key
    · subst hkey
      rw [if_neg (not_not_intro rfl), if_neg (by decide)]
      exact SortedList.find?_alter_self (key_merge w.key w.cells) t.ordered.1
    · rw [if_pos hkey]
      exact SortedList.find?_alter_of_ne (key_merge w.key w.cells) (Ne.symm hkey) t.rows
  | true =>
    obtain ⟨other, rfl⟩ : ∃ other, w = .deleteRow other := by
      cases w with
      | put key c => cases hdeletes
      | putRow r => cases hdeletes
      | deleteRow other => exact ⟨other, rfl⟩
    have hrows : (t.after (.deleteRow other)).rows = t.rows.filter fun r => r.key != other := rfl
    have hother : (Write.deleteRow other).key = other := rfl
    rw [hrows, hother, List.find?_filter]
    by_cases hkey : other = key
    · rw [if_neg (not_not_intro hkey), if_pos rfl, List.find?_eq_none]
      intro r _ hr
      simp [hkey] at hr
    · rw [if_pos hkey]
      congr 1
      funext r
      by_cases hr : r.key = key
      · simp [hr, Ne.symm hkey]
      · simp [hr]

/-! ### Histories -/

/-- The cells of a row are those that were put into it since it was last deleted. -/
theorem find?_rows_written (ws : List Write) (key : Bytes) :
    (written ws).rows.find? (fun r => r.key == key) =
      if Write.since key ws = [] then none
      else some ⟨key, (Write.cellsSince key ws).foldl putCell []⟩ := by
  induction ws using List.reverseRecOn with
  | nil => rfl
  | append_singleton ws w ih =>
    rw [written_concat, find?_rows_after, ih]
    by_cases hkey : w.key = key
    · rw [if_neg (not_not_intro hkey)]
      cases hdeletes : w.deletes with
      | true => rw [Write.since_concat_of_deletes hkey hdeletes, if_pos rfl, if_pos rfl]
      | false =>
        have hcells : Write.cellsSince key (ws ++ [w]) = Write.cellsSince key ws ++ w.cells := by
          rw [Write.cellsSince, Write.since_concat_of_puts hkey hdeletes, List.flatMap_append,
            List.flatMap_singleton]
          rfl
        rw [hcells, Write.since_concat_of_puts hkey hdeletes, if_neg (by decide),
          if_neg (List.append_ne_nil_of_right_ne_nil _ (List.cons_ne_nil w [])), List.foldl_append]
        -- a row that is not there is as good as one without cells
        by_cases hnone : Write.since key ws = []
        · rw [if_pos hnone, Write.cellsSince, hnone]
          rfl
        · rw [if_neg hnone]
          rfl
    · rw [if_pos hkey, Write.cellsSince, Write.cellsSince, Write.since_concat_of_ne hkey]

/-- Of the cells that are put into one column the last one stays. -/
theorem find?_foldl_putCell (cells : List Cell) (column : Column) :
    ((cells.foldl putCell []).find? fun c => c.column == column) =
      cells.reverse.find? fun c => c.column == column := by
  induction cells using List.reverseRecOn with
  | nil => rfl
  | append_singleton cells c ih =>
    have hsorted : SortedList.Sorted Cell.column (cells.foldl putCell []) :=
      sorted_foldl_putCell List.Pairwise.nil cells
    rw [List.foldl_append, List.reverse_append]
    change (putCell (cells.foldl putCell []) c).find? _ = (c :: cells.reverse).find? _
    rw [putCell, List.find?_cons]
    by_cases hcolumn : c.column = column
    · subst hcolumn
      rw [beq_self_eq_true]
      exact SortedList.find?_alter_self (fun _ => rfl) hsorted
    · rw [beq_false_of_ne hcolumn, ← ih]
      exact SortedList.find?_alter_of_ne (fun _ => rfl) (Ne.symm hcolumn) _

/-- The row of a key has the content that was put last into each of its columns. -/
theorem mem_foldl_putCell_iff {ws : List Write} {key : Bytes} {c : Cell} :
    c ∈ (Write.cellsSince key ws).foldl putCell [] ↔
      Write.last? key ws c.column = some c.value := by
  have hsorted : SortedList.Sorted Cell.column ((Write.cellsSince key ws).foldl putCell []) :=
    sorted_foldl_putCell List.Pairwise.nil _
  rw [Write.last?, ← find?_foldl_putCell]
  constructor
  · intro hc
    rw [(SortedList.find?_eq_some_iff_mem hsorted).mpr ⟨hc, rfl⟩]
    rfl
  · intro hlast
    obtain ⟨d, hfound, hvalue⟩ := Option.map_eq_some_iff.mp hlast
    obtain ⟨hd, hcolumn⟩ := (SortedList.find?_eq_some_iff_mem hsorted).mp hfound
    have hcd : d = c := by
      obtain ⟨column, value⟩ := c
      obtain ⟨column', value'⟩ := d
      cases hcolumn
      cases hvalue
      rfl
    exact hcd ▸ hd

/-! ### Reading -/

theorem row?_written (ws : List Write) (key : Bytes) (filter : ColumnFilter) :
    (written ws).row? key filter =
      if Write.since key ws = [] then none
      else some (filter.project ⟨key, (Write.cellsSince key ws).foldl putCell []⟩) := by
  rw [row?, find?_rows_written]
  split <;> rfl

theorem isSome_row?_written {ws : List Write} {key : Bytes} {filter : ColumnFilter} :
    ((written ws).row? key filter).isSome = true ↔ Write.since key ws ≠ [] := by
  rw [row?_written]
  split
  · rename_i hnone
    simp [hnone]
  · rename_i hsome
    simp [hsome]

/-- The row that is found at a key has the cells that were put last and pass the filter. -/
theorem row?_written_eq_some_iff {ws : List Write} {key : Bytes} {filter : ColumnFilter} {r : Row} :
    (written ws).row? key filter = some r ↔
      Write.since key ws ≠ [] ∧ r.key = key ∧ SortedList.Sorted Cell.column r.cells ∧
        ∀ c, c ∈ r.cells ↔
          filter.accepts c = true ∧ Write.last? key ws c.column = some c.value := by
  have hsorted : SortedList.Sorted Cell.column
      (((Write.cellsSince key ws).foldl putCell []).filter filter.accepts) :=
    (sorted_foldl_putCell List.Pairwise.nil _).filter _
  have hmem : ∀ c, c ∈ ((Write.cellsSince key ws).foldl putCell []).filter filter.accepts ↔
      filter.accepts c = true ∧ Write.last? key ws c.column = some c.value := by
    intro c
    rw [← mem_foldl_putCell_iff]
    exact List.mem_filter.trans And.comm
  rw [row?_written]
  by_cases hnone : Write.since key ws = []
  · rw [if_pos hnone]
    constructor
    · intro h
      cases h
    · rintro ⟨hsome, -⟩
      exact absurd hnone hsome
  · rw [if_neg hnone]
    constructor
    · intro h
      obtain rfl := Option.some.inj h
      exact ⟨hnone, rfl, hsorted, hmem⟩
    · rintro ⟨-, rfl, hcells, hiff⟩
      -- there is only one such list of cells
      have hsame := SortedList.eq_of_forall_mem_iff hsorted hcells fun c =>
        (hmem c).trans (hiff c).symm
      rw [ColumnFilter.project, hsame]

theorem sorted_scan (s : Scan) (filter : ColumnFilter) :
    SortedList.Sorted Row.key (t.scan s filter) := by
  rw [scan, SortedList.Sorted, List.pairwise_map]
  exact t.ordered.1.filter _

/-- A range has the rows that lookups of its keys find. -/
theorem mem_scan_range_iff {start : Bytes} {stop : Option Bytes} {filter : ColumnFilter}
    {r : Row} :
    r ∈ t.scan (.range start stop none) filter ↔
      Scan.inRange start stop r.key = true ∧ t.row? r.key filter = some r := by
  rw [scan, List.mem_map]
  constructor
  · rintro ⟨own, hown, rfl⟩
    obtain ⟨hmem, hcovers⟩ := List.mem_filter.mp hown
    have hfound : t.rows.find? (fun r => r.key == own.key) = some own :=
      (SortedList.find?_eq_some_iff_mem t.ordered.1).mpr ⟨hmem, rfl⟩
    have hrange : (Scan.inRange start stop own.key && true) = true := hcovers
    refine ⟨(Bool.and_true _).symm.trans hrange, ?_⟩
    change (t.rows.find? fun r => r.key == own.key).map filter.project = _
    rw [hfound]
    rfl
  · rintro ⟨hrange, hrow⟩
    obtain ⟨own, hfound, hproject⟩ := Option.map_eq_some_iff.mp hrow
    obtain ⟨hmem, hkey⟩ := (SortedList.find?_eq_some_iff_mem t.ordered.1).mp hfound
    refine ⟨own, List.mem_filter.mpr ⟨hmem, ?_⟩, hproject⟩
    rw [Scan.covers, hkey, hrange]
    rfl

/-- A template selects from the rows of its range. -/
theorem scan_fuzzy (template mask start : Bytes) (stop : Option Bytes) (filter : ColumnFilter) :
    t.scan (.fuzzy template mask start stop) filter =
      (t.scan (.range start stop none) filter).filter fun r =>
        Scan.matchesTemplate r.key template mask := by
  rw [scan, scan, List.filter_map, List.filter_filter]
  congr 1
  refine List.filter_congr fun r _ => ?_
  change (_ && _) = (Scan.matchesTemplate r.key template mask && (_ && true))
  rw [Bool.and_true, Bool.and_comm]

theorem lookup_ofTable {key : Bytes} {filter : ColumnFilter} {found : Option Row} :
    (RowSource.ofTable t).lookup key filter = .ok found ↔ t.row? key filter = found :=
  ⟨Except.ok.inj, congrArg _⟩

/--
What is read of a table after writes to an empty one. A lookup finds a row exactly if there were
writes to its key since it was last deleted, and then the row has, in the order of their columns,
the cells that pass the filter and were put last into their columns since. A range has the rows that
lookups of its keys find, each once and in the order of the keys, and a template has those of its
range whose keys match.
-/
theorem reads_history (ws : List Write) (filter : ColumnFilter) :
    (∀ key, ∃ found, (RowSource.ofTable (written ws)).lookup key filter = .ok found ∧
      (found.isSome = true ↔ Write.since key ws ≠ []) ∧
      ∀ r, found = some r ↔
        Write.since key ws ≠ [] ∧ r.key = key ∧ SortedList.Sorted Cell.column r.cells ∧
          ∀ c, c ∈ r.cells ↔
            filter.accepts c = true ∧ Write.last? key ws c.column = some c.value) ∧
    ∀ n start stop, ∃ rows,
      (RowSource.ofTable (written ws)).openScan n (.range start stop none) filter =
          .ok (rows.map .ok) ∧
      SortedList.Sorted Row.key rows ∧
      (∀ r, r ∈ rows ↔ start ≤ r.key ∧ (∀ above, stop = some above → r.key < above) ∧
        (RowSource.ofTable (written ws)).lookup r.key filter = .ok (some r)) ∧
      ∀ template mask,
        (RowSource.ofTable (written ws)).openScan n (.fuzzy template mask start stop) filter =
          .ok ((rows.filter fun r => Scan.matchesTemplate r.key template mask).map .ok) := by
  constructor
  · intro key
    exact ⟨(written ws).row? key filter, rfl, isSome_row?_written,
      fun r => row?_written_eq_some_iff⟩
  · intro n start stop
    refine ⟨(written ws).scan (.range start stop none) filter, rfl, sorted_scan _ _ _, ?_, ?_⟩
    · intro r
      rw [mem_scan_range_iff, Scan.inRange_iff, and_assoc, lookup_ofTable]
    · intro template mask
      rw [← scan_fuzzy]
      rfl

end Table

end GraphTable
