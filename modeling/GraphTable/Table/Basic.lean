import GraphTable.Row
import GraphTable.Scan
import GraphTable.SortedList

/-!
# Tables

A table is its rows in the order of their keys, each with its cells in the order of their
columns; both orders are strict, so a key has one row and a column one cell.

* Writing goes through `put`, which also makes the row if there is none, and `deleteRow`.
* Reading goes through `row?` and `scan`, both of which show only the cells that pass a column
  filter. A row that has no cell left is still read.
-/

namespace GraphTable

/-- Whether the rows of a list are in strict order, and their cells as well. -/
def Row.Ordered (rows : List Row) : Prop :=
  SortedList.Sorted Row.key rows ∧ ∀ r ∈ rows, SortedList.Sorted Cell.column r.cells

/-- The rows of a table, in order. -/
structure Table where
  rows : List Row
  ordered : Row.Ordered rows

namespace Table

/-- The table without rows. -/
def empty : Table := ⟨[], by simp [Row.Ordered, SortedList.Sorted]⟩

/-- The number of rows. -/
def size (t : Table) : Nat := t.rows.length

/-! ### Writing -/

/-- Puts a cell into a list of cells, in place of the one of its column. -/
def putCell (cells : List Cell) (c : Cell) : List Cell :=
  SortedList.alter Cell.column c.column (fun _ => c) cells

theorem sorted_putCell {cells : List Cell} (h : SortedList.Sorted Cell.column cells) (c : Cell) :
    SortedList.Sorted Cell.column (putCell cells c) :=
  SortedList.sorted_alter (fun _ => rfl) h

theorem sorted_foldl_putCell {cells : List Cell} (h : SortedList.Sorted Cell.column cells)
    (more : List Cell) : SortedList.Sorted Cell.column (more.foldl putCell cells) := by
  induction more generalizing cells with
  | nil => exact h
  | cons c more ih => exact ih (sorted_putCell h c)

/-- A row after cells have been put into it; without a row they are put into an empty one. -/
def merge (key : Bytes) (cells : List Cell) (old : Option Row) : Row :=
  ⟨key, cells.foldl putCell ((old.map Row.cells).getD [])⟩

theorem sorted_merge (key : Bytes) (cells : List Cell) {old : Option Row}
    (h : ∀ r, old = some r → SortedList.Sorted Cell.column r.cells) :
    SortedList.Sorted Cell.column (merge key cells old).cells := by
  refine sorted_foldl_putCell ?_ cells
  cases old with
  | none => simp [SortedList.Sorted]
  | some r => exact h r rfl

theorem ordered_alter_merge {rows : List Row} (h : Row.Ordered rows) (key : Bytes)
    (cells : List Cell) : Row.Ordered (SortedList.alter Row.key key (merge key cells) rows) :=
  ⟨SortedList.sorted_alter (f := merge key cells) (fun _ => rfl) h.1,
    SortedList.forall_mem_alter (sorted_merge key cells (by simp))
      (fun r hr => sorted_merge key cells fun s hs => by cases hs; exact hr) h.2⟩

/-- Puts cells into the row of a key. -/
def putRow (t : Table) (r : Row) : Table where
  rows := SortedList.alter Row.key r.key (merge r.key r.cells) t.rows
  ordered := ordered_alter_merge t.ordered r.key r.cells

/-- Puts one cell into the row of a key. -/
def put (t : Table) (key : Bytes) (c : Cell) : Table :=
  t.putRow ⟨key, [c]⟩

/-- Deletes the row of a key. -/
def deleteRow (t : Table) (key : Bytes) : Table where
  rows := t.rows.filter fun r => r.key != key
  ordered :=
    ⟨t.ordered.1.filter _, fun r hr => t.ordered.2 r (List.mem_filter.1 hr).1⟩

/-- The table of a list of rows, put in one after the other. -/
def ofRows (rows : List Row) : Table :=
  rows.foldl putRow empty

/-! ### Reading -/

/-- The row of a key. -/
def row? (t : Table) (key : Bytes) (filter : ColumnFilter) : Option Row :=
  (t.rows.find? fun r => r.key == key).map filter.project

/-- The rows that a scan selects, in order. -/
def scan (t : Table) (s : Scan) (filter : ColumnFilter) : List Row :=
  (t.rows.filter fun r => s.covers r.key).map filter.project

end Table

end GraphTable
