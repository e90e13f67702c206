import GraphTable.Bytes
import GraphTable.Text.Basic
import GraphTable.Text.Utf8

/-!
# Rows of a table

A row is a key and a list of cells, each named by a column family and a qualifier within it.
Columns are ordered by family, then by qualifier. A row that was read through a column filter
holds only the cells that the filter lets pass.

Besides its data a row has metadata: a few columns for the graph as a whole, and for each
reference property a group of columns that describe its edges. The names of the latter are
built from the name of the type, an optional sequence number that tells objects of one type
apart, the name of the property and a code, with a delimiter between them.
-/

namespace GraphTable

/-! ### Columns, cells and rows -/

/-- The name of a column. -/
structure Column where
  family : Bytes
  qualifier : Bytes
  deriving DecidableEq, Repr

namespace Column

/-- Columns are ordered by family, then by qualifier. -/
instance : LT Column where
  lt a b := a.family < b.family ∨ (a.family = b.family ∧ a.qualifier < b.qualifier)

instance : DecidableLT Column := fun a b =>
  inferInstanceAs
    (Decidable (a.family < b.family ∨ (a.family = b.family ∧ a.qualifier < b.qualifier)))

theorem lt_iff {a b : Column} :
    a < b ↔ a.family < b.family ∨ (a.family = b.family ∧ a.qualifier < b.qualifier) :=
  Iff.rfl

instance : Std.Irrefl (α := Column) (· < ·) where
  irrefl a h := by
    rcases lt_iff.1 h with h | h
    · exact List.lt_irrefl _ h
    · exact List.lt_irrefl _ h.2

theorem lt_trans {a b c : Column} (h : a < b) (h' : b < c) : a < c := by
  rcases lt_iff.1 h with h | ⟨h, hq⟩ <;> rcases lt_iff.1 h' with h' | ⟨h', hq'⟩
  · exact .inl (List.lt_trans h h')
  · exact .inl (h' ▸ h)
  · exact .inl (h ▸ h')
  · exact .inr ⟨h.trans h', List.lt_trans hq hq'⟩

instance : Trans (α := Column) (· < ·) (· < ·) (· < ·) where
  trans := lt_trans

instance : Std.Trichotomous (α := Column) (· < ·) where
  trichotomous a b hab hba := by
    rw [lt_iff, not_or, not_and] at hab hba
    have hf : a.family = b.family :=
      Std.Trichotomous.trichotomous (r := (· < ·)) _ _ hab.1 hba.1
    have hq : a.qualifier = b.qualifier :=
      Std.Trichotomous.trichotomous (r := (· < ·)) _ _ (hab.2 hf) (hba.2 hf.symm)
    cases a; cases b; simp_all

end Column

/-- One cell of a row. -/
structure Cell where
  column : Column
  value : Bytes
  deriving DecidableEq, Repr

/-- A row. -/
structure Row where
  key : Bytes
  cells : List Cell
  deriving DecidableEq, Repr

namespace Row

/-- The content of a column; of several cells under one name the first counts. -/
def value? (r : Row) (c : Column) : Option Bytes :=
  (r.cells.find? fun cell => cell.column == c).map Cell.value

/-- Whether a row has a cell in a column. -/
def contains (r : Row) (c : Column) : Bool :=
  (r.value? c).isSome

end Row

/-! ### Names of metadata columns -/

/-- The metadata of a graph as a whole. -/
inductive GraphColumn
  /-- There on rows whose graph has been deleted. -/
  | tombstone
  | rootType
  | timestamp
  deriving DecidableEq, Repr

/-- The qualifier of a column. -/
def GraphColumn.code : GraphColumn → String
  | tombstone => "__TSTN__"
  | rootType => "__RTTP__"
  | timestamp => "__TSMP__"

/-- The metadata of the edges of a reference property. -/
inductive EdgeColumn
  | baseType
  | path
  | sequences
  | subType
  | rowKeys
  | count
  deriving DecidableEq, Repr

/-- What the qualifier of a column ends in. -/
def EdgeColumn.code : EdgeColumn → String
  | baseType => "_BTP_"
  | path => "_PTH_"
  | sequences => "_SQS_"
  | subType => "_STP_"
  | rowKeys => "_RKS_"
  | count => "_CNT_"

namespace Column

/-- The delimiter that is used where no other one is chosen: a vertical bar. -/
def defaultDelimiter : UInt8 := 124

/-- The qualifier of a column for the graph as a whole. -/
def graphQualifier (c : GraphColumn) : Bytes :=
  Text.utf8 c.code

/-- The decimal digits of a number, as bytes. -/
def decimal (n : Nat) : Bytes :=
  (Text.digits n).map fun c => UInt8.ofNat c.toNat

/-- The qualifier of a column for the edges of a property. -/
def edgeQualifier (delimiter : UInt8) (typeName : String) (sequence : Option UInt64)
    (property : String) (c : EdgeColumn) : Bytes :=
  let own := Text.utf8 typeName ++
    match sequence with
    | none => []
    | some n => delimiter :: decimal n.toNat
  own ++ delimiter :: (Text.utf8 property ++ delimiter :: Text.utf8 c.code)

end Column

/-!
### Column filters

A filter lets the cells of some families and of some single columns pass. The filter that
names neither lets every cell pass.
-/

/-- The families and the single columns whose cells are read. -/
structure ColumnFilter where
  families : List Bytes
  columns : List Column
  deriving DecidableEq, Repr

namespace ColumnFilter

/-- The filter that lets every cell pass. -/
def all : ColumnFilter := ⟨[], []⟩

/-- The filter that lets the cells of one family pass. -/
def ofFamily (family : Bytes) : ColumnFilter := ⟨[family], []⟩

/-- Whether a cell passes. -/
def accepts (f : ColumnFilter) (c : Cell) : Bool :=
  (f.families.isEmpty && f.columns.isEmpty) || f.families.contains c.column.family ||
    f.columns.contains c.column

/-- A row with only the cells that pass. -/
def project (f : ColumnFilter) (r : Row) : Row :=
  { r with cells := r.cells.filter f.accepts }

theorem accepts_all (c : Cell) : all.accepts c = true := rfl

theorem project_all (r : Row) : all.project r = r := by
  have h : r.cells.filter all.accepts = r.cells :=
    List.filter_eq_self.2 fun c _ => accepts_all c
  rw [project, h]

end ColumnFilter

end GraphTable
