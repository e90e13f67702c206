import GraphTable.Table.Basic

/-!
# Sources of rows

What queries read from: something that answers lookups by key and opens scans. Both may fail,
and so may any single row of an opened scan; failures are answers like others and carry the
reason that the outside gives. Openings are counted from 0, so that a source may answer each
opening in its own way.

A store opens its tables by name. What is opened is read from as long as it is needed.
-/

namespace GraphTable

/-- An answer of a source, or the reason why there is none. -/
abbrev Answer (α : Type) := Except String α

/-- Something that rows are read from. -/
structure RowSource where
  /-- The row of a key, with the cells that pass a filter. -/
  lookup : Bytes → ColumnFilter → Answer (Option Row)
  /-- The rows of a scan, given the number of scans opened before. -/
  openScan : Nat → Scan → ColumnFilter → Answer (List (Answer Row))

namespace RowSource

/-- The reason why a scan of a single key is not opened. -/
def pointScanReason : String := "complete keys are served by point lookups"

/-- A table as a source: it never fails, but scans of single keys are not opened. -/
def ofTable (t : Table) : RowSource where
  lookup key filter := .ok (t.row? key filter)
  openScan _ s filter :=
    if s.isPoint then .error pointScanReason else .ok ((t.scan s filter).map .ok)

/-- Where a source is to fail. -/
structure Failures where
  /-- The openings of scans that fail. -/
  openings : List Nat
  /-- The rows of scans that fail. -/
  rows : List Bytes
  /-- The lookups that fail. -/
  lookups : List Bytes

/-- A source that fails at given places and is as another one at all others. -/
def failingAt (source : RowSource) (f : Failures) : RowSource where
  lookup key filter :=
    if f.lookups.contains key then .error ("get " ++ Bytes.hex key ++ " failed")
    else source.lookup key filter
  openScan n s filter :=
    if f.openings.contains n then .error s!"scan {n} failed"
    else
      (source.openScan n s filter).map fun rows =>
        rows.map fun row => do
          let r ← row
          if f.rows.contains r.key then .error ("row " ++ Bytes.hex r.key ++ " failed") else row

end RowSource

/-! ### Stores -/

/-- Something that tables are opened from. -/
structure Store where
  openTable : String → Answer RowSource

namespace Store

/-- The store of tables that have names. -/
def ofTables (tables : List (String × Table)) : Store where
  openTable name :=
    match tables.lookup name with
    | some t => .ok (.ofTable t)
    | none => .error s!"no table named {name}"

/-- A store whose tables fail at given places. -/
def failingAt (s : Store) (f : RowSource.Failures) : Store where
  openTable name := (s.openTable name).map fun source => source.failingAt f

end Store

end GraphTable
