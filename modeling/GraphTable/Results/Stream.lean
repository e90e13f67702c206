import GraphTable.Results.Assembler
import GraphTable.Table.Source

/-!
# Collecting and streaming

Two ways to read the rows of some scans and to have their results. Neither reads anything any more
once the window is over.

A **collection** gives all results at once. It serves lookups of single rows as well, and the first
error is the result.

A **stream** yields the results one at a time, and reads no further than it has to: a scan is
opened when all rows of the one before it were read. Ordered results come only after everything
was read. Lookups of single rows are no scans. A stream that is given one of them yields an error,
and reads nothing. Every error ends the stream.
-/

namespace GraphTable

/-! ### Collecting all results -/

/-- How far collecting is. -/
structure Collection (σ : Type) where
  assembly : Assembly σ
  /-- How many scans the source was asked to open. -/
  asked : Nat
  /-- How many rows were looked up. -/
  lookups : Nat

/-- What results are collected from and by. -/
structure Collecting (σ : Type) where
  source : RowSource
  columns : ColumnFilter
  assembler : Assembler σ

namespace Collecting

variable {σ : Type}

/-- Takes in the rows of a scan, as long as the window is not over. -/
def takeRows (t : Collecting σ) :
    List (Answer Row) → Assembly σ → Except QueryError Unit × Assembly σ
  | [], s => (.ok (), s)
  | row :: rows, s =>
    if t.assembler.isOver s then (.ok (), s)
    else
      match row with
      | .error reason => (.error (.io reason), s)
      | .ok row =>
        match t.assembler.collect s row with
        | (.error e, s) => (.error e, s)
        | (.ok _, s) => t.takeRows rows s

/-- What a scan reads: the row of a lookup, if it is there, or the rows of a range. -/
def rowsOf (t : Collecting σ) (c : Collection σ) (scan : Scan) :
    Answer (List (Answer Row)) × Collection σ :=
  match scan with
  | .point key =>
    ((t.source.lookup key t.columns).map fun row => row.toList.map .ok,
      { c with lookups := c.lookups + 1 })
  | scan => (t.source.openScan c.asked scan t.columns, { c with asked := c.asked + 1 })

/-- Takes in the rows of scans one after the other, as long as the window is not over. -/
def takeScans (t : Collecting σ) :
    List Scan → Collection σ → Except QueryError Unit × Collection σ
  | [], c => (.ok (), c)
  | scan :: scans, c =>
    if t.assembler.isOver c.assembly then (.ok (), c)
    else
      match t.rowsOf c scan with
      | (.error reason, c) => (.error (.io reason), c)
      | (.ok rows, c) =>
        match t.takeRows rows c.assembly with
        | (.error e, s) => (.error e, { c with assembly := s })
        | (.ok (), s) => t.takeScans scans { c with assembly := s }

/--
All results of some scans, in order. `asked` is the number of scans that the source was asked
to open before.
-/
def run (t : Collecting σ) (builder : σ) (scans : List Scan) (asked : Nat) :
    Except QueryError (List Graph) × Collection σ :=
  let c := ⟨.start builder (1 < scans.length), asked, 0⟩
  match t.takeScans scans c with
  | (.error e, c) => (.error e, c)
  | (.ok (), c) => (.ok (t.assembler.results c.assembly), c)

end Collecting

/-! ### Results one at a time -/

/-- What the results of a stream are made from and by. -/
structure Streaming (σ : Type) where
  source : RowSource
  columns : ColumnFilter
  assembler : Assembler σ

/-- What a stream does next. -/
inductive StreamPhase
  | reading
  /-- An error is to be yielded. -/
  | refusing (e : QueryError)
  /-- Everything was read, and these graphs are to be yielded. -/
  | yielding (graphs : List Graph)
  | finished

/-- How far a stream is. -/
structure Stream (σ : Type) where
  assembly : Assembly σ
  /-- What is left of the scan that is open. -/
  rows : List (Answer Row)
  /-- The scans that were not opened yet. -/
  scans : List Scan
  /-- How many scans the source was asked to open. -/
  asked : Nat
  /-- How many scans were opened. -/
  started : Nat
  phase : StreamPhase

namespace Stream

variable {σ : Type}

/--
The stream of some scans, before anything was read. `asked` is the number of scans that the
source was asked to open before.
-/
def start (builder : σ) (scans : List Scan) (asked : Nat) : Stream σ where
  assembly := .start builder (1 < scans.length)
  rows := []
  scans := scans
  asked := asked
  started := 0
  phase := if scans.any Scan.isPoint then .refusing (.contract .pointInStream) else .reading

/-- A stream that has yielded everything. -/
def finish (s : Stream σ) : Stream σ :=
  { s with rows := [], phase := .finished }

end Stream

/-- Where reading stops. -/
inductive Halt
  /-- A graph is ready. -/
  | ready (g : Graph)
  | failed (e : QueryError)
  /-- No row is left. -/
  | dry
  /-- The window is over. -/
  | over

namespace Streaming

variable {σ : Type}

/-- Reads rows of a scan until a graph is ready or nothing is to be read any more. -/
def readRows (t : Streaming σ) :
    List (Answer Row) → Assembly σ → Halt × Assembly σ × List (Answer Row)
  | [], s => (if t.assembler.isOver s then .over else .dry, s, [])
  | row :: rows, s =>
    if t.assembler.isOver s then (.over, s, [])
    else
      match row with
      | .error reason => (.failed (.io reason), s, rows)
      | .ok row =>
        match t.assembler.collect s row with
        | (.error e, s) => (.failed e, s, rows)
        | (.ok _, s) =>
          match t.assembler.pop? s with
          | some (g, s) => (.ready g, s, rows)
          | none => t.readRows rows s

/-- Reads on, and opens scans one after the other as long as rows are needed. -/
def readScans (t : Streaming σ) : List Scan → Stream σ → Halt × Stream σ
  | scans, x =>
    match t.readRows x.rows x.assembly with
    | (.dry, s, rows) =>
      match scans with
      | [] => (.dry, { x with assembly := s, rows, scans := [] })
      | scan :: scans =>
        let x := { x with assembly := s, rows, scans, asked := x.asked + 1 }
        match t.source.openScan (x.asked - 1) scan t.columns with
        | .error reason => (.failed (.io reason), x)
        | .ok rows => t.readScans scans { x with rows, started := x.started + 1 }
    | (halt, s, rows) => (halt, { x with assembly := s, rows })

/-- Yields the next of the graphs that are ready, or finishes. -/
def yieldFrom (x : Stream σ) : List Graph → Option (Except QueryError Graph) × Stream σ
  | [] => (none, x.finish)
  | g :: gs => (some (.ok g), { x with phase := .yielding gs })

/-- What is yielded after everything was read. -/
def conclude (t : Streaming σ) (x : Stream σ) :
    Option (Except QueryError Graph) × Stream σ :=
  match t.assembler.order with
  | none => (none, x.finish)
  | some _ =>
    let (gs, s) := t.assembler.drain x.assembly
    yieldFrom { x with assembly := s, rows := [] } gs

/-- The next result; nothing if there is none any more. -/
def next (t : Streaming σ) (x : Stream σ) :
    Option (Except QueryError Graph) × Stream σ :=
  match x.phase with
  | .finished => (none, x)
  | .refusing e => (some (.error e), x.finish)
  | .yielding gs => yieldFrom x gs
  | .reading =>
    match t.assembler.pop? x.assembly with
    | some (g, s) => (some (.ok g), { x with assembly := s })
    | none =>
      match t.readScans x.scans x with
      | (.ready g, x) => (some (.ok g), x)
      | (.failed e, x) => (some (.error e), x.finish)
      | (.dry, x) | (.over, x) => t.conclude x

end Streaming

end GraphTable
