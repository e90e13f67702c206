import GraphTable.Error.Query
import GraphTable.Graph
import GraphTable.Results.Order
import GraphTable.Row

/-!
# Assembling results

Rows come in one by one, and the graphs of those that belong to the results are kept until they
are taken out. What happens to a row:

* A row that is marked as deleted is left out, and so is one whose key came before, if that is
  to be checked.
* Without a recognizer the number of the result is known before its graph is built, and a row
  whose number is not wanted is passed over.
* Otherwise its graph is built, and left out if the recognizer does not recognize it. Graphs
  that are left get the next number; those whose number is wanted are kept.
-/

namespace GraphTable

/-!
### Windows of results

Accepted results are numbered from 1 on. A window is the range of numbers that are wanted, both
ends included; either end may be open.
-/

/-- A range of numbers of results. -/
structure Window where
  first : Option Nat
  last : Option Nat
  deriving DecidableEq, Repr

namespace Window

/-- The window that holds every number. -/
def all : Window := ⟨none, none⟩

/-- Whether an end is set. -/
def isBounded (w : Window) : Bool :=
  w.first.isSome || w.last.isSome

/-- Whether a number is wanted. -/
def contains (w : Window) (n : Nat) : Bool :=
  w.first.all (· ≤ n) && w.last.all (n ≤ ·)

/-- Whether the last number that is wanted is among the first `n`. -/
def isOver (w : Window) (n : Nat) : Bool :=
  w.last.any (· ≤ n)

end Window

/-! ### Assemblers -/

/-- What builds the graphs of rows, with a state that a build may change. -/
structure GraphBuilder (σ : Type) where
  build : σ → Row → Except QueryError Graph × σ
  /-- Forgets what the last build left. -/
  clear : σ → σ

/-- What makes results of rows. -/
structure Assembler (σ : Type) where
  builder : GraphBuilder σ
  /-- The column that rows marked as deleted have, if there is one. -/
  tombstone : Option Column
  recognizer : Option (Graph → Except QueryError Bool)
  /-- The order of the results; without it they come in the order of their rows. -/
  order : Option (Graph → Graph → Ordering)
  window : Window

/-- How far the results are. -/
structure Assembly (σ : Type) where
  builder : σ
  /-- The keys of the rows that came in, if each may come only once. -/
  seen : Option (List Bytes)
  /-- The graphs kept and not taken out yet. -/
  graphs : List Graph
  /-- How many results have a number. -/
  accepted : Nat
  /-- How many graphs were kept. -/
  retained : Nat
  /-- How many rows were passed over. -/
  ignored : Nat
  /-- How many graphs were not recognized. -/
  unrecognized : Nat

namespace Assembly

/-- No row came in yet; `distinct` tells whether keys may come only once. -/
def start {σ : Type} (builder : σ) (distinct : Bool) : Assembly σ :=
  ⟨builder, if distinct then some [] else none, [], 0, 0, 0, 0⟩

/-- Notes the key of a row; nothing if it came before and may come only once. -/
def enter? {σ : Type} (s : Assembly σ) (key : Bytes) : Option (Assembly σ) :=
  match s.seen with
  | none => some s
  | some keys => if keys.contains key then none else some { s with seen := some (key :: keys) }

end Assembly

namespace Assembler

variable {σ : Type}

/-- The column that marks rows of a table as deleted, if its rows are ever marked. -/
def tombstoneOf (family : Bytes) (marked : Bool) : Option Column :=
  if marked then some ⟨family, Column.graphQualifier .tombstone⟩ else none

/-- Whether a row is marked as deleted. -/
def isDeleted (a : Assembler σ) (r : Row) : Bool :=
  a.tombstone.any r.contains

/-- Whether a graph is recognized. -/
def recognizes (a : Assembler σ) (g : Graph) : Except QueryError Bool :=
  match a.recognizer with
  | none => .ok true
  | some recognize => recognize g

/-- Gives the next number to a graph, and keeps it if the number is wanted. -/
def accept (a : Assembler σ) (s : Assembly σ) (g : Graph) : Bool × Assembly σ :=
  let s := { s with accepted := s.accepted + 1 }
  if a.window.contains s.accepted then
    (true, { s with graphs := s.graphs ++ [g], retained := s.retained + 1 })
  else (false, s)

/-- Makes a result of a graph that was built, if it is one. -/
def judge (a : Assembler σ) (s : Assembly σ) (built : Except QueryError Graph) :
    Except QueryError Bool × Assembly σ :=
  match built with
  | .error e => (.error e, s)
  | .ok g =>
    match a.recognizes g with
    | .error e => (.error e, s)
    | .ok false => (.ok false, { s with unrecognized := s.unrecognized + 1 })
    | .ok true =>
      let (kept, s) := a.accept s g
      (.ok kept, s)

/-- Builds the graph of a row; nothing of it stays in the state of the builder. -/
def build (a : Assembler σ) (s : Assembly σ) (r : Row) :
    Except QueryError Graph × Assembly σ :=
  let (built, b) := a.builder.build s.builder r
  (built, { s with builder := a.builder.clear b })

/-- Whether a row is passed over without its graph being built. -/
def passesOver (a : Assembler σ) (s : Assembly σ) : Bool :=
  a.recognizer.isNone && !a.window.contains (s.accepted + 1)

/-- Takes a row in, and tells whether its graph was kept. -/
def collect (a : Assembler σ) (s : Assembly σ) (r : Row) :
    Except QueryError Bool × Assembly σ :=
  if a.isDeleted r then (.ok false, s)
  else
    match s.enter? r.key with
    | none => (.ok false, s)
    | some s =>
      if a.passesOver s then
        (.ok false, { s with accepted := s.accepted + 1, ignored := s.ignored + 1 })
      else
        let (built, s) := a.build s r
        a.judge s built

/-- Whether all results that are wanted have a number. -/
def isOver (a : Assembler σ) (s : Assembly σ) : Bool :=
  a.window.isOver s.accepted

/-- The graphs kept, in order. -/
def results (a : Assembler σ) (s : Assembly σ) : List Graph :=
  match a.order with
  | none => s.graphs
  | some compare => StableSort.sort compare s.graphs

/-- Takes out the graph kept first; none is ready where all are needed to order them. -/
def pop? (a : Assembler σ) (s : Assembly σ) : Option (Graph × Assembly σ) :=
  match a.order, s.graphs with
  | none, g :: gs => some (g, { s with graphs := gs })
  | _, _ => none

/-- Takes out all graphs kept, in order. -/
def drain (a : Assembler σ) (s : Assembly σ) : List Graph × Assembly σ :=
  (a.results s, { s with graphs := [] })

end Assembler

end GraphTable
