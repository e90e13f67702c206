import GraphTable.Build
import GraphTable.Error.Query
import GraphTable.HandleCache
import GraphTable.Key.Mapping
import GraphTable.Plan.Basic
import GraphTable.Predicate.Expr
import GraphTable.Predicate.Recognizer
import GraphTable.Results.Assembler
import GraphTable.Results.Order
import GraphTable.Results.Stream
import GraphTable.Service.Config
import GraphTable.Table.Source

/-!
# The service

Answers queries for graphs from the tables of a store. The handles of tables are kept in a
cache, which is what a service changes from one query to the next.

* `find` gives all graphs of a query.
* `stream` gives them one at a time.

Both plan the query in the same way. A predicate that the plan does not decide on keys is
decided by a recognizer, on graphs that reach at least as far as the paths of the predicate.
-/

namespace GraphTable

/-!
### Queries

A query asks for the graphs of one root type: those that a predicate holds of, in some order,
a window of them, or a sample.
-/

/-- A query for graphs. -/
structure Query where
  rootType : String
  predicate : Option Expr
  order : List OrderItem
  window : Window
  /-- The fraction of the graphs that is wanted, where the key is not constrained. -/
  sample : Option Binary32
  /-- Settings that the query overrides. -/
  properties : List (String × String)

namespace Query

/-- The query for all graphs of a type. -/
def ofType (rootType : String) : Query := ⟨rootType, none, [], .all, none, []⟩

/-- The overrides of settings that a query carries. -/
def overrides (q : Query) : Config.Overrides := fun property => q.properties.lookup property

/-- How many hops the longest path of a predicate takes; paths with wildcards do not count. -/
def pathDepth (e : Expr) : Nat :=
  (e.properties.map fun p => if p.hasWildcard then 0 else p.path.length).foldl max 0

/-- How many hops the predicate of a query needs. -/
def depth (q : Query) : Nat :=
  match q.predicate with
  | none => 0
  | some e => pathDepth e

end Query

/-!
### Errors

What a caller of the service gets to see. Where input or output failed is of no matter to the
caller, so these errors are brought together, whatever they come from.
-/

/-- Why the service cannot answer. -/
inductive ServiceError
  | io (reason : String)
  | store (e : StoreError)
  | query (e : QueryError)
  | unknownRoot (type : String)
  | config (fault : ConfigFault)
  deriving DecidableEq

namespace ServiceError

/-- An error of the store, as an error of the service. -/
def ofStore : StoreError → ServiceError
  | .io reason => io reason
  | e => store e

/-- An error of a query, as an error of the service. -/
def ofQuery : QueryError → ServiceError
  | .io reason => io reason
  | .store e => ofStore e
  | e => query e

/-- The wording of an error. -/
def message : ServiceError → String
  | io reason => "IO error: " ++ reason
  | store e => "Storage error: " ++ e.message
  | query e => "Query error: " ++ e.message
  | unknownRoot type => s!"Query error: unknown root type {type}"
  | config fault => "Configuration error: " ++ fault.message

/-- The wording of the error below, if there is one. -/
def cause? : ServiceError → Option String
  | io reason => some reason
  | _ => none

end ServiceError

/-! ### Services and what they keep -/

/-- What queries are answered from. -/
structure Service where
  store : Store
  catalog : Catalog
  mapping : Mapping
  config : Config
  /-- How many hops graphs reach at least. -/
  depth : Nat

/-- A table that is open. -/
structure Handle where
  name : String
  /-- Handles are numbered in the order of their opening. -/
  number : Nat
  source : RowSource

/-- What a service keeps from one query to the next. -/
structure Session where
  handles : HandleCache Handle
  /-- How many scans each handle was asked to open, by its number. -/
  asked : List Nat

namespace Session

/-- No table is open yet. Handles expire at once, or never. -/
def start (c : Config) : Session where
  handles := .new (max 1 c.cacheSize) (Nat.le_max_left 1 _) (c.cacheTimeout == 0)
  asked := []

/-- How many scans a handle was asked to open. -/
def askedOf (s : Session) (h : Handle) : Nat :=
  s.asked.getD h.number 0

/-- Notes how many scans a handle was asked to open. -/
def noteAsked (s : Session) (h : Handle) (n : Nat) : Session :=
  { s with asked := s.asked.set h.number n }

/-- Closes all handles. -/
def close (s : Session) : Session :=
  { s with handles := s.handles.invalidateAll }

end Session

namespace Service

/-- A service whose graphs reach one hop at least. -/
def create (store : Store) (catalog : Catalog) (mapping : Mapping) (config : Config) : Service :=
  ⟨store, catalog, mapping, config, 1⟩

/-- A service with default settings whose mapping is a document that is read from outside. -/
def ofDocument (store : Store) (catalog : Catalog) (document : Answer String) :
    Except ServiceError Service := do
  let text ← document.mapError .io
  let mapping ← (Mapping.read catalog text).mapError .ofStore
  return create store catalog mapping .default

/-- The root type of a query and its mapping. -/
def root (v : Service) (q : Query) : Except ServiceError (TypeDef × TypeMapping) :=
  match v.catalog.find? q.rootType with
  | none => .error (.unknownRoot q.rootType)
  | some t => do return (t, ← (v.mapping.require t.name).mapError .ofStore)

/-- Opens a table under the next number. -/
def openHandle (v : Service) (s : Session) (name : String) : Answer Handle :=
  (v.store.openTable name).map fun source => ⟨name, s.asked.length, source⟩

/-- The open table of a query's root type. -/
def table (v : Service) (s : Session) (q : Query) : Except ServiceError Handle × Session :=
  match v.root q with
  | .error e => (.error e, s)
  | .ok (_, mapping) =>
    let (answer, handles) := s.handles.get mapping.table.name (v.openHandle s)
    let opened := handles.opened.length - s.handles.opened.length
    (answer.mapError .io, ⟨handles, s.asked ++ List.replicate opened 0⟩)

/-- The settings and the plan of a query. -/
def plan (v : Service) (q : Query) : Except ServiceError (Config × Plan) := do
  let config ← (v.config.withProperties q.overrides).mapError .config
  let (root, mapping) ← v.root q
  let plan ← (Plan.ofPredicate v.catalog root mapping q.predicate).mapError .ofQuery
  match q.sample with
  | none => return (config, plan)
  | some fraction => return (config, plan.sampled fraction)

/-- The recognizer of a query, where its plan needs one. -/
def recognizer? (v : Service) (root : TypeDef) (q : Query) (c : Config) (p : Plan) :
    Except PlanFault (Option Recognizer) :=
  match p.requiresRecognizer, q.predicate with
  | true, some e => do
    let r ← Recognizer.create v.catalog root e
    return some (r.withDelimiter c.delimiter)
  | _, _ => .ok none

/-- The order of a query's results, if it asks for one. -/
def order? (root : TypeDef) (q : Query) : Except PlanFault (Option ResultOrder) :=
  match q.order with
  | [] => .ok none
  | items => some <$> ResultOrder.create root items

/-- A recognizer as a part of an assembler. -/
def recognition (r : Recognizer) (g : Graph) : Except QueryError Bool :=
  (r.recognizes g).mapError .evaluation

/-- What builds the graphs of a query from a source. -/
def graphSource (v : Service) (source : RowSource) (root : TypeDef) (mapping : TypeMapping)
    (q : Query) : GraphSource where
  source := source
  catalog := v.catalog
  root := root
  family := mapping.table.family
  depth := max q.depth v.depth

/-- What makes the results of a query, and the columns that it reads. -/
def assembler (v : Service) (source : RowSource) (q : Query) (c : Config) (p : Plan) :
    Except ServiceError (Assembler Linked × ColumnFilter) := do
  let (root, mapping) ← v.root q
  let recognizer ← (v.recognizer? root q c p).mapError fun e => .ofQuery (.planning e)
  let order ← (order? root q).mapError fun e => .ofQuery (.planning e)
  let assembler : Assembler Linked := {
    builder := (v.graphSource source root mapping q).builder
    tombstone := Assembler.tombstoneOf mapping.table.family mapping.table.tombstones
    recognizer := recognizer.map recognition
    order := order.map ResultOrder.compare
    window := q.window }
  return (assembler, .ofFamily mapping.table.family)

/-- The scans of a query, and what makes results of their rows. -/
def prepare (v : Service) (source : RowSource) (q : Query) :
    Except ServiceError (List Scan × Assembler Linked × ColumnFilter) := do
  let (config, plan) ← v.plan q
  return (plan.scans, ← v.assembler source q config plan)

/-- A stream of the graphs of a query, from a table that was opened for it. -/
def stream (v : Service) (s : Session) (h : Handle) (q : Query) :
    Except ServiceError (Streaming Linked × Stream Linked) := do
  let (scans, assembler, columns) ← v.prepare h.source q
  return (⟨h.source, columns, assembler⟩, .start .empty scans (s.askedOf h))

/-- All graphs of a query. -/
def find (v : Service) (s : Session) (q : Query) :
    Except ServiceError (List Graph) × Session :=
  match v.table s q with
  | (.error e, s) => (.error e, s)
  | (.ok h, s) =>
    match v.prepare h.source q with
    | .error e => (.error e, s)
    | .ok (scans, assembler, columns) =>
      let (results, c) :=
        Collecting.run ⟨h.source, columns, assembler⟩ .empty scans (s.askedOf h)
      (results.mapError .ofQuery, s.noteAsked h c.asked)

end Service

end GraphTable
