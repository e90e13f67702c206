import GraphTable.Edge
import GraphTable.Error.Query
import GraphTable.Graph
import GraphTable.Results.Assembler
import GraphTable.Row
import GraphTable.Schema
import GraphTable.Table.Source
import GraphTable.Text.Json

/-!
# Graphs from rows

The graph of a row is the object of the row itself, and the objects that its edges lead to, up
to a number of hops. Edges name rows by their keys; the objects of these rows are linked depth
first, and one row makes one object, however often it is met. Edges to rows that are not there
are left out.

What was linked is kept until it is cleared, also if the build of a graph failed.
-/

namespace GraphTable.Build

/-!
### Objects from rows

The data of an object is in the cells of one column family, each under the name of its
property. A cell holds the text of the value; the cell of a property that may hold many values
holds a JSON list of texts. A property without a cell is not set.
-/

/-- Reads one value of a property. -/
def readValue (name : String) (type : DataType) (text : String) : Except BuildFault Value :=
  (type.read text).mapError (.property name)

/-- Reads the content of a property from the text of its cell. -/
def readField (name : String) (type : DataType) (many : Bool) (text : String) :
    Except BuildFault Field :=
  if many then do
    let texts ← (Json.decode (Json.asList Json.asString) text).mapError (.list name)
    return .values (← texts.mapM (readValue name type))
  else return .value (← readValue name type text)

/-- Sets a data property of an object, if a row has a cell for it. -/
def setData (family : Bytes) (r : Row) (n : Node) (p : PropertyDef) : Except BuildFault Node :=
  match p.kind with
  | .reference _ => .ok n
  | .data type =>
    match r.value? ⟨family, Text.utf8 p.name⟩ with
    | none => .ok n
    | some bytes =>
      match Text.ofUtf8? bytes with
      | none => .error (.notText p.name)
      | some text => return n.set p.name (← readField p.name type p.many text)

/-- The object of a type whose data is in a row. -/
def node (family : Bytes) (r : Row) (t : TypeDef) : Except BuildFault Node :=
  t.properties.foldlM (setData family r) (.new t.name)

end GraphTable.Build

namespace GraphTable

/-! ### Objects that edges lead to -/

/-- What graphs are built from. -/
structure GraphSource where
  source : RowSource
  catalog : Catalog
  /-- The type of the objects that rows stand for. -/
  root : TypeDef
  /-- The column family of data and edges. -/
  family : Bytes
  /-- How many hops edges are followed from the root object on. -/
  depth : Nat

/-- What builds leave behind. -/
structure Linked where
  /-- The numbers of the objects of rows. -/
  nodes : List (Bytes × Nat)
  /-- How many rows were looked up. -/
  lookups : Nat
  deriving DecidableEq

namespace Linked

/-- Nothing was linked yet. -/
def empty : Linked := ⟨[], 0⟩

/-- Forgets the objects, but not how many rows were looked up. -/
def clear (l : Linked) : Linked := { l with nodes := [] }

/-- Notes the object of a row, in place of the one noted before. -/
def insert (l : Linked) (key : Bytes) (i : Nat) : Linked :=
  { l with nodes := (key, i) :: l.nodes.filter fun e => e.1 != key }

end Linked

/-- A graph that is being built. -/
structure Building where
  graph : Graph
  linked : Linked

/-- A step of building a graph. What was linked before an error stays linked. -/
abbrev Linking := EStateM QueryError Building

namespace GraphSource

/-- Reads the row that an edge leads to. -/
def readRow (b : GraphSource) (key : Bytes) : Linking (Option Row) := do
  modify fun s => { s with linked := { s.linked with lookups := s.linked.lookups + 1 } }
  match b.source.lookup key (.ofFamily b.family) with
  | .ok row => return row
  | .error reason => throw (.io reason)

/-- Adds the object of a row to the graph. -/
def addNode (b : GraphSource) (key : Bytes) (r : Row) (t : TypeDef) : Linking Nat := do
  match Build.node b.family r t with
  | .error fault => throw (.build fault)
  | .ok n =>
    let i := (← get).graph.size
    modify fun s => ⟨s.graph.push n, s.linked.insert key i⟩
    return i

/--
The object of the row of a key, if the row is there. An object that is met for the first time is
added, and linked further by `expand`.
-/
def linkKey (b : GraphSource) (expand : Nat → Row → TypeDef → Linking Unit) (t : TypeDef)
    (key : Bytes) : Linking (Option Nat) := do
  match (← get).linked.nodes.lookup key with
  | some i => return some i
  | none =>
    match ← b.readRow key with
    | none => return none
    | some r =>
      let i ← b.addNode key r t
      expand i r t
      return some i

/-- The objects of the rows of some keys, as far as the rows are there. -/
def linkKeys (b : GraphSource) (expand : Nat → Row → TypeDef → Linking Unit) (t : TypeDef) :
    List Bytes → Linking (List Nat)
  | [] => return []
  | key :: keys => do
    let found ← b.linkKey expand t key
    return found.toList ++ (← b.linkKeys expand t keys)

/-- The content of a reference property; a single reference is the first that was found. -/
def fieldOf (many : Bool) (found : List Nat) : Option Field :=
  if many then some (.many found) else found.head?.map .one

/-- Where the edges of a property are in the row of an object. -/
def placeOf (b : GraphSource) (t : TypeDef) (p : PropertyDef) : Edges.Place where
  delimiter := Column.defaultDelimiter
  family := b.family
  typeName := t.name
  sequence := none
  property := p.name

/-- The edges of a property and the type of the objects that they lead to. -/
def edgesOf (b : GraphSource) (r : Row) (t : TypeDef) (p : PropertyDef) (target : String) :
    Except QueryError (Edges × TypeDef) := do
  let edges ← (Edges.read r (b.placeOf t p)).mapError .store
  let name := edges.subType.getD target
  match b.catalog.find? name with
  | none => .error (.build (.unknownTarget name))
  | some type => return (edges, type)

/-- Links an object to those that the edges of one property lead to. -/
def linkProperty (b : GraphSource) (expand : Nat → Row → TypeDef → Linking Unit) (i : Nat)
    (r : Row) (t : TypeDef) (p : PropertyDef) : Linking Unit := do
  match p.kind with
  | .data _ => return ()
  | .reference target =>
    if Edges.exist r (b.placeOf t p) then
      match b.edgesOf r t p target with
      | .error e => throw e
      | .ok (edges, type) =>
        let found ← b.linkKeys expand type edges.rowKeys
        match fieldOf p.many found with
        | none => return ()
        | some content =>
          modify fun s => { s with graph := s.graph.modify i (·.set p.name content) }

/-- Links an object, following edges for as many hops as are left. -/
def link (b : GraphSource) : Nat → Nat → Row → TypeDef → Linking Unit
  | 0 => fun _ _ _ => return ()
  | hops + 1 => fun i r t => t.properties.forM (b.linkProperty (b.link hops) i r t)

/-- The graph of a row. -/
def build (b : GraphSource) (l : Linked) (r : Row) : Except QueryError Graph × Linked :=
  match Build.node b.family r b.root with
  | .error fault => (.error (.build fault), l)
  | .ok n =>
    match b.link b.depth 0 r b.root ⟨.single r.key n, l.insert r.key 0⟩ with
    | .ok () s => (.ok s.graph, s.linked)
    | .error e s => (.error e, s.linked)

/-- Builds graphs for an assembler. -/
def builder (b : GraphSource) : GraphBuilder Linked := ⟨b.build, Linked.clear⟩

end GraphSource

end GraphTable
