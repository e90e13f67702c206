import GraphTable.Value

/-!
# Data graphs

The object graph that a row stands for. Its nodes are numbered, the object of the row itself
being node 0, and a node holds its set properties: values, or the numbers of other nodes.
Nodes may refer to each other in cycles. A property that is not set has no entry.
-/

namespace GraphTable

/-- The content of a set property. -/
inductive Field
  | value (v : Value)
  | values (vs : List Value)
  | one (node : Nat)
  | many (nodes : List Nat)
  deriving DecidableEq

/-- An object of a graph. -/
structure Node where
  typeName : String
  fields : List (String × Field)
  deriving DecidableEq

namespace Node

/-- An object of a type, with no property set. -/
def new (typeName : String) : Node := ⟨typeName, []⟩

/-- The content of a property, if it is set. -/
def get? (n : Node) (property : String) : Option Field :=
  n.fields.lookup property

/-- Whether a property is set. -/
def isSet (n : Node) (property : String) : Bool :=
  (n.get? property).isSome

/-- Sets a property, in place of what it held before. -/
def set (n : Node) (property : String) (content : Field) : Node :=
  { n with fields := (property, content) :: n.fields.filter fun p => p.1 != property }

theorem get?_set (n : Node) (property other : String) (content : Field) :
    (n.set property content).get? other =
      if other = property then some content else n.get? other := by
  unfold set get?
  by_cases h : other = property
  · subst h
    rw [List.lookup_cons_self, if_pos rfl]
  · simp only [List.lookup_cons, h, if_false]
    have hb : (other == property) = false := by simpa using h
    simp only [hb]
    induction n.fields with
    | nil => rfl
    | cons p ps ih =>
      obtain ⟨name, held⟩ := p
      by_cases hp : name = property
      · subst hp
        simp [List.lookup_cons, hb, ih]
      · by_cases ho : other = name <;> simp [hp, ho, List.lookup_cons, ih]

end Node

/-- The object graph of a row. -/
structure Graph where
  rowKey : Bytes
  /-- Node 0, the object of the row itself. -/
  root : Node
  /-- The other nodes, numbered from 1. -/
  others : List Node
  deriving DecidableEq

namespace Graph

/-- A graph of a single object. -/
def single (rowKey : Bytes) (root : Node) : Graph := ⟨rowKey, root, []⟩

/-- All nodes, by number. -/
def nodes (g : Graph) : List Node := g.root :: g.others

/-- The number of nodes. -/
def size (g : Graph) : Nat := g.nodes.length

/-- The node of a number. -/
def node? (g : Graph) (i : Nat) : Option Node := g.nodes[i]?

/-- Adds a node, under the next number. -/
def push (g : Graph) (n : Node) : Graph := { g with others := g.others ++ [n] }

/-- Changes the node of a number. -/
def modify (g : Graph) (i : Nat) (f : Node → Node) : Graph :=
  match i with
  | 0 => { g with root := f g.root }
  | i + 1 => { g with others := g.others.modify i f }

@[simp] theorem nodes_push (g : Graph) (n : Node) : (g.push n).nodes = g.nodes ++ [n] := rfl

@[simp] theorem size_push (g : Graph) (n : Node) : (g.push n).size = g.size + 1 := by
  simp [size]

@[simp] theorem nodes_modify (g : Graph) (i : Nat) (f : Node → Node) :
    (g.modify i f).nodes = g.nodes.modify i f := by
  cases i <;> simp [modify, nodes]

@[simp] theorem size_modify (g : Graph) (i : Nat) (f : Node → Node) :
    (g.modify i f).size = g.size := by
  simp [size]

end Graph

end GraphTable
