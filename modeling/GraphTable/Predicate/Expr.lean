import GraphTable.Text.Basic

/-!
# Predicate trees

A predicate is a tree of conditions: comparisons of a property or of arithmetic with a literal,
pattern and membership tests of a property, and conjunctions and disjunctions of conditions.
Nothing keeps a tree from having its parts in the wrong places; whether it is a condition at
all is for validation to find.

Trees may share their parts. Every node carries a label that stands for its identity: nodes of
one label are one node, reached on several ways. Only walks that visit every node once look at
labels.
-/

namespace GraphTable

/-!
### Properties in predicates

A property is named by a path: the references to follow from the root object, then the name of
the property itself. A path may have wildcard steps, which no predicate can be evaluated with.
Scalar functions may be applied to the values; only the first of them ever is.
-/

/-- A scalar function. -/
inductive ScalarFunction
  | abs
  | ceiling
  | floor
  | round
  | lower
  | upper
  deriving DecidableEq, Repr

namespace ScalarFunction

/-- The name of a function in messages. -/
def name : ScalarFunction → String
  | abs => "Abs"
  | ceiling => "Ceiling"
  | floor => "Floor"
  | round => "Round"
  | lower => "Lower"
  | upper => "Upper"

/-- Whether a function gives text; the others give numbers. -/
def isText : ScalarFunction → Bool
  | lower | upper => true
  | _ => false

end ScalarFunction

/-- One step of a path. -/
inductive PathStep
  | named (name : String)
  | wildcard
  deriving DecidableEq, Repr

/-- A property, reached from the root object by a path. -/
structure Property where
  path : List PathStep
  name : String
  functions : List ScalarFunction
  deriving DecidableEq, Repr

namespace Property

/-- A step of a path as it is written: a star is a wildcard. -/
def stepOf (piece : String) : PathStep :=
  if piece = "*" then .wildcard else .named piece

/--
Reads a path: names with slashes between them, of which the last one is the property. Empty
names are left out.
-/
def ofPath (written : String) : Property :=
  let pieces := (Text.split "/" written).filter fun p => p != ""
  ⟨pieces.dropLast.map stepOf, pieces.getLast?.getD "", []⟩

/-- Whether the path has a wildcard. -/
def hasWildcard (p : Property) : Bool :=
  p.path.contains .wildcard

/-- The names of the steps, unless one is a wildcard. -/
def stepNames? : List PathStep → Option (List String)
  | [] => some []
  | .named n :: steps => (stepNames? steps).map (n :: ·)
  | .wildcard :: _ => none

/-- The names to follow from the root object to the property, unless there is a wildcard. -/
def names? (p : Property) : Option (List String) :=
  (stepNames? p.path).map fun names => names ++ [p.name]

/-- The text of a step, with the slash after it. -/
def stepText : PathStep → String
  | .named n => n ++ "/"
  | .wildcard => "*/"

/-- The path as it is written. -/
def text (p : Property) : String :=
  String.join (p.path.map stepText) ++ p.name

end Property

/-! ### Trees -/

/-- How two conditions are joined. -/
inductive LogicalOp
  | and
  | or
  deriving DecidableEq, Repr

/-- How a value is compared with a literal. -/
inductive RelationalOp
  | eq
  | ne
  | gt
  | ge
  | lt
  | le
  deriving DecidableEq, Repr

/-- How a property is tested against the text of a literal. -/
inductive MatchOp
  | like
  | isIn
  | notIn
  deriving DecidableEq, Repr

/-- How two numbers are combined. -/
inductive ArithmeticOp
  | add
  | sub
  | mul
  | div
  | mod
  deriving DecidableEq, Repr

/-- The name of an operator in messages. -/
def LogicalOp.name : LogicalOp → String
  | and => "And"
  | or => "Or"

/-- The name of an operator in messages. -/
def RelationalOp.name : RelationalOp → String
  | eq => "Equals"
  | ne => "NotEquals"
  | gt => "GreaterThan"
  | ge => "GreaterThanEquals"
  | lt => "LessThan"
  | le => "LessThanEquals"

/-- The name of an operator in messages. -/
def MatchOp.name : MatchOp → String
  | like => "Like"
  | isIn => "In"
  | notIn => "NotIn"

/-- The name of an operator in messages. -/
def ArithmeticOp.name : ArithmeticOp → String
  | add => "Add"
  | sub => "Subtract"
  | mul => "Multiply"
  | div => "Divide"
  | mod => "Modulus"

/-- A literal: a text, or nothing. -/
inductive Literal
  | null
  | text (s : String)
  deriving DecidableEq, Repr

/-- A literal as it is shown. -/
def Literal.shown : Literal → String
  | null => "null"
  | text s => "'" ++ s ++ "'"

/-- What tells a node from all others. -/
abbrev NodeId := Nat

/-- A node of a predicate tree. -/
inductive Expr
  | logical (id : NodeId) (op : LogicalOp) (left right : Expr)
  | relational (id : NodeId) (op : RelationalOp) (left : Expr) (literal : Literal)
  | test (id : NodeId) (op : MatchOp) (property : Property) (literal : Literal)
      (delimiter : Option String)
  | arithmetic (id : NodeId) (op : ArithmeticOp) (left right : Expr)
  | property (id : NodeId) (p : Property)
  | literal (id : NodeId) (l : Literal)
  deriving DecidableEq, Repr

namespace Expr

/-- The label of a node. -/
def id : Expr → NodeId
  | logical i _ _ _ | relational i _ _ _ | test i _ _ _ _ | arithmetic i _ _ _ => i
  | property i _ | literal i _ => i

/-- Whether a node is a condition rather than an operand. -/
def isCondition : Expr → Bool
  | logical _ _ _ _ | relational _ _ _ _ | test _ _ _ _ _ => true
  | _ => false

/-- A node as it is shown, without the nodes below it. -/
def label : Expr → String
  | logical _ op _ _ => op.name
  | relational _ op _ l => op.name ++ " " ++ l.shown
  | test _ op p l _ => p.text ++ " " ++ op.name ++ " " ++ l.shown
  | arithmetic _ op _ _ => op.name
  | property _ p => p.text
  | literal _ l => l.shown

/-- A tree as it is shown on one line. -/
def text : Expr → String
  | logical _ op l r => "(" ++ l.text ++ " " ++ op.name ++ " " ++ r.text ++ ")"
  | relational _ op left l => left.text ++ " " ++ op.name ++ " " ++ l.shown
  | arithmetic _ op l r => "(" ++ l.text ++ " " ++ op.name ++ " " ++ r.text ++ ")"
  | test i op p l d => (test i op p l d).label
  | property _ p => p.text
  | literal _ l => l.shown

end Expr

end GraphTable

namespace GraphTable.Expr

/-!
### Walks over trees

A walk visits the nodes of a tree from the root on, every node before those below it and the
left side before the right one. A node that is reached on several ways is visited on the first
of them only. The visitor decides for each node whether to go on below it.
-/

/--
What a visitor does: from its state, a node, the node above it and its depth, it gives its new
state and whether to visit the nodes below.
-/
abbrev Visitor (σ : Type) := σ → Expr → Option Expr → Nat → σ × Bool

/-- The state of a walk: that of the visitor, and the labels of the nodes that were visited. -/
structure WalkState (σ : Type) where
  visitor : σ
  seen : List NodeId

/-- Visits a node, unless it was visited before, and goes on `below` it if the visitor says so. -/
def enter {σ : Type} (visit : Visitor σ) (e : Expr) (parent : Option Expr) (level : Nat)
    (below : WalkState σ → WalkState σ) (s : WalkState σ) : WalkState σ :=
  if s.seen.contains e.id then s
  else
    let (v, goOn) := visit s.visitor e parent level
    let s : WalkState σ := ⟨v, e.id :: s.seen⟩
    if goOn then below s else s

/-- Walks over a tree that hangs below a node at a depth. -/
def walkFrom {σ : Type} (visit : Visitor σ) (parent : Option Expr) (level : Nat) (e : Expr)
    (s : WalkState σ) : WalkState σ :=
  match e with
  | logical i op l r =>
    let e := logical i op l r
    enter visit e parent level
      (fun s => r.walkFrom visit (some e) (level + 1) (l.walkFrom visit (some e) (level + 1) s)) s
  | arithmetic i op l r =>
    let e := arithmetic i op l r
    enter visit e parent level
      (fun s => r.walkFrom visit (some e) (level + 1) (l.walkFrom visit (some e) (level + 1) s)) s
  | relational i op left l =>
    let e := relational i op left l
    enter visit e parent level (fun s => left.walkFrom visit (some e) (level + 1) s) s
  | test i op p l d => enter visit (test i op p l d) parent level (fun s => s) s
  | property i p => enter visit (property i p) parent level (fun s => s) s
  | literal i l => enter visit (literal i l) parent level (fun s => s) s

/-- Walks over a whole tree, and gives the last state of the visitor. -/
def walk {σ : Type} (visit : Visitor σ) (s : σ) (e : Expr) : σ :=
  (e.walkFrom visit none 0 ⟨s, []⟩).visitor

/-- A tree as it is shown with one node a line, indented by depth. -/
def outline (e : Expr) : String :=
  e.walk
    (fun out node _ level => (out ++ String.join (List.replicate level "  ") ++ node.label ++ "\n", true))
    ""

/-- The properties that a node names itself. -/
def ownProperties : Expr → List Property
  | property _ p => [p]
  | test _ _ p _ _ => [p]
  | _ => []

/-- All properties that a tree names, in the order of a walk. -/
def properties (e : Expr) : List Property :=
  e.walk (fun ps node _ _ => (ps ++ node.ownProperties, true)) []

end GraphTable.Expr
