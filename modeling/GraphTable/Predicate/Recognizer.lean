import GraphTable.Glob
import GraphTable.Graph
import GraphTable.Predicate.Expr
import GraphTable.Predicate.Scalar
import GraphTable.Predicate.Validate

/-!
# Recognizers

A recognizer decides on the graph of a row whether a predicate holds of it. A condition on a
property holds if some value that the property reaches satisfies it. An absent value satisfies
nothing but the test for absence, which is a comparison with the null literal; arithmetic with
an absent operand is absent as a whole.

* `evaluate` is the truth value of a condition. The right side of a conjunction or disjunction
  is evaluated only if the left side does not decide it.
* `patterns` are the glob patterns that an evaluation matches some text with.
-/

namespace GraphTable

/-!
### What a property reaches in a graph

From the root node the names of a property's path are followed level by level, through single
references and through lists of them; a reference that is not set leads nowhere. At every node
that is reached the property itself is looked up. Each of its values counts, after the first
function of the property was applied; where the property is not set and holds one value at
most, the absence of a value counts as well.
-/

namespace Graph

/-- The node of a number that another node refers to. -/
def referred (g : Graph) (i : Nat) : Except EvalFault Node :=
  match g.node? i with
  | some n => .ok n
  | none => .error (.danglingNode i)

end Graph

namespace Property

/-- The nodes that a step of a path leads to from one node. -/
def step (p : Property) (g : Graph) (name : String) (i : Nat) : Except EvalFault (List Nat) := do
  match (← g.referred i).get? name with
  | some (.one j) => return [j]
  | some (.many js) => return js
  | none => return []
  | some (.value _) | some (.values _) => .error (.pathHoldsData name p)

/-- The nodes that the steps of a path lead to, from any of some nodes on. -/
def follow (p : Property) (g : Graph) : List String → List Nat → Except EvalFault (List Nat)
  | [], is => .ok is
  | name :: names, is => do p.follow g names (← is.mapM (p.step g name)).flatten

/-- A value after the first function of the property was applied. -/
def applied (p : Property) (v : Value) : Except EvalFault Value :=
  match p.functions with
  | [] => .ok v
  | f :: _ => f.apply v

/--
The values that the property has at one node. `endMany` tells whether the property may hold
more than one value; if it may, no value at all is not an absence.
-/
def valuesAt (p : Property) (endMany : Bool) (g : Graph) (i : Nat) :
    Except EvalFault (List (Option Value)) := do
  match (← g.referred i).get? p.name with
  | some (.value v) => return [some (← p.applied v)]
  | some (.values vs) => return (← vs.mapM p.applied).map some
  | none => return if endMany then [] else [none]
  | some (.one _) | some (.many _) => .error (.endHoldsReferences p)

/-- All values that the property reaches in a graph; `none` stands for an absent one. -/
def reach (p : Property) (endMany : Bool) (g : Graph) :
    Except EvalFault (List (Option Value)) :=
  match stepNames? p.path with
  | none => .error (.wildcardPath p)
  | some names => do
    return (← (← p.follow g names [0]).mapM (p.valuesAt endMany g)).flatten

end Property

/-! ### Deciding on graphs -/

/-- A predicate with all that its evaluation needs besides a graph. -/
structure Recognizer where
  predicate : Expr
  /-- What the properties of the predicate resolve to. -/
  resolved : List (Property × Resolved)
  /-- What separates the members of a list that names no delimiter of its own. -/
  delimiter : String

namespace Recognizer

/-- Resolves the properties of a predicate. Members of lists are separated by spaces. -/
def create (catalog : Catalog) (root : TypeDef) (predicate : Expr) :
    Except PlanFault Recognizer := do
  let resolved ← predicate.properties.mapM fun p => do return (p, ← p.resolve catalog root)
  return { predicate, resolved, delimiter := " " }

/-- Separates members by another delimiter; an empty one changes nothing. -/
def withDelimiter (r : Recognizer) (delimiter : String) : Recognizer :=
  if delimiter = "" then r else { r with delimiter }

/-- What a property of the predicate resolves to. -/
def resolve (r : Recognizer) (p : Property) : Except EvalFault Resolved :=
  match r.resolved.lookup p with
  | some found => .ok found
  | none => .error (.unresolved p)

/-- All values that a property of the predicate reaches; `none` stands for an absent one. -/
def collect (r : Recognizer) (g : Graph) (p : Property) :
    Except EvalFault (List (Option Value)) := do
  p.reach (← r.resolve p).endMany g

/-- The values among some that are there. -/
def present (vs : List (Option Value)) : List Value :=
  vs.filterMap id

/-! ### Arithmetic -/

/-- Combines two operands, if both are there. -/
def combine? (op : ArithmeticOp) (a b : Option Number) : Except EvalFault (Option Number) :=
  match a, b with
  | some a, some b => return some (← Number.combine op a b)
  | _, _ => .ok none

/-- The first value that is there, as a number. -/
def firstNumber (vs : List (Option Value)) : Except EvalFault (Option Number) :=
  match present vs with
  | [] => .ok none
  | v :: _ => return some (← Number.ofValue v)

/-- The number that an operand is on a graph, if it is there. -/
def number (r : Recognizer) (g : Graph) : Expr → Except EvalFault (Option Number)
  | .property _ p => do firstNumber (← r.collect g p)
  | .literal _ .null => .ok none
  | .literal _ (.text s) => return some (← Number.read s)
  | .arithmetic _ op a b => do
    let x ← r.number g a
    let y ← r.number g b
    combine? op x y
  | e => .error (.arithmeticOperand e)

/-! ### Comparisons -/

/-- The left side of a comparison: the type it is compared as, and its values. -/
def compared (r : Recognizer) (g : Graph) (left : Expr) :
    Except EvalFault (DataType × List (Option Value)) :=
  match left with
  | .property _ p => do return ((← r.resolve p).effectiveType p, ← r.collect g p)
  | .arithmetic i op a b => do
    let n ← r.number g (.arithmetic i op a b)
    return ((n.map Number.type).getD .long, [n.map Number.toValue])
  | e => .error (.notComparable e)

/-- Whether a comparison of some values with the null literal holds. -/
def compareNull (op : RelationalOp) (vs : List (Option Value)) : Except EvalFault Bool :=
  match op with
  | .eq => .ok (vs.any Option.isNone)
  | .ne => .ok (vs.any Option.isSome)
  | op => .error (.nullOperator op)

/-- Whether a comparison of some values with a text holds. -/
def compareText (type : DataType) (op : RelationalOp) (text : String)
    (vs : List (Option Value)) : Except EvalFault Bool := do
  let literal ← type.readEval text
  (present vs).anyM fun v => type.satisfies op v literal

/-- Whether a comparison holds of a graph. -/
def relational (r : Recognizer) (g : Graph) (op : RelationalOp) (left : Expr)
    (literal : Literal) : Except EvalFault Bool := do
  let (type, vs) ← r.compared g left
  match literal with
  | .null => compareNull op vs
  | .text s => compareText type op s vs

/-! ### Patterns -/

/-- The pattern of a pattern test and the texts that it is matched with. -/
def likeTexts (r : Recognizer) (g : Graph) (p : Property) (literal : Literal) :
    Except EvalFault (String × List String) := do
  let flavor := ((← r.resolve p).effectiveType p).flavor
  if flavor ≠ .string then .error (.likeFlavor flavor p)
  else
    match literal with
    | .null => .error .likeNull
    | .text pattern =>
      return (pattern, (present (← r.collect g p)).map fun v => Text.trim v.text)

/-- Whether a pattern test holds of a graph. -/
def like (r : Recognizer) (g : Graph) (p : Property) (literal : Literal) :
    Except EvalFault Bool := do
  let (pattern, texts) ← r.likeTexts g p literal
  return texts.any (Glob.ofPattern pattern).accepts

/-! ### Membership -/

/-- The delimiter of a list: its own one, unless it has none or an empty one. -/
def delimiterOf (r : Recognizer) (own : Option String) : String :=
  match own with
  | some d => if d = "" then r.delimiter else d
  | none => r.delimiter

/-- The members of a list as they are written; blanks around them do not count. -/
def pieces (delimiter text : String) : List String :=
  ((Text.split delimiter text).map Text.trim).filter fun piece => piece != ""

/-- The members of a list as values of a type. -/
def members (type : DataType) (pieces : List String) : Except EvalFault (List Value) :=
  if type.flavor = .string then .ok (pieces.map .string) else pieces.mapM type.readEval

/-- Whether a value is a member; texts are members regardless of blanks around them. -/
def isMember (type : DataType) (ms : List Value) (v : Value) : Except EvalFault Bool :=
  if type.flavor = .string then .ok (ms.any fun m => Text.trim v.text == m.text)
  else ms.anyM fun m => type.satisfies .eq v m

/--
Whether a membership test holds of a graph: whether some value is a member, or is none if
`isIn` is false.
-/
def membership (r : Recognizer) (g : Graph) (isIn : Bool) (p : Property) (literal : Literal)
    (delimiter : Option String) : Except EvalFault Bool := do
  let type := (← r.resolve p).effectiveType p
  if type.flavor = .temporal ∨ type.flavor = .other then .error (.membershipFlavor type.flavor p)
  else
    match literal with
    | .null => .error .membershipNull
    | .text text => do
      let ms ← members type (pieces (r.delimiterOf delimiter) text)
      (present (← r.collect g p)).anyM fun v => return (← isMember type ms v) == isIn

/-! ### Conditions -/

/-- The truth value of a condition on a graph. -/
def evaluate (r : Recognizer) (g : Graph) : Expr → Except EvalFault Bool
  | .logical _ .and a b => do if ← r.evaluate g a then r.evaluate g b else return false
  | .logical _ .or a b => do if ← r.evaluate g a then return true else r.evaluate g b
  | .relational _ op left l => r.relational g op left l
  | .test _ .like p l _ => r.like g p l
  | .test _ .isIn p l d => r.membership g true p l d
  | .test _ .notIn p l d => r.membership g false p l d
  | e => .error (.notCondition e)

/-- Whether the predicate holds of a graph. -/
def recognizes (r : Recognizer) (g : Graph) : Except EvalFault Bool :=
  r.evaluate g r.predicate

/-- The patterns that the evaluation of a condition matches some text with. -/
def patterns (r : Recognizer) (g : Graph) : Expr → List String
  | .logical _ .and a b =>
    r.patterns g a ++ if r.evaluate g a matches .ok true then r.patterns g b else []
  | .logical _ .or a b =>
    r.patterns g a ++ if r.evaluate g a matches .ok false then r.patterns g b else []
  | .test _ .like p l _ =>
    match r.likeTexts g p l with
    | .ok (pattern, _ :: _) => [pattern]
    | _ => []
  | _ => []

end Recognizer

end GraphTable
