import GraphTable.Error.Query
import GraphTable.Predicate.Expr
import GraphTable.Schema

/-!
# Validation of predicates

Before any row is read a predicate is checked against the root type: conditions and operands
stand where they belong, properties resolve, functions and operators fit the flavors of what
they are applied to. The first fault in the order of a walk counts.
-/

namespace GraphTable

/-!
### Resolving properties

Following a property's path through the catalog, from the root type by references to the data
property at its end. What is found is the type of the data and whether there may be many
values: because the property holds many, or because a reference on the way does.
-/

/-- What a property is resolved to. -/
structure Resolved where
  type : DataType
  /-- Whether the path may reach more than one value. -/
  many : Bool
  /-- Whether the property at the end of the path may hold more than one value. -/
  endMany : Bool
  deriving DecidableEq, Repr

namespace Resolved

/-- The type of the values after the first function of the property was applied. -/
def effectiveType (r : Resolved) (p : Property) : DataType :=
  match p.functions with
  | f :: _ => if f.isText then .string else r.type
  | [] => r.type

end Resolved

namespace Property

/--
Follows names from a type on. `many` tells whether some property on the way held many values;
`p` is the property that the names belong to, for messages.
-/
def resolveNames (catalog : Catalog) (p : Property) :
    TypeDef → Bool → List String → Except PlanFault Resolved
  | _, _, [] => .error .emptyPath
  | t, many, name :: rest =>
    match t.property? name with
    | none => .error (.noProperty t.name name)
    | some d =>
      match d.kind, rest with
      | .data type, [] => .ok ⟨type, many || d.many, d.many⟩
      | .data _, _ :: _ => .error (.pastData p name)
      | .reference _, [] => .error (.reference p)
      | .reference target, next :: more =>
        match catalog.find? target with
        | none => .error (.unknownType target)
        | some t => resolveNames catalog p t (many || d.many) (next :: more)

/-- Resolves a property from a root type on. -/
def resolve (catalog : Catalog) (root : TypeDef) (p : Property) : Except PlanFault Resolved :=
  match p.names? with
  | none => .error (.wildcardPath p)
  | some names => resolveNames catalog p root false names

end Property

/-! ### Checking nodes and trees -/

namespace Property

/-- Whether a function is defined for a flavor. -/
def functionFits (f : ScalarFunction) (flavor : Flavor) : Bool :=
  if f.isText then flavor == .string else flavor == .integral || flavor == .real

/-- Resolves a property and checks its first function. -/
def check (catalog : Catalog) (root : TypeDef) (p : Property) : Except PlanFault Resolved := do
  let r ← p.resolve catalog root
  match p.functions with
  | [] => return r
  | f :: _ =>
    if r.many then .error (.functionOnMany f p)
    else if functionFits f r.type.flavor then return r
    else .error (.functionFlavor f r.type.flavor p)

end Property

namespace Expr

/-- Checks that a side of a logical operator is a condition. -/
def checkCondition (e : Expr) : Except PlanFault Unit :=
  if e.isCondition then .ok () else .error (.logicalOperand e)

/-- Checks an operand of arithmetic; what is below it is checked on its own. -/
def checkOperand (catalog : Catalog) (root : TypeDef) (e : Expr) : Except PlanFault Unit :=
  match e with
  | property _ p => do
    let r ← p.check catalog root
    let flavor := (r.effectiveType p).flavor
    if flavor = .integral ∨ flavor = .real then return () else .error (.arithmeticProperty p)
  | literal _ _ | arithmetic _ _ _ _ => .ok ()
  | e => .error (.arithmeticOperand e)

/-- Checks a node, but not the nodes below it. -/
def checkNode (catalog : Catalog) (root : TypeDef) (e : Expr) : Except PlanFault Unit :=
  match e with
  | logical _ _ l r => do
    l.checkCondition
    r.checkCondition
  | relational _ _ left _ =>
    match left with
    | property _ p => do
      let r ← p.check catalog root
      if (r.effectiveType p).flavor = .other then .error (.comparedProperty p) else return ()
    | arithmetic _ _ _ _ => .ok ()
    | e => .error (.comparedSide e)
  | test _ op p _ _ => do
    let r ← p.check catalog root
    let flavor := (r.effectiveType p).flavor
    match op with
    | .like => if flavor = .string then return () else .error (.likeProperty p flavor)
    | _ =>
      if flavor = .temporal ∨ flavor = .other then .error (.membershipProperty op flavor p)
      else return ()
  | arithmetic _ _ l r => do
    l.checkOperand catalog root
    r.checkOperand catalog root
  | property _ _ | literal _ _ => .ok ()

/-- Visits nodes as long as no fault was found. -/
def checkVisitor (catalog : Catalog) (root : TypeDef) : Visitor (Except PlanFault Unit) :=
  fun s e _ _ =>
    match s with
    | .error fault => (.error fault, false)
    | .ok () =>
      match e.checkNode catalog root with
      | .ok () => (.ok (), true)
      | .error fault => (.error fault, false)

/-- Checks a predicate against a root type. -/
def validate (catalog : Catalog) (root : TypeDef) (e : Expr) : Except PlanFault Unit :=
  if e.isCondition then e.walk (checkVisitor catalog root) (.ok ())
  else .error (.notCondition e)

end Expr

end GraphTable
