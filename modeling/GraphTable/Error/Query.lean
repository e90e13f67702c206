import GraphTable.Error.Store
import GraphTable.Predicate.Expr

/-!
# Errors of queries

A query may fail while it is planned, before any row is read; while its predicate is evaluated
on a graph; while a graph is built from a row; because an operation is used in a way that it
does not allow; or because the store fails below it.
-/

namespace GraphTable

/-- Why a predicate or an order cannot be planned. -/
inductive PlanFault
  | stated (reason : String)
  | wildcardPath (p : Property)
  | noProperty (type name : String)
  | unknownType (type : String)
  | reference (p : Property)
  | pastData (p : Property) (name : String)
  | emptyPath
  | functionOnMany (f : ScalarFunction) (p : Property)
  | functionFlavor (f : ScalarFunction) (flavor : Flavor) (p : Property)
  | logicalOperand (e : Expr)
  | comparedProperty (p : Property)
  | comparedSide (e : Expr)
  | likeProperty (p : Property) (flavor : Flavor)
  | membershipProperty (op : MatchOp) (flavor : Flavor) (p : Property)
  | arithmeticProperty (p : Property)
  | arithmeticOperand (e : Expr)
  | notCondition (e : Expr)
  | keyLiteral (p : Property) (e : ReadError)
  | noPredefinedValue
  | orderNotFound (name type : String)
  | orderNotSingle (name : String)
  deriving DecidableEq, Repr

/-- The wording of a fault. -/
def PlanFault.message : PlanFault → String
  | stated reason => reason
  | wildcardPath p =>
    "wildcard path elements are not supported in a where clause: " ++ p.text
  | noProperty type name => s!"type {type} has no property '{name}'"
  | unknownType type => s!"unknown type {type}"
  | reference p => "property " ++ p.text ++ " is a reference, expected a data property"
  | pastData p name => "path " ++ p.text ++ s!" continues past data property '{name}'"
  | emptyPath => "empty property path"
  | functionOnMany f p =>
    "function " ++ f.name ++ " applied to multi-valued property " ++ p.text
  | functionFlavor f flavor p =>
    "function " ++ f.name ++ " not defined for " ++ flavor.name ++ " property " ++ p.text
  | logicalOperand e => "logical operand is not a condition: " ++ e.text
  | comparedProperty p => "relational operator not defined for property " ++ p.text
  | comparedSide e => "left side of a comparison must be a property or arithmetic: " ++ e.text
  | likeProperty p flavor =>
    "LIKE requires a string property, " ++ p.text ++ " is " ++ flavor.name
  | membershipProperty op flavor p =>
    op.name ++ " not defined for " ++ flavor.name ++ " property " ++ p.text
  | arithmeticProperty p => "arithmetic on non-numeric property " ++ p.text
  | arithmeticOperand e => "invalid arithmetic operand: " ++ e.text
  | notCondition e => "where clause is not a condition: " ++ e.text
  | keyLiteral p e => "literal for key property " ++ p.text ++ ": " ++ e.message
  | noPredefinedValue => "predefined key field without value"
  | orderNotFound name type => s!"order by property '{name}' not found on type {type}"
  | orderNotSingle name =>
    s!"order by property '{name}' must be a single-valued data property"

/-- Why a predicate has no value on a graph. -/
inductive EvalFault
  | stated (reason : String)
  | unresolved (p : Property)
  | wildcardPath (p : Property)
  | danglingNode (node : Nat)
  | pathHoldsData (step : String) (p : Property)
  | endHoldsReferences (p : Property)
  | notCondition (e : Expr)
  | notComparable (e : Expr)
  | nullOperator (op : RelationalOp)
  | likeFlavor (flavor : Flavor) (p : Property)
  | likeNull
  | membershipFlavor (flavor : Flavor) (p : Property)
  | membershipNull
  | arithmeticLiteral (text : String)
  | arithmeticOperand (e : Expr)
  | read (e : ReadError)
  | nonNumeric (v : Value)
  | overflow (op : ArithmeticOp)
  | divisionByZero
  | absOverflow
  | functionValue (f : ScalarFunction) (v : Value)
  | relationalType (op : RelationalOp) (type : DataType)
  | incomparable (v literal : Value) (flavor : Flavor)
  deriving DecidableEq

/-- The wording of a fault. -/
def EvalFault.message : EvalFault → String
  | stated reason => reason
  | unresolved p => "unresolved property " ++ p.text
  | wildcardPath p => "wildcard path element in " ++ p.text
  | danglingNode node => s!"dangling node reference {node}"
  | pathHoldsData step p => s!"path segment '{step}' of " ++ p.text ++ " holds data"
  | endHoldsReferences p => "endpoint of " ++ p.text ++ " holds references"
  | notCondition e => "expression is not a condition: " ++ e.text
  | notComparable e => "cannot compare " ++ e.text ++ " with a literal"
  | nullOperator op => "illegal relational operator " ++ op.name ++ " against null literal"
  | likeFlavor flavor p => "LIKE not defined for " ++ flavor.name ++ " property " ++ p.text
  | likeNull => "LIKE against null literal"
  | membershipFlavor flavor p =>
    "IN/NOT_IN not defined for " ++ flavor.name ++ " property " ++ p.text
  | membershipNull => "IN/NOT_IN against null literal"
  | arithmeticLiteral text => s!"non-numeric arithmetic literal '{text}'"
  | arithmeticOperand e => "invalid arithmetic operand " ++ e.text
  | read e => e.message
  | nonNumeric v => "non-numeric value " ++ v.text ++ " in arithmetic"
  | overflow op => "arithmetic overflow in " ++ op.name
  | divisionByZero => "division by zero"
  | absOverflow => "abs overflow"
  | functionValue f v => "function " ++ f.name ++ " not defined for value " ++ v.text
  | relationalType op type =>
    "relational operator " ++ op.name ++ " not defined for " ++ type.name
  | incomparable v literal flavor =>
    "cannot compare " ++ v.text ++ " with " ++ literal.text ++ " as " ++ flavor.name

/-- Why a row does not make a graph. -/
inductive BuildFault
  | stated (reason : String)
  | notText (property : String)
  | property (name : String) (e : ReadError)
  | list (property : String) (fault : Json.Fault)
  | unknownTarget (type : String)
  deriving DecidableEq, Repr

/-- The wording of a fault. -/
def BuildFault.message : BuildFault → String
  | stated reason => reason
  | notText name => s!"property {name} is not utf-8"
  | property name e => s!"property {name}: " ++ e.message
  | list name fault => s!"property {name}: " ++ fault.message
  | unknownTarget type => s!"unknown edge target type {type}"

/-- How an operation was used in a way that it does not allow. -/
inductive ContractFault
  | stated (reason : String)
  /-- A row was to be looked up by its key where rows are streamed. -/
  | pointInStream
  deriving DecidableEq, Repr

/-- The wording of a fault. -/
def ContractFault.message : ContractFault → String
  | stated reason => reason
  | pointInStream =>
    "expected scan query for streaming context - use a non-streaming API for this query"

/-- Why a query fails. -/
inductive QueryError
  | io (reason : String)
  | store (e : StoreError)
  | planning (fault : PlanFault)
  | evaluation (fault : EvalFault)
  | contract (fault : ContractFault)
  | build (fault : BuildFault)
  deriving DecidableEq

namespace QueryError

/-- The wording of an error. -/
def message : QueryError → String
  | io reason => "I/O error: " ++ reason
  | store e => "storage error: " ++ e.message
  | planning fault => "planning error: " ++ fault.message
  | evaluation fault => "evaluation error: " ++ fault.message
  | contract fault => fault.message
  | build fault => "materialize error: " ++ fault.message

/-- The wording of the error below, if there is one. -/
def cause? : QueryError → Option String
  | io reason => some reason
  | store e => some e.message
  | _ => none

end QueryError

end GraphTable
