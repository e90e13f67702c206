import GraphTable.Binary64.Arithmetic
import GraphTable.Error.Query
import GraphTable.Text.Case
import GraphTable.Text.Utf8

/-!
# Values in predicates

Numbers in predicates are whole numbers of 64 bits or reals. Whole numbers stay whole as long as
the result is one, and an operation whose result has no room is an error, never wrapped; a
division with a remainder, and anything with a real in it, is carried out in reals.

To compare it with a literal, a value is brought into the variant of a data type and compared under
the flavor of the type: integral values as whole numbers, with truth values as 0 and 1; reals as
numbers, where what is not a number satisfies no comparison; texts in the order of their bytes;
dates by the calendar, and what else is temporal as text. Nothing else compares.
-/

namespace GraphTable

/-! ### Scalar functions and arithmetic -/

namespace ScalarFunction

/-- The value of a function. -/
def apply (f : ScalarFunction) (v : Value) : Except EvalFault Value :=
  match f, v with
  | abs, .int i =>
    if i = Int64.minValue then .error .absOverflow
    else .ok (.int (if i < 0 then -i else i))
  | abs, .float x => .ok (.float x.abs)
  | ceiling, .float x => .ok (.float x.ceiling)
  | floor, .float x => .ok (.float x.floor)
  | round, .float x => .ok (.float x.round)
  | ceiling, .int i | floor, .int i | round, .int i => .ok (.int i)
  | lower, .string s => .ok (.string (Text.lower s))
  | upper, .string s => .ok (.string (Text.upper s))
  | f, v => .error (.functionValue f v)

end ScalarFunction

/-- A number in arithmetic. -/
inductive Number
  | whole (i : Int64)
  | real (x : Binary64)
  deriving DecidableEq

namespace Number

/-- A number as a value. -/
def toValue : Number → Value
  | whole i => .int i
  | real x => .float x

/-- The type that a number is compared as. -/
def type : Number → DataType
  | whole _ => .long
  | real _ => .double

/-- A value as a number. -/
def ofValue : Value → Except EvalFault Number
  | .bool b => .ok (whole (if b then 1 else 0))
  | .int i => .ok (whole i)
  | .float x => .ok (real x)
  | v => .error (.nonNumeric v)

/-- A literal as a number: a whole one if it can be. -/
def read (text : String) : Except EvalFault Number :=
  let cs := Text.trimChars text.toList
  match Text.word? cs with
  | some i => .ok (whole i)
  | none =>
    match Binary64.read? cs with
    | some x => .ok (real x)
    | none => .error (.arithmeticLiteral (String.ofList cs))

/-- A number as a real. -/
def toReal : Number → Binary64
  | whole i => .ofInt i.toInt
  | real x => x

/-- A whole number of 64 bits. -/
def word? (z : Int) : Option Int64 :=
  if Int64.minValue.toInt ≤ z ∧ z ≤ Int64.maxValue.toInt then some (Int64.ofInt z) else none

/-- A whole number as the result of an operation, if it has room. -/
def checked (op : ArithmeticOp) (z : Int) : Except EvalFault Number :=
  match word? z with
  | some i => .ok (whole i)
  | none => .error (.overflow op)

/-- Combines two whole numbers. A remainder has the sign of the dividend. -/
def combineWhole (op : ArithmeticOp) (a b : Int) : Except EvalFault Number :=
  match op with
  | .add => checked op (a + b)
  | .sub => checked op (a - b)
  | .mul => checked op (a * b)
  | .div =>
    if b = 0 then .error .divisionByZero
    else if Int.tmod a b = 0 then checked op (Int.tdiv a b)
    else .ok (real (.div (.ofInt a) (.ofInt b)))
  | .mod =>
    if b = 0 then .error .divisionByZero
    else do
      -- The quotient needs room as well, though it is not the result.
      let _ ← checked op (Int.tdiv a b)
      checked op (Int.tmod a b)

/-- Combines two reals. -/
def combineReal (op : ArithmeticOp) (a b : Binary64) : Binary64 :=
  match op with
  | .add => a.add b
  | .sub => a.sub b
  | .mul => a.mul b
  | .div => a.div b
  | .mod => a.rem b

/-- Combines two numbers. -/
def combine (op : ArithmeticOp) (a b : Number) : Except EvalFault Number :=
  match a, b with
  | whole a, whole b => combineWhole op a.toInt b.toInt
  | a, b => .ok (real (combineReal op a.toReal b.toReal))

end Number

/-! ### Comparing values with literals -/

namespace RelationalOp

/-- Whether an operator holds of two values that compare in a given way. -/
def holds : RelationalOp → Ordering → Bool
  | eq, o => o == .eq
  | ne, o => o != .eq
  | gt, o => o == .gt
  | ge, o => o != .lt
  | lt, o => o == .lt
  | le, o => o != .gt

end RelationalOp

namespace Value

/-- The whole number that a value is; truth values are 0 and 1. -/
def integral? : Value → Option Int
  | int i => some i.toInt
  | bool b => some (if b then 1 else 0)
  | _ => none

/-- The real that a value is. -/
def real? : Value → Option Binary64
  | float x => some x
  | int i => some (.ofInt i.toInt)
  | bool b => some (.ofInt (if b then 1 else 0))
  | _ => none

/-- How two temporal values compare. -/
def compareTemporal : Value → Value → Ordering
  | date a, date b => a.compare b
  | a, b => Text.compare a.text b.text

/-- How two values compare under a flavor, if they do. -/
def compareAs? (flavor : Flavor) (a b : Value) : Option Ordering :=
  match flavor with
  | .integral => do return compare (← a.integral?) (← b.integral?)
  | .real => do (← a.real?).compare? (← b.real?)
  | .string => some (Text.compare a.text b.text)
  | .temporal => some (compareTemporal a b)
  | .other => none

end Value

namespace DataType

/-- Brings a value into the variant of a type, as an operation on graphs. -/
def coerceEval (type : DataType) (v : Value) : Except EvalFault Value :=
  (type.coerce v).mapError .read

/-- Reads a literal, as an operation on graphs. -/
def readEval (type : DataType) (text : String) : Except EvalFault Value :=
  (type.read text).mapError .read

/-- Whether an operator holds of a value and a literal of a type. -/
def satisfies (type : DataType) (op : RelationalOp) (v literal : Value) :
    Except EvalFault Bool := do
  let v ← type.coerceEval v
  if type.flavor = .other then .error (.relationalType op type)
  else
    match Value.compareAs? type.flavor v literal with
    | some o => return op.holds o
    | none =>
      if type.flavor = .real then return false
      else .error (.incomparable v literal type.flavor)

end DataType

end GraphTable
