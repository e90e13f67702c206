/-!
# Data types

The declared types of properties and key fields. A type decides how literals are read, and
its *flavor* decides how values are compared: truth values are integral and order as 0 and 1,
and all kinds of reals are one flavor.
-/

namespace GraphTable

/-- The declared type of a data property or key field. -/
inductive DataType
  | boolean
  | byte
  | short
  | int
  | long
  | float
  | double
  | decimal
  | string
  | date
  | dateTime
  | time
  | bytes
  | object
  deriving DecidableEq, Repr

/-- The coarse kind of a data type, which decides how its values compare. -/
inductive Flavor
  | integral
  | real
  | string
  | temporal
  | other
  deriving DecidableEq, Repr

namespace Flavor

/-- The name of a flavor in messages. -/
def name : Flavor → String
  | integral => "integral"
  | real => "real"
  | string => "string"
  | temporal => "temporal"
  | other => "other"

end Flavor

namespace DataType

/-- The name of a type in messages. -/
def name : DataType → String
  | boolean => "Boolean"
  | byte => "Byte"
  | short => "Short"
  | int => "Int"
  | long => "Long"
  | float => "Float"
  | double => "Double"
  | decimal => "Decimal"
  | string => "String"
  | date => "Date"
  | dateTime => "DateTime"
  | time => "Time"
  | bytes => "Bytes"
  | object => "Object"

/-- The name of a type in documents. -/
def tag : DataType → String
  | boolean => "boolean"
  | byte => "byte"
  | short => "short"
  | int => "int"
  | long => "long"
  | float => "float"
  | double => "double"
  | decimal => "decimal"
  | string => "string"
  | date => "date"
  | dateTime => "date_time"
  | time => "time"
  | bytes => "bytes"
  | object => "object"

/-- All types. -/
def all : List DataType :=
  [boolean, byte, short, int, long, float, double, decimal, string, date, dateTime, time,
    bytes, object]

/-- The type that a name in a document stands for. -/
def ofTag? (tag : String) : Option DataType :=
  all.find? fun t => t.tag == tag

/-- The flavor of a type. -/
def flavor : DataType → Flavor
  | boolean | byte | short | int | long => .integral
  | float | double | decimal => .real
  | string => .string
  | date | dateTime | time => .temporal
  | bytes | object => .other

/-- The least and the greatest value of an integral type. -/
def integralBounds : DataType → Int64 × Int64
  | boolean => (0, 1)
  | byte => (-128, 127)
  | short => (-32768, 32767)
  | int => (-2147483648, 2147483647)
  | _ => (Int64.minValue, Int64.maxValue)

theorem mem_all (t : DataType) : t ∈ all := by
  cases t <;> decide

end DataType

end GraphTable
