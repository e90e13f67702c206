import GraphTable.Text.Json
import GraphTable.Value

/-!
# Errors of keys, columns and tables

Causes are data, and each kind of error has one function for its wording. Where a component
outside this library may give a reason of its own, the reason is kept as it was `stated`.
-/

namespace GraphTable

/-- Why bytes are not a key, or values do not make one. -/
inductive KeyFault
  | stated (reason : String)
  | padNotText
  | nativeNotText
  | width (expected found : Nat)
  | dayNumber (days : Int)
  | dayNumberTooGreat
  | minByteInteger (width : Nat)
  | minByteReal (width : Nat)
  | valueCount (expected found : Nat)
  | variableWidth (field : Nat)
  | tooShort (field found width : Nat)
  | trailing (count : Nat)
  | nothingBound
  | unboundWithoutWidth (field : Nat)
  | edgeNotText
  | edgeCount (text : String)
  | edgeSequence (text : String)
  | edgeKeyLength
  | edgeKey
  deriving DecidableEq, Repr

/-- The wording of a fault. -/
def KeyFault.message : KeyFault → String
  | stated reason => reason
  | padNotText => "pad field is not utf-8"
  | nativeNotText => "native field is not utf-8"
  | width expected found => s!"expected {expected} bytes, found {found}"
  | dayNumber days => s!"day number {days} out of range"
  | dayNumberTooGreat => "day number out of range"
  | minByteInteger found => s!"minbyte integer of {found} bytes"
  | minByteReal found => s!"minbyte real of {found} bytes"
  | valueCount expected found => s!"expected {expected} key values, found {found}"
  | variableWidth field => s!"variable width field {field} before the last field"
  | tooShort field found expected =>
    s!"key too short for field {field}: {found} of {expected} bytes"
  | trailing count => s!"{count} trailing bytes after the last field"
  | nothingBound => "fuzzy key needs at least one bound field"
  | unboundWithoutWidth field => s!"unbound key field {field} has no fixed width"
  | edgeNotText => "edge metadata is not utf-8"
  | edgeCount text => s!"edge count '{text}'"
  | edgeSequence text => s!"edge sequence '{text}'"
  | edgeKeyLength => "truncated edge row key length"
  | edgeKey => "truncated edge row key"

/-- Why a mapping of key fields makes no sense. -/
inductive MappingFault
  | stated (reason : String)
  | sequence (number total : Nat)
  | noFields
  | variableWidth (field : Nat)
  | unknownPredefined (name : String)
  | source (field : Nat)
  | noProperty (type name : String)
  | path (path : List String)
  | emptyPath
  | noPredefinedValue
  deriving DecidableEq, Repr

/-- The wording of a fault. -/
def MappingFault.message : MappingFault → String
  | stated reason => reason
  | sequence number total => s!"key field sequence {number} not below field count {total}"
  | noFields => "row key has no fields"
  | variableWidth field => s!"key field {field} has a variable width but is not the last field"
  | unknownPredefined name => s!"unknown predefined key field '{name}'"
  | source field => s!"key field {field} needs exactly one of predefined or path"
  | noProperty type name => s!"type {type} has no property '{name}'"
  | path names =>
    "key path '" ++ String.intercalate "." names ++
      "' must end at a data property through singular references"
  | emptyPath => "empty key path"
  | noPredefinedValue => "predefined field without value"

/-- Why the store cannot answer. -/
inductive StoreError
  /-- Input or output failed; the reason is given by what is outside. -/
  | io (reason : String)
  | overflow (length max : Nat)
  | irreversible (codec : String)
  | unsupported (codec : String) (type : DataType)
  | malformedKey (fault : KeyFault)
  | integrity (column : String) (found expected : Nat)
  | missingColumn (column : String)
  | invalidMapping (fault : MappingFault)
  | unknownType (type : String)
  | read (e : ReadError)
  | document (fault : Json.Fault)
  deriving DecidableEq, Repr

/-- The wording of an error. -/
def StoreError.message : StoreError → String
  | io reason => s!"io error: {reason}"
  | overflow length max => s!"key field overflow: {length} bytes exceeds max length {max}"
  | irreversible codec => s!"{codec} codec is not reversible"
  | unsupported codec type => codec ++ " codec does not support " ++ type.name
  | malformedKey fault => "malformed key: " ++ fault.message
  | integrity column found expected =>
    s!"invalid value ({found}) for {column} - expected {expected}"
  | missingColumn column => s!"missing column {column}"
  | invalidMapping fault => "invalid mapping: " ++ fault.message
  | unknownType type => s!"no key mapping for type {type}"
  | read e => e.message
  | document fault => "mapping parse error: " ++ fault.message

end GraphTable
