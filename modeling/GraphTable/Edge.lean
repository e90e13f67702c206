import GraphTable.Row
import GraphTable.Error.Store
import GraphTable.Text.Basic

/-!
# Edges

The edges of a reference property are described by metadata columns of the row that they start
from. `Edges.read` gathers them and checks that the declared count agrees with every list that
is there.

* Sequence numbers are written in decimal, with commas between them; nothing is written for
  none.
* Row keys are written one after the other, each after its length in four bytes.
-/

namespace GraphTable

/-- The edges of a reference property of one row. -/
structure Edges where
  baseType : String
  path : Option String
  sequences : List UInt64
  subType : Option String
  /-- The keys of the rows that the edges lead to. -/
  rowKeys : List Bytes
  count : UInt64
  deriving DecidableEq, Repr

namespace Edges

/-! ### Lists in cells -/

/-- Sequence numbers, with commas between them. -/
def encodeSequences (ns : List UInt64) : Bytes :=
  [(44 : UInt8)].intercalate (ns.map fun n => Column.decimal n.toNat)

/-- The text of a metadata cell. -/
def cellText (bytes : Bytes) : Except StoreError String :=
  match Text.ofUtf8? bytes with
  | some text => .ok text
  | none => .error (.malformedKey .edgeNotText)

/-- One sequence number; blanks around it do not count. -/
def readSequence (cs : List Char) : Except StoreError UInt64 :=
  match Text.count? (Text.trimChars cs) with
  | some n => .ok n
  | none => .error (.malformedKey (.edgeSequence (String.ofList cs)))

/-- Reads sequence numbers. -/
def decodeSequences (bytes : Bytes) : Except StoreError (List UInt64) := do
  match (← cellText bytes).toList with
  | [] => return []
  | cs => (Text.cut [','] cs).mapM readSequence

/-- Row keys, each after its length. -/
def encodeRowKeys (keys : List Bytes) : Bytes :=
  keys.flatMap fun key => Bytes.bigEndian 4 key.length ++ key

/-- Reads row keys. Every key takes four bytes at least, so the count of bytes is fuel enough. -/
def decodeRowKeysFrom : Nat → Bytes → Except StoreError (List Bytes)
  | _, [] => .ok []
  | 0, _ :: _ => .error (.malformedKey .edgeKeyLength)
  | fuel + 1, bytes =>
    if bytes.length < 4 then .error (.malformedKey .edgeKeyLength)
    else
      let length := Bytes.toNat (bytes.take 4)
      let rest := bytes.drop 4
      if rest.length < length then .error (.malformedKey .edgeKey)
      else do return rest.take length :: (← decodeRowKeysFrom fuel (rest.drop length))

/-- Reads row keys. -/
def decodeRowKeys (bytes : Bytes) : Except StoreError (List Bytes) :=
  decodeRowKeysFrom bytes.length bytes

/-! ### Reading edges -/

/-- Where the columns of a property's edges are. -/
structure Place where
  delimiter : UInt8
  family : Bytes
  typeName : String
  sequence : Option UInt64
  property : String

/-- The qualifier of a column. -/
def Place.qualifier (p : Place) (c : EdgeColumn) : Bytes :=
  Column.edgeQualifier p.delimiter p.typeName p.sequence p.property c

/-- The content of a column. -/
def Place.value? (p : Place) (r : Row) (c : EdgeColumn) : Option Bytes :=
  r.value? ⟨p.family, p.qualifier c⟩

/-- Whether a row has edges at a place. -/
def exist (r : Row) (p : Place) : Bool :=
  (p.value? r .baseType).isSome

/-- The text of a column that has to be there. -/
def requiredText (r : Row) (p : Place) (c : EdgeColumn) : Except StoreError String :=
  match p.value? r c with
  | some bytes => cellText bytes
  | none => .error (.missingColumn (Text.ofUtf8Lossy (p.qualifier c)))

/-- The text of a column that may be missing. -/
def optionalText (r : Row) (p : Place) (c : EdgeColumn) : Except StoreError (Option String) :=
  match p.value? r c with
  | some bytes => (cellText bytes).map some
  | none => .ok none

/-- The declared count. -/
def readCount (r : Row) (p : Place) : Except StoreError UInt64 := do
  let text ← requiredText r p .count
  match Text.count? (Text.trimChars text.toList) with
  | some n => return n
  | none => .error (.malformedKey (.edgeCount text))

/-- A list in a column that may be missing, which then is empty; if not, its length is the count. -/
def readList {α : Type} (r : Row) (p : Place) (c : EdgeColumn) (count : UInt64)
    (decode : Bytes → Except StoreError (List α)) : Except StoreError (List α) :=
  match p.value? r c with
  | none => .ok []
  | some bytes => do
    let items ← decode bytes
    if count.toNat = items.length then return items
    else .error (.integrity (Text.ofUtf8Lossy (p.qualifier .count)) count.toNat items.length)

/-- The edges of a row at a place. -/
def read (r : Row) (p : Place) : Except StoreError Edges := do
  let baseType ← requiredText r p .baseType
  let count ← readCount r p
  let path ← optionalText r p .path
  let subType ← optionalText r p .subType
  let sequences ← readList r p .sequences count decodeSequences
  let rowKeys ← readList r p .rowKeys count decodeRowKeys
  return { baseType, path, sequences, subType, rowKeys, count }

end Edges

end GraphTable
