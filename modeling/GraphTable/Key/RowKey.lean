import GraphTable.Codec.Coding
import GraphTable.Scan
import GraphTable.Schema

/-!
# Row keys

A row key is the encodings of its fields one after the other, without anything between them.
Only the last field may vary in width (`check`), so the bytes of every field are found again
(`decompose`).

A fuzzy key (`fuzzy`) is a template for keys of which only some fields are known: the bytes of
an unknown field are free, and unknown fields at the end are left out.
-/

namespace GraphTable

/-!
### Key fields

One field of a row key: where its value comes from and how it is encoded. Fields are numbered
through, and a field's number is below the number of fields of its key.
-/

/-- Where a key field takes its value from. -/
inductive KeySource
  /-- The name of the type that is stored. -/
  | typeName
  /-- The place that this type belongs to. -/
  | uri
  /-- A data property, reached by a path from the object that is stored. -/
  | property (path : List String)
  deriving DecidableEq, Repr

namespace KeySource

/-- Whether the value does not depend on the object. -/
def isPredefined : KeySource → Bool
  | property _ => false
  | _ => true

/-- The value of a predefined field for a type. -/
def value? (source : KeySource) (t : TypeDef) : Option Value :=
  match source with
  | typeName => some (.string t.name)
  | uri => some (.string t.uri)
  | property _ => none

/-- The path of a property, if the value is one. -/
def path? : KeySource → Option (List String)
  | property path => some path
  | _ => none

end KeySource

/-- A field of a row key. -/
structure KeyField where
  number : Nat
  /-- The number of fields of the key. -/
  total : Nat
  source : KeySource
  type : DataType
  kind : CodecKind
  maxLength : Nat
  algorithm : HashAlgorithm
  number_lt_total : number < total
  deriving DecidableEq

namespace KeyField

/-- A field, if its number is below the number of fields. -/
def create (number total : Nat) (source : KeySource) (type : DataType) (kind : CodecKind)
    (maxLength : Nat) (algorithm : HashAlgorithm) : Except StoreError KeyField :=
  if h : number < total then .ok ⟨number, total, source, type, kind, maxLength, algorithm, h⟩
  else .error (.invalidMapping (.sequence number total))

/-- The codec of a field. -/
def codec (f : KeyField) : Codec :=
  .select f.kind f.type f.maxLength f.algorithm

/-- The bytes of a value in this field. -/
def encode (f : KeyField) (v : Value) : Except StoreError Bytes :=
  f.codec.encode v

/-- The value of bytes in this field. -/
def decode (f : KeyField) (bytes : Bytes) : Except StoreError Value :=
  f.codec.decode bytes

/-- The width of the field, unless it varies. -/
def width? (f : KeyField) : Option Nat :=
  f.codec.width?

end KeyField

end GraphTable

namespace GraphTable.RowKey

/-! ### Keys of several fields -/

/-- Checks that there are fields, and that only the last one varies in width. -/
def check : List KeyField → Except StoreError Unit
  | [] => .error (.invalidMapping .noFields)
  | fields =>
    match fields.dropLast.find? fun f => f.width?.isNone with
    | some f => .error (.invalidMapping (.variableWidth f.number))
    | none => .ok ()

/-- Encodes values, one for each field from the first on, as many as are given. -/
def composeFront : List KeyField → List Value → Except StoreError Bytes
  | f :: fs, v :: vs => do
    let bytes ← f.encode v
    return bytes ++ (← composeFront fs vs)
  | _, _ => .ok []

/-- Encodes a value for each field. -/
def compose (fields : List KeyField) (values : List Value) : Except StoreError Bytes :=
  if values.length = fields.length then composeFront fields values
  else .error (.malformedKey (.valueCount fields.length values.length))

/--
The number of bytes that the next field takes up of those left: its width, or all of them if
it varies in width and is the last one.
-/
def widthFrom (index : Nat) (f : KeyField) (isLast : Bool) (left : Bytes) :
    Except StoreError Nat :=
  match f.width? with
  | some width =>
    if left.length < width then .error (.malformedKey (.tooShort index left.length width))
    else .ok width
  | none =>
    if isLast then .ok left.length else .error (.malformedKey (.variableWidth index))

/-- The value of a field's bytes, unless its codec cannot be read back. -/
def decodeField (f : KeyField) (bytes : Bytes) : Except StoreError (Option Value) :=
  if f.codec.isReversible then (f.decode bytes).map some else .ok none

/-- Splits the bytes left among the fields left, which begin with the one of the given index. -/
def decomposeFrom : Nat → List KeyField → Bytes → Except StoreError (List (Option Value))
  | _, [], left =>
    if left = [] then .ok [] else .error (.malformedKey (.trailing left.length))
  | index, f :: fs, left => do
    let width ← widthFrom index f fs.isEmpty left
    let v ← decodeField f (left.take width)
    return v :: (← decomposeFrom (index + 1) fs (left.drop width))

/-- Splits a key into the values of its fields; hashed fields have none. -/
def decompose (fields : List KeyField) (key : Bytes) :
    Except StoreError (List (Option Value)) :=
  decomposeFrom 0 fields key

/-! ### Fuzzy keys -/

/-- The slots up to the last one that is bound. -/
def upToLastBound (bound : List (Option Bytes)) : List (Option Bytes) :=
  (bound.reverse.dropWhile Option.isNone).reverse

/-- The template and the mask of one field. -/
def fuzzyPiece (f : KeyField) : Option Bytes → Except StoreError (Bytes × Bytes)
  | some bytes => .ok (bytes, List.replicate bytes.length Scan.fixedMask)
  | none =>
    match f.width? with
    | some width => .ok (List.replicate width 0, List.replicate width Scan.freeMask)
    | none => .error (.malformedKey (.unboundWithoutWidth f.number))

/-- The template and the mask of the keys whose fields have the bytes that are bound. -/
def fuzzy (fields : List KeyField) (bound : List (Option Bytes)) :
    Except StoreError (Bytes × Bytes) :=
  match upToLastBound bound with
  | [] => .error (.malformedKey .nothingBound)
  | slots => do
    let pieces ← (fields.zip slots).mapM fun (f, slot) => fuzzyPiece f slot
    return (pieces.flatMap Prod.fst, pieces.flatMap Prod.snd)

end GraphTable.RowKey
