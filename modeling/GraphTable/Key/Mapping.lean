import GraphTable.Key.RowKey
import GraphTable.Text.Basic

/-!
# Mappings of types to tables and keys

A mapping says, for every type that may be the root of a stored graph, which table its rows
are in and which fields their keys have. It is written as a JSON document that lists tables,
their types and the key fields of each.
-/

namespace GraphTable

/-- What the types in a table have in common. -/
structure TableMapping where
  name : String
  /-- The column family that data is kept in. -/
  family : Bytes
  algorithm : HashAlgorithm
  /-- Whether deleted graphs leave rows behind that are marked as deleted. -/
  tombstones : Bool
  deriving DecidableEq, Repr

/-- The key of the rows of a type. -/
structure TypeMapping where
  typeName : String
  table : TableMapping
  fields : List KeyField
  /-- Only the last field varies in width, and there is one. -/
  checked : RowKey.check fields = .ok ()
  deriving DecidableEq

namespace TypeMapping

/-- The key of a type, if the fields make one. -/
def create (typeName : String) (table : TableMapping) (fields : List KeyField) :
    Except StoreError TypeMapping :=
  match h : RowKey.check fields with
  | .ok () => .ok ⟨typeName, table, fields, h⟩
  | .error e => .error e

/-- The predefined fields in front. -/
def predefined (m : TypeMapping) : List KeyField :=
  m.fields.takeWhile fun f => f.source.isPredefined

/-- The value of a predefined field for a type. -/
def predefinedValue (t : TypeDef) (f : KeyField) : Except StoreError Value :=
  match f.source.value? t with
  | some v => .ok v
  | none => .error (.invalidMapping .noPredefinedValue)

/-- What all keys of a type begin with: its predefined fields in front. -/
def typeStem (m : TypeMapping) (t : TypeDef) : Except StoreError Bytes := do
  RowKey.composeFront m.predefined (← m.predefined.mapM (predefinedValue t))

end TypeMapping

/-- The keys of the types that are mapped. -/
structure Mapping where
  types : List TypeMapping

namespace Mapping

/-- The mapping of no types. -/
def empty : Mapping := ⟨[]⟩

/-- Maps a type, in place of what it was mapped to before. -/
def insert (m : Mapping) (t : TypeMapping) : Mapping :=
  ⟨t :: m.types.filter fun s => s.typeName != t.typeName⟩

/-- What a type is mapped to. -/
def find? (m : Mapping) (typeName : String) : Option TypeMapping :=
  m.types.find? fun t => t.typeName == typeName

/-- What a type is mapped to; an error without it. -/
def require (m : Mapping) (typeName : String) : Except StoreError TypeMapping :=
  match m.find? typeName with
  | some t => .ok t
  | none => .error (.unknownType typeName)

end Mapping

/-! ### The document -/

namespace Mapping

/-- A key field as it is written. -/
structure FieldEntry where
  predefined : Option String
  path : Option String
  codec : Option String
  maxLength : Nat
  type : Option DataType

/-- A type as it is written. -/
structure TypeEntry where
  typeName : String
  fields : List FieldEntry

/-- A table as it is written. -/
structure TableEntry where
  name : String
  family : String
  algorithm : Option String
  tombstones : Bool
  types : List TypeEntry

/-- Decodes a key field. -/
def decodeField (j : Json) : Except String FieldEntry := do
  match ← j.fields ["predefined", "path", "codec", "max_length", "data_type"] with
  | [predefined, path, codec, maxLength, type] =>
    return {
      predefined := ← Json.orDefault none (Json.asOption Json.asString) predefined
      path := ← Json.orDefault none (Json.asOption Json.asString) path
      codec := ← Json.orDefault none (Json.asOption Json.asString) codec
      maxLength := ← Json.orDefault 0 Json.asCount maxLength
      type := ← Json.orDefault none (Json.asOption (Json.asWord DataType.ofTag?)) type }
  | _ => .error "invalid length"

/-- Decodes a type. -/
def decodeType (j : Json) : Except String TypeEntry := do
  match ← j.fields ["type", "row_key"] with
  | [typeName, fields] =>
    return {
      typeName := ← Json.required "type" Json.asString typeName
      fields := ← Json.required "row_key" (Json.asList decodeField) fields }
  | _ => .error "invalid length"

/-- Decodes a table. -/
def decodeTable (j : Json) : Except String TableEntry := do
  match ← j.fields ["name", "data_family", "hash_algorithm", "tombstone_rows", "types"] with
  | [name, family, algorithm, tombstones, types] =>
    return {
      name := ← Json.required "name" Json.asString name
      family := ← Json.required "data_family" Json.asString family
      algorithm := ← Json.orDefault none (Json.asOption Json.asString) algorithm
      tombstones := ← Json.orDefault true Json.asBool tombstones
      types := ← Json.orDefault [] (Json.asList decodeType) types }
  | _ => .error "invalid length"

/-- Decodes a mapping. -/
def decodeDocument (j : Json) : Except String (List TableEntry) := do
  match ← j.fields ["tables"] with
  | [tables] => Json.required "tables" (Json.asList decodeTable) tables
  | _ => .error "invalid length"

/-! ### From the document to the mapping -/

/--
The type of the data property at the end of a path, every step of which but the last is a
reference to a single object. `path` is the whole path, for messages.
-/
def pathType (catalog : Catalog) (path : List String) :
    TypeDef → List String → Except StoreError DataType
  | _, [] => .error (.invalidMapping .emptyPath)
  | t, name :: rest =>
    match t.property? name with
    | none => .error (.invalidMapping (.noProperty t.name name))
    | some p =>
      match p.kind, rest with
      | .data type, [] => .ok type
      | .reference target, next :: more =>
        if p.many then .error (.invalidMapping (.path path))
        else
          match catalog.find? target with
          | some t => pathType catalog path t (next :: more)
          | none => .error (.unknownType target)
      | _, _ => .error (.invalidMapping (.path path))

/-- The source and the data type of a key field as it is written. -/
def resolveSource (catalog : Catalog) (root : TypeDef) (number : Nat) (entry : FieldEntry) :
    Except StoreError (KeySource × DataType) :=
  match entry.predefined, entry.path with
  | some name, none =>
    if name = "type" ∨ name = "type_name" then .ok (.typeName, .string)
    else if name = "uri" then .ok (.uri, .string)
    else .error (.invalidMapping (.unknownPredefined name))
  | none, some written => do
    let path := Text.split "." written
    match entry.type with
    | some type => return (.property path, type)
    | none => return (.property path, ← pathType catalog path root path)
  | _, _ => .error (.invalidMapping (.source number))

/-- A key field from what is written of it. -/
def resolveField (catalog : Catalog) (root : TypeDef) (algorithm : HashAlgorithm) (total : Nat)
    (number : Nat) (entry : FieldEntry) : Except StoreError KeyField := do
  let (source, type) ← resolveSource catalog root number entry
  let kind := (entry.codec.map CodecKind.ofName).getD .pad
  KeyField.create number total source type kind entry.maxLength algorithm

/-- The key fields from what is written of them, numbered from `number` on. -/
def resolveFields (catalog : Catalog) (root : TypeDef) (algorithm : HashAlgorithm)
    (total : Nat) : Nat → List FieldEntry → Except StoreError (List KeyField)
  | _, [] => .ok []
  | number, entry :: entries => do
    let f ← resolveField catalog root algorithm total number entry
    return f :: (← resolveFields catalog root algorithm total (number + 1) entries)

/-- The mapping of a type in a table. -/
def resolveType (catalog : Catalog) (table : TableMapping) (entry : TypeEntry) :
    Except StoreError TypeMapping := do
  match catalog.find? entry.typeName with
  | none => .error (.unknownType entry.typeName)
  | some root =>
    let fields ←
      resolveFields catalog root table.algorithm entry.fields.length 0 entry.fields
    TypeMapping.create entry.typeName table fields

/-- What the types of a table have in common. -/
def tableOf (entry : TableEntry) : TableMapping where
  name := entry.name
  family := Text.utf8 entry.family
  algorithm := .ofName entry.algorithm
  tombstones := entry.tombstones

/-- The mappings of the types of a table, in order. -/
def resolveTable (catalog : Catalog) (entry : TableEntry) :
    Except StoreError (List TypeMapping) :=
  entry.types.mapM (resolveType catalog (tableOf entry))

/--
Reads a mapping; the types of key fields that do not state their own are found in the catalog.
Of several mappings of one type the last counts.
-/
def read (catalog : Catalog) (text : String) : Except StoreError Mapping := do
  let tables ← (Json.decode decodeDocument text).mapError .document
  let types ← tables.mapM (resolveTable catalog)
  return types.flatten.foldl insert empty

end Mapping

end GraphTable
