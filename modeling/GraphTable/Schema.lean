import GraphTable.DataType

/-!
# Types of objects

A type of objects declares properties by name: data of a type, or references to objects of a
named type, each holding one value or many. A catalog finds types by name. References name
their target type without any check, so a catalog may lack it.
-/

namespace GraphTable

/-- What a property holds. -/
inductive PropertyKind
  | data (type : DataType)
  | reference (target : String)
  deriving DecidableEq, Repr

/-- The declaration of a property. -/
structure PropertyDef where
  name : String
  kind : PropertyKind
  /-- Whether the property may hold any number of values. -/
  many : Bool
  deriving DecidableEq, Repr

namespace PropertyDef

/-- The type of the data that a property holds, if it holds data. -/
def dataType? (p : PropertyDef) : Option DataType :=
  match p.kind with
  | .data type => some type
  | .reference _ => none

end PropertyDef

/-- A type of objects. -/
structure TypeDef where
  uri : String
  name : String
  properties : List PropertyDef
  deriving DecidableEq, Repr

namespace TypeDef

/-- The declaration of a property; of several under one name the first counts. -/
def property? (t : TypeDef) (name : String) : Option PropertyDef :=
  t.properties.find? fun p => p.name == name

/-- The name of a type together with the place it belongs to. -/
def qualifiedName (t : TypeDef) : String :=
  t.uri ++ "#" ++ t.name

end TypeDef

/-- What is found by name when an element was put in place of those of its name. -/
theorem find?_replace {α : Type} (nameOf : α → String) (x : α) (xs : List α) (name : String) :
    (x :: xs.filter fun y => nameOf y != nameOf x).find? (fun y => nameOf y == name) =
      if nameOf x = name then some x else xs.find? fun y => nameOf y == name := by
  by_cases h : nameOf x = name
  · simp [h]
  · have hne : (nameOf x == name) = false := by simpa using h
    simp only [List.find?_cons, hne, h, if_false]
    rw [List.find?_filter]
    congr 1
    funext y
    by_cases hy : nameOf y = name
    · subst hy
      simp [Ne.symm h]
    · simp [hy]

/-- A collection of types, of which no two have one name. -/
structure Catalog where
  types : List TypeDef

namespace Catalog

/-- The catalog without types. -/
def empty : Catalog := ⟨[]⟩

/-- Adds a type, in place of the one of the same name if there is one. -/
def insert (c : Catalog) (t : TypeDef) : Catalog :=
  ⟨t :: c.types.filter fun s => s.name != t.name⟩

/-- The catalog of a list of types; of several under one name the last counts. -/
def ofList (ts : List TypeDef) : Catalog :=
  ts.foldl insert empty

/-- The type of a name. -/
def find? (c : Catalog) (name : String) : Option TypeDef :=
  c.types.find? fun t => t.name == name

theorem name_of_find? {c : Catalog} {name : String} {t : TypeDef} (h : c.find? name = some t) :
    t.name = name := by
  simpa using List.find?_some h

theorem find?_insert (c : Catalog) (t : TypeDef) (name : String) :
    (c.insert t).find? name = if t.name = name then some t else c.find? name :=
  find?_replace TypeDef.name t c.types name

end Catalog

end GraphTable
