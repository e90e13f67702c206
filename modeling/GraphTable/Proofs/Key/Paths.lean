import GraphTable.Key.Mapping
import GraphTable.Predicate.Validate
import GraphTable.Proofs.Outcome
import Mathlib.Data.List.Forall2

/-!
# Paths of key fields

The path of a key field is followed through the catalog twice. Reading a mapping does so for the
data type of the field, if that is not written (`Mapping.pathType`), and planning a query does so
for every property in a predicate (`Property.resolve`). Where the mapping was read, they agree
(`Mapping.resolve_of_read`): the path leads over references to single objects to a property with
data of the type of the field (`Catalog.Leads`).

**The property itself may hold many values**, of which a key has room for one
(`Journal.many_of_tags`). So a predicate on a key field need not be about the value in the key.
-/

namespace GraphTable

/-! ### Following a path -/

/-- Names lead over references to single objects to a data property. -/
inductive Catalog.Leads (catalog : Catalog) : TypeDef → List String → PropertyDef → Prop
  | data {t : TypeDef} {name : String} {p : PropertyDef} {type : DataType}
      (hp : t.property? name = some p) (hkind : p.kind = .data type) : Leads catalog t [name] p
  | reference {t next : TypeDef} {name target : String} {names : List String} {d p : PropertyDef}
      (hd : t.property? name = some d) (hkind : d.kind = .reference target)
      (hone : d.many = false) (hnext : catalog.find? target = some next)
      (h : Leads catalog next names p) : Leads catalog t (name :: names) p

variable {catalog : Catalog} {root : TypeDef}

theorem Catalog.Leads.ne_nil {t : TypeDef} {names : List String} {p : PropertyDef}
    (h : catalog.Leads t names p) : names ≠ [] := by
  cases h with
  | data => exact List.cons_ne_nil _ _
  | reference => exact List.cons_ne_nil _ _

/-- The only way for the reading of a path to end well is to be led to data. -/
theorem Mapping.leads_of_pathType {path names : List String} {t : TypeDef} {type : DataType}
    (h : pathType catalog path t names = .ok type) :
    ∃ p, catalog.Leads t names p ∧ p.kind = .data type := by
  fun_induction pathType catalog path t names with
  | case3 t name d hd type' hkind =>
    obtain rfl := Except.ok.inj h
    exact ⟨d, .data hd hkind, hkind⟩
  | case5 t name d hd target next names hkind hmany t' hnext ih =>
    obtain ⟨p, hleads, hdata⟩ := ih h
    exact ⟨p, .reference hd hkind (Bool.eq_false_iff.mpr hmany) hnext hleads, hdata⟩
  | _ => cases h

theorem Property.resolveNames_of_leads {t : TypeDef} {names : List String} {p : PropertyDef}
    {type : DataType} (h : catalog.Leads t names p) (htype : p.kind = .data type) (q : Property)
    (many : Bool) : q.resolveNames catalog t many names = .ok ⟨type, many || p.many, p.many⟩ := by
  induction h with
  | data hp hkind =>
    rw [resolveNames, hp]
    simp only [htype]
  | reference hd hkind hone hnext h ih =>
    obtain ⟨next, names, rfl⟩ := List.exists_cons_of_ne_nil h.ne_nil
    rw [resolveNames, hd]
    simp only [hkind, hnext, hone, Bool.or_false]
    exact ih htype

theorem Property.resolve_of_leads {names : List String} {p : PropertyDef} {type : DataType}
    (h : catalog.Leads root names p) (htype : p.kind = .data type) {q : Property}
    (hq : q.names? = some names) : q.resolve catalog root = .ok ⟨type, p.many, p.many⟩ := by
  rw [resolve, hq]
  exact resolveNames_of_leads h htype q false

/-! ### From the document to the mapping -/

section Lists

variable {α β ε : Type} {R : α → β → Prop}

theorem Outcome.forall₂_of_mapM {f : α → Except ε β} {xs : List α} {ys : List β}
    (h : xs.mapM f = .ok ys) : List.Forall₂ (fun x y => f x = .ok y) xs ys := by
  obtain ⟨hlength, hmem⟩ := mapM_eq_ok_iff.mp h
  exact List.forall₂_iff_zip.mpr ⟨hlength.symm, fun hxy => hmem _ hxy⟩

/-- What is found first in two lists stands in the same place. -/
theorem rel_find? {p : α → Bool} {q : β → Bool} {xs : List α} {ys : List β}
    (h : List.Forall₂ R xs ys) (hpq : ∀ x y, R x y → p x = q y) :
    Option.Rel R (xs.find? p) (ys.find? q) := by
  induction h with
  | nil => exact .none
  | @cons x y xs ys hxy hrest ih =>
    rw [List.find?_cons, List.find?_cons, hpq x y hxy]
    cases q y with
    | true => exact .some hxy
    | false => exact ih

end Lists

namespace Mapping

/-- The types of a document with the tables that they are in. -/
def entriesOf (tables : List TableEntry) : List (TableEntry × TypeEntry) :=
  tables.flatMap fun table => table.types.map fun entry => (table, entry)

/-- The last entry for a type in a document, with the table that it is in. -/
def lastOf? (tables : List TableEntry) (typeName : String) : Option (TableEntry × TypeEntry) :=
  (entriesOf tables).reverse.find? fun e => e.2.typeName == typeName

theorem find?_insert (m : Mapping) (t : TypeMapping) (typeName : String) :
    (m.insert t).find? typeName = if t.typeName = typeName then some t else m.find? typeName :=
  find?_replace TypeMapping.typeName t m.types typeName

/-- Of several mappings of one type the last is found. -/
theorem find?_foldl_insert (types : List TypeMapping) (m : Mapping) (typeName : String) :
    (types.foldl insert m).find? typeName =
      (types.reverse.find? fun t => t.typeName == typeName).or (m.find? typeName) := by
  induction types generalizing m with
  | nil => rfl
  | cons t types ih =>
    rw [List.foldl_cons, ih, find?_insert, List.reverse_cons, List.find?_append, Option.or_assoc]
    congr 1
    by_cases h : t.typeName = typeName
    · simp [h]
    · simp [h]

theorem exists_of_resolveType {table : TableMapping} {entry : TypeEntry} {t : TypeMapping}
    (h : resolveType catalog table entry = .ok t) :
    ∃ root, catalog.find? entry.typeName = some root ∧ t.typeName = entry.typeName ∧
      resolveFields catalog root table.algorithm entry.fields.length 0 entry.fields =
        .ok t.fields := by
  unfold resolveType at h
  cases hroot : catalog.find? entry.typeName with
  | none =>
    rw [hroot] at h
    cases h
  | some root =>
    simp only [hroot] at h
    obtain ⟨fields, hfields, h⟩ := Outcome.bind_eq_ok.mp h
    unfold TypeMapping.create at h
    split at h
    · cases h
      exact ⟨root, rfl, rfl, hfields⟩
    · cases h

theorem forall₂_of_resolveTable {tables : List TableEntry} {types : List (List TypeMapping)}
    (h : tables.mapM (resolveTable catalog) = .ok types) :
    List.Forall₂ (fun e t => resolveType catalog (tableOf e.1) e.2 = .ok t) (entriesOf tables)
      types.flatten := by
  have htables := Outcome.forall₂_of_mapM h
  rw [entriesOf, List.flatMap_def]
  refine List.rel_flatten (List.forall₂_map_left_iff.mpr (htables.imp fun table ts htable => ?_))
  exact List.forall₂_map_left_iff.mpr (Outcome.forall₂_of_mapM htable)

/-- What is found in a mapping is what the last entry for the type comes to. -/
theorem find?_of_read {text : String} {m : Mapping} (h : read catalog text = .ok m) :
    ∃ tables, Json.decode decodeDocument text = .ok tables ∧ ∀ typeName,
      Option.Rel (fun e t => resolveType catalog (tableOf e.1) e.2 = .ok t)
        (lastOf? tables typeName) (m.find? typeName) := by
  obtain ⟨tables, hdecode, h⟩ := Outcome.bind_eq_ok.mp h
  obtain ⟨types, htypes, h⟩ := Outcome.bind_eq_ok.mp h
  obtain rfl := Except.ok.inj h
  refine ⟨tables, Outcome.mapError_eq_ok.mp hdecode, fun typeName => ?_⟩
  rw [find?_foldl_insert]
  have hempty : empty.find? typeName = none := rfl
  rw [hempty, Option.or_none]
  refine rel_find? (List.forall₂_reverse_iff.mpr (forall₂_of_resolveTable htypes)) ?_
  intro e t ht
  obtain ⟨-, -, hname, -⟩ := exists_of_resolveType ht
  rw [hname]

/-! ### Key fields -/

theorem source_of_create {number total maxLength : Nat} {source : KeySource} {type : DataType}
    {kind : CodecKind} {algorithm : HashAlgorithm} {f : KeyField}
    (h : KeyField.create number total source type kind maxLength algorithm = .ok f) :
    f.source = source ∧ f.type = type := by
  unfold KeyField.create at h
  split at h
  · cases h
    exact ⟨rfl, rfl⟩
  · cases h

theorem pathType_of_resolveSource {number : Nat} {entry : FieldEntry} {path : List String}
    {type : DataType} (h : resolveSource catalog root number entry = .ok (.property path, type))
    (htype : entry.type = none) : pathType catalog path root path = .ok type := by
  unfold resolveSource at h
  rw [htype] at h
  split at h
  · -- predefined fields are no properties
    split at h
    · cases h
    · split at h
      · cases h
      · cases h
  · obtain ⟨type', hpath, h⟩ := Outcome.bind_eq_ok.mp h
    cases h
    exact hpath
  · cases h

/-- Unless it is written, the data type of a key field is that of a property that its path leads
to. -/
theorem leads_of_resolveField {algorithm : HashAlgorithm} {total number : Nat} {entry : FieldEntry}
    {f : KeyField} (h : resolveField catalog root algorithm total number entry = .ok f)
    {path : List String} (hsource : f.source = .property path) (htype : entry.type = none) :
    ∃ p, catalog.Leads root path p ∧ p.kind = .data f.type := by
  obtain ⟨⟨source, type⟩, hresolve, h⟩ := Outcome.bind_eq_ok.mp h
  obtain ⟨rfl, rfl⟩ := source_of_create h
  rw [hsource] at hresolve
  exact leads_of_pathType (pathType_of_resolveSource hresolve htype)

theorem forall₂_of_resolveFields {algorithm : HashAlgorithm} {total number : Nat}
    {entries : List FieldEntry} {fields : List KeyField}
    (h : resolveFields catalog root algorithm total number entries = .ok fields) :
    List.Forall₂ (fun entry f => ∃ n, resolveField catalog root algorithm total n entry = .ok f)
      entries fields := by
  induction entries generalizing number fields with
  | nil =>
    obtain rfl := Except.ok.inj h
    exact .nil
  | cons entry entries ih =>
    obtain ⟨f, hf, h⟩ := Outcome.bind_eq_ok.mp h
    obtain ⟨fs, hfs, h⟩ := Outcome.bind_eq_ok.mp h
    obtain rfl := Except.ok.inj h
    exact .cons ⟨number, hf⟩ (ih hfs)

/-- Unless the data type of a key field is written, its path leads to data of its type, and
properties of the same path in predicates are resolved to that data. -/
def SeenAlike (catalog : Catalog) (root : TypeDef) (entry : FieldEntry) (f : KeyField) : Prop :=
  ∀ path, f.source = .property path → entry.type = none → ∃ p, catalog.Leads root path p ∧
    ∀ q : Property, q.names? = some path →
      q.resolve catalog root = .ok ⟨f.type, p.many, p.many⟩

theorem seenAlike_of_resolveField {algorithm : HashAlgorithm} {total number : Nat}
    {entry : FieldEntry} {f : KeyField}
    (h : resolveField catalog root algorithm total number entry = .ok f) :
    SeenAlike catalog root entry f := by
  intro path hsource htype
  obtain ⟨p, hleads, hdata⟩ := leads_of_resolveField h hsource htype
  exact ⟨p, hleads, fun q hq => Property.resolve_of_leads hleads hdata hq⟩

/--
In a mapping that was read, the path of a key field whose data type is not written leads over
references to single objects to data of the type of the field. Properties of that path in predicates
are resolved to the same type, and have many values only if the property at the end of the path has.
-/
theorem resolve_of_read {text : String} {m : Mapping} (h : read catalog text = .ok m)
    {typeName : String} {t : TypeMapping} (ht : m.find? typeName = some t) :
    ∃ tables table entry root, Json.decode decodeDocument text = .ok tables ∧
      lastOf? tables typeName = some (table, entry) ∧ catalog.find? typeName = some root ∧
      List.Forall₂ (SeenAlike catalog root) entry.fields t.fields := by
  obtain ⟨tables, hdecode, hfind⟩ := find?_of_read h
  have hlast := hfind typeName
  rw [ht] at hlast
  generalize hentry : lastOf? tables typeName = last at hlast
  cases hlast with
  | @some e _ hresolve =>
    obtain ⟨table, entry⟩ := e
    obtain ⟨root, hroot, -, hfields⟩ := exists_of_resolveType hresolve
    have hname : entry.typeName = typeName := by
      simpa using List.find?_some hentry
    refine ⟨tables, table, entry, root, hdecode, hentry, hname ▸ hroot, ?_⟩
    refine (forall₂_of_resolveFields hfields).imp fun e f hresolved => ?_
    obtain ⟨n, hresolved⟩ := hresolved
    exact seenAlike_of_resolveField hresolved

end Mapping

/-! ### A journal -/

namespace Journal

/-- Entries have any number of tags, and an author. -/
def entry : TypeDef :=
  ⟨"http://journal", "Entry", [⟨"tags", .data .string, true⟩, ⟨"author", .reference "Person", false⟩]⟩

/-- Authors have a name. -/
def person : TypeDef := ⟨"http://journal", "Person", [⟨"name", .data .string, false⟩]⟩

def schema : Catalog := .ofList [entry, person]

/-- The keys of entries are made of the name of the author and the tags. -/
def document : String :=
  "\x7b\"tables\": [\x7b\"name\": \"entries\", \"data_family\": \"f\", " ++
    "\"types\": [\x7b\"type\": \"Entry\", \"row_key\": [" ++
    "\x7b\"path\": \"author.name\", \"codec\": \"hash\"\x7d, \x7b\"path\": \"tags\"\x7d" ++
    "]\x7d]\x7d]\x7d"

/-- The key fields of entries, as they are written; their data types are left to be found. -/
def keyFields : List Mapping.FieldEntry :=
  [⟨none, some "author.name", some "hash", 0, none⟩, ⟨none, some "tags", none, 0, none⟩]

def table : Mapping.TableEntry := ⟨"entries", "f", none, true, [⟨"Entry", keyFields⟩]⟩

theorem decode_document : Json.decode Mapping.decodeDocument document = .ok [table] := by
  cbv

theorem lastOf?_table : Mapping.lastOf? [table] "Entry" = some (table, ⟨"Entry", keyFields⟩) :=
  rfl

theorem exists_read_document :
    ∃ m t, Mapping.read schema document = .ok m ∧ m.find? "Entry" = some t ∧
      t.fields.map (fun f => (f.source, f.type)) =
        [(.property ["author", "name"], .string), (.property ["tags"], .string)] := by
  unfold Mapping.read
  rw [decode_document]
  exact ⟨_, _, rfl, rfl, rfl⟩

/-- Both paths are seen by predicates as by the mapping. -/
theorem seenAlike_of_read_document :
    ∃ m t, Mapping.read schema document = .ok m ∧ m.find? "Entry" = some t ∧
      t.fields.map (fun f => (f.source, f.type)) =
        [(.property ["author", "name"], .string), (.property ["tags"], .string)] ∧
      List.Forall₂ (Mapping.SeenAlike schema entry) keyFields t.fields := by
  obtain ⟨m, t, hread, ht, hfields⟩ := exists_read_document
  obtain ⟨tables, table', e, root, hdecode, hlast, hroot, hseen⟩ := Mapping.resolve_of_read hread ht
  obtain rfl := Except.ok.inj (decode_document.symm.trans hdecode)
  obtain ⟨rfl, rfl⟩ := Prod.mk.inj (Option.some.inj (lastOf?_table.symm.trans hlast))
  have hentry : schema.find? "Entry" = some entry := rfl
  obtain rfl := Option.some.inj (hentry.symm.trans hroot)
  exact ⟨m, t, hread, ht, hfields, hseen⟩

/-- An entry may have many tags, though a key has room for one and no data type is written. -/
theorem many_of_tags :
    ∃ m t f, Mapping.read schema document = .ok m ∧ m.find? "Entry" = some t ∧
      Json.decode Mapping.decodeDocument document = .ok [table] ∧
      Mapping.lastOf? [table] "Entry" = some (table, ⟨"Entry", keyFields⟩) ∧
      (∀ e ∈ keyFields, e.type = none) ∧ schema.find? "Entry" = some entry ∧
      f ∈ t.fields ∧ f.source = .property ["tags"] ∧
      (Property.ofPath "tags").names? = some ["tags"] ∧
      (Property.ofPath "tags").resolve schema entry = .ok ⟨f.type, true, true⟩ := by
  obtain ⟨m, t, hread, ht, hfields⟩ := exists_read_document
  have htags : (.property ["tags"], .string) ∈ t.fields.map fun f => (f.source, f.type) := by
    rw [hfields]
    exact List.mem_cons_of_mem _ List.mem_cons_self
  obtain ⟨f, hf, hsame⟩ := List.mem_map.mp htags
  obtain ⟨hsource, htype⟩ := Prod.mk.inj hsame
  refine ⟨m, t, f, hread, ht, decode_document, lastOf?_table, by decide, rfl, hf, hsource, rfl, ?_⟩
  rw [htype]
  rfl

end Journal

end GraphTable
