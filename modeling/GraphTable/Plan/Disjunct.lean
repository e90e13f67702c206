import GraphTable.Error.Query
import GraphTable.Key.Mapping

/-!
# The scan of one alternative

For one list of terms, the narrowest scan that the key allows:

* all fields are bound by equalities: a single key is looked up;
* some field is bound after one that is not: the keys are matched against a template;
* otherwise: a range of keys, with the bytes of the leading bound fields in common, and within
  that the bounds that the terms set to the next field.

A term is consumed if the scan selects no row that fails it; terms that are not are `residual`
and left to the recognizer. No alternative is planned, with `none` as the answer, if the scan
would be that of all rows of the type.
-/

namespace GraphTable

/-!
### Terms on key fields

A term of a predicate is about a key field if it compares the field's own property with a
literal, other than for being unequal. What such a term asks of the key depends on the literal's
encoding in the field: a literal that is too long for the field asks nothing of it, and the term
is left to the recognizer.
-/

/-- A comparison of a key field with a literal. -/
structure KeyTerm where
  /-- The place of the field in the key, from 0. -/
  index : Nat
  field : KeyField
  op : RelationalOp
  value : Value
  deriving DecidableEq

namespace KeyTerm

/-- The first key field whose value is reached by the given names, and its place. -/
def fieldOf? (fields : List KeyField) (names : List String) : Option (Nat × KeyField) :=
  (fields.zipIdx.find? fun (f, _) => f.source.path? == some names).map fun (f, i) => (i, f)

/-- The comparison of a key field that a term is, if it is one. -/
def ofExpr? (fields : List KeyField) (e : Expr) : Except QueryError (Option KeyTerm) :=
  match e with
  | .relational _ op (.property _ p) (.text text) =>
    if op = .ne ∨ p.functions ≠ [] then .ok none
    else
      match p.names?.bind (fieldOf? fields) with
      | none => .ok none
      | some (index, field) =>
        match field.type.read text with
        | .ok value => .ok (some { index, field, op, value })
        | .error e => .error (.planning (.keyLiteral p e))
  | _ => .ok none

/-- The bytes of the literal in the field; none if it is too long for the field. -/
def encode? (t : KeyTerm) : Except QueryError (Option Bytes) :=
  match t.field.encode t.value with
  | .ok bytes => .ok (some bytes)
  | .error (.overflow _ _) => .ok none
  | .error e => .error (.store e)

/-- The bytes that a term says the field has, if it says so. -/
def equality? (t : KeyTerm) : Except QueryError (Option Bytes) :=
  if t.op = .eq then t.encode? else .ok none

/-- A bound of a range of keys. -/
inductive Bound
  /-- The least key of the range. -/
  | lower (key : Bytes)
  /-- The least key above the range. -/
  | upper (key : Bytes)
  deriving DecidableEq, Repr

/-- The key of a lower bound. -/
def Bound.lower? : Bound → Option Bytes
  | lower key => some key
  | upper _ => none

/-- The key of an upper bound. -/
def Bound.upper? : Bound → Option Bytes
  | lower _ => none
  | upper key => some key

/--
The bound that a term sets to keys with the given bytes before the field. The field needs a
fixed width, and the literal has to sort among all values that may be stored. What is above a
literal begins after all keys that continue it.
-/
def bound? (t : KeyTerm) (stem : Bytes) : Except QueryError (Option Bound) :=
  if t.field.width?.isNone ∨ t.field.codec.preservesOrder t.value = false then .ok none
  else do
    match ← t.encode? with
    | none => return none
    | some bytes =>
      let key := stem ++ bytes
      match t.op with
      | .ge => return some (.lower key)
      | .gt => return (Bytes.successor? key).map .lower
      | .lt => return some (.upper key)
      | .le => return (Bytes.successor? key).map .upper
      | .eq | .ne => return none

end KeyTerm

/-! ### What the terms of an alternative say -/

/-- The scan of one alternative, and whether terms are left that it does not settle. -/
structure DisjunctPlan where
  scan : Scan
  residual : Bool
  deriving DecidableEq

/-- What the terms of one alternative say about the key. -/
structure KeyConstraints where
  fields : List KeyField
  /-- The bytes of the predefined fields in front. -/
  stem : List Bytes
  /-- For each term, the comparison of a key field that it is, if it is one. -/
  terms : List (Option KeyTerm)
  /-- For each term, the bytes that it says the field has, if it says so. -/
  equalities : List (Option Bytes)

namespace KeyConstraints

/-- The bytes of the predefined fields in front. -/
def stemOf (root : TypeDef) (fields : List KeyField) : Except QueryError (List Bytes) :=
  fields.mapM fun f =>
    match f.source.value? root with
    | none => .error (.planning .noPredefinedValue)
    | some v => (f.encode v).mapError .store

/-- The bytes that a term says its field has, if it is a term on a field and says so. -/
def equalityOf (t : Option KeyTerm) : Except QueryError (Option Bytes) :=
  match t with
  | none => .ok none
  | some t => t.equality?

/-- Gathers what terms say about the key. -/
def gather (root : TypeDef) (mapping : TypeMapping) (terms : List Expr) :
    Except QueryError KeyConstraints := do
  let fields := mapping.fields
  let stem ← stemOf root mapping.predefined
  let keyTerms ← terms.mapM (KeyTerm.ofExpr? fields)
  let equalities ← keyTerms.mapM equalityOf
  return { fields, stem, terms := keyTerms, equalities }

/-- The bytes that some term says the field at a place has; of several the first counts. -/
def equalityAt? (c : KeyConstraints) (index : Nat) : Option Bytes :=
  (c.terms.zip c.equalities).findSome? fun
    | (some t, some bytes) => if t.index = index then some bytes else none
    | _ => none

/-- The bytes of the field at a place, if it is bound. -/
def bound? (c : KeyConstraints) (index : Nat) : Option Bytes :=
  if index < c.stem.length then c.stem[index]? else c.equalityAt? index

/-- The bytes of all fields that are bound. -/
def bound (c : KeyConstraints) : List (Option Bytes) :=
  (List.range c.fields.length).map c.bound?

/-- The bytes of the leading bound fields. -/
def leading (c : KeyConstraints) : List Bytes :=
  (c.bound.takeWhile Option.isSome).filterMap fun b => b

/-- The bytes that the keys have in common. -/
def start (c : KeyConstraints) : Bytes :=
  c.leading.flatten

/--
Whether a term is settled by the bytes of its field being fixed, for fields below a place: it
says that the field has those bytes, and they stand for one value only.
-/
def settledBelow (c : KeyConstraints) (limit : Nat) (term : Option KeyTerm × Option Bytes) :
    Bool :=
  match term with
  | (some t, some bytes) =>
    decide (c.stem.length ≤ t.index) && decide (t.index < limit) &&
      c.bound? t.index == some bytes && t.field.codec.isReversible
  | _ => false

/-- Whether some term is not settled by the bytes of the fields below a place being fixed. -/
def residualBelow (c : KeyConstraints) (limit : Nat) : Bool :=
  !(c.terms.zip c.equalities).all (c.settledBelow limit)

/-- The bounds that terms set to the field after the leading bound ones. -/
def bounds (c : KeyConstraints) : Except QueryError (List (Option KeyTerm.Bound)) :=
  c.terms.mapM fun
    | some t => if t.index = c.leading.length then t.bound? c.start else .ok none
    | none => .ok none

/-- Takes a key in place of the one kept so far if there was none, or if it narrows the range. -/
def narrow (narrows : Bytes → Bytes → Bool) (kept : Option Bytes) (key : Bytes) : Option Bytes :=
  if kept.all (narrows key) then some key else kept

/-- The greatest of the lower bounds. -/
def greatestLower (bounds : List (Option KeyTerm.Bound)) : Option Bytes :=
  (bounds.filterMap fun b => b.bind KeyTerm.Bound.lower?).foldl
    (narrow fun key kept => decide (kept < key)) none

/-- The least of the upper bounds. -/
def leastUpper (bounds : List (Option KeyTerm.Bound)) : Option Bytes :=
  (bounds.filterMap fun b => b.bind KeyTerm.Bound.upper?).foldl
    (narrow fun key kept => decide (key < kept)) none

/-- The range of the keys with the leading bytes, narrowed by bounds on the next field. -/
def range (c : KeyConstraints) (bounds : List (Option KeyTerm.Bound)) : Scan :=
  .range ((greatestLower bounds).getD c.start)
    ((leastUpper bounds).or (Bytes.successor? c.start)) none

/-- Whether some term is settled neither by the leading fields nor by setting a bound. -/
def residualInRange (c : KeyConstraints) (bounds : List (Option KeyTerm.Bound)) : Bool :=
  !((c.terms.zip c.equalities).zip bounds).all fun (term, b) =>
    c.settledBelow c.leading.length term || b.isSome

/-- The scan of a range, unless nothing narrows it. -/
def planRange (c : KeyConstraints) : Except QueryError (Option DisjunctPlan) := do
  let bounds ← c.bounds
  if c.leading.length = c.stem.length ∧ bounds.all Option.isNone then return none
  else return some ⟨c.range bounds, c.residualInRange bounds⟩

/-- The template of the keys, if a field is bound after one that is not. -/
def template? (c : KeyConstraints) : Option (Bytes × Bytes) :=
  if (c.bound.drop c.leading.length).any Option.isSome then
    (RowKey.fuzzy c.fields c.bound).toOption
  else none

/-- The narrowest scan that the key allows. -/
def plan (c : KeyConstraints) : Except QueryError (Option DisjunctPlan) :=
  if c.leading.length = c.fields.length then
    .ok (some ⟨.point c.start, c.residualBelow c.fields.length⟩)
  else
    match c.template? with
    | some (template, mask) =>
      .ok (some ⟨.fuzzy template mask c.start (Bytes.successor? c.start),
        c.residualBelow c.fields.length⟩)
    | none => c.planRange

end KeyConstraints

end GraphTable
