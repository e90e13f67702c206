import GraphTable.Error.Query
import GraphTable.Graph
import GraphTable.Schema
import GraphTable.Text.Utf8

/-!
# The order of results

Results are ordered by single data properties of their root objects, one after the other, each
upward or downward. A value that is not set comes before all values. Values of one kind are in
the order of their kind, whole numbers and reals in that of reals, and all others in the order
of their texts.

* `compare` is the order of two graphs.
* `sort` puts graphs in order; those of which neither is before the other stay as they were.
-/

namespace GraphTable

namespace Value

/-- How two values compare as results. -/
def compareResult : Value → Value → Ordering
  | bool a, bool b => compare a b
  | int a, int b => compare a.toInt b.toInt
  | float a, float b => a.totalCompare b
  | int a, float b => (Binary64.ofInt a.toInt).totalCompare b
  | float a, int b => a.totalCompare (.ofInt b.toInt)
  | date a, date b => a.compare b
  | bytes a, bytes b => Bytes.compare a b
  | a, b => Text.compare a.text b.text

/-- How two values compare that may not be set. -/
def compareSet : Option Value → Option Value → Ordering
  | none, none => .eq
  | none, some _ => .lt
  | some _, none => .gt
  | some a, some b => a.compareResult b

end Value

/-- A property that results are ordered by. -/
structure OrderItem where
  property : String
  /-- Whether greater values come first. -/
  descending : Bool
  deriving DecidableEq, Repr

/-- The properties that results are ordered by, the one that counts most in front. -/
structure ResultOrder where
  items : List OrderItem
  deriving DecidableEq, Repr

namespace OrderItem

/-- Checks that a property is a single data property of a type. -/
def check (root : TypeDef) (i : OrderItem) : Except PlanFault Unit :=
  match root.property? i.property with
  | none => .error (.orderNotFound i.property root.name)
  | some p =>
    if p.many ∨ p.dataType?.isNone then .error (.orderNotSingle i.property) else .ok ()

/-- The value of the property on the root of a graph, if it is set. -/
def value? (i : OrderItem) (g : Graph) : Option Value :=
  match g.root.get? i.property with
  | some (.value v) => some v
  | _ => none

/-- How two graphs compare by the property. -/
def compare (i : OrderItem) (a b : Graph) : Ordering :=
  let o := Value.compareSet (i.value? a) (i.value? b)
  if i.descending then o.swap else o

end OrderItem

namespace ResultOrder

/-- The order by some properties of a type. -/
def create (root : TypeDef) (items : List OrderItem) : Except PlanFault ResultOrder := do
  items.forM (OrderItem.check root)
  return ⟨items⟩

/-- How two graphs compare by properties, the first of which counts most. -/
def compareBy : List OrderItem → Graph → Graph → Ordering
  | [], _, _ => .eq
  | i :: is, a, b => (i.compare a b).then (compareBy is a b)

/-- How two graphs compare. -/
def compare (o : ResultOrder) (a b : Graph) : Ordering :=
  compareBy o.items a b

end ResultOrder

/-! ### Sorting -/

namespace StableSort

/-- Puts an element into a list in descending order, in front of those that are not above it. -/
def place {α : Type} (compare : α → α → Ordering) (x : α) : List α → List α
  | [] => [x]
  | y :: ys => if compare x y = .lt then y :: place compare x ys else x :: y :: ys

/-- Sorts a list; elements that compare as equal stay in the order that they had. -/
def sort {α : Type} (compare : α → α → Ordering) (xs : List α) : List α :=
  (xs.foldl (fun sorted x => place compare x sorted) []).reverse

theorem perm_place {α : Type} (compare : α → α → Ordering) (x : α) (ys : List α) :
    (place compare x ys).Perm (x :: ys) := by
  induction ys with
  | nil => exact .refl _
  | cons y ys ih =>
    unfold place
    split
    · exact (ih.cons y).trans (.swap x y ys)
    · exact .refl _

theorem perm_foldl_place {α : Type} (compare : α → α → Ordering) (xs sorted : List α) :
    (xs.foldl (fun sorted x => place compare x sorted) sorted).Perm (xs ++ sorted) := by
  induction xs generalizing sorted with
  | nil => exact .refl _
  | cons x xs ih =>
    exact (ih _).trans (((perm_place compare x sorted).append_left xs).trans List.perm_middle)

/-- Sorting loses nothing and adds nothing. -/
theorem perm_sort {α : Type} (compare : α → α → Ordering) (xs : List α) :
    (sort compare xs).Perm xs := by
  have h := perm_foldl_place compare xs []
  rw [List.append_nil] at h
  exact (List.reverse_perm _).trans h

end StableSort

end GraphTable
