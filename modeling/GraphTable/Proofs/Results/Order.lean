import GraphTable.Proofs.Bytes.Order
import GraphTable.Proofs.Outcome
import GraphTable.Proofs.Results.Sorting
import GraphTable.Proofs.Value.Order
import GraphTable.Results.Order

/-!
# The order of results is a preorder

Graphs compare by one property after the other, each upward or downward, and a property may not be
set. That this is a preorder holds only where the values of a property are of **one variant**:
whole numbers, reals and texts are compared in three different ways, and the three together are not
transitive. A type has values of one variant (`DataType.alike_of_fits`).

Values of one variant compare as numbers or as byte strings (`Value.compareResult_of_alike`). So a
value that may not be set has a place in an order that is a preorder on all values
(`Value.placeOrder`), and so have graphs (`ResultOrder.placeOrder`). On graphs whose values fit the
declared types the order of results is this one (`ResultOrder.compare_eq_placeOrder`).
-/

namespace GraphTable

instance Bytes.transCmp_compare : Std.TransCmp Bytes.compare where
  eq_swap {a b} := by
    rcases Bytes.lt_or_eq_or_gt a b with h | h | h
    · rw [Bytes.compare_eq_lt.mpr h, Bytes.compare_eq_gt.mpr h]
      rfl
    · rw [Bytes.compare_eq_eq.mpr h, Bytes.compare_eq_eq.mpr h.symm]
      rfl
    · rw [Bytes.compare_eq_gt.mpr h, Bytes.compare_eq_lt.mpr h]
      rfl
  isLE_trans {a b c} hab hbc := by
    simp only [Ordering.isLE_iff_ne_gt, Bytes.compare_eq_gt] at hab hbc ⊢
    exact fun hca => hbc (Bytes.lt_of_lt_of_le hca hab)

/-! ### Values of one variant -/

namespace Value

/-- Two values are of one variant. -/
inductive Alike : Value → Value → Prop
  | bool (a b : Bool) : Alike (.bool a) (.bool b)
  | int (a b : Int64) : Alike (.int a) (.int b)
  | float (a b : Binary64) : Alike (.float a) (.float b)
  | string (a b : String) : Alike (.string a) (.string b)
  | date (a b : Date) : Alike (.date a) (.date b)
  | bytes (a b : Bytes) : Alike (.bytes a) (.bytes b)

/-- The number that a value is ordered by, if its variant is ordered by numbers. -/
def rank : Value → Int
  | float x => x.totalPlace
  | v => v.number?.getD 0

/-- The bytes that a value is ordered by, if its variant is ordered by bytes. -/
def letters : Value → Bytes
  | string s => Text.utf8 s
  | bytes bs => bs
  | _ => []

/-- An order of all values that compares those of one variant as they compare. -/
def placeOrder : Value → Value → Ordering :=
  compareLex (compareOn rank) (Ordering.byKey letters Bytes.compare)

instance : Std.TransCmp placeOrder :=
  inferInstanceAs (Std.TransCmp (compareLex _ _))

theorem compareResult_of_alike {v w : Value} (h : Alike v w) :
    v.compareResult w = placeOrder v w := by
  cases h with
  | bool a b => cases a <;> cases b <;> rfl
  | int a b => exact (Ordering.then_eq (o := compare a.toInt b.toInt)).symm
  | float a b => exact (Ordering.then_eq (o := a.totalCompare b)).symm
  | string a b => rfl
  | date a b =>
    rw [compareResult, ← Date.compare_dayNumber]
    exact (Ordering.then_eq (o := compare a.dayNumber b.dayNumber)).symm
  | bytes a b => rfl

/-- The same order on values that may not be set. -/
def setOrder : Option Value → Option Value → Ordering :=
  compareLex (compareOn Option.isSome) (Ordering.byKey (Option.getD · (.bool false)) placeOrder)

instance : Std.TransCmp setOrder :=
  inferInstanceAs (Std.TransCmp (compareLex _ _))

theorem compareSet_of_alike {v? w? : Option Value} (h : ∀ v ∈ v?, ∀ w ∈ w?, Alike v w) :
    compareSet v? w? = setOrder v? w? := by
  rcases v? with _ | v
  · cases w? <;> rfl
  · rcases w? with _ | w
    · rfl
    · exact compareResult_of_alike (h v rfl w rfl)

end Value

theorem DataType.alike_of_fits {type : DataType} {v w : Value} (hv : type.fits v = true)
    (hw : type.fits w = true) : v.Alike w := by
  cases v <;> cases w <;> first | constructor | (cases type <;> cases hv <;> cases hw)

/-! ### Graphs -/

/-- The order of graphs by the places of a property. -/
def OrderItem.placeOrder (i : OrderItem) : Graph → Graph → Ordering :=
  let upward := Ordering.byKey i.value? Value.setOrder
  if i.descending then flip upward else upward

instance (i : OrderItem) : Std.TransCmp i.placeOrder := by
  unfold OrderItem.placeOrder
  dsimp only
  split <;> infer_instance

namespace ResultOrder

/-- The order of graphs by the places of some properties. -/
def placeOrder : List OrderItem → Graph → Graph → Ordering
  | [] => fun _ _ => .eq
  | i :: is => compareLex i.placeOrder (placeOrder is)

instance transCmp_placeOrder (items : List OrderItem) : Std.TransCmp (placeOrder items) := by
  induction items with
  | nil => exact { eq_swap := rfl, isLE_trans := fun _ _ => rfl }
  | cons i is ih => exact inferInstanceAs (Std.TransCmp (compareLex _ _))

variable {root : TypeDef} {items : List OrderItem} {o : ResultOrder} {a b c : Graph}

/-- The values of the properties that a graph is ordered by, where they are set, have the variant of
the declared types. -/
def Fits (root : TypeDef) (o : ResultOrder) (g : Graph) : Prop :=
  ∀ i ∈ o.items, ∀ v, i.value? g = some v → ∀ p type, root.property? i.property = some p →
    p.dataType? = some type → type.fits v = true

theorem items_of_create (h : create root items = .ok o) :
    o.items = items ∧ ∀ i ∈ items, i.check root = .ok () := by
  obtain ⟨⟨⟩, hchecks, ho⟩ := Outcome.bind_eq_ok.mp h
  refine ⟨by rw [← Except.ok.inj ho], ?_⟩
  exact Outcome.of_forM_eq_ok hchecks

/-- Every property that results are ordered by has a declared type. -/
theorem exists_type_of_check {i : OrderItem} (h : i.check root = .ok ()) :
    ∃ p type, root.property? i.property = some p ∧ p.dataType? = some type := by
  unfold OrderItem.check at h
  split at h
  · cases h
  · rename_i p hp
    split at h
    · cases h
    · rename_i hnot
      obtain ⟨type, htype⟩ := Option.ne_none_iff_exists'.mp (by simpa using (not_or.mp hnot).2)
      exact ⟨p, type, hp, htype⟩

theorem Fits.alike (h : create root items = .ok o) (ha : o.Fits root a) (hb : o.Fits root b)
    {i : OrderItem} (hi : i ∈ items) : ∀ v ∈ i.value? a, ∀ w ∈ i.value? b, v.Alike w := by
  obtain ⟨hitems, hchecks⟩ := items_of_create h
  obtain ⟨p, type, hp, htype⟩ := exists_type_of_check (hchecks i hi)
  intro v hv w hw
  exact DataType.alike_of_fits (ha i (hitems ▸ hi) v hv p type hp htype)
    (hb i (hitems ▸ hi) w hw p type hp htype)

/-- On graphs whose values have the declared variants, the order is one on all graphs. -/
theorem compare_eq_placeOrder (h : create root items = .ok o) (ha : o.Fits root a)
    (hb : o.Fits root b) : o.compare a b = placeOrder items a b := by
  have hitem : ∀ i ∈ items, i.compare a b = i.placeOrder a b := by
    intro i hi
    have halike := Fits.alike h ha hb hi
    have halike' := Fits.alike h hb ha hi
    unfold OrderItem.compare OrderItem.placeOrder
    rw [Value.compareSet_of_alike halike]
    dsimp only
    split
    · exact Std.OrientedCmp.eq_swap.symm
    · rfl
  rw [compare, (items_of_create h).1]
  clear h ha hb
  induction items with
  | nil => rfl
  | cons i is ih =>
    obtain ⟨hi, his⟩ := List.forall_mem_cons.mp hitem
    rw [compareBy, hi, ih his]
    rfl

/-! ### Values that are not set -/

theorem compareBy_append (items more : List OrderItem) (a b : Graph) :
    compareBy (items ++ more) a b = (compareBy items a b).then (compareBy more a b) := by
  induction items with
  | nil => rfl
  | cons i items ih => rw [List.cons_append, compareBy, ih, compareBy, Ordering.then_assoc]

/-- Among graphs that the properties before do not tell apart, those in which a property is not set
come first, or last if the order is downward. -/
theorem compareBy_of_unset {before after : List OrderItem} {i : OrderItem}
    (h : compareBy before a b = .eq) (ha : i.value? a = none) {v : Value}
    (hb : i.value? b = some v) :
    compareBy (before ++ i :: after) a b = if i.descending then .gt else .lt := by
  have hitem : i.compare a b = if i.descending then .gt else .lt := by
    rw [OrderItem.compare, ha, hb]
    rfl
  rw [compareBy_append, h, compareBy, hitem]
  split <;> rfl

end ResultOrder

end GraphTable
