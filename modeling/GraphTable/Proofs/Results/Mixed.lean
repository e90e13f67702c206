import GraphTable.Proofs.Results.Order

/-!
# The order of results on values of several variants

Nothing keeps graphs from having values of several variants in one property. Values of one variant
then still compare as their variant does, and two of different variants compare as their texts. The
two do not go together: 9 is below 10, the text of 10 is below "5", and "5" is below the text of 9.

All that can go wrong is of this form. Two values of one variant whose texts are the other way round
are **torn** by a value of another variant whose text lies between theirs (`Value.Torn`). Among
values of which none are torn the comparison is transitive (`Value.isLE_trans_of_untorn`), and so is
the order by several properties (`ResultOrder.transCmp_compareBy`); values that are torn compare in
a circle (`Value.Torn.circle`). Comparing the other way round turns the result around in any case.

Reals are left aside: they are compared with whole numbers as numbers, after rounding these.
-/

namespace GraphTable

instance Text.transCmp_compare : Std.TransCmp Text.compare :=
  inferInstanceAs (Std.TransCmp (Ordering.byKey Text.utf8 Bytes.compare))

/-! ### Values -/

namespace Value

variable {v w u : Value}

/-- The order of values by their texts. -/
def textOrder : Value → Value → Ordering :=
  Ordering.byKey text Text.compare

instance : Std.TransCmp textOrder :=
  inferInstanceAs (Std.TransCmp (Ordering.byKey text Text.compare))

/-- The variants of values are numbered. -/
def variant : Value → Fin 6
  | bool _ => 0
  | int _ => 1
  | float _ => 2
  | string _ => 3
  | date _ => 4
  | bytes _ => 5

theorem alike_iff : Alike v w ↔ v.variant = w.variant := by
  constructor
  · rintro ⟨⟩ <;> rfl
  · cases v <;> cases w <;> intro h <;> first | constructor | cases h

theorem Alike.symm (h : Alike v w) : Alike w v :=
  alike_iff.mpr (alike_iff.mp h).symm

theorem Alike.trans (hvw : Alike v w) (hwu : Alike w u) : Alike v u :=
  alike_iff.mpr ((alike_iff.mp hvw).trans (alike_iff.mp hwu))

instance (v w : Value) : Decidable (Alike v w) :=
  decidable_of_iff _ alike_iff.symm

/-- The real that a number is compared as with a number of the other variant. -/
def asReal? : Value → Option Binary64
  | int n => some (.ofInt n.toInt)
  | float x => some x
  | _ => none

/-- Values of different variants compare as reals if both are numbers, else as their texts. -/
theorem compareResult_of_not_alike (h : ¬ Alike v w) :
    v.compareResult w =
      match v.asReal?, w.asReal? with
      | some x, some y => x.totalCompare y
      | _, _ => textOrder v w := by
  cases v <;> cases w <;> first | exact absurd (by constructor) h | rfl

/-- A value is no real. -/
def IsExact (v : Value) : Prop :=
  v.variant ≠ 2

instance (v : Value) : Decidable v.IsExact :=
  inferInstanceAs (Decidable (_ ≠ _))

/-- Without reals, values of different variants compare as their texts. -/
theorem IsExact.compareResult_eq (hv : v.IsExact) (hw : w.IsExact) (h : ¬ Alike v w) :
    v.compareResult w = textOrder v w := by
  rw [compareResult_of_not_alike h]
  cases v with
  | float x => exact absurd rfl hv
  | int m =>
    cases w with
    | float y => exact absurd rfl hw
    | int n => exact absurd (.int m n) h
    | bool | string | date | bytes => rfl
  | bool | string | date | bytes => rfl

theorem eq_of_compareResult (hv : v.IsExact) (h : Alike v w) (heq : v.compareResult w = .eq) :
    v = w := by
  cases h with
  | bool a b => cases a <;> cases b <;> first | rfl | cases heq
  | int a b => rw [Int64.toInt_inj.mp (Int.compare_eq_eq.mp heq)]
  | float a b => exact absurd rfl hv
  | string a b => exact congrArg string (Text.utf8_injective (Bytes.compare_eq_eq.mp heq))
  | date a b => rw [Date.compare_eq_eq_iff.mp heq]
  | bytes a b => rw [Bytes.compare_eq_eq.mp heq]

/-- Comparing the other way round turns the result around, also where reals are among the values. -/
instance : Std.OrientedCmp compareResult where
  eq_swap {v w} := by
    by_cases h : Alike v w
    · rw [compareResult_of_alike h, compareResult_of_alike h.symm]
      exact Std.OrientedCmp.eq_swap
    · rw [compareResult_of_not_alike h, compareResult_of_not_alike fun he => h he.symm]
      have htext : textOrder v w = (textOrder w v).swap := Std.OrientedCmp.eq_swap
      cases v.asReal? with
      | none => cases w.asReal? <;> exact htext
      | some x =>
        cases w.asReal? with
        | none => exact htext
        | some y => exact Std.OrientedOrd.eq_swap (a := x.totalPlace) (b := y.totalPlace)

/-- A value of another variant has its text between those of two values of one variant, which are
the other way round than the values. -/
structure Torn (v w u : Value) : Prop where
  alike : Alike v w
  other : ¬ Alike v u
  lt : v.compareResult w = .lt
  text_isLE : (textOrder w u).isLE = true
  isLE_text : (textOrder u v).isLE = true

instance (v w u : Value) : Decidable (Torn v w u) :=
  decidable_of_iff (Alike v w ∧ ¬ Alike v u ∧ v.compareResult w = .lt ∧
      (textOrder w u).isLE = true ∧ (textOrder u v).isLE = true)
    ⟨fun ⟨h, ho, hlt, hw, hv⟩ => ⟨h, ho, hlt, hw, hv⟩,
      fun ⟨h, ho, hlt, hw, hv⟩ => ⟨h, ho, hlt, hw, hv⟩⟩

/-- Values that are torn compare in a circle. -/
theorem Torn.circle (h : Torn v w u) (hv : v.IsExact) (hw : w.IsExact) (hu : u.IsExact) :
    (w.compareResult u).isLE = true ∧ (u.compareResult v).isLE = true ∧
      w.compareResult v = .gt := by
  rw [hw.compareResult_eq hu fun he => h.other (h.alike.trans he),
    hu.compareResult_eq hv fun he => h.other he.symm]
  exact ⟨h.text_isLE, h.isLE_text, Std.OrientedCmp.gt_of_lt h.lt⟩

/-- Values of one variant that have different texts are not equal. -/
theorem lt_of_text_lt (hv : v.IsExact) (h : Alike v w) (hle : (v.compareResult w).isLE = true)
    (htext : textOrder w v = .lt) : v.compareResult w = .lt := by
  cases hvw : v.compareResult w with
  | lt => rfl
  | gt =>
    rw [hvw] at hle
    cases hle
  | eq =>
    obtain rfl := eq_of_compareResult hv h hvw
    have hself : textOrder v v = .eq := Std.ReflCmp.compare_self
    rw [hself] at htext
    cases htext

/-- Among three values of which none are torn, the comparison is transitive. -/
theorem isLE_trans_of_untorn {a b c : Value} (ha : a.IsExact) (hb : b.IsExact) (hc : c.IsExact)
    (habc : ¬ Torn a b c) (hbca : ¬ Torn b c a) (hcab : ¬ Torn c a b)
    (hle : (a.compareResult b).isLE = true) (hle' : (b.compareResult c).isLE = true) :
    (a.compareResult c).isLE = true := by
  by_contra hnot
  have hgt : a.compareResult c = .gt := by simpa [Ordering.isLE_iff_ne_gt] using hnot
  have hlt : c.compareResult a = .lt := Std.OrientedCmp.lt_of_gt hgt
  -- all three are of one variant, or two of them, or none
  by_cases hab : Alike a b
  · by_cases hac : Alike a c
    · rw [compareResult_of_alike hab] at hle
      rw [compareResult_of_alike (hab.symm.trans hac)] at hle'
      rw [compareResult_of_alike hac] at hnot
      exact hnot (Std.TransCmp.isLE_trans hle hle')
    · rw [hb.compareResult_eq hc fun he => hac (hab.trans he)] at hle'
      rw [hc.compareResult_eq ha fun he => hac he.symm] at hlt
      have htext : textOrder b a = .lt := Std.TransCmp.lt_of_isLE_of_lt hle' hlt
      exact habc ⟨hab, hac, lt_of_text_lt ha hab hle htext, hle', by rw [hlt]; rfl⟩
  · rw [ha.compareResult_eq hb hab] at hle
    by_cases hac : Alike a c
    · have hcb : ¬ Alike c b := fun he => hab (hac.trans he)
      rw [hb.compareResult_eq hc fun he => hcb he.symm] at hle'
      exact hcab ⟨hac.symm, hcb, hlt, hle, hle'⟩
    · by_cases hbc : Alike b c
      · rw [hc.compareResult_eq ha fun he => hac he.symm] at hlt
        have htext : textOrder c b = .lt := Std.TransCmp.lt_of_lt_of_isLE hlt hle
        exact hbca ⟨hbc, fun he => hab he.symm, lt_of_text_lt hb hbc hle' htext,
          by rw [hlt]; rfl, hle⟩
      · rw [hb.compareResult_eq hc hbc] at hle'
        rw [ha.compareResult_eq hc hac] at hnot
        exact hnot (Std.TransCmp.isLE_trans hle hle')

/-- Comparing values that may not be set the other way round turns the result around. -/
instance : Std.OrientedCmp compareSet where
  eq_swap {v? w?} := by
    rcases v? with _ | v
    · cases w? <;> rfl
    · rcases w? with _ | w
      · rfl
      · have hswap : v.compareResult w = (w.compareResult v).swap := Std.OrientedCmp.eq_swap
        exact hswap

/-- Values that are not set come first, so they are in nobody's way. -/
theorem compareSet_isLE_trans {a? b? c? : Option Value} (ha : ∀ a ∈ a?, a.IsExact)
    (hb : ∀ b ∈ b?, b.IsExact) (hc : ∀ c ∈ c?, c.IsExact)
    (habc : ∀ a ∈ a?, ∀ b ∈ b?, ∀ c ∈ c?, ¬ Torn a b c)
    (hbca : ∀ b ∈ b?, ∀ c ∈ c?, ∀ a ∈ a?, ¬ Torn b c a)
    (hcab : ∀ c ∈ c?, ∀ a ∈ a?, ∀ b ∈ b?, ¬ Torn c a b)
    (hle : (compareSet a? b?).isLE = true) (hle' : (compareSet b? c?).isLE = true) :
    (compareSet a? c?).isLE = true := by
  rcases a? with _ | a
  · cases c? <;> rfl
  · rcases b? with _ | b
    · cases hle
    · rcases c? with _ | c
      · cases hle'
      · exact isLE_trans_of_untorn (ha a rfl) (hb b rfl) (hc c rfl) (habc a rfl b rfl c rfl)
          (hbca b rfl c rfl a rfl) (hcab c rfl a rfl b rfl) hle hle'

end Value

/-! ### Graphs -/

namespace OrderItem

variable {i : OrderItem} {gs : List Graph}

/-- The value of a property is no real on any of the graphs. -/
def IsExactOn (i : OrderItem) (gs : List Graph) : Prop :=
  ∀ g ∈ gs, ∀ v ∈ i.value? g, v.IsExact

/-- No two values of a property are torn by a third one. -/
def UntornOn (i : OrderItem) (gs : List Graph) : Prop :=
  ∀ a ∈ gs, ∀ b ∈ gs, ∀ c ∈ gs, ∀ v ∈ i.value? a, ∀ w ∈ i.value? b, ∀ u ∈ i.value? c,
    ¬ Value.Torn v w u

/-- The order of graphs by the values of a property, the lowest first. -/
def upward (i : OrderItem) : Graph → Graph → Ordering :=
  Ordering.byKey i.value? Value.compareSet

instance : Std.OrientedCmp i.upward :=
  inferInstanceAs (Std.OrientedCmp (Ordering.byKey i.value? Value.compareSet))

theorem upward_eq {a b : Graph} {v w : Value} (hv : v ∈ i.value? a) (hw : w ∈ i.value? b) :
    i.upward a b = v.compareResult w := by
  show Value.compareSet (i.value? a) (i.value? b) = _
  rw [hv, hw]
  rfl

theorem compare_eq_upward (i : OrderItem) :
    i.compare = if i.descending then flip i.upward else i.upward := by
  funext a b
  unfold OrderItem.compare
  split
  · have hswap : i.upward b a = (i.upward a b).swap := Std.OrientedCmp.eq_swap
    exact hswap.symm
  · rfl

instance : Std.OrientedCmp i.compare := by
  rw [compare_eq_upward]
  split <;> infer_instance

/-- The order by a property is transitive on graphs whose values are not torn. -/
theorem transCmp_of_untorn (hexact : i.IsExactOn gs) (h : i.UntornOn gs) :
    Std.TransCmp (Ordering.byKey (Subtype.val (p := (· ∈ gs))) i.compare) := by
  have hupward : Std.TransCmp (Ordering.byKey (Subtype.val (p := (· ∈ gs))) i.upward) :=
    { isLE_trans := by
        rintro ⟨a, ha⟩ ⟨b, hb⟩ ⟨c, hc⟩ hab hbc
        exact Value.compareSet_isLE_trans (hexact a ha) (hexact b hb) (hexact c hc)
          (h a ha b hb c hc) (h b hb c hc a ha) (h c hc a ha b hb) hab hbc }
  rw [compare_eq_upward]
  split
  · exact inferInstanceAs (Std.TransCmp (flip (Ordering.byKey Subtype.val i.upward)))
  · exact hupward

end OrderItem

namespace ResultOrder

variable {gs : List Graph}

instance orientedCmp_compareBy (items : List OrderItem) : Std.OrientedCmp (compareBy items) := by
  induction items with
  | nil => exact { eq_swap := rfl }
  | cons i is ih => exact inferInstanceAs (Std.OrientedCmp (compareLex i.compare (compareBy is)))

/-- The order by several properties is transitive on graphs if that by each of them is. -/
theorem transCmp_compareBy {items : List OrderItem}
    (h : ∀ i ∈ items, Std.TransCmp (Ordering.byKey (Subtype.val (p := (· ∈ gs))) i.compare)) :
    Std.TransCmp (Ordering.byKey (Subtype.val (p := (· ∈ gs))) (compareBy items)) := by
  induction items with
  | nil => exact { eq_swap := rfl, isLE_trans := fun _ _ => rfl }
  | cons i is ih =>
    obtain ⟨hi, his⟩ := List.forall_mem_cons.mp h
    have hrest := ih his
    exact inferInstanceAs (Std.TransCmp (compareLex
      (Ordering.byKey (Subtype.val (p := (· ∈ gs))) i.compare)
      (Ordering.byKey Subtype.val (compareBy is))))

/-- A comparison is transitive on graphs. -/
def TransOn (cmp : Graph → Graph → Ordering) (gs : List Graph) : Prop :=
  ∀ a ∈ gs, ∀ b ∈ gs, ∀ c ∈ gs, (cmp a b).isLE = true → (cmp b c).isLE = true →
    (cmp a c).isLE = true

theorem transOn_compareBy {items : List OrderItem} (hexact : ∀ i ∈ items, i.IsExactOn gs)
    (h : ∀ i ∈ items, i.UntornOn gs) : TransOn (compareBy items) gs := by
  intro a ha b hb c hc hab hbc
  have htrans := transCmp_compareBy fun i hi => OrderItem.transCmp_of_untorn (hexact i hi) (h i hi)
  exact htrans.isLE_trans (a := ⟨a, ha⟩) (b := ⟨b, hb⟩) (c := ⟨c, hc⟩) hab hbc

/-- On graphs that the values of a property are torn on, the order by it is not transitive. -/
theorem untornOn_of_transOn {i : OrderItem} (hexact : i.IsExactOn gs)
    (h : TransOn i.compare gs) : i.UntornOn gs := by
  intro a ha b hb c hc v hv w hw u hu htorn
  obtain ⟨hwu, huv, hwv⟩ :=
    htorn.circle (hexact a ha v hv) (hexact b hb w hw) (hexact c hc u hu)
  have hbc : i.upward b c = w.compareResult u := OrderItem.upward_eq hw hu
  have hca : i.upward c a = u.compareResult v := OrderItem.upward_eq hu hv
  have hba : i.upward b a = w.compareResult v := OrderItem.upward_eq hw hv
  rw [← hbc] at hwu
  rw [← hca] at huv
  rw [← hba] at hwv
  rw [OrderItem.compare_eq_upward] at h
  -- downward the circle is gone round in the other direction
  split at h
  · have hab : (i.upward b a).isLE = true := h a ha c hc b hb huv hwu
    rw [hwv] at hab
    cases hab
  · have hab : (i.upward b a).isLE = true := h b hb c hc a ha hwu huv
    rw [hwv] at hab
    cases hab

/--
The order of results on graphs whose values may be of several variants in one property. Comparing
the other way round turns the result around. If no values are reals, and none are torn, then the
order is transitive; and the order by a single property is transitive only then.
-/
theorem compare_mixed (o : ResultOrder) :
    (∀ a b, o.compare b a = (o.compare a b).swap) ∧
      ∀ gs, (∀ i ∈ o.items, i.IsExactOn gs) →
        ((∀ i ∈ o.items, i.UntornOn gs) → TransOn o.compare gs) ∧
          ∀ i, o.items = [i] → (TransOn o.compare gs ↔ i.UntornOn gs) := by
  refine ⟨fun a b => (orientedCmp_compareBy o.items).eq_swap, fun gs hexact =>
    ⟨transOn_compareBy hexact, fun i hi => ⟨fun h => ?_, fun h => ?_⟩⟩⟩
  · have hcompare : o.compare = i.compare := by
      funext a b
      rw [compare, hi]
      exact Ordering.then_eq
    rw [hcompare] at h
    exact untornOn_of_transOn (hexact i (by simp [hi])) h
  · exact transOn_compareBy hexact fun j hj => by
      rw [hi, List.mem_singleton] at hj
      exact hj ▸ h

/-- Readings have a score. -/
def reading : TypeDef := ⟨"http://ex", "Reading", [⟨"score", .data .int, false⟩]⟩

/-- The reading of a key, with a score of any variant. -/
def scoredReading (key : Bytes) (score : Value) : Graph :=
  .single key ⟨"Reading", [("score", .value score)]⟩

/-- The scores are two whole numbers and a text. -/
def readings (text : String) : List Graph :=
  [scoredReading [97] (.int 9), scoredReading [98] (.int 10), scoredReading [99] (.string text)]

/-- Readings by rising score. -/
def byReading : ResultOrder := ⟨[⟨"score", false⟩]⟩

/-- A text that comes after those of both numbers tears nothing. -/
theorem compare_mixed_readings :
    (∀ i ∈ byReading.items, i.IsExactOn (readings "x")) ∧
      (∀ i ∈ byReading.items, i.UntornOn (readings "x")) ∧
      TransOn byReading.compare (readings "x") := by
  have hexact : ∀ i ∈ byReading.items, i.IsExactOn (readings "x") := by
    unfold OrderItem.IsExactOn
    decide
  have huntorn : ∀ i ∈ byReading.items, i.UntornOn (readings "x") := by
    unfold OrderItem.UntornOn
    decide
  exact ⟨hexact, huntorn, ((compare_mixed byReading).2 _ hexact).1 huntorn⟩

/-- The numbers 9 and 10 are torn by the text "5", which is between "10" and "9". -/
theorem not_trans_nine_ten_five :
    create reading byReading.items = .ok byReading ∧
      byReading.compare (scoredReading [97] (.int 9)) (scoredReading [98] (.int 10)) ≠ .gt ∧
      byReading.compare (scoredReading [98] (.int 10)) (scoredReading [99] (.string "5")) ≠ .gt ∧
      byReading.compare (scoredReading [97] (.int 9)) (scoredReading [99] (.string "5")) = .gt := by
  decide

end ResultOrder

end GraphTable
