import GraphTable.Proofs.Predicate.Arithmetic
import GraphTable.Proofs.Predicate.Paths

/-!
# Arithmetic of whole numbers is exact

Where all operands of arithmetic are whole numbers and no division leaves a remainder, the
arithmetic comes to the number that it comes to over all whole numbers (`Expr.whole?`), or it fails.
It fails exactly if a divisor is zero or a result on the way has no room in 64 bits
(`Expr.HasRoom`), so that no result is ever wrapped. The least number modulo -1 counts as having no
room: the quotient is computed there as well, and that **does not fit**, although the remainder
would.

Single operations come first (`Number.combineWhole_eq`), and trees follow by induction
(`Recognizer.comesTo_of_isWhole`). What arithmetic comes to is compared with a whole literal as the
two whole numbers are (`Recognizer.evaluate_whole`).
-/

namespace GraphTable

/-- A whole number has room in 64 bits. -/
def FitsWord (z : Int) : Prop :=
  -9223372036854775808 ≤ z ∧ z < 9223372036854775808

instance (z : Int) : Decidable (FitsWord z) := by
  unfold FitsWord
  infer_instance

theorem fitsWord_toInt (i : Int64) : FitsWord i.toInt :=
  ⟨i.le_toInt, i.toInt_lt⟩

theorem toInt_ofInt_of_fitsWord {z : Int} (h : FitsWord z) : (Int64.ofInt z).toInt = z :=
  Int64.toInt_ofInt_of_le h.1 h.2

/-- The bounds of words are those of numerals and of checked results. -/
theorem bounds_iff_fitsWord {z : Int} :
    Int64.minValue.toInt ≤ z ∧ z ≤ Int64.maxValue.toInt ↔ FitsWord z := by
  rw [Int64.toInt_minValue, Int64.toInt_maxValue, FitsWord]
  omega

theorem Text.word?_eq_some {cs : List Char} {z : Int} (hz : integer? cs = some z)
    (h : FitsWord z) : word? cs = some (Int64.ofInt z) := by
  rw [word?, hz, Option.bind_some, if_pos (bounds_iff_fitsWord.mpr h)]

/-! ### Single operations -/

namespace ArithmeticOp

/-- The result of an operation on whole numbers without bounds. There is none if a divisor is zero.
A remainder has the sign of the dividend; a quotient is meant for divisions without a remainder. -/
def whole? : ArithmeticOp → Int → Int → Option Int
  | add, a, b => some (a + b)
  | sub, a, b => some (a - b)
  | mul, a, b => some (a * b)
  | div, a, b => if b = 0 then none else some (a / b)
  | mod, a, b => if b = 0 then none else some (a.sign * (a.natAbs % b.natAbs : Nat))

/-- The result of an operation has room, and it is not that of the least number modulo -1. -/
def HasRoom (op : ArithmeticOp) (a b z : Int) : Prop :=
  FitsWord z ∧ ¬ (op = mod ∧ a = -9223372036854775808 ∧ b = -1)

instance (op : ArithmeticOp) (a b z : Int) : Decidable (op.HasRoom a b z) := by
  unfold HasRoom
  infer_instance

theorem hasRoom_iff {op : ArithmeticOp} (h : op ≠ mod) {a b z : Int} :
    op.HasRoom a b z ↔ FitsWord z :=
  and_iff_left fun hmod => h hmod.1

end ArithmeticOp

namespace Number

variable {op : ArithmeticOp} {a b : Int}

theorem tmod_eq_sign_mul (a b : Int) : a.tmod b = a.sign * (a.natAbs % b.natAbs : Nat) := by
  have hparts := Int.sign_mul_natAbs (a.tmod b)
  rw [Int.natAbs_tmod, Int.sign_tmod] at hparts
  rw [← hparts]
  split
  · rename_i hdvd
    have hnone : a.natAbs % b.natAbs = 0 :=
      Nat.mod_eq_zero_of_dvd (Int.natAbs_dvd_natAbs.mpr hdvd)
    rw [hnone]
    simp
  · rfl

theorem fitsWord_tmod (hb : FitsWord b) (hzero : b ≠ 0) : FitsWord (a.tmod b) := by
  have habs : (a.tmod b).natAbs = a.natAbs % b.natAbs := Int.natAbs_tmod a b
  have hless : a.natAbs % b.natAbs < b.natAbs := Nat.mod_lt _ (by omega)
  unfold FitsWord at hb ⊢
  omega

/-- Of all quotients, only that of the least number and -1 has no room. -/
theorem fitsWord_tdiv_iff (ha : FitsWord a) (hzero : b ≠ 0) :
    FitsWord (a.tdiv b) ↔ ¬ (a = -9223372036854775808 ∧ b = -1) := by
  have habs : (a.tdiv b).natAbs = a.natAbs / b.natAbs := Int.natAbs_tdiv a b
  unfold FitsWord at ha ⊢
  constructor
  · rintro hfits ⟨rfl, rfl⟩
    exact absurd hfits (by decide)
  · intro hnot
    by_cases hone : b.natAbs = 1
    · obtain rfl | rfl : b = 1 ∨ b = -1 := by omega
      · rw [Int.tdiv_one]
        exact ha
      · rw [Int.tdiv_neg, Int.tdiv_one]
        omega
    · -- a divisor other than 1 and -1 leaves at most half
      have hhalf : a.natAbs / b.natAbs ≤ a.natAbs / 2 := Nat.div_le_div_left (by omega) (by decide)
      omega

theorem checked_eq (op : ArithmeticOp) (z : Int) :
    checked op z = if FitsWord z then .ok (whole (Int64.ofInt z)) else .error (.overflow op) := by
  unfold checked word?
  by_cases hfits : FitsWord z
  · rw [if_pos (bounds_iff_fitsWord.mpr hfits), if_pos hfits]
  · rw [if_neg (mt bounds_iff_fitsWord.mp hfits), if_neg hfits]

/-- What an operation on whole numbers comes to, unless it is a division with a remainder. -/
theorem combineWhole_eq (ha : FitsWord a) (hb : FitsWord b)
    (hdvd : op = .div → b ≠ 0 → b ∣ a) :
    combineWhole op a b = (op.whole? a b).elim (.error .divisionByZero) fun z =>
      if op.HasRoom a b z then .ok (whole (Int64.ofInt z)) else .error (.overflow op) := by
  have hchecked : ∀ z, op ≠ .mod →
      checked op z =
        if op.HasRoom a b z then .ok (whole (Int64.ofInt z)) else .error (.overflow op) := by
    intro z hop
    simp only [checked_eq, ArithmeticOp.hasRoom_iff hop]
  cases op with
  | add => exact hchecked (a + b) (by decide)
  | sub => exact hchecked (a - b) (by decide)
  | mul => exact hchecked (a * b) (by decide)
  | div =>
    by_cases hzero : b = 0
    · simp only [combineWhole, ArithmeticOp.whole?, if_pos hzero, Option.elim_none]
    · have hdvd : b ∣ a := hdvd rfl hzero
      have hnone : a.tmod b = 0 := Int.tmod_eq_zero_of_dvd hdvd
      simp only [combineWhole, ArithmeticOp.whole?, if_neg hzero, if_pos hnone,
        Int.tdiv_eq_ediv_of_dvd hdvd, Option.elim_some]
      exact hchecked (a / b) (by decide)
  | mod =>
    by_cases hzero : b = 0
    · simp only [combineWhole, ArithmeticOp.whole?, if_pos hzero, Option.elim_none]
    · have hfits : FitsWord (a.sign * (a.natAbs % b.natAbs : Nat)) :=
        tmod_eq_sign_mul a b ▸ fitsWord_tmod hb hzero
      simp only [combineWhole, ArithmeticOp.whole?, if_neg hzero, checked_eq,
        fitsWord_tdiv_iff ha hzero, tmod_eq_sign_mul, ArithmeticOp.HasRoom, hfits, true_and,
        Option.elim_some]
      split <;> rfl

end Number

/-! ### Trees -/

namespace Expr

variable {value : Property → Option Int}

/-- The whole number without bounds that arithmetic comes to, given those that properties are. -/
def whole? (value : Property → Option Int) : Expr → Option Int
  | .property _ p => value p
  | .literal _ (.text s) => Text.integer? (Text.trimChars s.toList)
  | .arithmetic _ op a b => do op.whole? (← a.whole? value) (← b.whole? value)
  | _ => none

/-- No division leaves a remainder. -/
def DividesEvenly (value : Property → Option Int) : Expr → Prop
  | .arithmetic _ op a b => a.DividesEvenly value ∧ b.DividesEvenly value ∧
      (op = .div → ∀ x ∈ a.whole? value, ∀ y ∈ b.whole? value, y ≠ 0 → y ∣ x)
  | _ => True

/-- All results on the way have room. -/
def HasRoom (value : Property → Option Int) : Expr → Prop
  | .arithmetic _ op a b => a.HasRoom value ∧ b.HasRoom value ∧
      ∀ x ∈ a.whole? value, ∀ y ∈ b.whole? value, ∀ z ∈ op.whole? x y, op.HasRoom x y z
  | _ => True

instance decidableDividesEvenly (value : Property → Option Int) :
    (e : Expr) → Decidable (e.DividesEvenly value)
  | .arithmetic _ _ a b =>
    have := decidableDividesEvenly value a
    have := decidableDividesEvenly value b
    inferInstanceAs (Decidable (_ ∧ _ ∧ (_ → ∀ x ∈ a.whole? value, ∀ y ∈ b.whole? value, _ → _)))
  | .property .. | .literal .. | .relational .. | .logical .. | .test .. => .isTrue trivial

instance decidableHasRoom (value : Property → Option Int) :
    (e : Expr) → Decidable (e.HasRoom value)
  | .arithmetic _ op a b =>
    have := decidableHasRoom value a
    have := decidableHasRoom value b
    inferInstanceAs (Decidable (_ ∧ _ ∧
      ∀ x ∈ a.whole? value, ∀ y ∈ b.whole? value, ∀ z ∈ op.whole? x y, op.HasRoom x y z))
  | .property .. | .literal .. | .relational .. | .logical .. | .test .. => .isTrue trivial

/-- Arithmetic of properties of some kind and of literals that are whole numbers of 64 bits. -/
inductive IsWhole (P : Property → Prop) : Expr → Prop
  | property (i : NodeId) {p : Property} (h : P p) : IsWhole P (.property i p)
  | literal (i : NodeId) {s : String} {z : Int}
      (hz : Text.integer? (Text.trimChars s.toList) = some z) (h : FitsWord z) :
      IsWhole P (.literal i (.text s))
  | arithmetic (i : NodeId) (op : ArithmeticOp) {a b : Expr} (left : IsWhole P a)
      (right : IsWhole P b) : IsWhole P (.arithmetic i op a b)

theorem IsWhole.imp {P Q : Property → Prop} {e : Expr} (h : e.IsWhole P) (himp : ∀ p, P p → Q p) :
    e.IsWhole Q := by
  induction h with
  | property i h => exact .property i (himp _ h)
  | literal i hz h => exact .literal i hz h
  | arithmetic i op _ _ iha ihb => exact .arithmetic i op iha ihb

end Expr

/-- The faults of arithmetic of whole numbers. -/
inductive EvalFault.IsRange : EvalFault → Prop
  | overflow (op : ArithmeticOp) : IsRange (.overflow op)
  | divisionByZero : IsRange .divisionByZero

namespace Recognizer

variable {r : Recognizer} {g : Graph}

/-- The whole number that a property is on a graph: the first of its values that are there. -/
def wholeAt (r : Recognizer) (g : Graph) (p : Property) : Option Int :=
  match r.collect g p with
  | .ok vs => (present vs).head?.bind Value.integral?
  | .error _ => none

/-- Truth values are 0 and 1 in arithmetic as well. -/
theorem ofValue_of_integral? {v : Value} {z : Int} (h : v.integral? = some z) :
    FitsWord z ∧ Number.ofValue v = .ok (.whole (Int64.ofInt z)) := by
  cases v with
  | bool b => cases b <;> cases h <;> exact ⟨by decide, rfl⟩
  | int i =>
    cases h
    exact ⟨fitsWord_toInt i, by rw [Int64.ofInt_toInt]; rfl⟩
  | _ => cases h

theorem number_of_wholeAt {p : Property} {z : Int} (h : r.wholeAt g p = some z) (i : NodeId) :
    FitsWord z ∧ r.number g (.property i p) = .ok (some (.whole (Int64.ofInt z))) := by
  unfold wholeAt at h
  split at h
  · rename_i vs hvs
    obtain ⟨v, hv, hz⟩ := Option.bind_eq_some_iff.mp h
    obtain ⟨hfits, hnumber⟩ := ofValue_of_integral? hz
    obtain ⟨rest, hpresent⟩ := List.head?_eq_some_iff.mp hv
    refine ⟨hfits, ?_⟩
    rw [number, hvs]
    change firstNumber vs = _
    rw [firstNumber, hpresent]
    dsimp only
    rw [hnumber]
    rfl
  · cases h

theorem number_of_literal {s : String} {z : Int}
    (hz : Text.integer? (Text.trimChars s.toList) = some z) (h : FitsWord z) (i : NodeId) :
    r.number g (.literal i (.text s)) = .ok (some (.whole (Int64.ofInt z))) := by
  rw [number, Number.read, Text.word?_eq_some hz h]
  rfl

/-- Operands that are whole numbers are combined as such. -/
theorem number_arithmetic {i : NodeId} {op : ArithmeticOp} {a b : Expr} {x y : Int}
    (hx : FitsWord x) (hy : FitsWord y)
    (ha : r.number g a = .ok (some (.whole (Int64.ofInt x))))
    (hb : r.number g b = .ok (some (.whole (Int64.ofInt y)))) :
    r.number g (.arithmetic i op a b) = (Number.combineWhole op x y).map some := by
  have hcombine : Number.combine op (.whole (Int64.ofInt x)) (.whole (Int64.ofInt y)) =
      Number.combineWhole op x y := by
    rw [Number.combine, toInt_ofInt_of_fitsWord hx, toInt_ofInt_of_fitsWord hy]
  rw [number, ha, hb]
  change combine? op (some (.whole (Int64.ofInt x))) (some (.whole (Int64.ofInt y))) = _
  rw [combine?, hcombine]
  rcases Number.combineWhole op x y with fault | n <;> rfl

/-- What arithmetic of whole numbers may come to: the number that it comes to without bounds, where
all results on the way have room, or a fault, where there is no such number or not all have room. -/
inductive ComesTo (r : Recognizer) (g : Graph) (e : Expr) : Prop
  | whole {z : Int} (hz : e.whole? (r.wholeAt g) = some z) (hroom : e.HasRoom (r.wholeAt g))
      (hfits : FitsWord z) (hnumber : r.number g e = .ok (some (.whole (Int64.ofInt z))))
  | fault {fault : EvalFault} (hwhy : e.whole? (r.wholeAt g) = none ∨ ¬ e.HasRoom (r.wholeAt g))
      (hrange : fault.IsRange) (hnumber : r.number g e = .error fault)

section Arithmetic

variable {i : NodeId} {op : ArithmeticOp} {a b : Expr} {x y : Int}

theorem comesTo_of_whole (hax : a.whole? (r.wholeAt g) = some x) (haroom : a.HasRoom (r.wholeAt g))
    (hxfits : FitsWord x) (hanumber : r.number g a = .ok (some (.whole (Int64.ofInt x))))
    (hby : b.whole? (r.wholeAt g) = some y) (hbroom : b.HasRoom (r.wholeAt g))
    (hyfits : FitsWord y) (hbnumber : r.number g b = .ok (some (.whole (Int64.ofInt y))))
    (hdvd : op = .div → y ≠ 0 → y ∣ x) : ComesTo r g (.arithmetic i op a b) := by
  have hwhole : (Expr.arithmetic i op a b).whole? (r.wholeAt g) = op.whole? x y := by
    rw [Expr.whole?, hax, hby]
    rfl
  have hnumber : r.number g (.arithmetic i op a b) = (Number.combineWhole op x y).map some :=
    number_arithmetic hxfits hyfits hanumber hbnumber
  rw [Number.combineWhole_eq hxfits hyfits hdvd] at hnumber
  rcases hz : op.whole? x y with _ | z
  · rw [hz, Option.elim_none] at hnumber
    exact .fault (.inl (hwhole.trans hz)) .divisionByZero hnumber
  · rw [hz, Option.elim_some] at hnumber
    by_cases hroom : op.HasRoom x y z
    · rw [if_pos hroom] at hnumber
      refine .whole (hwhole.trans hz) ⟨haroom, hbroom, fun x' hx' y' hy' z' hz' => ?_⟩ hroom.1
        hnumber
      obtain rfl := Option.some.inj (hax.symm.trans hx')
      obtain rfl := Option.some.inj (hby.symm.trans hy')
      obtain rfl := Option.some.inj (hz.symm.trans hz')
      exact hroom
    · rw [if_neg hroom] at hnumber
      exact .fault (.inr fun hall => hroom (hall.2.2 x hax y hby z hz)) (.overflow op) hnumber

/-- The left operand is looked at first, so its fault hides that of the right one. -/
theorem comesTo_of_left_fault {fault : EvalFault}
    (hwhy : a.whole? (r.wholeAt g) = none ∨ ¬ a.HasRoom (r.wholeAt g)) (hrange : fault.IsRange)
    (hnumber : r.number g a = .error fault) : ComesTo r g (.arithmetic i op a b) := by
  refine .fault (hwhy.imp (fun hnone => ?_) fun hroom hall => hroom hall.1) hrange ?_
  · rw [Expr.whole?, hnone]
    rfl
  · rw [number, hnumber]
    rfl

theorem comesTo_of_right_fault {fault : EvalFault} {n : Option Number}
    (hleft : r.number g a = .ok n)
    (hwhy : b.whole? (r.wholeAt g) = none ∨ ¬ b.HasRoom (r.wholeAt g)) (hrange : fault.IsRange)
    (hnumber : r.number g b = .error fault) : ComesTo r g (.arithmetic i op a b) := by
  refine .fault (hwhy.imp (fun hnone => ?_) fun hroom hall => hroom hall.2.1) hrange ?_
  · rw [Expr.whole?, hnone]
    cases a.whole? (r.wholeAt g) <;> rfl
  · rw [number, hleft, hnumber]
    rfl

end Arithmetic

theorem comesTo_of_isWhole {e : Expr} (he : e.IsWhole fun p => ∃ z, r.wholeAt g p = some z)
    (heven : e.DividesEvenly (r.wholeAt g)) : ComesTo r g e := by
  induction he with
  | property i h =>
    obtain ⟨z, hz⟩ := h
    obtain ⟨hfits, hnumber⟩ := number_of_wholeAt hz i
    exact .whole hz trivial hfits hnumber
  | literal i hz h => exact .whole hz trivial h (number_of_literal hz h i)
  | arithmetic i op _ _ iha ihb =>
    obtain ⟨hevena, hevenb, hdvd⟩ := heven
    cases iha hevena with
    | fault hwhy hrange hnumber => exact comesTo_of_left_fault hwhy hrange hnumber
    | whole hax haroom hxfits hanumber =>
      cases ihb hevenb with
      | fault hwhy hrange hnumber => exact comesTo_of_right_fault hanumber hwhy hrange hnumber
      | whole hby hbroom hyfits hbnumber =>
        exact comesTo_of_whole hax haroom hxfits hanumber hby hbroom hyfits hbnumber
          fun hop => hdvd hop _ hax _ hby

end Recognizer

/-! ### Comparisons -/

/-- Whether a relation holds of two whole numbers. -/
def RelationalOp.relates : RelationalOp → Int → Int → Bool
  | eq, a, b => a = b
  | ne, a, b => a ≠ b
  | gt, a, b => b < a
  | ge, a, b => b ≤ a
  | lt, a, b => a < b
  | le, a, b => a ≤ b

theorem RelationalOp.holds_compare_int (op : RelationalOp) (a b : Int) :
    op.holds (compare a b) = op.relates a b := by
  rw [Bool.eq_iff_iff]
  cases op <;> simp only [holds, relates, beq_iff_eq, bne_iff_ne, decide_eq_true_iff, ne_eq,
    Int.compare_eq_lt, Int.compare_eq_eq, Int.compare_eq_gt, Int.not_lt]

/-- A property of a predicate that applies no function and is of an integral type, and of which a
graph holds a value: a chain of references along its path ends in a node that has one. -/
structure Property.IsWholeOn (catalog : Catalog) (root : TypeDef) (e : Expr) (g : Graph)
    (p : Property) : Prop where
  mem : p ∈ e.properties
  plain : p.functions = []
  integral : ∃ found, p.resolve catalog root = .ok found ∧ found.type.flavor = .integral
  held : ∃ names n, Property.stepNames? p.path = some names ∧ g.Ends names n ∧ n.data p.name ≠ []

namespace Recognizer

variable {catalog : Catalog} {root : TypeDef} {e : Expr} {r : Recognizer} {g : Graph}

theorem exists_wholeAt (hcreate : create catalog root e = .ok r) (hg : g.WellTyped catalog root)
    {p : Property} (hp : p.IsWholeOn catalog root e g) (delimiter : String) :
    ∃ z, (r.withDelimiter delimiter).wholeAt g p = some z := by
  obtain ⟨found, hfound, hr⟩ := exists_resolved hcreate hp.mem delimiter
  obtain ⟨found', hfound', hintegral⟩ := hp.integral
  obtain rfl := Except.ok.inj (hfound.symm.trans hfound')
  obtain ⟨names, n, hnames, hends, hheld⟩ := hp.held
  obtain ⟨vs, hvs, hadmits⟩ := exists_collect hg hfound hr hp.plain
  have hreach : p.reach found.endMany g = .ok vs := by
    rw [collect, hr] at hvs
    exact hvs
  obtain ⟨v, hv⟩ := List.exists_mem_of_ne_nil _ hheld
  have hpresent : v ∈ present vs := mem_present.mpr
    ((Property.mem_reach_iff hp.plain hnames hreach).mpr ⟨n, hends, Node.some_mem_counted.mpr hv⟩)
  rcases hfirst : present vs with _ | ⟨w, rest⟩
  · rw [hfirst] at hpresent
    cases hpresent
  · have hfits : found.type.fits w = true :=
      DataType.fits_of_admits (by simp [hintegral]) (hadmits w (hfirst ▸ List.mem_cons_self))
    obtain ⟨z, hz⟩ := DataType.exists_integral? hintegral hfits
    refine ⟨z, ?_⟩
    rw [wholeAt, hvs]
    change (present vs).head?.bind Value.integral? = some z
    rw [hfirst]
    exact hz

/-- A whole number is compared with a literal that is one as whole numbers are. -/
theorem evaluate_of_number {i j : NodeId} {op : RelationalOp} {aop : ArithmeticOp} {a b : Expr}
    {s : String} {z m : Int} (hz : FitsWord z)
    (hnumber : r.number g (.arithmetic j aop a b) = .ok (some (.whole (Int64.ofInt z))))
    (hm : Text.integer? (Text.trimChars s.toList) = some m) (hmfits : FitsWord m) :
    r.evaluate g (.relational i op (.arithmetic j aop a b) (.text s)) = .ok (op.relates z m) := by
  have hread : Number.read s = .ok (.whole (Int64.ofInt m)) := by
    rw [Number.read, Text.word?_eq_some hm hmfits]
  obtain ⟨y, hy⟩ := Number.exists_read_double hread
  rw [evaluate, relational_of_number hread hy hnumber]
  change Except.ok (op.holds (compare (Int64.ofInt z).toInt (Int64.ofInt m).toInt)) = _
  rw [toInt_ofInt_of_fitsWord hz, toInt_ofInt_of_fitsWord hmfits, RelationalOp.holds_compare_int]

/--
Arithmetic of properties of a predicate that are of integral types and held by a well-typed graph,
and of literals that are whole numbers of 64 bits, in which no division leaves a remainder. If there
is a number without bounds that it comes to, and all results on the way have room, this number is
its value. If there is none, since a divisor is zero, or a result on the way has no room, its
evaluation fails. Unless it is a property or a literal alone, which is no operand of arithmetic,
comparing it with a whole literal decides how the two numbers compare, or fails in the same way.
-/
theorem evaluate_whole (hcreate : create catalog root e = .ok r) (hg : g.WellTyped catalog root)
    {x : Expr} (hx : x.IsWhole (Property.IsWholeOn catalog root e g)) (delimiter : String) :
    let recognizer := r.withDelimiter delimiter
    let value := recognizer.wholeAt g
    x.DividesEvenly value →
      (∀ z, x.whole? value = some z → x.HasRoom value →
        (∃ k : Int64, k.toInt = z ∧ recognizer.number g x = .ok (some (.whole k))) ∧
        ∀ j aop a b, x = .arithmetic j aop a b → ∀ i op s m,
          Text.integer? (Text.trimChars s.toList) = some m → FitsWord m →
            recognizer.evaluate g (.relational i op x (.text s)) = .ok (op.relates z m)) ∧
      (x.whole? value = none ∨ ¬ x.HasRoom value →
        ∃ fault, fault.IsRange ∧ recognizer.number g x = .error fault ∧
          ∀ j aop a b, x = .arithmetic j aop a b → ∀ i op l,
            recognizer.evaluate g (.relational i op x l) = .error fault) := by
  intro recognizer value heven
  have hwhole : x.IsWhole fun p => ∃ z, value p = some z :=
    hx.imp fun p hp => exists_wholeAt hcreate hg hp delimiter
  cases comesTo_of_isWhole hwhole heven with
  | @whole z hz hroom hfits hnumber =>
    constructor
    · intro z' hz' _
      obtain rfl := Option.some.inj (hz.symm.trans hz')
      refine ⟨⟨_, toInt_ofInt_of_fitsWord hfits, hnumber⟩, ?_⟩
      rintro j aop a b rfl i op s m hm hmfits
      exact evaluate_of_number hfits hnumber hm hmfits
    · rintro (hnone | hnoroom)
      · exact nomatch hz.symm.trans hnone
      · exact absurd hroom hnoroom
  | @fault fault hwhy hrange hnumber =>
    constructor
    · intro z hz hroom
      rcases hwhy with hnone | hnoroom
      · exact nomatch hz.symm.trans hnone
      · exact absurd hroom hnoroom
    · intro _
      refine ⟨fault, hrange, hnumber, ?_⟩
      rintro j aop a b rfl i op l
      rw [evaluate, relational, compared, hnumber]
      rfl

/-- The remainder of 10 less the age by 7, divided by -3. -/
def thirdOfRemainder : Expr :=
  .arithmetic 10 .div
    (.arithmetic 11 .mod
      (.arithmetic 12 .sub (.literal 13 (.text "10")) (.property 14 ⟨[], "age", []⟩))
      (.literal 15 (.text "7")))
    (.literal 16 (.text " -3"))

/-- The age times the least number modulo -1. -/
def leastRemainder : Expr :=
  .arithmetic 20 .mul (.property 21 ⟨[], "age", []⟩)
    (.arithmetic 22 .mod (.literal 23 (.text "-9223372036854775808")) (.literal 24 (.text "-1")))

/-- Ann is of age 30, and the remainder of -20 by 7 is -6. The least number modulo -1 would be 0,
but this is not what it comes to. -/
theorem evaluate_whole_thirdOfRemainder :
    thirdOfRemainder.IsWhole (Property.IsWholeOn ⟨[person]⟩ person friendly annAndBob) ∧
      leastRemainder.IsWhole (Property.IsWholeOn ⟨[person]⟩ person friendly annAndBob) ∧
      annAndBob.WellTyped ⟨[person]⟩ person ∧
      ∃ r, create ⟨[person]⟩ person friendly = .ok r ∧
        thirdOfRemainder.DividesEvenly ((r.withDelimiter ",").wholeAt annAndBob) ∧
        leastRemainder.DividesEvenly ((r.withDelimiter ",").wholeAt annAndBob) ∧
        thirdOfRemainder.HasRoom ((r.withDelimiter ",").wholeAt annAndBob) ∧
        (r.withDelimiter ",").evaluate annAndBob
          (.relational 17 .ge thirdOfRemainder (.text "2")) = .ok true ∧
        ∃ fault, fault.IsRange ∧
          (r.withDelimiter ",").evaluate annAndBob
            (.relational 25 .eq leastRemainder (.text "0")) = .error fault := by
  have hage : Property.IsWholeOn ⟨[person]⟩ person friendly annAndBob ⟨[], "age", []⟩ :=
    { mem := by decide +kernel
      plain := rfl
      integral := ⟨⟨.int, false, false⟩, rfl, rfl⟩
      held := ⟨[], annAndBob.root, rfl, ⟨0, .here, rfl⟩, by decide +kernel⟩ }
  have hthird : thirdOfRemainder.IsWhole
      (Property.IsWholeOn ⟨[person]⟩ person friendly annAndBob) := by
    refine .arithmetic 10 .div (.arithmetic 11 .mod (.arithmetic 12 .sub ?_ ?_) ?_) ?_
    · exact .literal 13 (z := 10) rfl (by decide)
    · exact .property 14 hage
    · exact .literal 15 (z := 7) rfl (by decide)
    · exact .literal 16 (z := -3) rfl (by decide)
  have hleast : leastRemainder.IsWhole
      (Property.IsWholeOn ⟨[person]⟩ person friendly annAndBob) := by
    refine .arithmetic 20 .mul (.property 21 hage) (.arithmetic 22 .mod ?_ ?_)
    · exact .literal 23 (z := -9223372036854775808) (by decide +kernel) (by decide)
    · exact .literal 24 (z := -1) rfl (by decide)
  have htyped : annAndBob.WellTyped ⟨[person]⟩ person := ⟨by decide +kernel, by decide +kernel⟩
  obtain ⟨r, hr, hvalue, heven, hroom, hevenleast, hnoroom⟩ :
      ∃ r, create ⟨[person]⟩ person friendly = .ok r ∧
        thirdOfRemainder.whole? ((r.withDelimiter ",").wholeAt annAndBob) = some 2 ∧
        thirdOfRemainder.DividesEvenly ((r.withDelimiter ",").wholeAt annAndBob) ∧
        thirdOfRemainder.HasRoom ((r.withDelimiter ",").wholeAt annAndBob) ∧
        leastRemainder.DividesEvenly ((r.withDelimiter ",").wholeAt annAndBob) ∧
        ¬ leastRemainder.HasRoom ((r.withDelimiter ",").wholeAt annAndBob) := by
    refine ⟨_, rfl, ?_, ?_, ?_, ?_, ?_⟩
    all_goals decide +kernel
  have htrue := ((evaluate_whole hr htyped hthird "," heven).1 2 hvalue hroom).2
    10 _ _ _ rfl 17 .ge "2" 2 rfl (by decide)
  obtain ⟨fault, hrange, -, hfault⟩ :=
    (evaluate_whole hr htyped hleast "," hevenleast).2 (.inr hnoroom)
  exact ⟨hthird, hleast, htyped, r, hr, heven, hevenleast, hroom, htrue, fault, hrange,
    hfault 20 _ _ _ rfl 25 .eq (.text "0")⟩

end Recognizer

end GraphTable
