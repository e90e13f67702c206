import GraphTable.Key.RowKey
import GraphTable.Proofs.Codec.Coding
import GraphTable.Proofs.Outcome

/-!
# The pieces of a row key

A row key is the bytes of its fields one after the other (`exists_encodes_of_compose`). Whether a
key begins with given bytes, or matches a template, comes down to its single fields as long as
the bytes looked for are as wide as the fields (`Aligned`):

* **Leading bytes** (`flatten_leading_prefix_iff`): a key begins with the bytes of the leading
  bound fields if those stand where these fields are.
* **Templates** (`matchesTemplate_iff`): a key matches a template if the bytes of every bound field
  stand where the field is.

To stand there (`StandsAt`) is to be the bytes of the field where the field has a fixed width. A
last field of no fixed width need only begin with the bytes (`standsAt_iff_of_last`).
-/

namespace GraphTable

namespace KeyField

@[simp] theorem codec_type (f : KeyField) : f.codec.type = f.type := by
  unfold codec Codec.select
  split <;> first | rfl | (split <;> rfl)

theorem length_encode {f : KeyField} {v : Value} {width : Nat} {b : Bytes}
    (hw : f.width? = some width) (h : f.encode v = .ok b) : b.length = width :=
  Codec.length_encode hw h

end KeyField

namespace RowKey

/-! ### Keys and their fields -/

/-- Values and their bytes, field by field. -/
inductive Encodes : List KeyField → List Value → List Bytes → Prop
  | nil : Encodes [] [] []
  | cons {f : KeyField} {v : Value} {b : Bytes} {fs : List KeyField} {vs : List Value}
      {bs : List Bytes} (first : f.encode v = .ok b) (rest : Encodes fs vs bs) :
      Encodes (f :: fs) (v :: vs) (b :: bs)

private theorem exists_encodes_of_composeFront {fields : List KeyField} {values : List Value}
    {key : Bytes} (hlen : values.length = fields.length)
    (h : composeFront fields values = .ok key) :
    ∃ pieces, Encodes fields values pieces ∧ key = pieces.flatten := by
  induction fields generalizing values key with
  | nil =>
    obtain rfl := List.eq_nil_of_length_eq_zero hlen
    cases h
    exact ⟨[], .nil, rfl⟩
  | cons f fs ih =>
    cases values with
    | nil => cases hlen
    | cons v vs =>
      obtain ⟨b, hb, h⟩ := Outcome.bind_eq_ok.mp h
      obtain ⟨more, hmore, h⟩ := Outcome.bind_eq_ok.mp h
      obtain ⟨pieces, hpieces, rfl⟩ := ih (Nat.succ.inj hlen) hmore
      cases h
      exact ⟨b :: pieces, .cons hb hpieces, rfl⟩

/-- A key is the bytes of its fields one after the other. -/
theorem exists_encodes_of_compose {fields : List KeyField} {values : List Value} {key : Bytes}
    (h : compose fields values = .ok key) :
    ∃ pieces, Encodes fields values pieces ∧ key = pieces.flatten := by
  unfold compose at h
  split at h
  · exact exists_encodes_of_composeFront ‹_› h
  · cases h

theorem Encodes.length_pieces {fields : List KeyField} {values : List Value}
    {pieces : List Bytes} (h : Encodes fields values pieces) : pieces.length = fields.length := by
  induction h with
  | nil => rfl
  | cons _ _ ih => exact congrArg _ ih

theorem Encodes.at {fields : List KeyField} {values : List Value} {pieces : List Bytes}
    (h : Encodes fields values pieces) {i : Nat} {f : KeyField} (hf : fields[i]? = some f) :
    ∃ v b, values[i]? = some v ∧ pieces[i]? = some b ∧ f.encode v = .ok b := by
  induction h generalizing i with
  | nil => cases hf
  | cons first _ ih =>
    cases i with
    | zero =>
      obtain rfl := Option.some.inj hf
      exact ⟨_, _, rfl, rfl, first⟩
    | succ i => exact ih hf

/-- What the first values of a key encode to is what the key begins with. -/
theorem Encodes.prefix_of_composeFront {front rest : List KeyField} {values vs : List Value}
    {pieces : List Bytes} {stem : Bytes} (h : Encodes (front ++ rest) values pieces)
    (hvs : vs <+: values) (hstem : composeFront front vs = .ok stem) :
    stem <+: pieces.flatten := by
  induction front generalizing values vs pieces stem with
  | nil =>
    cases hstem
    exact List.nil_prefix
  | cons f fs ih =>
    cases vs with
    | nil =>
      cases hstem
      exact List.nil_prefix
    | cons w ws =>
      obtain ⟨b, hb, hstem⟩ := Outcome.bind_eq_ok.mp hstem
      obtain ⟨more, hmore, hstem⟩ := Outcome.bind_eq_ok.mp hstem
      cases hstem
      cases h with
      | cons first rest =>
        obtain ⟨rfl, hws⟩ := List.cons_prefix_cons.mp hvs
        cases hb.symm.trans first
        rw [List.flatten_cons, List.prefix_append_right_inj]
        exact ih rest hws hmore

/-- All fields but the last have a fixed width. -/
theorem width?_isSome_of_check {fields : List KeyField} (h : check fields = .ok ()) :
    ∀ f ∈ fields.dropLast, f.width?.isSome = true := by
  unfold check at h
  split at h
  · cases h
  · split at h
    · cases h
    · rename_i hnone
      intro f hf
      simpa [Option.isSome_iff_ne_none] using List.find?_eq_none.mp hnone f hf

/-! ### Bytes that stand at fields -/

/--
Fields, the bytes that some of them are bound to, and the bytes that they have in a key. Where a
field has a fixed width, both are of that width; only the last field may have none.
-/
inductive Aligned : List KeyField → List (Option Bytes) → List Bytes → Prop
  | nil : Aligned [] [] []
  | last {f : KeyField} {slot : Option Bytes} {p : Bytes}
      (hpiece : ∀ width, f.width? = some width → p.length = width)
      (hslot : ∀ b width, slot = some b → f.width? = some width → b.length = width) :
      Aligned [f] [slot] [p]
  | cons {f : KeyField} {slot : Option Bytes} {p : Bytes} {fs : List KeyField}
      {slots : List (Option Bytes)} {ps : List Bytes} (hpiece : f.width? = some p.length)
      (hslot : ∀ b, slot = some b → b.length = p.length) (rest : Aligned fs slots ps) :
      Aligned (f :: fs) (slot :: slots) (p :: ps)

theorem aligned_of_encodes {fields : List KeyField} {values : List Value} {pieces : List Bytes}
    {slots : List (Option Bytes)} (h : Encodes fields values pieces)
    (hwidth : ∀ f ∈ fields.dropLast, f.width?.isSome = true)
    (hlen : slots.length = fields.length)
    (hslots : ∀ (i : Nat) (f : KeyField) (b : Bytes), fields[i]? = some f →
      slots[i]? = some (some b) → ∃ v, f.encode v = .ok b) :
    Aligned fields slots pieces := by
  induction h generalizing slots with
  | nil =>
    obtain rfl := List.eq_nil_of_length_eq_zero hlen
    exact .nil
  | @cons f v p fs vs ps hp rest ih =>
    cases slots with
    | nil => cases hlen
    | cons slot slots =>
      have hslot : ∀ b width, slot = some b → f.width? = some width → b.length = width := by
        intro b width hb hw
        obtain ⟨v, hv⟩ := hslots 0 f b rfl (by rw [hb]; rfl)
        exact KeyField.length_encode hw hv
      have hpiece : ∀ width, f.width? = some width → p.length = width :=
        fun width hw => KeyField.length_encode hw hp
      cases rest with
      | nil =>
        obtain rfl := List.eq_nil_of_length_eq_zero (Nat.succ.inj hlen)
        exact .last hpiece hslot
      | @cons g w q gs ws qs hq rest =>
        obtain ⟨width, hw⟩ := Option.isSome_iff_exists.mp (hwidth f (by simp))
        rw [← hpiece width hw] at hw
        refine .cons hw (fun b hb => hslot b _ hb hw) (ih ?_ (Nat.succ.inj hlen) ?_)
        · exact fun f hf => hwidth f (by simp [hf])
        · exact fun i g b hg hb => hslots (i + 1) g b hg hb

/-- From the place of a field on, a key goes on with some bytes. -/
def StandsAt (pieces : List Bytes) (i : Nat) (b : Bytes) : Prop :=
  b <+: (pieces.drop i).flatten

theorem standsAt_zero {p b : Bytes} {ps : List Bytes} :
    StandsAt (p :: ps) 0 b ↔ b <+: p ++ ps.flatten := Iff.rfl

theorem standsAt_succ {p b : Bytes} {ps : List Bytes} {i : Nat} :
    StandsAt (p :: ps) (i + 1) b ↔ StandsAt ps i b := Iff.rfl

/-- What slots say of a key is what the first one says, and what the others say of the rest. -/
theorem forall_standsAt_cons_iff {slot : Option Bytes} {slots : List (Option Bytes)} {p : Bytes}
    {ps : List Bytes} {count : Nat} :
    (∀ (i : Nat) (b : Bytes), i < count + 1 → (slot :: slots)[i]? = some (some b) →
      StandsAt (p :: ps) i b) ↔
      (∀ b, slot = some b → b <+: p ++ ps.flatten) ∧
        ∀ (i : Nat) (b : Bytes), i < count → slots[i]? = some (some b) → StandsAt ps i b := by
  constructor
  · intro hall
    refine ⟨fun b hb => ?_, fun i b hi hb => ?_⟩
    · exact standsAt_zero.mp (hall 0 b (Nat.zero_lt_succ _) (congrArg some hb))
    · exact standsAt_succ.mp (hall (i + 1) b (Nat.succ_lt_succ hi) hb)
  · rintro ⟨hfirst, hrest⟩ i b hi hb
    cases i with
    | zero => exact standsAt_zero.mpr (hfirst b (Option.some.inj hb))
    | succ i => exact standsAt_succ.mpr (hrest i b (Nat.lt_of_succ_lt_succ hi) hb)

theorem standsAt_of_getElem? {pieces : List Bytes} {i : Nat} {b : Bytes}
    (h : pieces[i]? = some b) : StandsAt pieces i b := by
  obtain ⟨hi, rfl⟩ := List.getElem?_eq_some_iff.mp h
  rw [StandsAt, List.drop_eq_getElem_cons hi]
  exact List.prefix_append _ _

/-- The last field begins with the bytes that stand there. -/
theorem standsAt_iff_of_last {pieces : List Bytes} {i : Nat} {p b : Bytes}
    (hp : pieces[i]? = some p) (hlast : i + 1 = pieces.length) :
    StandsAt pieces i b ↔ b <+: p := by
  obtain ⟨hi, rfl⟩ := List.getElem?_eq_some_iff.mp hp
  rw [StandsAt, List.drop_eq_getElem_cons hi, List.drop_eq_nil_of_le (by omega),
    List.flatten_cons, List.flatten_nil, List.append_nil]

/-- Where a field has a fixed width, the bytes that stand there are its bytes. -/
theorem Aligned.standsAt_iff {fields : List KeyField} {slots : List (Option Bytes)}
    {pieces : List Bytes} (h : Aligned fields slots pieces) {i : Nat} {f : KeyField} {b : Bytes}
    (hf : fields[i]? = some f) (hwidth : f.width?.isSome = true)
    (hb : slots[i]? = some (some b)) : StandsAt pieces i b ↔ pieces[i]? = some b := by
  induction h generalizing i with
  | nil => cases hf
  | last hpiece hslot =>
    cases i with
    | zero =>
      obtain rfl := Option.some.inj hf
      obtain rfl := Option.some.inj hb
      obtain ⟨width, hw⟩ := Option.isSome_iff_exists.mp hwidth
      have hlen := (hslot b width rfl hw).trans (hpiece width hw).symm
      rw [standsAt_zero, Bytes.prefix_append_iff hlen]
      exact ⟨fun h => congrArg some h.symm, fun h => (Option.some.inj h).symm⟩
    | succ i => cases hf
  | cons hpiece hslot _ ih =>
    cases i with
    | zero =>
      obtain rfl := Option.some.inj hb
      rw [standsAt_zero, Bytes.prefix_append_iff (hslot b rfl)]
      exact ⟨fun h => congrArg some h.symm, fun h => (Option.some.inj h).symm⟩
    | succ i => exact ih hf hb

/-! ### Leading bytes -/

/-- The bytes of the slots up to the first one that is free. -/
def leading (slots : List (Option Bytes)) : List Bytes :=
  (slots.takeWhile Option.isSome).filterMap fun b => b

@[simp] theorem leading_nil : leading [] = [] := rfl

@[simp] theorem leading_none (slots : List (Option Bytes)) : leading (none :: slots) = [] := rfl

@[simp] theorem leading_some (b : Bytes) (slots : List (Option Bytes)) :
    leading (some b :: slots) = b :: leading slots := rfl

theorem length_leading_le (slots : List (Option Bytes)) :
    (leading slots).length ≤ slots.length := by
  induction slots with
  | nil => exact Nat.le_refl 0
  | cons slot slots ih =>
    cases slot with
    | none => exact Nat.zero_le _
    | some b => exact Nat.succ_le_succ ih

/-- The leading bytes end at the first slot that is free. -/
theorem length_leading_eq {slots : List (Option Bytes)} {count : Nat}
    (hbound : ∀ i, i < count → ∃ b, slots[i]? = some (some b)) (hfree : slots[count]? = some none) :
    (leading slots).length = count := by
  induction slots generalizing count with
  | nil => cases hfree
  | cons slot slots ih =>
    cases count with
    | zero =>
      obtain rfl := Option.some.inj hfree
      rfl
    | succ count =>
      obtain ⟨b, hb⟩ := hbound 0 (Nat.zero_lt_succ count)
      obtain rfl := Option.some.inj hb
      have htail := ih (fun i hi => hbound (i + 1) (Nat.succ_lt_succ hi)) hfree
      rw [leading_some, List.length_cons, htail]

/-- A key begins with the bytes of leading fields if they stand where the fields are. -/
theorem Aligned.flatten_leading_prefix_iff {fields : List KeyField}
    {slots : List (Option Bytes)} {pieces : List Bytes} (h : Aligned fields slots pieces) :
    (leading slots).flatten <+: pieces.flatten ↔
      ∀ (i : Nat) (b : Bytes), i < (leading slots).length → slots[i]? = some (some b) →
        StandsAt pieces i b := by
  induction h with
  | nil => simp
  | @last f slot p _ _ =>
    cases slot with
    | none => simp
    | some b =>
      rw [leading_some, List.length_cons, forall_standsAt_cons_iff]
      simp
  | @cons f slot p fs slots ps _ hslot _ ih =>
    cases slot with
    | none => simp
    | some b =>
      have hlen : b.length = p.length := hslot b rfl
      have hfirst : b = p ↔ ∀ c, some b = some c → c <+: p ++ ps.flatten := by
        rw [← Bytes.prefix_append_iff hlen]
        exact ⟨fun hb c hc => Option.some.inj hc ▸ hb, fun hall => hall b rfl⟩
      rw [leading_some, List.length_cons, forall_standsAt_cons_iff, List.flatten_cons,
        List.flatten_cons, List.prefix_append_inj_of_length_eq hlen, ih, hfirst]

/-- If all fields are bound, there is one key with their bytes. -/
theorem Aligned.flatten_leading_eq_iff {fields : List KeyField} {slots : List (Option Bytes)}
    {pieces : List Bytes} (h : Aligned fields slots pieces)
    (hall : (leading slots).length = slots.length) :
    (leading slots).flatten = pieces.flatten ↔
      ∀ (i : Nat) (b : Bytes), slots[i]? = some (some b) → pieces[i]? = some b := by
  induction h with
  | nil => simp
  | @last f slot p _ _ =>
    cases slot with
    | none => cases hall
    | some b =>
      rw [leading_some, leading_nil, List.flatten_cons, List.flatten_cons, List.flatten_nil,
        List.append_nil, List.append_nil]
      constructor
      · rintro rfl i c hc
        cases i with
        | zero => exact Option.some.inj hc ▸ rfl
        | succ i => cases hc
      · exact fun hbytes => (Option.some.inj (hbytes 0 b rfl)).symm
  | @cons f slot p fs slots ps _ hslot _ ih =>
    cases slot with
    | none => cases hall
    | some b =>
      have htail := ih (Nat.succ.inj hall)
      rw [leading_some, List.flatten_cons, List.flatten_cons]
      constructor
      · intro heq i c hc
        obtain ⟨rfl, hrest⟩ := List.append_inj heq (hslot b rfl)
        cases i with
        | zero => exact Option.some.inj hc ▸ rfl
        | succ i => exact htail.mp hrest i c hc
      · intro hbytes
        rw [Option.some.inj (hbytes 0 b rfl), htail.mpr fun i c hc => hbytes (i + 1) c hc]

/-- What follows the leading bytes begins with the first free field. -/
theorem Aligned.exists_free_piece {fields : List KeyField} {slots : List (Option Bytes)}
    {pieces : List Bytes} (h : Aligned fields slots pieces)
    (hfree : (leading slots).length < fields.length)
    (hfront : (leading slots).flatten <+: pieces.flatten) :
    ∃ p rest, pieces[(leading slots).length]? = some p ∧
      pieces.flatten = (leading slots).flatten ++ (p ++ rest) := by
  induction h with
  | nil => cases hfree
  | @last f slot p _ _ =>
    cases slot with
    | none => exact ⟨p, [], rfl, rfl⟩
    | some b => exact absurd hfree (Nat.lt_irrefl 1)
  | @cons f slot p fs slots ps _ hslot _ ih =>
    cases slot with
    | none => exact ⟨p, ps.flatten, rfl, rfl⟩
    | some b =>
      rw [leading_some, List.flatten_cons, List.flatten_cons,
        List.prefix_append_inj_of_length_eq (hslot b rfl)] at hfront
      obtain ⟨rfl, hfront⟩ := hfront
      obtain ⟨q, rest, hq, hrest⟩ := ih (Nat.lt_of_succ_lt_succ hfree) hfront
      refine ⟨q, rest, hq, ?_⟩
      rw [leading_some, List.flatten_cons, List.flatten_cons, hrest, List.append_assoc]

/-! ### Templates -/

theorem matchesTemplate_nil (key mask : Bytes) : Scan.matchesTemplate key [] mask = true := by
  simp [Scan.matchesTemplate]

theorem matchesTemplate_nil_cons (t : UInt8) (template mask : Bytes) :
    Scan.matchesTemplate [] (t :: template) mask = false := by
  simp [Scan.matchesTemplate]

theorem matchesTemplate_cons (k t m : UInt8) (key template mask : Bytes) :
    Scan.matchesTemplate (k :: key) (t :: template) (m :: mask) =
      ((m == Scan.freeMask || t == k) && Scan.matchesTemplate key template mask) := by
  simp [Scan.matchesTemplate, Bool.and_left_comm]

/-- A template whose first piece is as wide as the first one of the key is matched in pieces. -/
theorem matchesTemplate_append {p t m : Bytes} (ht : t.length = p.length)
    (hm : m.length = p.length) (rest template mask : Bytes) :
    Scan.matchesTemplate (p ++ rest) (t ++ template) (m ++ mask) =
      (Scan.matchesTemplate p t m && Scan.matchesTemplate rest template mask) := by
  induction p generalizing t m with
  | nil =>
    rw [List.eq_nil_of_length_eq_zero ht, List.eq_nil_of_length_eq_zero hm, matchesTemplate_nil]
    rfl
  | cons k p ih =>
    cases t with
    | nil => cases ht
    | cons t ts =>
      cases m with
      | nil => cases hm
      | cons m ms =>
        rw [List.cons_append, List.cons_append, List.cons_append, matchesTemplate_cons,
          matchesTemplate_cons, ih (Nat.succ.inj ht) (Nat.succ.inj hm), Bool.and_assoc]

/-- Bytes that are all fixed are matched by what begins with them. -/
theorem matchesTemplate_fixed (key b : Bytes) :
    Scan.matchesTemplate key b (List.replicate b.length Scan.fixedMask) = true ↔ b <+: key := by
  induction b generalizing key with
  | nil => simp [matchesTemplate_nil]
  | cons t b ih =>
    cases key with
    | nil => simp [matchesTemplate_nil_cons]
    | cons k key =>
      rw [List.length_cons, List.replicate_succ, matchesTemplate_cons, Bool.and_eq_true, ih,
        List.cons_prefix_cons]
      simp [Scan.fixedMask, Scan.freeMask]

/-- Bytes that are all free are matched by what is long enough. -/
theorem matchesTemplate_free {key t : Bytes} (h : t.length ≤ key.length) :
    Scan.matchesTemplate key t (List.replicate t.length Scan.freeMask) = true := by
  induction t generalizing key with
  | nil => exact matchesTemplate_nil _ _
  | cons t ts ih =>
    cases key with
    | nil => cases h
    | cons k key =>
      rw [List.length_cons, List.replicate_succ, matchesTemplate_cons,
        ih (Nat.le_of_succ_le_succ h)]
      rfl

/-- The template of a field that is as wide as its piece of a key. -/
private theorem length_fuzzyPiece {f : KeyField} {slot : Option Bytes} {p t m : Bytes}
    (hpiece : f.width? = some p.length) (hslot : ∀ b, slot = some b → b.length = p.length)
    (h : fuzzyPiece f slot = .ok (t, m)) : t.length = p.length ∧ m.length = p.length := by
  cases slot with
  | some b =>
    obtain ⟨rfl, rfl⟩ : b = t ∧ List.replicate b.length Scan.fixedMask = m := by
      simpa [fuzzyPiece] using h
    exact ⟨hslot b rfl, by rw [List.length_replicate, hslot b rfl]⟩
  | none =>
    rw [fuzzyPiece, hpiece] at h
    cases h
    exact ⟨List.length_replicate, List.length_replicate⟩

/-- The template of a field is matched by what begins with the bytes of the field, if it has. -/
private theorem matchesTemplate_fuzzyPiece {f : KeyField} {slot : Option Bytes} {p t m : Bytes}
    (hpiece : ∀ width, f.width? = some width → p.length = width)
    (h : fuzzyPiece f slot = .ok (t, m)) :
    Scan.matchesTemplate p t m = true ↔ ∀ b, slot = some b → b <+: p := by
  cases slot with
  | some b =>
    obtain ⟨rfl, rfl⟩ : b = t ∧ List.replicate b.length Scan.fixedMask = m := by
      simpa [fuzzyPiece] using h
    rw [matchesTemplate_fixed]
    exact ⟨fun hb c hc => Option.some.inj hc ▸ hb, fun hall => hall b rfl⟩
  | none =>
    rw [fuzzyPiece] at h
    split at h
    · rename_i width hw
      cases h
      have hle : (List.replicate width (0 : UInt8)).length ≤ p.length :=
        Nat.le_of_eq (by rw [List.length_replicate, hpiece width hw])
      have hfree := matchesTemplate_free hle
      rw [List.length_replicate] at hfree
      exact ⟨fun _ b hb => (by cases hb), fun _ => hfree⟩
    · cases h

/-- A key matches the template of some slots if the bytes of each stand at its field. -/
private theorem Aligned.matchesTemplate_take_iff {fields : List KeyField}
    {slots : List (Option Bytes)} {pieces : List Bytes} (h : Aligned fields slots pieces)
    {count : Nat} {parts : List (Bytes × Bytes)}
    (hparts : (fields.zip (slots.take count)).mapM (fun (f, slot) => fuzzyPiece f slot) =
      .ok parts) :
    Scan.matchesTemplate pieces.flatten (parts.flatMap Prod.fst) (parts.flatMap Prod.snd) = true ↔
      ∀ (i : Nat) (b : Bytes), i < count → slots[i]? = some (some b) → StandsAt pieces i b := by
  induction h generalizing count parts with
  | nil =>
    cases hparts
    simp [matchesTemplate_nil]
  | @last f slot p hpiece _ =>
    cases count with
    | zero =>
      cases hparts
      simp [matchesTemplate_nil]
    | succ count =>
      obtain ⟨⟨t, m⟩, _, hpart, hnil, rfl⟩ := Outcome.mapM_cons_eq_ok.mp hparts
      obtain rfl := List.eq_nil_of_length_eq_zero (Outcome.length_of_mapM hnil)
      rw [forall_standsAt_cons_iff, List.flatMap_cons, List.flatMap_cons, List.flatMap_nil,
        List.flatMap_nil, List.append_nil, List.append_nil, List.flatten_cons, List.flatten_nil,
        List.append_nil, matchesTemplate_fuzzyPiece hpiece hpart]
      exact ⟨fun hall => ⟨hall, fun i b _ hb => by cases hb⟩, And.left⟩
  | @cons f slot p fs slots ps hpiece hslot _ ih =>
    cases count with
    | zero =>
      cases hparts
      simp [matchesTemplate_nil]
    | succ count =>
      obtain ⟨⟨t, m⟩, rest, hpart, hrest, rfl⟩ := Outcome.mapM_cons_eq_ok.mp hparts
      have hlen := length_fuzzyPiece hpiece hslot hpart
      have hwidth : ∀ width, f.width? = some width → p.length = width := fun width hw =>
        Option.some.inj (hpiece.symm.trans hw)
      -- a piece of fixed width that begins with the bytes of its slot consists of them
      have hfirst : (∀ b, slot = some b → b <+: p) ↔
          ∀ b, slot = some b → b <+: p ++ ps.flatten := by
        refine forall_congr' fun b => imp_congr_right fun hb => ?_
        rw [Bytes.prefix_append_iff (hslot b hb)]
        exact ⟨fun h => h.eq_of_length (hslot b hb), fun h => h ▸ List.prefix_refl b⟩
      rw [forall_standsAt_cons_iff, List.flatMap_cons, List.flatMap_cons, List.flatten_cons,
        matchesTemplate_append hlen.1 hlen.2, Bool.and_eq_true, ih hrest,
        matchesTemplate_fuzzyPiece hwidth hpart, hfirst]

theorem upToLastBound_append (slots : List (Option Bytes)) :
    ∃ free, slots = upToLastBound slots ++ free ∧ ∀ slot ∈ free, slot = none := by
  refine ⟨(slots.reverse.takeWhile Option.isNone).reverse, ?_, ?_⟩
  · rw [upToLastBound, ← List.reverse_append, List.takeWhile_append_dropWhile,
      List.reverse_reverse]
  · intro slot hslot
    exact Option.isNone_iff_eq_none.mp
      (List.all_eq_true.mp List.all_takeWhile slot (List.mem_reverse.mp hslot))

/-- All bound slots are among those up to the last bound one. -/
theorem lt_length_upToLastBound {slots : List (Option Bytes)} {i : Nat} {b : Bytes}
    (h : slots[i]? = some (some b)) : i < (upToLastBound slots).length := by
  obtain ⟨free, happ, hfree⟩ := upToLastBound_append slots
  rcases Nat.lt_or_ge i (upToLastBound slots).length with hi | hi
  · exact hi
  · rw [happ, List.getElem?_append_right hi] at h
    cases hfree _ (List.mem_of_getElem? h)

theorem take_length_upToLastBound (slots : List (Option Bytes)) :
    slots.take (upToLastBound slots).length = upToLastBound slots := by
  obtain ⟨free, happ, -⟩ := upToLastBound_append slots
  generalize upToLastBound slots = bound at happ
  rw [happ, List.take_left']
  rfl

/-- A key matches a template if the bytes of every bound field stand where the field is. -/
theorem Aligned.matchesTemplate_iff {fields : List KeyField} {slots : List (Option Bytes)}
    {pieces : List Bytes} (h : Aligned fields slots pieces) {template mask : Bytes}
    (hfuzzy : fuzzy fields slots = .ok (template, mask)) :
    Scan.matchesTemplate pieces.flatten template mask = true ↔
      ∀ (i : Nat) (b : Bytes), slots[i]? = some (some b) → StandsAt pieces i b := by
  unfold fuzzy at hfuzzy
  split at hfuzzy
  · cases hfuzzy
  · obtain ⟨parts, hparts, heq⟩ := Outcome.bind_eq_ok.mp hfuzzy
    cases heq
    rw [← take_length_upToLastBound slots] at hparts
    rw [h.matchesTemplate_take_iff hparts]
    exact ⟨fun hall i b hb => hall i b (lt_length_upToLastBound hb) hb,
      fun hall i b _ hb => hall i b hb⟩

end RowKey

end GraphTable
