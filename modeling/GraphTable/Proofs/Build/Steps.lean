import GraphTable.Build
import GraphTable.Proofs.Outcome

/-!
# The steps of linking

What one step of building a graph comes to: reading the row of a key and adding its object
(`linkKey_of_known`, `linkKey_of_new`), linking the keys of a property one after the other
(`linkKeys_cons_eq_ok_iff`), and setting the property (`linkProperty_eq_ok_iff`). Edges are what a
row says of a property (`GraphSource.HasEdge`); which edges are followed is a matter of the state,
and is not described here.
-/

namespace GraphTable

/-! ### What is linked -/

theorem Linked.lookup_insert (l : Linked) (key other : Bytes) (i : Nat) :
    (l.insert key i).nodes.lookup other = if other = key then some i else l.nodes.lookup other := by
  unfold insert
  by_cases h : other = key
  · subst h
    rw [List.lookup_cons_self, if_pos rfl]
  · have hne : (other == key) = false := beq_false_of_ne h
    simp only [List.lookup_cons, hne, h, if_false]
    induction l.nodes with
    | nil => rfl
    | cons e es ih =>
      obtain ⟨k, j⟩ := e
      by_cases hk : k = key
      · subst hk
        simp [List.lookup_cons, hne, ih]
      · by_cases ho : other = k <;> simp [hk, ho, List.lookup_cons, ih]

namespace Building

/-- One more row was looked up. -/
def looked (s : Building) : Building :=
  { s with linked := { s.linked with lookups := s.linked.lookups + 1 } }

/-- An object was added, for the row of a key. -/
def add (s : Building) (key : Bytes) (n : Node) : Building :=
  ⟨s.graph.push n, s.linked.insert key s.graph.size⟩

/-- A property of an object was set. -/
def setField (s : Building) (i : Nat) (property : String) (content : Field) : Building :=
  { s with graph := s.graph.modify i (·.set property content) }

end Building

/-! ### Steps -/

namespace Linking

variable {α β : Type} {x : Linking α} {f : α → Linking β} {s s' s₁ : Building}

theorem get_bind (f : Building → Linking β) (s : Building) :
    ((get : Linking Building) >>= f) s = f s s :=
  rfl

theorem bind_of_ok {a : α} (h : x s = .ok a s₁) : (x >>= f) s = f a s₁ := by
  change EStateM.bind x f s = _
  rw [EStateM.bind, h]

theorem bind_of_error {e : QueryError} (h : x s = .error e s₁) : (x >>= f) s = .error e s₁ := by
  change EStateM.bind x f s = _
  rw [EStateM.bind, h]

/-- Two steps succeed if the first one does, and then the second one after it. -/
theorem bind_eq_ok_iff {c : β} :
    (x >>= f) s = .ok c s' ↔ ∃ a s₁, x s = .ok a s₁ ∧ f a s₁ = .ok c s' := by
  cases hx : x s with
  | ok a s₁ =>
    rw [bind_of_ok hx]
    constructor
    · intro h
      exact ⟨a, s₁, rfl, h⟩
    · rintro ⟨a, s₁, ⟨⟩, h⟩
      exact h
  | error e s₁ =>
    rw [bind_of_error hx]
    constructor
    · intro h
      cases h
    · rintro ⟨a, s₁, h, -⟩
      cases h

end Linking

namespace GraphSource

variable {b : GraphSource} {expand : Nat → Row → TypeDef → Linking Unit}

/-- The row that an edge to a key leads to, as far as it can be read. -/
def row? (b : GraphSource) (key : Bytes) : Answer (Option Row) :=
  b.source.lookup key (.ofFamily b.family)

theorem readRow_of_ok {key : Bytes} {row : Option Row} (h : b.row? key = .ok row) (s : Building) :
    b.readRow key s = .ok row s.looked := by
  have hlookup : b.source.lookup key (.ofFamily b.family) = .ok row := h
  unfold readRow
  rw [hlookup]
  rfl

theorem readRow_of_error {key : Bytes} {reason : String} (h : b.row? key = .error reason)
    (s : Building) : b.readRow key s = .error (.io reason) s.looked := by
  have hlookup : b.source.lookup key (.ofFamily b.family) = .error reason := h
  unfold readRow
  rw [hlookup]
  rfl

theorem addNode_of_ok {key : Bytes} {r : Row} {t : TypeDef} {n : Node}
    (h : Build.node b.family r t = .ok n) (s : Building) :
    b.addNode key r t s = .ok s.graph.size (s.add key n) := by
  unfold addNode
  rw [h]
  rfl

theorem addNode_of_error {key : Bytes} {r : Row} {t : TypeDef} {fault : BuildFault}
    (h : Build.node b.family r t = .error fault) (s : Building) :
    b.addNode key r t s = .error (.build fault) s := by
  unfold addNode
  rw [h]
  rfl

theorem linkKey_of_known {type : TypeDef} {key : Bytes} {s : Building} {i : Nat}
    (h : s.linked.nodes.lookup key = some i) :
    b.linkKey expand type key s = .ok (some i) s := by
  refine (Linking.get_bind _ s).trans ?_
  simp only [h]
  rfl

/-- A key that is met for the first time is looked up. -/
theorem linkKey_of_new {type : TypeDef} {key : Bytes} {s : Building}
    (h : s.linked.nodes.lookup key = none) :
    b.linkKey expand type key s =
      match b.row? key with
      | .error reason => .error (.io reason) s.looked
      | .ok none => .ok none s.looked
      | .ok (some r) => (b.addNode key r type >>= fun i =>
          expand i r type >>= fun _ => return some i : Linking (Option Nat)) s.looked := by
  refine (Linking.get_bind _ s).trans ?_
  simp only [h]
  cases hrow : b.row? key with
  | error reason => exact Linking.bind_of_error (readRow_of_error hrow s)
  | ok row =>
    rw [Linking.bind_of_ok (readRow_of_ok hrow s)]
    cases row <;> rfl

/-- How the object of a key may have been found. -/
inductive KeyLinked (b : GraphSource) (expand : Nat → Row → TypeDef → Linking Unit)
    (type : TypeDef) (key : Bytes) (s : Building) : Option Nat → Building → Prop
  | known {i : Nat} (h : s.linked.nodes.lookup key = some i) :
      KeyLinked b expand type key s (some i) s
  | absent (h : s.linked.nodes.lookup key = none) (hrow : b.row? key = .ok none) :
      KeyLinked b expand type key s none s.looked
  | added {r : Row} {n : Node} {s' : Building} (h : s.linked.nodes.lookup key = none)
      (hrow : b.row? key = .ok (some r)) (hnode : Build.node b.family r type = .ok n)
      (hexpand : expand s.graph.size r type (s.looked.add key n) = .ok () s') :
      KeyLinked b expand type key s (some s.graph.size) s'

theorem keyLinked_of_ok {type : TypeDef} {key : Bytes} {s s' : Building} {found : Option Nat}
    (h : b.linkKey expand type key s = .ok found s') :
    KeyLinked b expand type key s found s' := by
  cases hknown : s.linked.nodes.lookup key with
  | some i =>
    rw [linkKey_of_known hknown] at h
    cases h
    exact .known hknown
  | none =>
    rw [linkKey_of_new hknown] at h
    cases hrow : b.row? key with
    | error reason =>
      rw [hrow] at h
      cases h
    | ok row =>
      rw [hrow] at h
      cases row with
      | none =>
        cases h
        exact .absent hknown hrow
      | some r =>
        -- the object is in the graph already when it is linked further
        obtain ⟨i, s₁, hadd, h⟩ := Linking.bind_eq_ok_iff.mp h
        obtain ⟨⟨⟩, s₂, hexpand, h⟩ := Linking.bind_eq_ok_iff.mp h
        cases h
        cases hnode : Build.node b.family r type with
        | error fault =>
          rw [addNode_of_error hnode] at hadd
          cases hadd
        | ok n =>
          rw [addNode_of_ok hnode] at hadd
          cases hadd
          exact .added hknown hrow hnode hexpand

theorem linkKeys_cons_eq_ok_iff {type : TypeDef} {key : Bytes} {keys : List Bytes}
    {s s' : Building} {found : List Nat} :
    b.linkKeys expand type (key :: keys) s = .ok found s' ↔
      ∃ i s₁ is, b.linkKey expand type key s = .ok i s₁ ∧
        b.linkKeys expand type keys s₁ = .ok is s' ∧ found = i.toList ++ is := by
  rw [linkKeys, Linking.bind_eq_ok_iff]
  constructor
  · rintro ⟨i, s₁, hkey, h⟩
    obtain ⟨is, s₂, hkeys, h⟩ := Linking.bind_eq_ok_iff.mp h
    cases h
    exact ⟨i, s₁, is, hkey, hkeys, rfl⟩
  · rintro ⟨i, s₁, is, hkey, hkeys, rfl⟩
    exact ⟨i, s₁, hkey, Linking.bind_eq_ok_iff.mpr ⟨is, s', hkeys, rfl⟩⟩

/-! ### Edges -/

/-- A row says that a property of its object has an edge to a key, which leads to a type. -/
def HasEdge (b : GraphSource) (r : Row) (t : TypeDef) (p : PropertyDef) (key : Bytes)
    (type : TypeDef) : Prop :=
  p ∈ t.properties ∧ ∃ target edges, p.kind = .reference target ∧
    Edges.exist r (b.placeOf t p) = true ∧ b.edgesOf r t p target = .ok (edges, type) ∧
    key ∈ edges.rowKeys

/-- The edges of a property are read at a place that its name tells, and lead to a type of the
catalog. -/
theorem edgesOf_eq_ok_iff {r : Row} {t type : TypeDef} {p : PropertyDef} {target : String}
    {edges : Edges} :
    b.edgesOf r t p target = .ok (edges, type) ↔
      Edges.read r (b.placeOf t p) = .ok edges ∧
        b.catalog.find? (edges.subType.getD target) = some type := by
  unfold edgesOf
  rw [Outcome.bind_eq_ok]
  constructor
  · rintro ⟨edges', hread, h⟩
    rw [Outcome.mapError_eq_ok] at hread
    dsimp only at h
    split at h
    · cases h
    · rename_i hfind
      cases h
      exact ⟨hread, hfind⟩
  · rintro ⟨hread, hfind⟩
    refine ⟨edges, Outcome.mapError_eq_ok.mpr hread, ?_⟩
    dsimp only
    rw [hfind]
    rfl

theorem HasEdge.mem_types {r : Row} {t type : TypeDef} {p : PropertyDef} {key : Bytes}
    (h : b.HasEdge r t p key type) : type ∈ b.catalog.types := by
  obtain ⟨-, target, edges, -, -, hedges, -⟩ := h
  exact List.mem_of_find?_eq_some (edgesOf_eq_ok_iff.mp hedges).2

/-- Properties of one name have the same edges. -/
theorem HasEdge.mem_rowKeys {r : Row} {t type type' : TypeDef} {p q : PropertyDef} {key : Bytes}
    {target : String} {edges : Edges} (h : b.HasEdge r t q key type') (hname : q.name = p.name)
    (hedges : b.edgesOf r t p target = .ok (edges, type)) : key ∈ edges.rowKeys := by
  obtain ⟨-, target', edges', -, -, hedges', hkey⟩ := h
  have hplace : b.placeOf t q = b.placeOf t p := by rw [placeOf, placeOf, hname]
  have hread := (edgesOf_eq_ok_iff.mp hedges').1
  rw [hplace, (edgesOf_eq_ok_iff.mp hedges).1] at hread
  obtain rfl := Except.ok.inj hread
  exact hkey

/-- How the edges of a property may have been followed. -/
inductive PropertyLinked (b : GraphSource) (expand : Nat → Row → TypeDef → Linking Unit) (i : Nat)
    (r : Row) (t : TypeDef) (p : PropertyDef) (s : Building) : Building → Prop
  | data {type : DataType} (hkind : p.kind = .data type) : PropertyLinked b expand i r t p s s
  | unset (hexist : Edges.exist r (b.placeOf t p) = false) : PropertyLinked b expand i r t p s s
  | followed {target : String} {edges : Edges} {type : TypeDef} {found : List Nat} {s' : Building}
      (hkind : p.kind = .reference target) (hexist : Edges.exist r (b.placeOf t p) = true)
      (hedges : b.edgesOf r t p target = .ok (edges, type))
      (hfound : b.linkKeys expand type edges.rowKeys s = .ok found s') :
      PropertyLinked b expand i r t p s
        (match fieldOf p.many found with
        | none => s'
        | some content => s'.setField i p.name content)

theorem propertyLinked_of_ok {i : Nat} {r : Row} {t : TypeDef} {p : PropertyDef}
    {s s' : Building} (h : b.linkProperty expand i r t p s = .ok () s') :
    PropertyLinked b expand i r t p s s' := by
  unfold linkProperty at h
  cases hkind : p.kind with
  | data type =>
    simp only [hkind] at h
    cases h
    exact .data hkind
  | reference target =>
    simp only [hkind] at h
    cases hexist : Edges.exist r (b.placeOf t p) with
    | false =>
      simp only [hexist, Bool.false_eq_true, if_false] at h
      cases h
      exact .unset hexist
    | true =>
      simp only [hexist, if_true] at h
      cases hedges : b.edgesOf r t p target with
      | error e =>
        simp only [hedges] at h
        cases h
      | ok read =>
        obtain ⟨edges, type⟩ := read
        simp only [hedges] at h
        obtain ⟨found, s₁, hfound, h⟩ := Linking.bind_eq_ok_iff.mp h
        have hs' : s' = match fieldOf p.many found with
            | none => s₁
            | some content => s₁.setField i p.name content := by
          cases hfield : fieldOf p.many found with
          | none =>
            simp only [hfield] at h
            cases h
            rfl
          | some content =>
            simp only [hfield] at h
            cases h
            rfl
        rw [hs']
        exact .followed hkind hexist hedges hfound

end GraphSource

end GraphTable
