import GraphTable.Proofs.Build.Walks

/-!
# Graphs from sources that differ in one row

Building a graph reads only the rows that edges lead to. So two sources that differ in the row of
one key give the same graph, and fail in the same way, wherever no edge to that key is followed
(`GraphSource.Avoids`, `build_withSource`). It is enough that no walk comes to an object with such
an edge while hops are left (`GraphSource.ComesTo`, `avoids_of_not_comesTo`).
-/

namespace GraphTable

namespace GraphSource

/-- Graphs of the same kind from another source. -/
def withSource (b : GraphSource) (source : RowSource) : GraphSource :=
  { b with source }

/-- The graph of a row comes to an edge to a key, by a walk within the hops that are followed. -/
def ComesTo (b : GraphSource) (r₀ : Row) (key : Bytes) : Prop :=
  ∃ keys r t p type, b.Walk r₀ keys r t ∧ keys.length ≤ b.depth ∧ b.HasEdge r t p key type

/-- Linking an object with some hops left follows no edge to a key. -/
def Avoids (b : GraphSource) (avoided : Bytes) : Nat → Row → TypeDef → Prop
  | 0, _, _ => True
  | hops + 1, r, t => ∀ p key type, b.HasEdge r t p key type →
    key ≠ avoided ∧ ∀ r', b.row? key = .ok (some r') → b.Avoids avoided hops r' type

variable {b : GraphSource} {r₀ : Row} {avoided : Bytes} {source : RowSource}

theorem avoids_of_not_comesTo (h : ¬ b.ComesTo r₀ avoided) {keys : List Bytes} {r : Row}
    {t : TypeDef} {hops : Nat} (hwalk : b.Walk r₀ keys r t)
    (hlength : keys.length + hops = b.depth + 1) : b.Avoids avoided hops r t := by
  -- the hops that are left and those of the walk make up all that are followed
  induction hops generalizing keys r t with
  | zero => trivial
  | succ hops ih =>
    intro p key type hedge
    constructor
    · rintro rfl
      exact h ⟨keys, r, t, p, type, hwalk, by omega, hedge⟩
    · intro r' hrow
      refine ih (.step hwalk hedge hrow) ?_
      rw [List.length_cons]
      omega

section Steps

variable {expand expand' : Nat → Row → TypeDef → Linking Unit} {type t : TypeDef} {key : Bytes}
  {i : Nat} {r : Row} {p : PropertyDef}

theorem linkKey_withSource (hrow : (b.withSource source).row? key = b.row? key)
    (hexpand : ∀ r, b.row? key = .ok (some r) → ∀ i, expand' i r type = expand i r type) :
    (b.withSource source).linkKey expand' type key = b.linkKey expand type key := by
  funext s
  cases hknown : s.linked.nodes.lookup key with
  | some i => rw [linkKey_of_known hknown, linkKey_of_known hknown]
  | none =>
    -- only a key that is met for the first time is read
    rw [linkKey_of_new hknown, linkKey_of_new hknown, hrow]
    cases hfound : b.row? key with
    | error reason => rfl
    | ok row =>
      cases row with
      | none => rfl
      | some r =>
        have hadd : (b.withSource source).addNode key r type = b.addNode key r type := rfl
        simp only [hadd, hexpand r hfound]

theorem linkKeys_withSource {keys : List Bytes}
    (hrow : ∀ key ∈ keys, (b.withSource source).row? key = b.row? key)
    (hexpand : ∀ key ∈ keys, ∀ r, b.row? key = .ok (some r) →
      ∀ i, expand' i r type = expand i r type) :
    (b.withSource source).linkKeys expand' type keys = b.linkKeys expand type keys := by
  induction keys with
  | nil => rfl
  | cons key keys ih =>
    obtain ⟨hfirst, hrest⟩ := List.forall_mem_cons.mp hrow
    obtain ⟨hnext, hothers⟩ := List.forall_mem_cons.mp hexpand
    rw [linkKeys, linkKeys, linkKey_withSource hfirst hnext, ih hrest hothers]

theorem linkProperty_withSource (hp : p ∈ t.properties)
    (hrow : ∀ key, key ≠ avoided → (b.withSource source).row? key = b.row? key)
    (hkeys : ∀ key type, b.HasEdge r t p key type → key ≠ avoided)
    (hexpand : ∀ key type, b.HasEdge r t p key type → ∀ r', b.row? key = .ok (some r') →
      ∀ i, expand' i r' type = expand i r' type) :
    (b.withSource source).linkProperty expand' i r t p = b.linkProperty expand i r t p := by
  have hplace : (b.withSource source).placeOf t p = b.placeOf t p := rfl
  unfold linkProperty
  cases hkind : p.kind with
  | data type => rfl
  | reference target =>
    have hread : (b.withSource source).edgesOf r t p target = b.edgesOf r t p target := rfl
    simp only [hplace, hread]
    cases hexist : Edges.exist r (b.placeOf t p) with
    | false => rfl
    | true =>
      cases hedges : b.edgesOf r t p target with
      | error e => rfl
      | ok read =>
        obtain ⟨edges, type⟩ := read
        have hall : ∀ key ∈ edges.rowKeys, b.HasEdge r t p key type := fun key hkey =>
          ⟨hp, target, edges, hkind, hexist, hedges, hkey⟩
        have hsame : (b.withSource source).linkKeys expand' type edges.rowKeys =
            b.linkKeys expand type edges.rowKeys :=
          linkKeys_withSource (fun key hkey => hrow key (hkeys key type (hall key hkey)))
            (fun key hkey => hexpand key type (hall key hkey))
        simp only [hsame]

end Steps

theorem forM_congr {α : Type} {f g : α → Linking Unit} {xs : List α} (h : ∀ x ∈ xs, f x = g x) :
    xs.forM f = xs.forM g := by
  induction xs with
  | nil => rfl
  | cons x xs ih =>
    obtain ⟨hx, hxs⟩ := List.forall_mem_cons.mp h
    change (f x >>= fun _ => xs.forM f) = (g x >>= fun _ => xs.forM g)
    rw [hx, ih hxs]

/-- Linking an object is the same for two sources, where no edge to the row in which they differ is
followed. -/
theorem link_withSource
    (hrow : ∀ key, key ≠ avoided → (b.withSource source).row? key = b.row? key) {hops : Nat}
    {r : Row} {t : TypeDef} (h : b.Avoids avoided hops r t) (i : Nat) :
    (b.withSource source).link hops i r t = b.link hops i r t := by
  induction hops generalizing r t i with
  | zero => rfl
  | succ hops ih =>
    refine forM_congr fun p hp => linkProperty_withSource hp hrow ?_ ?_
    · exact fun key type hedge => (h p key type hedge).1
    · exact fun key type hedge r' hread j => ih ((h p key type hedge).2 r' hread) j

/-- The graph of a row is the same from two sources, and fails in the same way, where no edge to the
row in which they differ is followed. -/
theorem build_withSource
    (hrow : ∀ key, key ≠ avoided → (b.withSource source).row? key = b.row? key) {r : Row}
    (h : b.Avoids avoided b.depth r b.root) (l : Linked) :
    (b.withSource source).build l r = b.build l r := by
  have hlink : (b.withSource source).link (b.withSource source).depth 0 r
      (b.withSource source).root = b.link b.depth 0 r b.root := link_withSource hrow h 0
  unfold build
  rw [hlink]
  rfl

end GraphSource

end GraphTable
