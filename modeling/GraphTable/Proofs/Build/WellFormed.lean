import GraphTable.Proofs.Build.Completeness
import GraphTable.Proofs.Predicate.Closed
import Mathlib.Data.List.Nodup
import Mathlib.Data.List.Perm.Subperm

/-!
# Graphs are well-formed

Edges may lead in circles, to one row again and again, to no row at all or back to the row that they
come from. In the graph that is built from them, each node stands for one row, and no two of them
for rows of one key; what a property lists are the nodes of those of its edges that lead to a row,
in the order of the edges and as often as they are there; and no property lists anything else
(`build_wellFormed`).

While an object is linked, others are added in the middle of it, and its own properties are set only
afterwards. So what is kept (`Formed`) is said of all nodes at any time, with some properties not
yet set: what each node was made from, as a list that only grows (`Origin`).
-/

namespace GraphTable

/-! ### Objects of single rows -/

theorem Node.mem_fields_set {n : Node} {name : String} {content : Field} {f : String × Field}
    (h : f ∈ (n.set name content).fields) : f = (name, content) ∨ f ∈ n.fields :=
  (List.mem_cons.mp h).imp_right fun h => (List.mem_filter.mp h).1

namespace Build

/-- Only data properties of a type are set in a node, and what they hold refers to nothing. -/
def HoldsData (t : TypeDef) (n : Node) : Prop :=
  ∀ f ∈ n.fields, f.2.targets = [] ∧
    ∃ p ∈ t.properties, p.name = f.1 ∧ ∃ type, p.kind = .data type

theorem targets_of_readField {name text : String} {type : DataType} {many : Bool} {content : Field}
    (h : readField name type many text = .ok content) : content.targets = [] := by
  unfold readField at h
  cases many with
  | true =>
    obtain ⟨texts, -, h⟩ := Outcome.bind_eq_ok.mp h
    obtain ⟨vs, -, h⟩ := Outcome.bind_eq_ok.mp h
    cases h
    rfl
  | false =>
    obtain ⟨v, -, h⟩ := Outcome.bind_eq_ok.mp h
    cases h
    rfl

theorem holdsData_of_setData {family : Bytes} {r : Row} {t : TypeDef} {n n' : Node}
    {p : PropertyDef} (hn : HoldsData t n) (hp : p ∈ t.properties)
    (h : setData family r n p = .ok n') : HoldsData t n' := by
  unfold setData at h
  cases hkind : p.kind with
  | reference target =>
    simp only [hkind] at h
    cases h
    exact hn
  | data type =>
    simp only [hkind] at h
    split at h
    · cases h
      exact hn
    · split at h
      · cases h
      · obtain ⟨content, hcontent, h⟩ := Outcome.bind_eq_ok.mp h
        cases h
        intro f hf
        obtain rfl | hf := Node.mem_fields_set hf
        · exact ⟨targets_of_readField hcontent, p, hp, rfl, type, hkind⟩
        · exact hn f hf

theorem holdsData_of_node {family : Bytes} {r : Row} {t : TypeDef} {n : Node}
    (h : node family r t = .ok n) : HoldsData t n := by
  have hfold : ∀ (ps : List PropertyDef) (m m' : Node), (∀ p ∈ ps, p ∈ t.properties) →
      HoldsData t m → ps.foldlM (setData family r) m = .ok m' → HoldsData t m' := by
    intro ps
    induction ps with
    | nil =>
      intro m m' _ hm h
      cases h
      exact hm
    | cons p ps ih =>
      intro m m' hps hm h
      obtain ⟨hp, hps⟩ := List.forall_mem_cons.mp hps
      obtain ⟨m₁, hfirst, h⟩ := Outcome.bind_eq_ok.mp h
      exact ih m₁ m' hps (holdsData_of_setData hm hp hfirst) h
  exact hfold t.properties (.new t.name) n (fun p hp => hp) (fun f hf => by cases hf) h

/-- References are not set by the data of a row. -/
theorem get?_reference_of_holdsData {t : TypeDef} {n : Node} (hn : HoldsData t n)
    (hnames : (t.properties.map PropertyDef.name).Nodup) {p : PropertyDef} {target : String}
    (hp : p ∈ t.properties) (hkind : p.kind = .reference target) : n.get? p.name = none := by
  rcases hcontent : n.get? p.name with _ | content
  · rfl
  · obtain ⟨-, q, hq, hname, type, hdata⟩ := hn _ (Node.mem_fields_of_get? hcontent)
    obtain rfl := List.inj_on_of_nodup_map hnames hq hp hname
    rw [hkind] at hdata
    cases hdata

end Build

namespace GraphSource

/-! ### What nodes are made from -/

/-- What a node is made from: the row of a key, as an object of a type. -/
structure Origin where
  key : Bytes
  row : Row
  type : TypeDef

/-- Whether an edge to a key leads to an object: that of the graph's own row, or of one that can be
read. -/
def leadsTo (b : GraphSource) (r₀ : Row) (key : Bytes) : Bool :=
  key == r₀.key || (b.row? key).toOption.join.isSome

/-- Numbers of nodes are those that edges to some keys lead to, one for each edge that leads
anywhere. -/
def Numbers (b : GraphSource) (r₀ : Row) (os : List Origin) (keys : List Bytes)
    (found : List Nat) : Prop :=
  found.map (fun j => os[j]?.map Origin.key) = (keys.filter (b.leadsTo r₀)).map some

/-- A property of a node lists the nodes that its edges lead to, or the first of them. -/
def HoldsEdges (b : GraphSource) (r₀ : Row) (os : List Origin) (o : Origin) (n : Node)
    (p : PropertyDef) (target : String) : Prop :=
  Edges.exist o.row (b.placeOf o.type p) = true ∧
    ∃ edges type found, b.edgesOf o.row o.type p target = .ok (edges, type) ∧
      n.get? p.name = fieldOf p.many found ∧ b.Numbers r₀ os edges.rowKeys found

/-- A node is made from a row, and those of its references that are set hold its edges. -/
structure ObjectOf (b : GraphSource) (r₀ : Row) (os : List Origin) (o : Origin) (n : Node) :
    Prop where
  built : b.BuiltFrom n o.row o.type
  edges : ∀ p ∈ o.type.properties, ∀ target, p.kind = .reference target →
    n.isSet p.name = true → b.HoldsEdges r₀ os o n p target

/-- What a graph is like at any time while it is built: nodes have different keys, by which they are
linked, and refer to nodes only. -/
structure Formed (b : GraphSource) (r₀ : Row) (os : List Origin) (s : Building) : Prop where
  length : os.length = s.graph.size
  lookup : ∀ key j, s.linked.nodes.lookup key = some j ↔ os[j]?.map Origin.key = some key
  head : os.head? = some ⟨r₀.key, r₀, b.root⟩
  tail : ∀ o ∈ os.tail, b.row? o.key = .ok (some o.row) ∧ o.type ∈ b.catalog.types
  object : ∀ j o, os[j]? = some o → ∃ n, s.graph.node? j = some n ∧ b.ObjectOf r₀ os o n
  closed : s.graph.Closed

variable {b : GraphSource} {r₀ : Row} {os os' : List Origin} {s s' : Building} {key : Bytes}
  {keys : List Bytes} {found : List Nat} {o : Origin} {n : Node} {p : PropertyDef}

theorem getElem?_mono (h : os <+: os') {j : Nat} (ho : os[j]? = some o) :
    os'[j]? = some o := by
  obtain ⟨more, rfl⟩ := h
  rw [List.getElem?_append_left (List.getElem?_eq_some_iff.mp ho).1]
  exact ho

namespace Numbers

theorem nil : b.Numbers r₀ os [] [] := rfl

theorem exists_origin (h : b.Numbers r₀ os keys found) {j : Nat} (hj : j ∈ found) :
    ∃ o, os[j]? = some o ∧ o.key ∈ keys := by
  have hmem := List.mem_map_of_mem (f := fun j => os[j]?.map Origin.key) hj
  rw [h] at hmem
  obtain ⟨key, hkey, heq⟩ := List.mem_map.mp hmem
  obtain ⟨o, ho, rfl⟩ := Option.map_eq_some_iff.mp heq.symm
  exact ⟨o, ho, (List.mem_filter.mp hkey).1⟩

/-- Numbers stay those of the same keys when nodes are added. -/
theorem mono (h : b.Numbers r₀ os keys found) (hos : os <+: os') :
    b.Numbers r₀ os' keys found := by
  refine Eq.trans (List.map_congr_left fun j hj => ?_) h
  obtain ⟨o, ho, -⟩ := h.exists_origin hj
  rw [ho, getElem?_mono hos ho]

theorem append {keys' : List Bytes} {found' : List Nat} (h : b.Numbers r₀ os keys found)
    (h' : b.Numbers r₀ os keys' found') :
    b.Numbers r₀ os (keys ++ keys') (found ++ found') := by
  unfold Numbers at h h' ⊢
  rw [List.map_append, h, h', List.filter_append, List.map_append]

end Numbers

theorem HoldsEdges.mono {target : String} (h : b.HoldsEdges r₀ os o n p target)
    (hos : os <+: os') : b.HoldsEdges r₀ os' o n p target := by
  obtain ⟨hexist, edges, type, found, hedges, hget, hnumbers⟩ := h
  exact ⟨hexist, edges, type, found, hedges, hget, hnumbers.mono hos⟩

theorem ObjectOf.mono (h : b.ObjectOf r₀ os o n) (hos : os <+: os') : b.ObjectOf r₀ os' o n :=
  ⟨h.built, fun p hp target hkind hset => (h.edges p hp target hkind hset).mono hos⟩

/-- An object has no references set before it is linked. -/
theorem objectOf_of_node (hnames : (o.type.properties.map PropertyDef.name).Nodup)
    (h : Build.node b.family o.row o.type = .ok n) : b.ObjectOf r₀ os o n := by
  refine ⟨⟨n, h, .refl _ n⟩, fun p hp target hkind hset => ?_⟩
  have hunset := Build.get?_reference_of_holdsData (Build.holdsData_of_node h) hnames hp hkind
  rw [Node.isSet, hunset] at hset
  cases hset

/-- An object stays one of its row when a reference is set to the nodes that its edges lead to. -/
theorem ObjectOf.set {target : String} {edges : Edges} {type : TypeDef} {content : Field}
    (h : b.ObjectOf r₀ os o n) (hnames : (o.type.properties.map PropertyDef.name).Nodup)
    (hp : p ∈ o.type.properties) (hkind : p.kind = .reference target)
    (hexist : Edges.exist o.row (b.placeOf o.type p) = true)
    (hedges : b.edgesOf o.row o.type p target = .ok (edges, type))
    (hnumbers : b.Numbers r₀ os edges.rowKeys found)
    (hcontent : fieldOf p.many found = some content) :
    b.ObjectOf r₀ os o (n.set p.name content) where
  built := by
    obtain ⟨n₀, hnode, hsame⟩ := h.built
    have hset := (n.sameBut_set p.name content).mono (mem_references hp hkind)
    exact ⟨n₀, hnode, hsame.trans hset⟩
  edges q hq target' hkind' hset := by
    by_cases hname : q.name = p.name
    · obtain rfl := List.inj_on_of_nodup_map hnames hq hp hname
      obtain rfl : target = target' := by
        rw [hkind] at hkind'
        exact PropertyKind.reference.inj hkind'
      refine ⟨hexist, edges, type, found, hedges, ?_, hnumbers⟩
      rw [Node.get?_set, if_pos rfl, hcontent]
    · have hget : (n.set p.name content).get? q.name = n.get? q.name := by
        rw [Node.get?_set, if_neg hname]
      rw [Node.isSet, hget] at hset
      rw [HoldsEdges, hget]
      exact h.edges q hq target' hkind' hset

theorem mem_of_targets {many : Bool} {content : Field} (h : fieldOf many found = some content)
    {j : Nat} (hj : j ∈ content.targets) : j ∈ found := by
  rw [fieldOf] at h
  cases many with
  | true =>
    cases h
    exact hj
  | false =>
    obtain ⟨k, hk, rfl⟩ := Option.map_eq_some_iff.mp h
    obtain rfl := List.mem_singleton.mp hj
    exact List.mem_of_head? hk

namespace Formed

theorem mem_cases (h : b.Formed r₀ os s) (ho : o ∈ os) :
    o = ⟨r₀.key, r₀, b.root⟩ ∨ o ∈ os.tail := by
  obtain ⟨rest, rfl⟩ : ∃ rest, os = ⟨r₀.key, r₀, b.root⟩ :: rest :=
    List.head?_eq_some_iff.mp h.head
  exact List.mem_cons.mp ho

theorem exists_of_lookup (h : b.Formed r₀ os s) {j : Nat}
    (hj : s.linked.nodes.lookup key = some j) : ∃ o, os[j]? = some o ∧ o.key = key :=
  Option.map_eq_some_iff.mp ((h.lookup key j).mp hj)

/-- What is linked is led to. -/
theorem leadsTo_of_lookup (h : b.Formed r₀ os s) {j : Nat}
    (hj : s.linked.nodes.lookup key = some j) : b.leadsTo r₀ key = true := by
  obtain ⟨o, ho, rfl⟩ := h.exists_of_lookup hj
  rcases h.mem_cases (List.mem_of_getElem? ho) with rfl | hrest
  · simp [leadsTo]
  · simp [leadsTo, (h.tail o hrest).1, Except.toOption]

theorem lookup_root (h : b.Formed r₀ os s) : s.linked.nodes.lookup r₀.key = some 0 := by
  rw [h.lookup, ← List.head?_eq_getElem?, h.head]
  rfl

theorem looked (h : b.Formed r₀ os s) : b.Formed r₀ os s.looked :=
  ⟨h.length, h.lookup, h.head, h.tail, h.object, h.closed⟩

theorem mem_types (h : b.Formed r₀ os s) {i : Nat} (hi : os[i]? = some o) :
    o.type ∈ b.root :: b.catalog.types := by
  rcases h.mem_cases (List.mem_of_getElem? hi) with rfl | hrest
  · exact List.mem_cons_self
  · exact List.mem_cons_of_mem _ (h.tail o hrest).2

theorem lt_size (h : b.Formed r₀ os s) (hnumbers : b.Numbers r₀ os keys found) {j : Nat}
    (hj : j ∈ found) : j < s.graph.size := by
  obtain ⟨o, ho, -⟩ := hnumbers.exists_origin hj
  exact h.length ▸ (List.getElem?_eq_some_iff.mp ho).1

/-- The object of a row that was met for the first time is added. -/
theorem add (h : b.Formed r₀ os s) (hnew : s.linked.nodes.lookup o.key = none)
    (hrow : b.row? o.key = .ok (some o.row)) (htype : o.type ∈ b.catalog.types)
    (hnames : (o.type.properties.map PropertyDef.name).Nodup)
    (hnode : Build.node b.family o.row o.type = .ok n) :
    b.Formed r₀ (os ++ [o]) (s.looked.add o.key n) where
  length := by
    rw [Building.size_add, List.length_append, h.length]
    rfl
  lookup key j := by
    have hold : os[j]?.map Origin.key ≠ some o.key := by
      intro hkey
      rw [← h.lookup, hnew] at hkey
      cases hkey
    rw [Building.lookup_add, getElem?_concat, h.length]
    by_cases hkey : key = o.key
    · subst hkey
      rw [if_pos rfl]
      by_cases hj : j = s.graph.size
      · rw [if_pos hj, hj]
        exact ⟨fun _ => rfl, fun _ => rfl⟩
      · rw [if_neg hj]
        exact ⟨fun heq => absurd (Option.some.inj heq).symm hj, fun heq => absurd heq hold⟩
    · rw [if_neg hkey, h.lookup]
      by_cases hj : j = s.graph.size
      · rw [if_pos hj, List.getElem?_eq_none (Nat.le_of_eq (h.length.trans hj.symm))]
        exact ⟨fun heq => (by cases heq), fun heq => absurd (Option.some.inj heq).symm hkey⟩
      · rw [if_neg hj]
  head := by rw [List.head?_append, h.head, Option.some_or]
  tail := by
    have hne : os ≠ [] := by
      rintro rfl
      exact absurd h.head (by simp)
    rw [List.tail_append_of_ne_nil hne]
    intro other hother
    rcases List.mem_append.mp hother with hother | hother
    · exact h.tail other hother
    · obtain rfl := List.mem_singleton.mp hother
      exact ⟨hrow, htype⟩
  object j other hother := by
    rw [getElem?_concat, h.length] at hother
    rw [Building.node?_add]
    change ∃ m, (if j = s.graph.size then some n else s.graph.node? j) = some m ∧ _
    by_cases hj : j = s.graph.size
    · rw [if_pos hj] at hother ⊢
      obtain rfl := Option.some.inj hother
      exact ⟨n, rfl, objectOf_of_node hnames hnode⟩
    · rw [if_neg hj] at hother ⊢
      obtain ⟨m, hm, hobject⟩ := h.object j other hother
      exact ⟨m, hm, hobject.mono (List.prefix_append os [o])⟩
  closed := by
    intro m hm f hf i hi
    rw [Building.size_add]
    change m ∈ s.graph.nodes ++ [n] at hm
    rcases List.mem_append.mp hm with hm | hm
    · exact Nat.lt_succ_of_lt (h.closed m hm f hf i hi)
    · -- the new object has no references yet
      obtain rfl := List.mem_singleton.mp hm
      rw [(Build.holdsData_of_node hnode f hf).1] at hi
      cases hi

/-- A reference of an object is set to the nodes that its edges lead to. -/
theorem setField {i : Nat} {target : String} {edges : Edges} {type : TypeDef} {content : Field}
    (h : b.Formed r₀ os s) (hi : os[i]? = some o)
    (hnames : (o.type.properties.map PropertyDef.name).Nodup) (hp : p ∈ o.type.properties)
    (hkind : p.kind = .reference target) (hexist : Edges.exist o.row (b.placeOf o.type p) = true)
    (hedges : b.edgesOf o.row o.type p target = .ok (edges, type))
    (hnumbers : b.Numbers r₀ os edges.rowKeys found)
    (hcontent : fieldOf p.many found = some content) :
    b.Formed r₀ os (s.setField i p.name content) where
  length := h.length.trans (Graph.size_modify _ _ _).symm
  lookup := h.lookup
  head := h.head
  tail := h.tail
  object j other hother := by
    obtain ⟨n, hn, hobject⟩ := h.object j other hother
    rw [Building.node?_setField, hn]
    by_cases hij : i = j
    · subst hij
      obtain rfl := Option.some.inj (hi.symm.trans hother)
      rw [if_pos rfl]
      exact ⟨n.set p.name content, rfl,
        hobject.set hnames hp hkind hexist hedges hnumbers hcontent⟩
    · rw [if_neg hij]
      exact ⟨n, rfl, hobject⟩
  closed := by
    intro m hm f hf k hk
    have hsize : (s.setField i p.name content).graph.size = s.graph.size := Graph.size_modify _ _ _
    rw [hsize]
    obtain ⟨j, hj⟩ := List.mem_iff_getElem?.mp hm
    change (s.setField i p.name content).graph.node? j = some m at hj
    rw [Building.node?_setField] at hj
    by_cases hij : i = j
    · rw [if_pos hij] at hj
      obtain ⟨n, hn, rfl⟩ := Option.map_eq_some_iff.mp hj
      obtain rfl | hf := Node.mem_fields_set hf
      · exact h.lt_size hnumbers (mem_of_targets hcontent hk)
      · exact h.closed n (List.mem_of_getElem? hn) f hf k hk
    · rw [if_neg hij] at hj
      exact h.closed m (List.mem_of_getElem? hj) f hf k hk

end Formed

/-! ### Linking -/

/-- What is asked of the way in which objects are linked further: that a graph stays as it should be
while it grows. -/
def Forms (b : GraphSource) (r₀ : Row) (expand : Nat → Row → TypeDef → Linking Unit) : Prop :=
  ∀ {os i o s s'}, b.Formed r₀ os s → os[i]? = some o → expand i o.row o.type s = .ok () s' →
    ∃ os', os <+: os' ∧ b.Formed r₀ os' s'

section Linking

variable {expand : Nat → Row → TypeDef → Linking Unit} {type : TypeDef}
  (hnames : ∀ t ∈ b.root :: b.catalog.types, (t.properties.map PropertyDef.name).Nodup)
  (hexpand : b.Forms r₀ expand)

include hnames hexpand

theorem linkKey_forms {i : Option Nat} (hs : b.Formed r₀ os s) (htype : type ∈ b.catalog.types)
    (h : b.linkKey expand type key s = .ok i s') :
    ∃ os', os <+: os' ∧ b.Formed r₀ os' s' ∧ b.Numbers r₀ os' [key] i.toList := by
  rcases keyLinked_of_ok h with hknown | ⟨hnew, habsent⟩ | ⟨hnew, hrow, hnode, hrest⟩
  · refine ⟨os, List.prefix_rfl, hs, ?_⟩
    have hkey := (hs.lookup key _).mp hknown
    simp [Numbers, hkey, hs.leadsTo_of_lookup hknown]
  · refine ⟨os, List.prefix_rfl, hs.looked, ?_⟩
    -- the graph's own row is linked, so the key is not that of it
    have hne : key ≠ r₀.key := by
      rintro rfl
      rw [hs.lookup_root] at hnew
      cases hnew
    simp [Numbers, leadsTo, habsent, Except.toOption, hne]
  · rename_i r n
    have hadd := hs.add (o := ⟨key, r, type⟩) hnew hrow htype
      (hnames type (List.mem_cons_of_mem _ htype)) hnode
    have hself : (os ++ [⟨key, r, type⟩])[s.graph.size]? = some ⟨key, r, type⟩ := by
      rw [getElem?_concat, if_pos hs.length.symm]
    obtain ⟨os', hos, hs'⟩ := hexpand hadd hself hrest
    refine ⟨os', (List.prefix_append os _).trans hos, hs', ?_⟩
    simp [Numbers, getElem?_mono hos hself, leadsTo, hrow, Except.toOption]

theorem linkKeys_forms (hs : b.Formed r₀ os s) (htype : type ∈ b.catalog.types)
    (h : b.linkKeys expand type keys s = .ok found s') :
    ∃ os', os <+: os' ∧ b.Formed r₀ os' s' ∧ b.Numbers r₀ os' keys found := by
  induction keys generalizing os s found with
  | nil =>
    cases h
    exact ⟨os, List.prefix_rfl, hs, .nil⟩
  | cons key keys ih =>
    obtain ⟨i, s₁, is, hkey, hkeys, rfl⟩ := linkKeys_cons_eq_ok_iff.mp h
    obtain ⟨os₁, hos₁, hs₁, hfirst⟩ := linkKey_forms hnames hexpand hs htype hkey
    obtain ⟨os', hos', hs', hrest⟩ := ih hs₁ hkeys
    exact ⟨os', hos₁.trans hos', hs', (hfirst.mono hos').append hrest⟩

theorem linkProperty_forms {i : Nat} (hs : b.Formed r₀ os s) (hi : os[i]? = some o)
    (hp : p ∈ o.type.properties) (h : b.linkProperty expand i o.row o.type p s = .ok () s') :
    ∃ os', os <+: os' ∧ b.Formed r₀ os' s' := by
  rcases propertyLinked_of_ok h with hkind | hexist | ⟨hkind, hexist, hedges, hfound⟩
  · exact ⟨os, List.prefix_rfl, hs⟩
  · exact ⟨os, List.prefix_rfl, hs⟩
  · have htype := List.mem_of_find?_eq_some (edgesOf_eq_ok_iff.mp hedges).2
    obtain ⟨os', hos, hs', hnumbers⟩ := linkKeys_forms hnames hexpand hs htype hfound
    refine ⟨os', hos, ?_⟩
    split
    · exact hs'
    · rename_i content hcontent
      exact hs'.setField (getElem?_mono hos hi) (hnames _ (hs.mem_types hi)) hp hkind hexist
        hedges hnumbers hcontent

theorem linkProperties_forms {i : Nat} {ps : List PropertyDef} (hs : b.Formed r₀ os s)
    (hi : os[i]? = some o) (hps : ∀ p ∈ ps, p ∈ o.type.properties)
    (h : ps.forM (b.linkProperty expand i o.row o.type) s = .ok () s') :
    ∃ os', os <+: os' ∧ b.Formed r₀ os' s' := by
  induction ps generalizing os s with
  | nil =>
    cases h
    exact ⟨os, List.prefix_rfl, hs⟩
  | cons p ps ih =>
    obtain ⟨hp, hps⟩ := List.forall_mem_cons.mp hps
    obtain ⟨⟨⟩, s₁, hfirst, hrest⟩ := Linking.bind_eq_ok_iff.mp h
    obtain ⟨os₁, hos₁, hs₁⟩ := linkProperty_forms hnames hexpand hs hi hp hfirst
    obtain ⟨os', hos', hs'⟩ := ih hs₁ (getElem?_mono hos₁ hi) hps hrest
    exact ⟨os', hos₁.trans hos', hs'⟩

end Linking

theorem link_forms
    (hnames : ∀ t ∈ b.root :: b.catalog.types, (t.properties.map PropertyDef.name).Nodup)
    (hops : Nat) : b.Forms r₀ (b.link hops) := by
  induction hops with
  | zero =>
    intro os i o s s' hs _ h
    cases h
    exact ⟨os, List.prefix_rfl, hs⟩
  | succ hops ih =>
    intro os i o s s' hs hi h
    exact linkProperties_forms hnames ih hs hi (fun p hp => hp) h

/-- At first there is the object of the graph's own row. -/
theorem formed_single {l : Linked} {r : Row} (hl : l.nodes = [])
    (hnames : (b.root.properties.map PropertyDef.name).Nodup)
    (hnode : Build.node b.family r b.root = .ok n) :
    b.Formed r [⟨r.key, r, b.root⟩] ⟨.single r.key n, l.insert r.key 0⟩ where
  length := rfl
  lookup key j := by
    rw [Linked.lookup_insert, hl]
    by_cases hkey : key = r.key
    · subst hkey
      cases j with
      | zero => simp
      | succ j => simp
    · cases j with
      | zero => simp [hkey, Ne.symm hkey]
      | succ j => simp [hkey]
  head := rfl
  tail o ho := by cases ho
  object j o ho := by
    cases j with
    | zero =>
      obtain rfl := Option.some.inj ho
      exact ⟨n, rfl, objectOf_of_node hnames hnode⟩
    | succ j => cases ho
  closed := by
    intro m hm f hf i hi
    obtain rfl := List.mem_singleton.mp hm
    rw [(Build.holdsData_of_node hnode f hf).1] at hi
    cases hi

/-- A graph that is done is as it should be. -/
theorem formed_of_build {l l' : Linked} {r : Row} {g : Graph}
    (hnames : ∀ t ∈ b.root :: b.catalog.types, (t.properties.map PropertyDef.name).Nodup)
    (hl : l.nodes = []) (h : b.build l r = (.ok g, l')) :
    ∃ os, b.Formed r os ⟨g, l'⟩ := by
  unfold build at h
  cases hnode : Build.node b.family r b.root with
  | error fault =>
    rw [hnode] at h
    cases h
  | ok n =>
    simp only [hnode] at h
    have hstart := formed_single hl (hnames b.root List.mem_cons_self) hnode
    cases hlink : b.link b.depth 0 r b.root ⟨.single r.key n, l.insert r.key 0⟩ with
    | error e s =>
      rw [hlink] at h
      cases h
    | ok _ s =>
      rw [hlink] at h
      cases h
      obtain ⟨os, -, hs⟩ := link_forms hnames b.depth hstart (i := 0) rfl hlink
      exact ⟨os, hs⟩

theorem Formed.nodup (h : b.Formed r₀ os s) : (os.map Origin.key).Nodup := by
  rw [List.nodup_iff_getElem?_ne_getElem?]
  intro i j hij hj heq
  -- nodes of one key would be linked by one number
  obtain ⟨key, hkey⟩ : ∃ key, (os.map Origin.key)[j]? = some key :=
    ⟨_, List.getElem?_eq_getElem hj⟩
  rw [hkey, List.getElem?_map] at heq
  rw [List.getElem?_map] at hkey
  have hsame := ((h.lookup key i).mpr heq).symm.trans ((h.lookup key j).mpr hkey)
  exact absurd (Option.some.inj hsame) (Nat.ne_of_lt hij)

/-! ### Graphs from tables -/

section Tables

variable {table : Table} (hsource : b.source = .ofTable table)

include hsource

theorem row?_ofTable (key : Bytes) : b.row? key = .ok (table.row? key (.ofFamily b.family)) := by
  rw [row?, hsource]
  rfl

theorem leadsTo_ofTable (key : Bytes) :
    b.leadsTo r₀ key = decide (key = r₀.key ∨ ∃ row ∈ table.rows, row.key = key) := by
  rw [leadsTo, row?_ofTable hsource, Bool.eq_iff_iff]
  simp [Except.toOption, Table.row?]

end Tables

/--
The graph that is built for a row from the edges of a table, whatever rows these lead to. It has a
list of the keys of its nodes, which are all different: first that of the row itself, then those of
rows of the table. So there are no more nodes than rows, and one. Each node is built from the row of
its key, and a reference that is set in it holds the nodes of those of its edges whose keys are that
of the row itself or of a row of the table, in the order of the edges and as often as they are
there; only the first of them, if it holds a single value. No number in it is without a node, and no
predicate fails for that.
-/
theorem build_wellFormed {table : Table} {l l' : Linked} {r : Row} {g : Graph}
    (hsource : b.source = .ofTable table)
    (hnames : ∀ t ∈ b.root :: b.catalog.types, (t.properties.map PropertyDef.name).Nodup)
    (hl : l.nodes = []) (h : b.build l r = (.ok g, l')) :
    (∃ os : List Origin, os.length = g.size ∧ (os.map Origin.key).Nodup ∧
      os.head? = some ⟨r.key, r, b.root⟩ ∧
      (∀ o ∈ os.tail, (∃ row ∈ table.rows, row.key = o.key) ∧
        table.row? o.key (.ofFamily b.family) = some o.row ∧ o.type ∈ b.catalog.types) ∧
      ∀ i o, os[i]? = some o → ∃ n, g.node? i = some n ∧ b.BuiltFrom n o.row o.type ∧
        ∀ p ∈ o.type.properties, ∀ target, p.kind = .reference target →
          n.isSet p.name = true → Edges.exist o.row (b.placeOf o.type p) = true ∧
            ∃ edges type found, b.edgesOf o.row o.type p target = .ok (edges, type) ∧
              n.get? p.name = fieldOf p.many found ∧
              found.map (fun j => os[j]?.map Origin.key) =
                (edges.rowKeys.filter fun key =>
                  key = r.key ∨ ∃ row ∈ table.rows, row.key = key).map some) ∧
      (∀ n ∈ g.nodes, ∀ f ∈ n.fields, ∀ i ∈ f.2.targets, i < g.size) ∧
      g.size ≤ table.size + 1 ∧
      ∀ (rc : Recognizer) (i : Nat), (∀ e, rc.evaluate g e ≠ .error (.danglingNode i)) ∧
        ∀ p, rc.collect g p ≠ .error (.danglingNode i) := by
  obtain ⟨os, hos⟩ := formed_of_build hnames hl h
  have htail : ∀ o ∈ os.tail, ∃ row ∈ table.rows, row.key = o.key := by
    intro o ho
    have hrow := (hos.tail o ho).1
    rw [row?_ofTable hsource] at hrow
    obtain ⟨row, hfind, -⟩ := Option.map_eq_some_iff.mp (Except.ok.inj hrow)
    exact ⟨row, List.mem_of_find?_eq_some hfind, by simpa using List.find?_some hfind⟩
  refine ⟨⟨os, hos.length, hos.nodup, hos.head, fun o ho => ⟨htail o ho, ?_, (hos.tail o ho).2⟩,
    fun i o ho => ?_⟩, hos.closed, ?_, fun rc i => ⟨fun e => ?_, fun p => ?_⟩⟩
  · have hrow := (hos.tail o ho).1
    rw [row?_ofTable hsource] at hrow
    exact Except.ok.inj hrow
  · obtain ⟨n, hn, hobject⟩ := hos.object i o ho
    refine ⟨n, hn, hobject.built, fun p hp target hkind hset => ?_⟩
    obtain ⟨hexist, edges, type, found, hedges, hget, hnumbers⟩ :=
      hobject.edges p hp target hkind hset
    refine ⟨hexist, edges, type, found, hedges, hget, hnumbers.trans (congrArg _ ?_)⟩
    exact List.filter_congr fun key _ => leadsTo_ofTable hsource key
  · -- the keys of all nodes but the first are different keys of rows
    have hsub : os.tail.map Origin.key ⊆ table.rows.map Row.key := by
      intro key hkey
      obtain ⟨o, ho, rfl⟩ := List.mem_map.mp hkey
      obtain ⟨row, hrow, hsame⟩ := htail o ho
      exact hsame ▸ List.mem_map_of_mem hrow
    have hnodup : (os.tail.map Origin.key).Nodup := by
      rw [List.map_tail]
      exact hos.nodup.tail
    have hle := (hnodup.subperm hsub).length_le
    rw [List.length_map, List.length_map, List.length_tail, hos.length] at hle
    have hrows : table.rows.length = table.size := rfl
    change g.size - 1 ≤ _ at hle
    omega
  · exact Recognizer.evaluate_intact hos.closed e i
  · exact Recognizer.collect_intact hos.closed p i

end GraphSource

namespace Friends

/-- Ann has Bob as a friend twice, herself, and someone who is not there; Bob has Ann. -/
def circle : GraphSource :=
  ⟨.ofTable (.ofRows [row 1 "ann" [2, 9, 2, 1], row 2 "bob" [1]]), ⟨[person]⟩, person, [102], 2⟩

/-- The graph of Ann. -/
def circleGraph : Graph where
  rowKey := [1]
  root := ⟨"Person", [("friends", .many [1, 1, 0]), ("name", .value (.string "ann"))]⟩
  others := [⟨"Person", [("friends", .many [0]), ("name", .value (.string "bob"))]⟩]

set_option maxRecDepth 10000 in
theorem build_circle :
    circle.build .empty (row 1 "ann" [2, 9, 2, 1]) =
      (.ok circleGraph, ⟨[([2], 1), ([1], 0)], 2⟩) := by
  rfl

/-- All references in the graph of Ann are to one of its two nodes. -/
theorem closed_circle :
    (∀ t ∈ circle.root :: circle.catalog.types, (t.properties.map PropertyDef.name).Nodup) ∧
      (∃ l, circle.build .empty (row 1 "ann" [2, 9, 2, 1]) = (.ok circleGraph, l)) ∧
      circleGraph.Closed ∧ circleGraph.size ≤ 3 ∧
      ∀ (rc : Recognizer) e i, rc.evaluate circleGraph e ≠ .error (.danglingNode i) := by
  have hnames : ∀ t ∈ circle.root :: circle.catalog.types,
      (t.properties.map PropertyDef.name).Nodup := by decide
  obtain ⟨-, hclosed, hsize, hintact⟩ :=
    GraphSource.build_wellFormed rfl hnames rfl build_circle
  exact ⟨hnames, ⟨_, build_circle⟩, hclosed, hsize, fun rc e i => (hintact rc i).1 e⟩

end Friends

end GraphTable
