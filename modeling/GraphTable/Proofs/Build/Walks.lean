import GraphTable.Proofs.Build.Progress

/-!
# How rows are met

A graph is linked depth first, up to a number of hops from the object of its row. Linking comes to a
row for the first time after a walk along edges that visits no row twice (`GraphSource.Walk`). If
hops are left then, all edges of the row's object are followed (`GraphSource.Complete`); at the last
hop none of them is. When a graph is done, this is so for every row that was linked
(`met_of_build`).

The proof goes up through the steps of linking: from a way to link objects further that is as it
should be (`Expands`) to the edges of one key, of one property and of one object, and from there to
the next hop (`link_expands`).
-/

namespace GraphTable

/-! ### Walks -/

/-- The properties of a type that hold references. -/
def TypeDef.references (t : TypeDef) : List String :=
  (t.properties.filter fun p => p.dataType?.isNone).map PropertyDef.name

namespace GraphSource

variable {b : GraphSource} {r₀ : Row}

/--
A walk along edges from the object of a row, given by the keys of the rows that it visits, the last
one in front. It ends at an object of a row and a type.
-/
inductive Walk (b : GraphSource) (r₀ : Row) : List Bytes → Row → TypeDef → Prop
  | start : Walk b r₀ [r₀.key] r₀ b.root
  | step {keys : List Bytes} {r r' : Row} {t type : TypeDef} {p : PropertyDef} {key : Bytes}
      (hwalk : Walk b r₀ keys r t) (hedge : b.HasEdge r t p key type)
      (hrow : b.row? key = .ok (some r')) : Walk b r₀ (key :: keys) r' type

/-- A node that was built from a row, whatever it refers to. -/
def BuiltFrom (b : GraphSource) (n : Node) (r : Row) (t : TypeDef) : Prop :=
  ∃ n₀, Build.node b.family r t = .ok n₀ ∧ n₀.SameBut t.references n

/-- All declarations of a property let it hold any number of references. -/
def IsMany (t : TypeDef) (p : PropertyDef) : Prop :=
  ∀ q ∈ t.properties, q.name = p.name → q.many = true

/-- All edges of an object that lead to rows are followed. -/
def Complete (b : GraphSource) (s : Building) (i : Nat) (r : Row) (t : TypeDef) : Prop :=
  ∀ p key type r', b.HasEdge r t p key type → IsMany t p → b.row? key = .ok (some r') →
    s.Lists i p.name key

/-- The node of a row that was met, after a walk to it; its edges are followed if hops were left. -/
def Met (b : GraphSource) (r₀ : Row) (s : Building) (key : Bytes) (i : Nat) : Prop :=
  ∃ keys r t n, b.Walk r₀ (key :: keys) r t ∧ (key :: keys).Nodup ∧ keys.length ≤ b.depth ∧
    s.graph.node? i = some n ∧ b.BuiltFrom n r t ∧ (keys.length < b.depth → b.Complete s i r t)

theorem Complete.keep {i j : Nat} {properties : List String} {s s' : Building} {r : Row}
    {t : TypeDef} (h : b.Complete s j r t) (hkeeps : s.Keeps i properties s') (hne : j ≠ i) :
    b.Complete s' j r t :=
  fun p key type r' hedge hmany hrow => (h p key type r' hedge hmany hrow).keep hkeeps (.inl hne)

theorem Met.keep {i j : Nat} {properties : List String} {s s' : Building} {key : Bytes}
    (h : b.Met r₀ s key j) (hkeeps : s.Keeps i properties s') (hne : j ≠ i) :
    b.Met r₀ s' key j := by
  obtain ⟨keys, r, t, n, hwalk, hnodup, hlen, hn, hbuilt, hcomplete⟩ := h
  have hsame := hkeeps.node?_of_ne j (Building.lt_size_of_node? hn) hne
  exact ⟨keys, r, t, n, hwalk, hnodup, hlen, hsame.trans hn, hbuilt,
    fun hless => (hcomplete hless).keep hkeeps hne⟩

/-! ### What linking adds -/

/-- What linking an object comes to: the other nodes are kept, and rows that are newly linked were
met after a walk to them. -/
structure Extends (b : GraphSource) (r₀ : Row) (i : Nat) (properties : List String)
    (s s' : Building) : Prop where
  keeps : s.Keeps i properties s'
  met : ∀ key j, s'.linked.nodes.lookup key = some j →
    s.linked.nodes.lookup key = some j ∨ s.graph.size ≤ j ∧ b.Met r₀ s' key j

namespace Extends

variable {i : Nat} {properties : List String} {s s' s'' : Building}

theorem refl (i : Nat) (properties : List String) (s : Building) : b.Extends r₀ i properties s s :=
  ⟨.refl i properties s, fun _ _ h => .inl h⟩

theorem trans (hi : i < s.graph.size) (h : b.Extends r₀ i properties s s')
    (h' : b.Extends r₀ i properties s' s'') : b.Extends r₀ i properties s s'' where
  keeps := h.keeps.trans h'.keeps
  met key j hkey := by
    rcases h'.met key j hkey with hkey | ⟨hsize, hmet⟩
    · rcases h.met key j hkey with hkey | ⟨hsize, hmet⟩
      · exact .inl hkey
      · -- a node that was added is not the one that is linked
        exact .inr ⟨hsize, hmet.keep h'.keeps (by omega)⟩
    · exact .inr ⟨Nat.le_trans h.keeps.size_le hsize, hmet⟩

theorem mono {more : List String} (h : b.Extends r₀ i properties s s')
    (hsub : properties ⊆ more) : b.Extends r₀ i more s s' :=
  ⟨h.keeps.mono hsub, h.met⟩

end Extends

/-- Linking has come to an object after a walk, with some hops left. -/
structure At (b : GraphSource) (r₀ : Row) (hops : Nat) (keys : List Bytes) (i : Nat) (r : Row)
    (t : TypeDef) (s : Building) : Prop where
  walk : b.Walk r₀ keys r t
  nodup : keys.Nodup
  length : keys.length + hops = b.depth + 1
  linked : ∀ k ∈ keys, ∃ j, s.linked.nodes.lookup k = some j
  lt_size : i < s.graph.size

/-- What is asked of the way in which objects are linked further, with some hops left: it only adds
what is met, and unless no hop is left all edges are followed. -/
def Expands (b : GraphSource) (r₀ : Row) (hops : Nat)
    (expand : Nat → Row → TypeDef → Linking Unit) : Prop :=
  ∀ {keys i r t s s'}, b.At r₀ hops keys i r t s → expand i r t s = .ok () s' →
    b.Extends r₀ i t.references s s' ∧ (0 < hops → b.Complete s' i r t)

section Linking

variable {hops i : Nat} {expand : Nat → Row → TypeDef → Linking Unit} {keys : List Bytes}
  {r r' : Row} {t type : TypeDef} {p : PropertyDef} {key : Bytes} {properties : List String}
  {s s' : Building}

theorem At.keep (hat : b.At r₀ hops keys i r t s) (h : s.Keeps i properties s') :
    b.At r₀ hops keys i r t s' where
  walk := hat.walk
  nodup := hat.nodup
  length := hat.length
  linked k hk := by
    obtain ⟨j, hj⟩ := hat.linked k hk
    exact ⟨j, h.lookup k j hj⟩
  lt_size := Nat.lt_of_lt_of_le hat.lt_size h.size_le

theorem At.step (hat : b.At r₀ (hops + 1) keys i r t s) (hedge : b.HasEdge r t p key type)
    (hrow : b.row? key = .ok (some r')) (hnew : s.linked.nodes.lookup key = none) (n : Node) :
    b.At r₀ hops (key :: keys) s.graph.size r' type (s.looked.add key n) where
  walk := .step hat.walk hedge hrow
  nodup := by
    -- the rows of the walk are linked, so the new one is not among them
    refine List.nodup_cons.mpr ⟨fun hmem => ?_, hat.nodup⟩
    obtain ⟨j, hj⟩ := hat.linked key hmem
    rw [hnew] at hj
    cases hj
  length := by
    have hlength := hat.length
    rw [List.length_cons]
    omega
  linked k hk := by
    rw [Building.lookup_add]
    by_cases hkey : k = key
    · exact ⟨_, if_pos hkey⟩
    · rw [if_neg hkey]
      exact hat.linked k ((List.mem_cons.mp hk).resolve_left hkey)
  lt_size := by
    rw [Building.size_add]
    omega

/-- The object of a row that is met for the first time is linked, after the walk to it. -/
theorem met_of_added {n : Node} (hat : b.At r₀ hops (key :: keys) s.graph.size r' type
    (s.looked.add key n)) (hnode : Build.node b.family r' type = .ok n)
    (hkeeps : (s.looked.add key n).Keeps s.graph.size type.references s')
    (hcomplete : 0 < hops → b.Complete s' s.graph.size r' type) :
    b.Met r₀ s' key s.graph.size := by
  have hlength := hat.length
  rw [List.length_cons] at hlength
  have hself : (s.looked.add key n).graph.node? s.graph.size = some n := by
    rw [Building.node?_add]
    exact if_pos rfl
  obtain ⟨n', hn', hsame⟩ := hkeeps.node?_self n hself
  exact ⟨keys, r', type, n', hat.walk, hat.nodup, by omega, hn', ⟨n, hnode, hsame⟩,
    fun hless => hcomplete (by omega)⟩

theorem linkKey_extends {found : Option Nat} (hexpand : b.Expands r₀ hops expand)
    (hat : b.At r₀ (hops + 1) keys i r t s) (hedge : b.HasEdge r t p key type)
    (h : b.linkKey expand type key s = .ok found s') :
    b.Extends r₀ i [] s s' ∧ ∀ r', b.row? key = .ok (some r') →
      ∃ j ∈ found.toList, s'.linked.nodes.lookup key = some j := by
  rcases keyLinked_of_ok h with hknown | ⟨hnew, habsent⟩ | ⟨hnew, hrow, hnode, hrest⟩
  · exact ⟨.refl i [] s, fun _ _ => ⟨_, List.mem_singleton_self _, hknown⟩⟩
  · refine ⟨⟨⟨Nat.le_refl _, fun _ _ _ => rfl, fun n hn => ⟨n, hn, .refl _ n⟩, fun _ _ h => h⟩,
      fun _ _ h => .inl h⟩, fun r' hrow => ?_⟩
    rw [habsent] at hrow
    cases hrow
  · rename_i r' n
    have hstep := hat.step hedge hrow hnew n
    obtain ⟨hext, hcomplete⟩ := hexpand hstep hrest
    have hself : (s.looked.add key n).linked.nodes.lookup key = some s.graph.size := by
      rw [Building.lookup_add, if_pos rfl]
    refine ⟨⟨Building.keeps_of_added hnew hext.keeps i, fun other j hother => ?_⟩, fun _ _ =>
      ⟨_, List.mem_singleton_self _, hext.keeps.lookup key _ hself⟩⟩
    -- what is newly linked is the row itself, or was met beyond it
    rcases hext.met other j hother with hother | ⟨hsize, hmet⟩
    · rw [Building.lookup_add] at hother
      split at hother
      · rename_i hkey
        cases hother
        subst hkey
        exact .inr ⟨Nat.le_refl _, met_of_added hstep hnode hext.keeps hcomplete⟩
      · exact .inl hother
    · rw [Building.size_add] at hsize
      exact .inr ⟨by omega, hmet⟩

theorem linkKeys_extends {targets : List Bytes} {found : List Nat}
    (hexpand : b.Expands r₀ hops expand) (hat : b.At r₀ (hops + 1) keys i r t s)
    (hedges : ∀ key ∈ targets, b.HasEdge r t p key type)
    (h : b.linkKeys expand type targets s = .ok found s') :
    b.Extends r₀ i [] s s' ∧ ∀ key ∈ targets, ∀ r', b.row? key = .ok (some r') →
      ∃ j ∈ found, s'.linked.nodes.lookup key = some j := by
  induction targets generalizing s found with
  | nil =>
    cases h
    exact ⟨.refl i [] _, fun key hkey => absurd hkey List.not_mem_nil⟩
  | cons key targets ih =>
    obtain ⟨j, s₁, js, hkey, hkeys, rfl⟩ := linkKeys_cons_eq_ok_iff.mp h
    obtain ⟨hedge, hedges⟩ := List.forall_mem_cons.mp hedges
    obtain ⟨hfirst, hfound⟩ := linkKey_extends hexpand hat hedge hkey
    obtain ⟨hrest, hothers⟩ := ih (hat.keep hfirst.keeps) hedges hkeys
    refine ⟨hfirst.trans hat.lt_size hrest, fun other hother r' hrow => ?_⟩
    rcases List.mem_cons.mp hother with rfl | hother
    · obtain ⟨j, hj, hlookup⟩ := hfound r' hrow
      exact ⟨j, List.mem_append_left _ hj, hrest.keeps.lookup _ j hlookup⟩
    · obtain ⟨j, hj, hlookup⟩ := hothers other hother r' hrow
      exact ⟨j, List.mem_append_right _ hj, hlookup⟩

theorem extends_setField (s : Building) (i : Nat) (property : String) (content : Field) :
    b.Extends r₀ i [property] s (s.setField i property content) :=
  ⟨s.keeps_setField i property content, fun _ _ h => .inl h⟩

theorem mem_references {target : String} (hp : p ∈ t.properties)
    (hkind : p.kind = .reference target) : [p.name] ⊆ t.references := by
  have hnone : p.dataType?.isNone = true := by
    unfold PropertyDef.dataType?
    rw [hkind]
    rfl
  intro name hname
  obtain rfl := List.mem_singleton.mp hname
  exact List.mem_map.mpr ⟨p, List.mem_filter.mpr ⟨hp, hnone⟩, rfl⟩

/-- Following a property lists the nodes that its edges lead to, and no other property of the
object is touched. -/
theorem linkProperty_extends (hexpand : b.Expands r₀ hops expand)
    (hat : b.At r₀ (hops + 1) keys i r t s) (hp : p ∈ t.properties)
    (h : b.linkProperty expand i r t p s = .ok () s') :
    b.Extends r₀ i t.references s s' ∧ ∀ q key type r', IsMany t q → b.HasEdge r t q key type →
      b.row? key = .ok (some r') → (q = p ∨ s.Lists i q.name key) → s'.Lists i q.name key := by
  rcases propertyLinked_of_ok h with hkind | hexist | ⟨hkind, hexist, hedges, hfound⟩
  · refine ⟨.refl i _ _, fun q key type r' _ hedge _ hlists => hlists.resolve_left ?_⟩
    rintro rfl
    obtain ⟨-, target, edges, href, -⟩ := hedge
    rw [hkind] at href
    cases href
  · refine ⟨.refl i _ _, fun q key type r' _ hedge _ hlists => hlists.resolve_left ?_⟩
    rintro rfl
    obtain ⟨-, target, edges, -, htrue, -⟩ := hedge
    rw [hexist] at htrue
    cases htrue
  · rename_i target edges type found s₁
    have hall : ∀ key ∈ edges.rowKeys, b.HasEdge r t p key type := fun key hkey =>
      ⟨hp, target, edges, hkind, hexist, hedges, hkey⟩
    obtain ⟨hkeys, hmet⟩ := linkKeys_extends hexpand hat hall hfound
    have hset : ∀ content, b.Extends r₀ i [p.name] s (s₁.setField i p.name content) :=
      fun content => (hkeys.mono (List.nil_subset _)).trans hat.lt_size
        (extends_setField s₁ i p.name content)
    constructor
    · cases fieldOf p.many found with
      | none => exact hkeys.mono (List.nil_subset _)
      | some content => exact (hset content).mono (mem_references hp hkind)
    · intro q key type' r' hmany hedge hrow hlists
      by_cases hname : q.name = p.name
      · -- the edges that are followed are those of the property, as it has the same name
        obtain ⟨j, hj, hlookup⟩ := hmet key (hedge.mem_rowKeys hname hedges) r' hrow
        have hfield : fieldOf p.many found = some (.many found) := by
          rw [fieldOf, if_pos (hmany p hp hname.symm)]
        rw [hfield, hname]
        exact Building.lists_setField (hat.keep hkeys.keeps).lt_size hj hlookup p.name
      · -- setting another property leaves the list that is there
        have hbefore := hlists.resolve_left fun heq => hname (by rw [heq])
        cases fieldOf p.many found with
        | none => exact hbefore.keep hkeys.keeps (.inr List.not_mem_nil)
        | some content =>
          refine hbefore.keep (hset content).keeps (.inr fun hmem => ?_)
          exact hname (List.mem_singleton.mp hmem)

theorem linkProperties_extends {ps : List PropertyDef} (hexpand : b.Expands r₀ hops expand)
    (hat : b.At r₀ (hops + 1) keys i r t s) (hps : ∀ p ∈ ps, p ∈ t.properties)
    (h : ps.forM (b.linkProperty expand i r t) s = .ok () s') :
    b.Extends r₀ i t.references s s' ∧ ∀ q key type r', IsMany t q → b.HasEdge r t q key type →
      b.row? key = .ok (some r') → (q ∈ ps ∨ s.Lists i q.name key) → s'.Lists i q.name key := by
  induction ps generalizing s with
  | nil =>
    cases h
    exact ⟨.refl i _ _, fun q key type r' _ _ _ hlists =>
      hlists.resolve_left List.not_mem_nil⟩
  | cons p ps ih =>
    obtain ⟨hp, hps⟩ := List.forall_mem_cons.mp hps
    obtain ⟨⟨⟩, s₁, hfirst, hrest⟩ := Linking.bind_eq_ok_iff.mp h
    obtain ⟨hone, hlist⟩ := linkProperty_extends hexpand hat hp hfirst
    obtain ⟨hmore, hlists⟩ := ih (hat.keep hone.keeps) hps hrest
    refine ⟨hone.trans hat.lt_size hmore, fun q key type r' hmany hedge hrow hq => ?_⟩
    refine hlists q key type r' hmany hedge hrow ?_
    rcases hq with hq | hbefore
    · rcases List.mem_cons.mp hq with rfl | hq
      · exact .inr (hlist q key type r' hmany hedge hrow (.inl rfl))
      · exact .inl hq
    · exact .inr (hlist q key type r' hmany hedge hrow (.inr hbefore))

end Linking

/-- Linking an object with some hops left follows all its edges, and adds only what is met. -/
theorem link_expands (b : GraphSource) (r₀ : Row) (hops : Nat) :
    b.Expands r₀ hops (b.link hops) := by
  induction hops with
  | zero =>
    intro keys i r t s s' hat h
    cases h
    exact ⟨.refl i _ _, fun hpos => absurd hpos (Nat.lt_irrefl 0)⟩
  | succ hops ih =>
    intro keys i r t s s' hat h
    obtain ⟨hext, hlists⟩ := linkProperties_extends ih hat (fun p hp => hp) h
    exact ⟨hext, fun _ p key type r' hedge hmany hrow =>
      hlists p key type r' hmany hedge hrow (.inl hedge.1)⟩

/-- When a graph is done its own row is linked, and all other rows that are linked were met. -/
theorem met_of_build {l l' : Linked} {r : Row} {g : Graph} (hl : l.nodes = [])
    (h : b.build l r = (.ok g, l')) :
    b.BuiltFrom g.root r b.root ∧ (0 < b.depth → b.Complete ⟨g, l'⟩ 0 r b.root) ∧
      ∀ key j, l'.nodes.lookup key = some j → b.Met r ⟨g, l'⟩ key j := by
  unfold build at h
  cases hnode : Build.node b.family r b.root with
  | error fault =>
    rw [hnode] at h
    cases h
  | ok n =>
    simp only [hnode] at h
    have hlookup : ∀ key, (l.insert r.key 0).nodes.lookup key =
        if key = r.key then some 0 else none := by
      intro key
      rw [Linked.lookup_insert, hl]
      rfl
    have hat : b.At r b.depth [r.key] 0 r b.root ⟨.single r.key n, l.insert r.key 0⟩ :=
      { walk := .start
        nodup := List.nodup_cons.mpr ⟨List.not_mem_nil, List.nodup_nil⟩
        length := Nat.add_comm _ _
        linked := fun k hk => ⟨0, by rw [hlookup, if_pos (List.mem_singleton.mp hk)]⟩
        lt_size := Nat.zero_lt_one }
    cases hlink : b.link b.depth 0 r b.root ⟨.single r.key n, l.insert r.key 0⟩ with
    | error e s =>
      rw [hlink] at h
      cases h
    | ok _ s =>
      rw [hlink] at h
      cases h
      obtain ⟨hext, hcomplete⟩ := link_expands b r b.depth hat hlink
      obtain ⟨n', hn', hsame⟩ := hext.keeps.node?_self n rfl
      have hbuilt : b.BuiltFrom n' r b.root := ⟨n, hnode, hsame⟩
      refine ⟨Option.some.inj hn' ▸ hbuilt, hcomplete, fun key j hkey => ?_⟩
      rcases hext.met key j hkey with hkey | ⟨-, hmet⟩
      · rw [hlookup] at hkey
        split at hkey
        · rename_i heq
          cases hkey
          subst heq
          have hnodup : [r.key].Nodup := List.nodup_cons.mpr ⟨List.not_mem_nil, List.nodup_nil⟩
          exact ⟨[], r, b.root, n', .start, hnodup, Nat.zero_le _, hn', hbuilt, hcomplete⟩
        · cases hkey
      · exact hmet

end GraphSource

end GraphTable
