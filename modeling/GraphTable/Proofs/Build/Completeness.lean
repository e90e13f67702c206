import GraphTable.Predicate.Recognizer
import GraphTable.Proofs.Build.Walks

/-!
# How far graphs are complete

An object whose row is first met with hops left has all its edges followed. An object whose row is
first met at the last hop has none of them followed, **and stays so** when the row is met again
nearer to the root. So a graph may lack rows that can be reached within the number of hops, and
which ones depends on the order of edges (`Friends.not_follows_dee`).

What is certain is this: a chain of edges is there in the graph from the first to the last, and the
path of its properties reaches its end, unless one of the rows that the chain passes can also be
reached with the greatest number of hops, by a walk that visits no row twice (`build_follows`).
-/

namespace GraphTable

namespace GraphSource

variable {b : GraphSource} {r₀ : Row}

/-! ### Chains of edges -/

/-- One edge of a chain: the property that it belongs to, and the row and type that it leads to. -/
structure Hop where
  property : PropertyDef
  key : Bytes
  row : Row
  type : TypeDef

/-- A chain of edges of properties that may hold any number, each from where the one before ends,
to rows that are there. -/
def Chain (b : GraphSource) (r : Row) (t : TypeDef) : List Hop → Prop
  | [] => True
  | hop :: hops =>
    b.HasEdge r t hop.property hop.key hop.type ∧ IsMany t hop.property ∧
      b.row? hop.key = .ok (some hop.row) ∧ b.Chain hop.row hop.type hops

/-- A chain of edges is there in a graph, from a node on: each node lists the next one, and that
was built from the row that the edge leads to. -/
def Follows (b : GraphSource) (g : Graph) (n : Node) : List Hop → Prop
  | [] => True
  | hop :: hops =>
    ∃ js j n', n.get? hop.property.name = some (.many js) ∧ j ∈ js ∧ g.node? j = some n' ∧
      b.BuiltFrom n' hop.row hop.type ∧ b.Follows g n' hops

/-- Where a chain of edges ends. -/
def endOf (r : Row) (t : TypeDef) (hops : List Hop) : Row × TypeDef :=
  hops.foldl (fun _ hop => (hop.row, hop.type)) (r, t)

/-- What a path of properties reaches includes the end of a chain of edges of these properties. -/
theorem exists_mem_follow {g : Graph} {n : Node} {i : Nat} {starts ends : List Nat} {r : Row}
    {t : TypeDef} {hops : List Hop} {p : Property} (hn : g.node? i = some n) (hi : i ∈ starts)
    (hbuilt : b.BuiltFrom n r t) (hfollows : b.Follows g n hops)
    (h : p.follow g (hops.map fun hop => hop.property.name) starts = .ok ends) :
    ∃ j ∈ ends, ∃ m, g.node? j = some m ∧
      b.BuiltFrom m (endOf r t hops).1 (endOf r t hops).2 := by
  induction hops generalizing n i starts r t with
  | nil =>
    cases h
    exact ⟨i, hi, n, hn, hbuilt⟩
  | cons hop hops ih =>
    obtain ⟨js, j, m, hjs, hj, hm, hnext, hfollows⟩ := hfollows
    obtain ⟨steps, hsteps, h⟩ := Outcome.bind_eq_ok.mp h
    -- the node is one of those that the step is made from, and the step finds what it lists
    obtain ⟨k, hk, rfl⟩ := List.getElem_of_mem hi
    obtain ⟨found, hfound, hstep⟩ :=
      Outcome.exists_of_mapM hsteps (List.getElem?_eq_getElem hk)
    have hone : p.step g hop.property.name starts[k] = .ok js := by
      have hreferred : g.referred starts[k] = .ok n := by rw [Graph.referred, hn]
      rw [Property.step, hreferred]
      dsimp only [bind, Except.bind]
      rw [hjs]
      rfl
    obtain rfl := Except.ok.inj (hone.symm.trans hstep)
    exact ih hm (List.mem_flatten_of_mem (List.mem_of_getElem? hfound) hj) hnext hfollows h

/-- A walk that visits no row twice, and makes so many hops to the row of a key. -/
def Reaches (b : GraphSource) (r₀ : Row) (hops : Nat) (key : Bytes) (t : TypeDef) : Prop :=
  ∃ keys r, keys.length = hops ∧ (key :: keys).Nodup ∧ b.Walk r₀ (key :: keys) r t

/-- A walk ends at the row of its last key. -/
theorem Walk.row?_eq {keys : List Bytes} {key : Bytes} {r : Row} {t : TypeDef}
    (h : b.Walk r₀ (key :: keys) r t) (hroot : b.row? r₀.key = .ok (some r₀)) :
    b.row? key = .ok (some r) := by
  cases h with
  | start => exact hroot
  | step hwalk hedge hrow => exact hrow

theorem follows_of_met {s : Building} {hops : List Hop} {r : Row} {t : TypeDef} {i : Nat} {n : Node}
    (hroot : b.row? r₀.key = .ok (some r₀))
    (hmet : ∀ key j, s.linked.nodes.lookup key = some j → b.Met r₀ s key j)
    (hn : s.graph.node? i = some n) (hcomplete : hops ≠ [] → b.Complete s i r t)
    (hchain : b.Chain r t hops)
    (htype : ∀ hop ∈ hops, ∀ m ≤ b.depth, ∀ t', b.Reaches r₀ m hop.key t' → t' = hop.type)
    (hnear : ∀ hop ∈ hops.dropLast, ∀ t', ¬ b.Reaches r₀ b.depth hop.key t') :
    b.Follows s.graph n hops := by
  induction hops generalizing r t i n with
  | nil => trivial
  | cons hop hops ih =>
    obtain ⟨hedge, hmany, hrow, hchain⟩ := hchain
    obtain ⟨m, js, j, hm, hget, hj, hkey⟩ :=
      hcomplete (List.cons_ne_nil hop hops) hop.property hop.key hop.type hop.row hedge hmany hrow
    obtain rfl := Option.some.inj (hn.symm.trans hm)
    obtain ⟨keys, r', t', n', hwalk, hnodup, hlen, hn', hbuilt, hnext⟩ := hmet hop.key j hkey
    -- the row was met by another walk, maybe, but it is the same row and type
    obtain rfl : hop.row = r' :=
      Option.some.inj (Except.ok.inj (hrow.symm.trans (hwalk.row?_eq hroot)))
    obtain rfl : t' = hop.type :=
      htype hop List.mem_cons_self keys.length hlen t' ⟨keys, _, rfl, hnodup, hwalk⟩
    refine ⟨js, j, n', hget, hj, hn', hbuilt, ih hn' (fun hne => hnext ?_) hchain
      (fun other hother => htype other (List.mem_cons_of_mem _ hother)) fun other hother => ?_⟩
    · have hinner : hop ∈ (hop :: hops).dropLast := by
        rw [List.dropLast_cons_of_ne_nil hne]
        exact List.mem_cons_self
      have hless : keys.length ≠ b.depth := fun hfull =>
        hnear hop hinner hop.type ⟨keys, _, hfull, hnodup, hwalk⟩
      omega
    · refine hnear other ?_
      rw [List.dropLast_cons_of_ne_nil (List.ne_nil_of_mem (List.dropLast_subset hops hother))]
      exact List.mem_cons_of_mem _ hother

/--
A chain of at most as many edges as hops are followed is there in the graph of a row, and a path of
its properties reaches its end, if its rows are met as objects of one type each and none of those
that it passes is reached with the greatest number of hops as well.
-/
theorem build_follows {l l' : Linked} {r : Row} {g : Graph} {hops : List Hop}
    (hl : l.nodes = []) (hroot : b.row? r.key = .ok (some r)) (h : b.build l r = (.ok g, l'))
    (hchain : b.Chain r b.root hops) (hdepth : hops.length ≤ b.depth)
    (htype : ∀ hop ∈ hops, ∀ m ≤ b.depth, ∀ t, b.Reaches r m hop.key t → t = hop.type)
    (hnear : ∀ hop ∈ hops.dropLast, ∀ t, ¬ b.Reaches r b.depth hop.key t) :
    b.BuiltFrom g.root r b.root ∧ b.Follows g g.root hops ∧
      ∀ (p : Property) ends, p.follow g (hops.map fun hop => hop.property.name) [0] = .ok ends →
        ∃ j ∈ ends, ∃ n, g.node? j = some n ∧
          b.BuiltFrom n (endOf r b.root hops).1 (endOf r b.root hops).2 := by
  obtain ⟨hbuilt, hcomplete, hmet⟩ := met_of_build hl h
  have hfollows : b.Follows g g.root hops := by
    refine follows_of_met (s := ⟨g, l'⟩) (i := 0) hroot hmet rfl (fun hne => ?_) hchain htype hnear
    have hpos : 0 < hops.length := List.length_pos_iff.mpr hne
    exact hcomplete (by omega)
  refine ⟨hbuilt, hfollows, fun p ends hends => ?_⟩
  exact exists_mem_follow rfl (List.mem_singleton_self 0) hbuilt hfollows hends

end GraphSource

/-! ### Friends of friends -/

namespace Friends

/-- The friends of a person. -/
def friends : PropertyDef := ⟨"friends", .reference "Person", true⟩

/-- People have a name and any number of friends. -/
def person : TypeDef := ⟨"http://people", "Person", [⟨"name", .data .string, false⟩, friends]⟩

/-- Where the edges to friends are. -/
def place : Edges.Place := ⟨Column.defaultDelimiter, [102], "Person", none, "friends"⟩

/-- The row of a person, with a key of one byte. -/
def row (key : UInt8) (name : String) (friends : List UInt8) : Row where
  key := [key]
  cells :=
    [⟨⟨[102], place.qualifier .baseType⟩, Text.utf8 "Person"⟩,
      ⟨⟨[102], place.qualifier .count⟩, Column.decimal friends.length⟩,
      ⟨⟨[102], place.qualifier .rowKeys⟩, Edges.encodeRowKeys (friends.map fun k => [k])⟩,
      ⟨⟨[102], Text.utf8 "name"⟩, Text.utf8 name⟩]

/-- The first person has the second and the third one as friends, the second has the third, and the
third has the fourth. -/
def table : Table :=
  .ofRows [row 1 "ann" [2, 3], row 2 "bob" [3], row 3 "cy" [4], row 4 "dee" []]

/-- Friends of friends are linked. -/
def source : GraphSource := ⟨.ofTable table, ⟨[person]⟩, person, [102], 2⟩

/-- The edge to a friend. -/
def toFriend (key : UInt8) (name : String) (friends : List UInt8) : GraphSource.Hop :=
  ⟨Friends.friends, [key], row key name friends, person⟩

/-- The graph of the first person lacks the friend of the third. -/
def graph : Graph where
  rowKey := [1]
  root := ⟨"Person", [("friends", .many [1, 2]), ("name", .value (.string "ann"))]⟩
  others :=
    [⟨"Person", [("friends", .many [2]), ("name", .value (.string "bob"))]⟩,
      ⟨"Person", [("name", .value (.string "cy"))]⟩]

set_option maxRecDepth 10000 in
theorem build_source :
    source.build .empty (row 1 "ann" [2, 3]) =
      (.ok graph, ⟨[([3], 2), ([2], 1), ([1], 0)], 2⟩) := by
  rfl

theorem row?_source :
    source.row? [1] = .ok (some (row 1 "ann" [2, 3])) ∧
      source.row? [2] = .ok (some (row 2 "bob" [3])) ∧
      source.row? [3] = .ok (some (row 3 "cy" [4])) ∧
      source.row? [4] = .ok (some (row 4 "dee" [])) :=
  ⟨rfl, rfl, rfl, rfl⟩

/-- The first person has two friends. -/
theorem hasEdge_ann {key : UInt8} (h : key ∈ [2, 3]) :
    source.HasEdge (row 1 "ann" [2, 3]) person friends [key] person :=
  ⟨List.mem_cons_of_mem _ List.mem_cons_self, "Person", _, rfl, rfl, rfl,
    List.mem_map_of_mem (f := fun k => [k]) h⟩

theorem isMany_friends : GraphSource.IsMany person friends := by
  unfold GraphSource.IsMany
  decide

/-- All that is met are people. -/
theorem type_of_walk {r₀ r : Row} {keys : List Bytes} {t : TypeDef}
    (h : source.Walk r₀ keys r t) : t = person := by
  cases h with
  | start => rfl
  | step hwalk hedge hrow => exact List.mem_singleton.mp hedge.mem_types

/-- All edges lead to friends. -/
theorem mem_of_hasEdge {r : Row} {edges : Edges} {p : PropertyDef} {key : Bytes} {type : TypeDef}
    (hedges : Edges.read r place = .ok edges) (h : source.HasEdge r person p key type) :
    key ∈ edges.rowKeys := by
  obtain ⟨hp, target, edges', hkind, -, hread, hkey⟩ := h
  rcases List.mem_cons.mp hp with rfl | hp
  · cases hkind
  · obtain rfl := List.mem_singleton.mp hp
    have hsame := (GraphSource.edgesOf_eq_ok_iff.mp hread).1.symm.trans hedges
    obtain rfl := Except.ok.inj hsame
    exact hkey

/-- The second person is a friend of the first one only, so there is no longer walk to it. -/
theorem not_reaches_bob (t : TypeDef) : ¬ source.Reaches (row 1 "ann" [2, 3]) 2 [2] t := by
  have hann : Edges.read (row 1 "ann" [2, 3]) place =
      .ok ⟨"Person", none, [], none, [[2], [3]], 2⟩ := rfl
  have hcy : Edges.read (row 3 "cy" [4]) place = .ok ⟨"Person", none, [], none, [[4]], 1⟩ := rfl
  rintro ⟨keys, r, hlen, hnodup, hwalk⟩
  cases hwalk with
  | step hfirst hedge hrow =>
    cases type_of_walk hfirst
    cases hfirst with
    | start => cases hlen
    | step hstart hfriend hread =>
      cases hstart with
      | start =>
        rcases List.mem_cons.mp (mem_of_hasEdge hann hfriend) with rfl | hkey
        · exact absurd List.mem_cons_self (List.nodup_cons.mp hnodup).1
        · obtain rfl := List.mem_singleton.mp hkey
          obtain rfl := Option.some.inj (Except.ok.inj (hread.symm.trans row?_source.2.2.1))
          exact absurd (mem_of_hasEdge hcy hedge) (by decide)
      | step hempty =>
        obtain rfl := List.eq_nil_of_length_eq_zero (Nat.succ.inj (Nat.succ.inj hlen))
        cases hempty

/-- The friends of the second person are in the graph. -/
theorem follows_cy :
    source.Follows graph graph.root [toFriend 2 "bob" [3], toFriend 3 "cy" [4]] := by
  have hbob : source.HasEdge (row 2 "bob" [3]) person friends [3] person :=
    ⟨List.mem_cons_of_mem _ List.mem_cons_self, "Person", _, rfl, rfl, rfl,
      List.mem_singleton_self _⟩
  have hchain : source.Chain (row 1 "ann" [2, 3]) source.root
      [toFriend 2 "bob" [3], toFriend 3 "cy" [4]] :=
    ⟨hasEdge_ann (by decide), isMany_friends, row?_source.2.1, hbob, isMany_friends,
      row?_source.2.2.1, trivial⟩
  refine (GraphSource.build_follows rfl row?_source.1 build_source hchain (by decide) ?_ ?_).2.1
  · rintro hop hhop m - t ⟨keys, r, -, -, hwalk⟩
    have htypes : ∀ hop ∈ [toFriend 2 "bob" [3], toFriend 3 "cy" [4]], hop.type = person := by
      decide
    exact (type_of_walk hwalk).trans (htypes hop hhop).symm
  · intro hop hhop
    obtain rfl := List.mem_singleton.mp hhop
    exact not_reaches_bob

/-- No node of the graph was built from the row of the fourth person. -/
theorem not_builtFrom_dee {m : Node} (hm : m ∈ graph.nodes) :
    ¬ source.BuiltFrom m (row 4 "dee" []) person := by
  rintro ⟨n, hn, hsame⟩
  have hnode : Build.node source.family (row 4 "dee" []) person =
      .ok ⟨"Person", [("name", .value (.string "dee"))]⟩ := rfl
  obtain rfl := Except.ok.inj (hnode.symm.trans hn)
  have hname := hsame.get? "name" (by decide)
  have hothers : ∀ m ∈ graph.nodes, m.get? "name" ≠ some (.value (.string "dee")) := by decide
  exact hothers m hm hname

/-- The fourth person is two hops from the first one, but not in the graph. -/
theorem not_follows_dee :
    ∃ g l, source.build .empty (row 1 "ann" [2, 3]) = (.ok g, l) ∧
      source.Chain (row 1 "ann" [2, 3]) person [toFriend 3 "cy" [4], toFriend 4 "dee" []] ∧
      [toFriend 3 "cy" [4], toFriend 4 "dee" []].length ≤ source.depth ∧
      ¬ source.Follows g g.root [toFriend 3 "cy" [4], toFriend 4 "dee" []] := by
  have hcy : source.HasEdge (row 3 "cy" [4]) person friends [4] person :=
    ⟨List.mem_cons_of_mem _ List.mem_cons_self, "Person", _, rfl, rfl, rfl,
      List.mem_singleton_self _⟩
  refine ⟨graph, _, build_source, ⟨hasEdge_ann (by decide), isMany_friends, row?_source.2.2.1,
    hcy, isMany_friends, row?_source.2.2.2, trivial⟩, by decide, ?_⟩
  rintro ⟨-, -, n, -, -, -, -, -, k, m, -, -, hm, hdee, -⟩
  exact not_builtFrom_dee (List.mem_of_getElem? hm) hdee

end Friends

end GraphTable
