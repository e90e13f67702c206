import GraphTable.Proofs.Build.Steps

/-!
# What linking an object leaves as it was

Linking an object adds nodes to a graph and sets properties of the object itself; everything else
stays (`Building.Keeps`). So what is known of other nodes goes on to hold
(`Building.Lists.keep`), also when an object is added in between (`Building.keeps_of_added`).
-/

namespace GraphTable

/-- What is added to a list stands after all that was there. -/
theorem getElem?_concat {α : Type} (xs : List α) (x : α) (j : Nat) :
    (xs ++ [x])[j]? = if j = xs.length then some x else xs[j]? := by
  rw [List.getElem?_append]
  rcases Nat.lt_trichotomy j xs.length with h | h | h
  · rw [if_pos h, if_neg (by omega)]
  · rw [if_neg (by omega), if_pos h, h, Nat.sub_self]
    rfl
  · have hone : [x].length ≤ j - xs.length := by
      rw [List.length_singleton]
      omega
    rw [if_neg (by omega), if_neg (by omega), List.getElem?_eq_none hone,
      List.getElem?_eq_none (by omega)]

/-! ### Nodes that are being linked -/

namespace Node

/-- A node after some of its properties may have been set. -/
structure SameBut (properties : List String) (n n' : Node) : Prop where
  typeName : n'.typeName = n.typeName
  get? : ∀ name, name ∉ properties → n'.get? name = n.get? name

theorem SameBut.refl (properties : List String) (n : Node) : SameBut properties n n :=
  ⟨rfl, fun _ _ => rfl⟩

theorem SameBut.trans {properties : List String} {n n' n'' : Node} (h : SameBut properties n n')
    (h' : SameBut properties n' n'') : SameBut properties n n'' :=
  ⟨h'.typeName.trans h.typeName, fun name hname => (h'.get? name hname).trans (h.get? name hname)⟩

theorem SameBut.mono {properties more : List String} {n n' : Node} (h : SameBut properties n n')
    (hsub : properties ⊆ more) : SameBut more n n' :=
  ⟨h.typeName, fun name hname => h.get? name fun hmem => hname (hsub hmem)⟩

theorem sameBut_set (n : Node) (property : String) (content : Field) :
    SameBut [property] n (n.set property content) := by
  refine ⟨rfl, fun name hname => ?_⟩
  rw [get?_set, if_neg (fun h => hname (List.mem_singleton.mpr h))]

end Node

namespace Building

/-- What linking an object leaves as it was: all other nodes, all properties of its own node but
some, and the nodes of rows that were linked before. -/
structure Keeps (i : Nat) (properties : List String) (s s' : Building) : Prop where
  size_le : s.graph.size ≤ s'.graph.size
  node?_of_ne : ∀ j < s.graph.size, j ≠ i → s'.graph.node? j = s.graph.node? j
  node?_self : ∀ n, s.graph.node? i = some n →
    ∃ n', s'.graph.node? i = some n' ∧ n.SameBut properties n'
  lookup : ∀ key j, s.linked.nodes.lookup key = some j → s'.linked.nodes.lookup key = some j

namespace Keeps

variable {i : Nat} {properties : List String} {s s' s'' : Building}

theorem refl (i : Nat) (properties : List String) (s : Building) : Keeps i properties s s where
  size_le := Nat.le_refl _
  node?_of_ne _ _ _ := rfl
  node?_self n hn := ⟨n, hn, .refl _ n⟩
  lookup _ _ h := h

theorem trans (h : Keeps i properties s s') (h' : Keeps i properties s' s'') :
    Keeps i properties s s'' where
  size_le := Nat.le_trans h.size_le h'.size_le
  node?_of_ne j hj hne :=
    (h'.node?_of_ne j (Nat.lt_of_lt_of_le hj h.size_le) hne).trans (h.node?_of_ne j hj hne)
  node?_self n hn := by
    obtain ⟨n', hn', hsame⟩ := h.node?_self n hn
    obtain ⟨n'', hn'', hsame'⟩ := h'.node?_self n' hn'
    exact ⟨n'', hn'', hsame.trans hsame'⟩
  lookup key j hkey := h'.lookup key j (h.lookup key j hkey)

theorem mono {more : List String} (h : Keeps i properties s s') (hsub : properties ⊆ more) :
    Keeps i more s s' where
  size_le := h.size_le
  node?_of_ne := h.node?_of_ne
  node?_self n hn := by
    obtain ⟨n', hn', hsame⟩ := h.node?_self n hn
    exact ⟨n', hn', hsame.mono hsub⟩
  lookup := h.lookup

end Keeps

theorem node?_setField (s : Building) (i j : Nat) (property : String) (content : Field) :
    (s.setField i property content).graph.node? j =
      if i = j then (s.graph.node? j).map (·.set property content) else s.graph.node? j := by
  simp only [setField, Graph.node?, Graph.nodes_modify, List.getElem?_modify]
  split
  · rfl
  · exact Option.map_id'

theorem keeps_setField (s : Building) (i : Nat) (property : String) (content : Field) :
    Keeps i [property] s (s.setField i property content) where
  size_le := Nat.le_of_eq (Graph.size_modify _ _ _).symm
  node?_of_ne j _ hne := by rw [node?_setField, if_neg (Ne.symm hne)]
  node?_self n hn := by
    refine ⟨n.set property content, ?_, n.sameBut_set property content⟩
    rw [node?_setField, if_pos rfl, hn]
    rfl
  lookup _ _ h := h

theorem node?_add (s : Building) (key : Bytes) (n : Node) (j : Nat) :
    (s.add key n).graph.node? j = if j = s.graph.size then some n else s.graph.node? j :=
  getElem?_concat s.graph.nodes n j

theorem lookup_add (s : Building) (key : Bytes) (n : Node) (other : Bytes) :
    (s.looked.add key n).linked.nodes.lookup other =
      if other = key then some s.graph.size else s.linked.nodes.lookup other :=
  Linked.lookup_insert _ key other _

theorem size_add (s : Building) (key : Bytes) (n : Node) :
    (s.looked.add key n).graph.size = s.graph.size + 1 :=
  Graph.size_push _ n

theorem lt_size_of_node? {s : Building} {i : Nat} {n : Node} (h : s.graph.node? i = some n) :
    i < s.graph.size :=
  (List.getElem?_eq_some_iff.mp h).1

/-- Adding an object and linking it leaves all other nodes as they were. -/
theorem keeps_of_added {s s' : Building} {key : Bytes} {n : Node} {properties : List String}
    (hnew : s.linked.nodes.lookup key = none)
    (h : Keeps s.graph.size properties (s.looked.add key n) s') (i : Nat) : Keeps i [] s s' where
  size_le := by
    have hsize := h.size_le
    rw [size_add] at hsize
    omega
  node?_of_ne j hj _ := by
    have hadd := node?_add s.looked key n j
    rw [if_neg (by change ¬ j = s.graph.size; omega)] at hadd
    rw [h.node?_of_ne j (by rw [size_add]; omega) (by omega), hadd]
    rfl
  node?_self m hm := by
    have hi := lt_size_of_node? hm
    have hadd := node?_add s.looked key n i
    rw [if_neg (by change ¬ i = s.graph.size; omega)] at hadd
    refine ⟨m, ?_, .refl _ m⟩
    rw [h.node?_of_ne i (by rw [size_add]; omega) (by omega), hadd]
    exact hm
  lookup other j hother := by
    refine h.lookup other j ?_
    have hne : other ≠ key := by
      rintro rfl
      rw [hnew] at hother
      cases hother
    rw [lookup_add, if_neg hne]
    exact hother

/-- A property of a node lists the node of a row. -/
def Lists (s : Building) (i : Nat) (property : String) (key : Bytes) : Prop :=
  ∃ n js j, s.graph.node? i = some n ∧ n.get? property = some (.many js) ∧ j ∈ js ∧
    s.linked.nodes.lookup key = some j

theorem lists_setField {s : Building} {i j : Nat} {found : List Nat} {key : Bytes}
    (hi : i < s.graph.size) (hj : j ∈ found) (hkey : s.linked.nodes.lookup key = some j)
    (property : String) : (s.setField i property (.many found)).Lists i property key := by
  obtain ⟨n, hn⟩ : ∃ n, s.graph.node? i = some n := ⟨_, List.getElem?_eq_getElem hi⟩
  refine ⟨n.set property (.many found), found, j, ?_, ?_, hj, hkey⟩
  · rw [node?_setField, if_pos rfl, hn]
    rfl
  · rw [Node.get?_set, if_pos rfl]

theorem Lists.keep {i j : Nat} {properties : List String} {s s' : Building} {property : String}
    {key : Bytes} (h : s.Lists j property key) (hkeeps : Keeps i properties s s')
    (hproperty : j ≠ i ∨ property ∉ properties) : s'.Lists j property key := by
  obtain ⟨n, js, k, hn, hget, hk, hkey⟩ := h
  by_cases hji : j = i
  · subst hji
    obtain ⟨n', hn', hsame⟩ := hkeeps.node?_self n hn
    have hfree := hproperty.resolve_left fun h => h rfl
    exact ⟨n', js, k, hn', (hsame.get? property hfree).trans hget, hk, hkeeps.lookup key k hkey⟩
  · have hsame := hkeeps.node?_of_ne j (lt_size_of_node? hn) hji
    exact ⟨n, js, k, hsame.trans hn, hget, hk, hkeeps.lookup key k hkey⟩

end Building

end GraphTable
