import Mathlib.Data.List.Forall2
import Mathlib.Data.List.Nodup
import Mathlib.Data.List.Range
import GraphTable.Predicate.Validate
import GraphTable.Proofs.Outcome
import GraphTable.Proofs.Predicate.Walk

/-!
# Shared parts do not show

A tree may share its parts, and then a walk comes to a node on several ways but enters it once. The
ways are the nodes of the **unshared** tree (`unshared`), in which every node has a label of its
own, and they have a pre-order (`occurrences`).

A walk is no more than an attempt to enter each of the occurrences in turn, whatever is below them
(`walkFrom_eq_or_stopped`): when a node is come to again, everything below it has been entered too,
as the node itself is not above where the walk is. So a visitor that always goes on sees the first
occurrence of every node (`walk_eq_visitEach_firsts`). A visitor that stops for good at a fault sees
fewer of them, but with the same outcome, and as the check of a node is made on what the node is and
not on its label, validation comes to checking all nodes of the tree in turn (`validate_eq_forM`).
-/

namespace GraphTable.Expr

/-! ### Trees without sharing -/

/-- The copy of a tree whose labels count its nodes in pre-order, from a given number on. -/
def numbered (e : Expr) (first : NodeId) : Expr :=
  match e with
  | logical _ op l r =>
    logical first op (l.numbered (first + 1)) (r.numbered (first + 1 + l.nodes.length))
  | arithmetic _ op l r =>
    arithmetic first op (l.numbered (first + 1)) (r.numbered (first + 1 + l.nodes.length))
  | relational _ op left l => relational first op (left.numbered (first + 1)) l
  | test _ op p l d => test first op p l d
  | property _ p => property first p
  | literal _ l => literal first l

/-- The copy of a tree that shares nothing. -/
def unshared (e : Expr) : Expr :=
  e.numbered 0

/-- A node where a tree has it: below another one, at a depth. -/
structure Occurrence where
  node : Expr
  parent : Option Expr
  level : Nat
  deriving DecidableEq

/-- The occurrences of nodes in a tree that hangs below a node at a depth, in pre-order. -/
def occurrencesFrom (parent : Option Expr) (level : Nat) (e : Expr) : List Occurrence :=
  match e with
  | logical i op l r =>
    let e := logical i op l r
    ⟨e, parent, level⟩ ::
      (l.occurrencesFrom (some e) (level + 1) ++ r.occurrencesFrom (some e) (level + 1))
  | arithmetic i op l r =>
    let e := arithmetic i op l r
    ⟨e, parent, level⟩ ::
      (l.occurrencesFrom (some e) (level + 1) ++ r.occurrencesFrom (some e) (level + 1))
  | relational i op left l =>
    let e := relational i op left l
    ⟨e, parent, level⟩ :: left.occurrencesFrom (some e) (level + 1)
  | e => [⟨e, parent, level⟩]

/-- The occurrences of the nodes of a tree, in pre-order. -/
def occurrences (e : Expr) : List Occurrence :=
  e.occurrencesFrom none 0

namespace Occurrence

/-- An occurrence regardless of labels. -/
def unshared (o : Occurrence) : Occurrence :=
  ⟨o.node.unshared, o.parent.map Expr.unshared, o.level⟩

/-- Of every node, the occurrence that comes first. -/
def firsts : List Occurrence → List Occurrence
  | [] => []
  | o :: os => o :: (firsts os).filter fun p => p.node ≠ o.node

theorem firsts_sublist (os : List Occurrence) : (firsts os).Sublist os := by
  induction os with
  | nil => exact .slnil
  | cons o os ih => exact (List.filter_sublist.trans ih).cons_cons o

theorem nodup_firsts (os : List Occurrence) : ((firsts os).map (·.node)).Nodup := by
  induction os with
  | nil => exact List.nodup_nil
  | cons o os ih =>
    refine List.nodup_cons.mpr ⟨?_, ih.sublist (List.filter_sublist.map _)⟩
    simp [List.mem_map, List.mem_filter]

theorem firsts_of_nodup {os : List Occurrence} (h : (os.map (·.node)).Nodup) :
    firsts os = os := by
  induction os with
  | nil => rfl
  | cons o os ih =>
    obtain ⟨hfresh, hos⟩ := List.nodup_cons.mp h
    rw [firsts, ih hos, List.filter_eq_self.mpr]
    intro p hp
    have hne : p.node ≠ o.node := fun heq => hfresh (List.mem_map.mpr ⟨p, hp, heq⟩)
    simpa using hne

theorem mem_map_firsts_iff {os : List Occurrence} {x : Expr} :
    x ∈ (firsts os).map (·.node) ↔ x ∈ os.map (·.node) := by
  induction os with
  | nil => rfl
  | cons o os ih =>
    rw [firsts, List.map_cons, List.mem_cons, List.map_cons, List.mem_cons, ← ih]
    by_cases h : x = o.node
    · simp [h]
    · simp only [h, false_or, List.mem_map, List.mem_filter]
      constructor
      · rintro ⟨p, ⟨hp, -⟩, hx⟩
        exact ⟨p, hp, hx⟩
      · rintro ⟨p, hp, rfl⟩
        exact ⟨p, ⟨hp, by simpa using h⟩, rfl⟩

theorem mem_firsts_iff {o : Occurrence} {os : List Occurrence} :
    o ∈ firsts os ↔ os.find? (fun p => p.node = o.node) = some o := by
  induction os with
  | nil => simp [firsts]
  | cons p os ih =>
    rw [firsts, List.mem_cons, List.mem_filter, ih, List.find?_cons]
    by_cases h : p.node = o.node
    · simp [h, eq_comm]
    · have hne : o ≠ p := by
        rintro rfl
        exact h rfl
      have hnode : o.node ≠ p.node := fun ho => h ho.symm
      simp [h, hne, hnode]

end Occurrence

open Occurrence (firsts)

theorem occurrencesFrom_eq (parent : Option Expr) (level : Nat) (e : Expr) :
    e.occurrencesFrom parent level =
      ⟨e, parent, level⟩ :: e.children.flatMap (occurrencesFrom (some e) (level + 1)) := by
  cases e <;> simp [occurrencesFrom, children]

@[simp] theorem map_node_occurrencesFrom (parent : Option Expr) (level : Nat) (e : Expr) :
    (e.occurrencesFrom parent level).map (·.node) = e.nodes := by
  induction e generalizing parent level <;> simp [occurrencesFrom, nodes, *]

@[simp] theorem map_node_occurrences (e : Expr) : e.occurrences.map (·.node) = e.nodes :=
  map_node_occurrencesFrom none 0 e

theorem sizeOf_lt_of_mem_children {e c : Expr} (h : c ∈ e.children) : sizeOf c < sizeOf e := by
  cases e with
  | logical i op l r =>
    rw [logical.sizeOf_spec]
    rcases List.mem_pair.mp h with rfl | rfl <;> omega
  | arithmetic i op l r =>
    rw [arithmetic.sizeOf_spec]
    rcases List.mem_pair.mp h with rfl | rfl <;> omega
  | relational i op left l =>
    obtain rfl := List.mem_singleton.mp h
    rw [relational.sizeOf_spec]
    omega
  | test | property | literal => cases h

/-- No node is below itself. -/
theorem not_mem_nodes_of_mem_children {e c : Expr} (h : c ∈ e.children) : e ∉ c.nodes := by
  intro hin
  have hle : ∀ x ∈ c.nodes, sizeOf x ≤ sizeOf c :=
    forall_nodes_of_children (Nat.le_refl _) fun x _ hx d hd =>
      Nat.le_trans (Nat.le_of_lt (sizeOf_lt_of_mem_children hd)) hx
  exact absurd (hle e hin) (Nat.not_le.mpr (sizeOf_lt_of_mem_children h))

theorem node_mem_nodes {e : Expr} {o : Occurrence} (h : o ∈ e.occurrences) :
    o.node ∈ e.nodes :=
  map_node_occurrences e ▸ List.mem_map_of_mem h

/-! ### A walk enters the occurrences in turn -/

section Walks

variable {σ : Type} {visit : Visitor σ} {Stopped : σ → Prop}

/-- Enters an occurrence, and nothing below it. -/
def enterAlone (visit : Visitor σ) (s : WalkState σ) (o : Occurrence) : WalkState σ :=
  enter visit o.node o.parent o.level (fun s => s) s

theorem enterAlone_of_seen {s : WalkState σ} {o : Occurrence} (h : o.node.id ∈ s.seen) :
    enterAlone visit s o = s :=
  enter_of_seen h

theorem enterAlone_of_not_seen {s : WalkState σ} {o : Occurrence} (h : o.node.id ∉ s.seen) :
    enterAlone visit s o =
      ⟨(visit s.visitor o.node o.parent o.level).1, o.node.id :: s.seen⟩ := by
  rw [enterAlone, enter_of_not_seen h, ite_self]

theorem foldl_enterAlone_of_seen {s : WalkState σ} {os : List Occurrence}
    (h : ∀ o ∈ os, o.node.id ∈ s.seen) : os.foldl (enterAlone visit) s = s := by
  induction os with
  | nil => rfl
  | cons o os ih =>
    obtain ⟨ho, hos⟩ := List.forall_mem_cons.mp h
    rw [List.foldl_cons, enterAlone_of_seen ho, ih hos]

theorem mem_seen_foldl_enterAlone {s : WalkState σ} {os : List Occurrence} {i : NodeId} :
    i ∈ (os.foldl (enterAlone visit) s).seen ↔ i ∈ s.seen ∨ ∃ o ∈ os, o.node.id = i := by
  induction os generalizing s with
  | nil => simp
  | cons o os ih =>
    rw [List.foldl_cons, ih]
    by_cases h : o.node.id ∈ s.seen
    · rw [enterAlone_of_seen h]
      simp only [List.mem_cons, exists_eq_or_imp]
      constructor
      · rintro (hi | hi)
        · exact .inl hi
        · exact .inr (.inr hi)
      · rintro (hi | rfl | hi)
        · exact .inl hi
        · exact .inl h
        · exact .inr hi
    · rw [enterAlone_of_not_seen h]
      simp only [List.mem_cons, exists_eq_or_imp, or_assoc]
      rw [or_left_comm, eq_comm (a := i)]

theorem mem_seen_of_occurrencesFrom {s : WalkState σ} {parent : Option Expr} {level : Nat}
    {e : Expr} {i : NodeId} :
    i ∈ ((e.occurrencesFrom parent level).foldl (enterAlone visit) s).seen ↔
      i ∈ s.seen ∨ ∃ x ∈ e.nodes, x.id = i := by
  rw [mem_seen_foldl_enterAlone, ← map_node_occurrencesFrom parent level e]
  simp only [List.mem_map, exists_exists_and_eq_and]

/-- A visitor goes on below every node, unless it has stopped for good. -/
structure StopsForGood (visit : Visitor σ) (Stopped : σ → Prop) : Prop where
  stopped : ∀ {s e parent level}, (visit s e parent level).2 = false →
    Stopped (visit s e parent level).1
  kept : ∀ {s}, Stopped s → ∀ e parent level, (visit s e parent level).1 = s

/-- What every step keeps once the visitor has stopped is kept by all steps together. -/
private theorem visitor_foldl {β : Type} {step : WalkState σ → β → WalkState σ}
    (hstep : ∀ s b, Stopped s.visitor → (step s b).visitor = s.visitor) {s : WalkState σ}
    (h : Stopped s.visitor) (bs : List β) : (bs.foldl step s).visitor = s.visitor := by
  induction bs generalizing s with
  | nil => rfl
  | cons b bs ih =>
    have hb := hstep s b h
    rw [List.foldl_cons, ih (hb.symm ▸ h), hb]

theorem StopsForGood.walkFrom (hv : StopsForGood visit Stopped) {s : WalkState σ}
    (h : Stopped s.visitor) (parent : Option Expr) (level : Nat) (e : Expr) :
    (e.walkFrom visit parent level s).visitor = s.visitor := by
  refine walkFrom_invariant (P := (· = s.visitor)) ?_ rfl
  rintro x - _ parent level rfl
  exact hv.kept h x parent level

theorem StopsForGood.foldl_walkFrom (hv : StopsForGood visit Stopped) {s : WalkState σ}
    (h : Stopped s.visitor) (parent : Option Expr) (level : Nat) (cs : List Expr) :
    (cs.foldl (fun s c => c.walkFrom visit parent level s) s).visitor = s.visitor :=
  visitor_foldl (fun _ c hs => hv.walkFrom hs parent level c) h cs

theorem StopsForGood.foldl_enterAlone (hv : StopsForGood visit Stopped) {s : WalkState σ}
    (h : Stopped s.visitor) (os : List Occurrence) :
    (os.foldl (enterAlone visit) s).visitor = s.visitor := by
  refine visitor_foldl (fun s o hs => ?_) h os
  by_cases hseen : o.node.id ∈ s.seen
  · rw [enterAlone_of_seen hseen]
  · rw [enterAlone_of_not_seen hseen]
    exact hv.kept hs _ _ _

/-- Two walks are at one point, or the visitor has stopped in both with the same state. -/
def SameWalk (Stopped : σ → Prop) (s t : WalkState σ) : Prop :=
  s = t ∨ s.visitor = t.visitor ∧ Stopped s.visitor

/-- Below every node of a tree that was seen, all was seen. -/
def SeenBelow (e : Expr) (s : WalkState σ) : Prop :=
  ∀ x ∈ e.nodes, x.id ∈ s.seen → ∀ y ∈ x.nodes, y.id ∈ s.seen

variable {all : List Expr}

/-- What was seen below seen nodes stays so when one more tree has been walked. -/
private theorem SeenBelow.after {e c : Expr} {s t : WalkState σ}
    (hlabels : ∀ x ∈ all, ∀ y ∈ all, x.id = y.id → x = y) (he : e.nodes ⊆ all)
    (hc : c.nodes ⊆ all) (h : SeenBelow e s)
    (ht : ∀ i, i ∈ t.seen ↔ i ∈ s.seen ∨ ∃ x ∈ c.nodes, x.id = i) : SeenBelow e t := by
  intro x hx hseen y hy
  rcases (ht x.id).mp hseen with hbefore | ⟨z, hz, hid⟩
  · exact (ht y.id).mpr (.inl (h x hx hbefore y hy))
  · obtain rfl := hlabels z (hc hz) x (he hx) hid
    exact (ht y.id).mpr (.inr ⟨y, nodes_subset_of_mem hz hy, rfl⟩)

/-- Walking over trees is entering their occurrences if walking over each of them is. -/
private theorem sameWalk_foldl (hv : StopsForGood visit Stopped)
    (hlabels : ∀ x ∈ all, ∀ y ∈ all, x.id = y.id → x = y) {parent : Option Expr} {level : Nat}
    {cs : List Expr} (hcs : ∀ c ∈ cs, c.nodes ⊆ all)
    (h : ∀ c ∈ cs, ∀ s, SeenBelow c s → SameWalk Stopped (c.walkFrom visit parent level s)
      ((c.occurrencesFrom parent level).foldl (enterAlone visit) s))
    {s : WalkState σ} (hs : ∀ c ∈ cs, SeenBelow c s) :
    SameWalk Stopped (cs.foldl (fun s c => c.walkFrom visit parent level s) s)
      ((cs.flatMap (occurrencesFrom parent level)).foldl (enterAlone visit) s) := by
  induction cs generalizing s with
  | nil => exact .inl rfl
  | cons c cs ih =>
    obtain ⟨hc, hcs⟩ := List.forall_mem_cons.mp hcs
    obtain ⟨hwalk, hwalks⟩ := List.forall_mem_cons.mp h
    obtain ⟨hsc, hscs⟩ := List.forall_mem_cons.mp hs
    rw [List.foldl_cons, List.flatMap_cons, List.foldl_append]
    obtain heq | ⟨hsame, hstopped⟩ := hwalk s hsc
    · rw [heq]
      refine ih hcs hwalks fun d hd => ?_
      exact (hscs d hd).after hlabels (hcs d hd) hc fun i => mem_seen_of_occurrencesFrom
    · -- from here on nothing changes any more
      have hwalked := hv.foldl_walkFrom hstopped parent level cs
      have hentered := hv.foldl_enterAlone (hsame ▸ hstopped : Stopped (List.foldl _ s _).visitor)
        (cs.flatMap (occurrencesFrom parent level))
      exact .inr ⟨by rw [hwalked, hsame, hentered], hwalked.symm ▸ hstopped⟩

/--
A walk enters the occurrences of its tree in turn, as if it left out nothing below a node that is
come to again, until the visitor stops for good.
-/
theorem walkFrom_eq_or_stopped (hv : StopsForGood visit Stopped)
    (hlabels : ∀ x ∈ all, ∀ y ∈ all, x.id = y.id → x = y) {e : Expr} (he : e.nodes ⊆ all)
    (parent : Option Expr) (level : Nat) {s : WalkState σ} (hs : SeenBelow e s) :
    SameWalk Stopped (e.walkFrom visit parent level s)
      ((e.occurrencesFrom parent level).foldl (enterAlone visit) s) := by
  induction e using induction_on_children generalizing parent level s with
  | h e ih =>
    rw [walkFrom_eq, occurrencesFrom_eq, List.foldl_cons]
    by_cases hseen : e.id ∈ s.seen
    · -- a node that is come to again: all occurrences below it were seen
      rw [enter_of_seen hseen, enterAlone_of_seen hseen, foldl_enterAlone_of_seen]
      · exact .inl rfl
      · intro o ho
        obtain ⟨c, hc, ho⟩ := List.mem_flatMap.mp ho
        have hnode := List.mem_map_of_mem (f := (·.node)) ho
        rw [map_node_occurrencesFrom] at hnode
        exact hs e (mem_nodes_self e) hseen _ (nodes_subset_of_mem_children hc hnode)
    · rw [enter_of_not_seen hseen, enterAlone_of_not_seen hseen]
      split
      · have hchildren : ∀ c ∈ e.children, c.nodes ⊆ all := fun c hc _ hx =>
          he (nodes_subset_of_mem_children hc hx)
        refine sameWalk_foldl hv hlabels hchildren
          (fun c hc _ hs => ih c hc (hchildren c hc) (some e) (level + 1) hs) ?_
        intro c hc x hx hid y hy
        have hxe := nodes_subset_of_mem_children hc hx
        rcases List.mem_cons.mp hid with hid | hid
        · -- the node itself is not below itself
          obtain rfl := hlabels x (he hxe) e (he (mem_nodes_self e)) hid
          exact absurd hx (not_mem_nodes_of_mem_children hc)
        · exact List.mem_cons_of_mem _ (hs x hxe hid y hy)
      · rename_i hstop
        have hstopped := hv.stopped (Bool.not_eq_true _ ▸ hstop)
        exact .inr ⟨(hv.foldl_enterAlone hstopped _).symm, hstopped⟩

/-- Sharing saves visits, but does not change what comes out. -/
theorem walk_eq_foldl_enterAlone (hv : StopsForGood visit Stopped) {e : Expr}
    (hlabels : e.Labelled) (s : σ) :
    e.walk visit s = (e.occurrences.foldl (enterAlone visit) ⟨s, []⟩).visitor := by
  obtain heq | ⟨hsame, -⟩ := walkFrom_eq_or_stopped hv hlabels (fun _ hx => hx) none 0
    (s := ⟨s, []⟩) fun _ _ hseen => by cases hseen
  · exact congrArg WalkState.visitor heq
  · exact hsame

/-- Visits occurrences in turn, whether or not the visitor goes on below them. -/
def visitEach (visit : Visitor σ) (s : σ) (os : List Occurrence) : σ :=
  os.foldl (fun s o => (visit s o.node o.parent o.level).1) s

theorem visitEach_cons (visit : Visitor σ) (s : σ) (o : Occurrence) (os : List Occurrence) :
    visitEach visit s (o :: os) =
      visitEach visit (visit s o.node o.parent o.level).1 os := rfl

/-- Entering occurrences in turn is visiting the first of every node that was not seen before. -/
theorem visitor_foldl_enterAlone (hlabels : ∀ x ∈ all, ∀ y ∈ all, x.id = y.id → x = y)
    {os : List Occurrence} (hos : ∀ o ∈ os, o.node ∈ all) (s : WalkState σ) :
    (os.foldl (enterAlone visit) s).visitor =
      visitEach visit s.visitor ((firsts os).filter fun o => o.node.id ∉ s.seen) := by
  induction os generalizing s with
  | nil => rfl
  | cons o os ih =>
    obtain ⟨ho, hos⟩ := List.forall_mem_cons.mp hos
    rw [List.foldl_cons, ih hos, firsts, List.filter_cons, List.filter_filter]
    by_cases h : o.node.id ∈ s.seen
    · -- occurrences of a node that was seen do not count anyway
      rw [enterAlone_of_seen h, if_neg (by simpa using h)]
      congr 1
      refine List.filter_congr fun p _ => ?_
      by_cases hp : p.node.id ∈ s.seen
      · simp [hp]
      · have hne : p.node ≠ o.node := fun heq => hp (heq ▸ h)
        simp [hp, hne]
    · rw [enterAlone_of_not_seen h, if_pos (by simpa using h), visitEach_cons]
      congr 1
      refine List.filter_congr fun p hp => ?_
      have hnode := hos p ((Occurrence.firsts_sublist os).subset hp)
      have hid : p.node = o.node ↔ p.node.id = o.node.id :=
        ⟨congrArg id, hlabels p.node hnode o.node ho⟩
      simp only [List.mem_cons, not_or, Bool.decide_and, hid, ne_eq, Bool.and_comm]

/-- A visitor that always goes on visits every node once, where it occurs first. -/
theorem walk_eq_visitEach_firsts {e : Expr} (hlabels : e.Labelled)
    (hvisit : ∀ s x parent level, (visit s x parent level).2 = true) (s : σ) :
    e.walk visit s = visitEach visit s (firsts e.occurrences) := by
  have hv : StopsForGood visit fun _ => False :=
    { stopped := fun h => Bool.noConfusion ((hvisit _ _ _ _).symm.trans h), kept := False.elim }
  rw [walk_eq_foldl_enterAlone hv hlabels,
    visitor_foldl_enterAlone hlabels fun _ => node_mem_nodes]
  simp

end Walks

/-! ### Validation -/

section Validation

variable {catalog : Catalog} {root : TypeDef}

theorem stopsForGood_checkVisitor :
    StopsForGood (checkVisitor catalog root) (fun s => ∃ fault, s = .error fault) where
  stopped := by
    intro s e parent level h
    rcases s with fault | ⟨⟩
    · exact ⟨fault, rfl⟩
    · unfold checkVisitor at h ⊢
      dsimp only at h ⊢
      split at h
      · cases h
      · rename_i fault _
        exact ⟨fault, rfl⟩
  kept := by
    rintro s ⟨fault, rfl⟩ e parent level
    rfl

/-- What was seen without a fault need not be checked again. -/
theorem foldl_enterAlone_checkVisitor {all : List Expr}
    (hlabels : ∀ x ∈ all, ∀ y ∈ all, x.id = y.id → x = y) {os : List Occurrence}
    (hos : ∀ o ∈ os, o.node ∈ all) {seen : List NodeId}
    (hseen : ∀ o ∈ os, o.node.id ∈ seen → o.node.checkNode catalog root = .ok ()) :
    (os.foldl (enterAlone (checkVisitor catalog root)) ⟨.ok (), seen⟩).visitor =
      (os.map (·.node)).forM (checkNode catalog root) := by
  induction os generalizing seen with
  | nil => rfl
  | cons o os ih =>
    obtain ⟨ho, hos⟩ := List.forall_mem_cons.mp hos
    obtain ⟨hoseen, hseen⟩ := List.forall_mem_cons.mp hseen
    rw [List.foldl_cons]
    change _ = (o.node.checkNode catalog root >>= fun _ => (os.map (·.node)).forM _)
    by_cases h : o.node.id ∈ seen
    · rw [enterAlone_of_seen h, hoseen h]
      exact ih hos hseen
    · rw [enterAlone_of_not_seen h]
      rcases hcheck : o.node.checkNode catalog root with fault | ⟨⟩
      · have hvisit : (checkVisitor catalog root (.ok ()) o.node o.parent o.level).1 =
            .error fault := by
          simp only [checkVisitor, hcheck]
        rw [stopsForGood_checkVisitor.foldl_enterAlone ⟨fault, hvisit⟩]
        exact hvisit
      · have hvisit : (checkVisitor catalog root (.ok ()) o.node o.parent o.level).1 = .ok () := by
          simp only [checkVisitor, hcheck]
        rw [hvisit]
        refine ih hos fun p hp hid => ?_
        rcases List.mem_cons.mp hid with hid | hid
        · rw [hlabels p.node (hos p hp) o.node ho hid, hcheck]
        · exact hseen p hp hid

/-- A predicate is checked as if every node were checked wherever it occurs. -/
theorem validate_eq_forM {e : Expr} (hlabels : e.Labelled) :
    e.validate catalog root =
      if e.isCondition then e.nodes.forM (checkNode catalog root)
      else .error (.notCondition e) := by
  have hentered : (e.occurrences.foldl (enterAlone (checkVisitor catalog root))
      ⟨.ok (), []⟩).visitor = (e.occurrences.map (·.node)).forM (checkNode catalog root) :=
    foldl_enterAlone_checkVisitor hlabels (fun _ => node_mem_nodes) fun _ _ hseen => by cases hseen
  rw [validate, walk_eq_foldl_enterAlone stopsForGood_checkVisitor hlabels, hentered,
    map_node_occurrences]

end Validation

/-! ### The unshared copy -/

@[simp] theorem numbered_numbered (e : Expr) (m n : NodeId) :
    (e.numbered m).numbered n = e.numbered n := by
  have hlength : ∀ (e : Expr) (n : NodeId), (e.numbered n).nodes.length = e.nodes.length := by
    intro e
    induction e <;> simp [numbered, nodes, *]
  induction e generalizing m n with
  | logical | arithmetic | relational => simp [numbered, *]
  | test | property | literal => rfl

theorem ids_numbered (e : Expr) (n : NodeId) :
    (e.numbered n).nodes.map id = List.range' n e.nodes.length := by
  induction e generalizing n with
  | logical _ op l r hl hr | arithmetic _ op l r hl hr =>
    simp [numbered, nodes, hl, hr, id, List.range'_succ, ← List.range'_append_1]
  | relational => simp [numbered, nodes, id, List.range'_succ, *]
  | test | property | literal => rfl

theorem nodup_ids_unshared (e : Expr) : (e.unshared.nodes.map id).Nodup := by
  rw [unshared, ids_numbered]
  exact List.nodup_range'

/-- Where every node has a label of its own, nodes of one label are one node. -/
theorem labelled_unshared (e : Expr) : e.unshared.Labelled :=
  fun _ hx _ hy => List.inj_on_of_nodup_map e.nodup_ids_unshared hx hy

@[simp] theorem unshared_numbered (e : Expr) (n : NodeId) : (e.numbered n).unshared = e.unshared :=
  numbered_numbered e n 0

theorem occurrencesFrom_numbered (e : Expr) (n : NodeId) {parent parent' : Option Expr}
    (hparent : parent'.map unshared = parent.map unshared) (level : Nat) :
    ((e.numbered n).occurrencesFrom parent' level).map Occurrence.unshared =
      (e.occurrencesFrom parent level).map Occurrence.unshared := by
  have hself := unshared_numbered e n
  have hbelow : (some (e.numbered n)).map unshared = (some e).map unshared := congrArg some hself
  induction e generalizing n parent parent' level with
  | logical i op l r hl hr | arithmetic i op l r hl hr =>
    rw [numbered] at hself hbelow ⊢
    simp [occurrencesFrom, Occurrence.unshared, hparent, hself,
      hl _ hbelow _ (unshared_numbered _ _), hr _ hbelow _ (unshared_numbered _ _)]
  | relational i op left l hleft =>
    rw [numbered] at hself hbelow ⊢
    simp [occurrencesFrom, Occurrence.unshared, hparent, hself,
      hleft _ hbelow _ (unshared_numbered _ _)]
  | test | property | literal =>
    rw [numbered] at hself ⊢
    simp [occurrencesFrom, Occurrence.unshared, hparent, hself]

/-! ### Checks regardless of labels -/

@[simp] theorem text_numbered (e : Expr) (n : NodeId) : (e.numbered n).text = e.text := by
  induction e generalizing n with
  | logical | arithmetic | relational => simp [numbered, text, *]
  | test | property | literal => rfl

@[simp] theorem isCondition_numbered (e : Expr) (n : NodeId) :
    (e.numbered n).isCondition = e.isCondition := by
  cases e <;> rfl

/-- The nodes of a copy are copies of the nodes, in the same order. -/
theorem forall₂_nodes_numbered (e : Expr) (n : NodeId) :
    List.Forall₂ (fun x y => ∃ m, y = x.numbered m) e.nodes (e.numbered n).nodes := by
  induction e generalizing n with
  | logical i op l r hl hr | arithmetic i op l r hl hr =>
    exact .cons ⟨n, rfl⟩ (List.rel_append (hl _) (hr _))
  | relational i op left l hleft => exact .cons ⟨n, rfl⟩ (hleft _)
  | test | property | literal => exact .cons ⟨n, rfl⟩ .nil

section Checks

variable {catalog : Catalog} {root : TypeDef}

/-- Messages show what a node is, but not its label. -/
theorem message_numbered (e : Expr) (n : NodeId) :
    (PlanFault.logicalOperand (e.numbered n)).message = (PlanFault.logicalOperand e).message ∧
      (PlanFault.comparedSide (e.numbered n)).message = (PlanFault.comparedSide e).message ∧
      (PlanFault.arithmeticOperand (e.numbered n)).message =
        (PlanFault.arithmeticOperand e).message ∧
      (PlanFault.notCondition (e.numbered n)).message = (PlanFault.notCondition e).message := by
  have htext := text_numbered e n
  refine ⟨?_, ?_, ?_, ?_⟩
  · exact congrArg ("logical operand is not a condition: " ++ ·) htext
  · exact congrArg ("left side of a comparison must be a property or arithmetic: " ++ ·) htext
  · exact congrArg ("invalid arithmetic operand: " ++ ·) htext
  · exact congrArg ("where clause is not a condition: " ++ ·) htext

theorem checkCondition_numbered (e : Expr) (n : NodeId) :
    ((e.numbered n).checkCondition).mapError PlanFault.message =
      e.checkCondition.mapError PlanFault.message := by
  unfold checkCondition
  rw [isCondition_numbered]
  split
  · rfl
  · exact congrArg Except.error (message_numbered e n).1

theorem checkOperand_numbered (e : Expr) (n : NodeId) :
    ((e.numbered n).checkOperand catalog root).mapError PlanFault.message =
      (e.checkOperand catalog root).mapError PlanFault.message := by
  obtain ⟨-, -, hmessage, -⟩ := message_numbered e n
  cases e with
  | logical | relational | test => exact congrArg Except.error hmessage
  | arithmetic | property | literal => simp only [numbered, checkOperand]

/-- A copy of a node passes the check that the node passes, and fails with the same message. -/
theorem checkNode_numbered (e : Expr) (n : NodeId) :
    ((e.numbered n).checkNode catalog root).mapError PlanFault.message =
      (e.checkNode catalog root).mapError PlanFault.message := by
  cases e with
  | logical i op l r =>
    simp only [numbered, checkNode]
    exact Outcome.mapError_bind_congr (checkCondition_numbered l _) (checkCondition_numbered r _)
  | arithmetic i op l r =>
    simp only [numbered, checkNode]
    exact Outcome.mapError_bind_congr (checkOperand_numbered l _) (checkOperand_numbered r _)
  | relational i op left l =>
    obtain ⟨-, hmessage, -, -⟩ := message_numbered left (n + 1)
    cases left with
    | logical | relational | test | literal => exact congrArg Except.error hmessage
    | arithmetic | property => simp only [numbered, checkNode]
  | test | property | literal => simp only [numbered, checkNode]

theorem forM_checkNode_copies {xs ys : List Expr}
    (h : List.Forall₂ (fun x y => ∃ n, y = x.numbered n) xs ys) :
    (ys.forM (checkNode catalog root)).mapError PlanFault.message =
      (xs.forM (checkNode catalog root)).mapError PlanFault.message := by
  induction h with
  | nil => rfl
  | cons hcopy _ ih =>
    obtain ⟨n, rfl⟩ := hcopy
    exact Outcome.mapError_bind_congr (checkNode_numbered _ n) ih

theorem validate_unshared {e : Expr} (hlabels : e.Labelled) :
    (e.unshared.validate catalog root).mapError PlanFault.message =
      (e.validate catalog root).mapError PlanFault.message := by
  rw [validate_eq_forM e.labelled_unshared, validate_eq_forM hlabels, unshared,
    isCondition_numbered]
  split
  · exact forM_checkNode_copies (forall₂_nodes_numbered e 0)
  · exact congrArg Except.error (message_numbered e 0).2.2.2

end Checks

theorem flatMap_ownProperties_numbered (e : Expr) (n : NodeId) :
    (e.numbered n).nodes.flatMap ownProperties = e.nodes.flatMap ownProperties := by
  induction e generalizing n with
  | logical | arithmetic | relational => simp [numbered, nodes, ownProperties, *]
  | test | property | literal => rfl

theorem mem_properties_unshared {e : Expr} (hlabels : e.Labelled) {p : Property} :
    p ∈ e.unshared.properties ↔ p ∈ e.properties := by
  rw [mem_properties_iff e.labelled_unshared, mem_properties_iff hlabels, ← List.mem_flatMap,
    ← List.mem_flatMap, unshared, flatMap_ownProperties_numbered]

/--
A tree may share its parts, and `e.unshared` is its copy that shares nothing. A visitor that always
goes on visits every node of the copy in pre-order, and every node of the tree once: where that
order first comes to it, at the depth of that place. Validation gives the same success or the same
message for the tree and for the copy, and both name the same properties.
-/
theorem walks_regardless_of_sharing {e : Expr} (hlabels : e.Labelled) :
    (e.unshared.nodes.map id).Nodup ∧
      e.unshared.occurrences.map Occurrence.unshared = e.occurrences.map Occurrence.unshared ∧
      (∀ (σ : Type) (visit : Visitor σ),
        (∀ s x parent level, (visit s x parent level).2 = true) → ∀ s,
          e.unshared.walk visit s = visitEach visit s e.unshared.occurrences ∧
            e.walk visit s = visitEach visit s (firsts e.occurrences)) ∧
      (firsts e.occurrences).Sublist e.occurrences ∧
      ((firsts e.occurrences).map (·.node)).Nodup ∧
      (∀ x, x ∈ (firsts e.occurrences).map (·.node) ↔ x ∈ e.nodes) ∧
      (∀ o, o ∈ firsts e.occurrences ↔
        e.occurrences.find? (fun p => p.node = o.node) = some o) ∧
      (∀ catalog root, (e.unshared.validate catalog root).mapError PlanFault.message =
        (e.validate catalog root).mapError PlanFault.message) ∧
      ∀ p, p ∈ e.unshared.properties ↔ p ∈ e.properties := by
  refine ⟨e.nodup_ids_unshared, occurrencesFrom_numbered e 0 rfl 0, ?_,
    Occurrence.firsts_sublist _, Occurrence.nodup_firsts _, fun x => ?_,
    fun o => Occurrence.mem_firsts_iff, fun _ _ => validate_unshared hlabels,
    fun _ => mem_properties_unshared hlabels⟩
  · intro σ visit hvisit s
    rw [walk_eq_visitEach_firsts e.labelled_unshared hvisit,
      walk_eq_visitEach_firsts hlabels hvisit, Occurrence.firsts_of_nodup]
    · exact ⟨rfl, rfl⟩
    · rw [map_node_occurrences]
      exact e.nodup_ids_unshared.of_map
  · rw [Occurrence.mem_map_firsts_iff, map_node_occurrences]

/-- One condition in three places. -/
def repeated : Expr :=
  let named := relational 2 .eq (property 3 ⟨[], "name", []⟩) (.text "ann")
  logical 0 .or (logical 1 .and named named) named

/-- The condition and its property are visited once, where they are deepest. -/
theorem walk_repeated :
    repeated.Labelled ∧
      repeated.walk (fun seen x _ level => (seen ++ [(x.id, level)], true)) [] =
        [(0, 0), (1, 1), (2, 2), (3, 3)] := by
  have hlabels : repeated.Labelled := by decide +kernel
  obtain ⟨-, -, hwalk, -⟩ := walks_regardless_of_sharing hlabels
  exact ⟨hlabels, (hwalk _ _ (fun _ _ _ _ => rfl) []).2.trans (by decide +kernel)⟩

end GraphTable.Expr
