import GraphTable.Proofs.Build.Completeness
import GraphTable.Proofs.Results.Feeding

/-!
# Graphs do not depend on those built before

While the graph of a row is built, the numbers of the objects that were linked are noted, and they
mean nothing for the graph of the next row. What a build takes over from the builds before it are
these numbers and the number of rows that were looked up. The latter has no influence on any step
(`Linking.IgnoresLookups`, `GraphSource.build_congr`), and an assembler clears the former after each
build, also if it failed. So whatever an assembler was asked before, every graph and every error
that it obtains for a row is the one that the row alone leads to (`GraphSource.recorded_alone`).
-/

namespace GraphTable

/-! ### Steps do not depend on how many rows were looked up -/

/-- The same was built and linked; how many rows were looked up may differ. -/
structure Building.Alike (s s' : Building) : Prop where
  graph : s.graph = s'.graph
  nodes : s.linked.nodes = s'.linked.nodes

namespace Building.Alike

variable {s s' : Building}

theorem looked (h : s.Alike s') : s.looked.Alike s'.looked :=
  ⟨h.graph, h.nodes⟩

theorem add (h : s.Alike s') (key : Bytes) (n : Node) : (s.add key n).Alike (s'.add key n) := by
  obtain ⟨g, nodes, lookups⟩ := s
  obtain ⟨g', nodes', lookups'⟩ := s'
  obtain ⟨rfl, rfl⟩ := h
  exact ⟨rfl, rfl⟩

theorem setField (h : s.Alike s') (i : Nat) (property : String) (content : Field) :
    (s.setField i property content).Alike (s'.setField i property content) :=
  ⟨congrArg (Graph.modify · i (·.set property content)) h.graph, h.nodes⟩

end Building.Alike

namespace Linking

variable {α β : Type} {x : Linking α} {f : α → Linking β}

/-- Two runs of a step end in the same way. -/
inductive EndsAlike : EStateM.Result QueryError Building α →
    EStateM.Result QueryError Building α → Prop
  | ok {a : α} {s s' : Building} (h : s.Alike s') : EndsAlike (.ok a s) (.ok a s')
  | error {e : QueryError} {s s' : Building} (h : s.Alike s') :
      EndsAlike (.error e s) (.error e s')

/-- What a step does is not affected by how many rows were looked up. -/
def IgnoresLookups (x : Linking α) : Prop :=
  ∀ s s', s.Alike s' → EndsAlike (x s) (x s')

theorem ignoresLookups_pure (a : α) : IgnoresLookups (pure a : Linking α) :=
  fun _ _ h => .ok h

theorem ignoresLookups_throw (e : QueryError) : IgnoresLookups (throw e : Linking α) :=
  fun _ _ h => .error h

theorem ignoresLookups_setField (i : Nat) (property : String) (content : Field) :
    IgnoresLookups (modify (·.setField i property content) : Linking Unit) :=
  fun _ _ h => .ok (h.setField i property content)

theorem IgnoresLookups.bind (hx : IgnoresLookups x) (hf : ∀ a, IgnoresLookups (f a)) :
    IgnoresLookups (x >>= f) := by
  intro s s' h
  have hends := hx s s' h
  generalize hs : x s = ended at hends
  generalize hs' : x s' = ended' at hends
  cases hends with
  | ok h₁ =>
    rw [bind_of_ok hs, bind_of_ok hs']
    exact hf _ _ _ h₁
  | error h₁ =>
    rw [bind_of_error hs, bind_of_error hs']
    exact .error h₁

theorem ignoresLookups_forM {g : α → Linking Unit} (hg : ∀ a, IgnoresLookups (g a))
    (as : List α) : IgnoresLookups (as.forM g) := by
  induction as with
  | nil => exact ignoresLookups_pure ()
  | cons a as ih => exact (hg a).bind fun _ => ih

end Linking

namespace GraphSource

open Linking

section Steps

variable {b : GraphSource} {expand : Nat → Row → TypeDef → Linking Unit}

theorem ignoresLookups_addNode (key : Bytes) (r : Row) (t : TypeDef) :
    IgnoresLookups (b.addNode key r t) := by
  intro s s' h
  cases hnode : Build.node b.family r t with
  | error fault =>
    rw [addNode_of_error hnode, addNode_of_error hnode]
    exact .error h
  | ok n =>
    rw [addNode_of_ok hnode, addNode_of_ok hnode, h.graph]
    exact .ok (h.add key n)

theorem ignoresLookups_linkKey (hexpand : ∀ i r t, IgnoresLookups (expand i r t)) (type : TypeDef)
    (key : Bytes) : IgnoresLookups (b.linkKey expand type key) := by
  intro s s' h
  cases hknown : s.linked.nodes.lookup key with
  | some i =>
    rw [linkKey_of_known hknown, linkKey_of_known (h.nodes ▸ hknown)]
    exact .ok h
  | none =>
    -- the objects are the same in both, so the key is new to both
    rw [linkKey_of_new hknown, linkKey_of_new (h.nodes ▸ hknown)]
    cases b.row? key with
    | error reason => exact .error h.looked
    | ok row =>
      cases row with
      | none => exact .ok h.looked
      | some r =>
        have hadded : ∀ i, IgnoresLookups
            (expand i r type >>= fun _ => return some i : Linking (Option Nat)) :=
          fun i => (hexpand i r type).bind fun _ => ignoresLookups_pure (some i)
        exact (ignoresLookups_addNode key r type).bind hadded _ _ h.looked

theorem ignoresLookups_linkKeys (hexpand : ∀ i r t, IgnoresLookups (expand i r t))
    (type : TypeDef) (keys : List Bytes) : IgnoresLookups (b.linkKeys expand type keys) := by
  induction keys with
  | nil => exact ignoresLookups_pure []
  | cons key keys ih =>
    refine (ignoresLookups_linkKey hexpand type key).bind fun found => ?_
    exact ih.bind fun others => ignoresLookups_pure (found.toList ++ others)

theorem ignoresLookups_linkProperty (hexpand : ∀ i r t, IgnoresLookups (expand i r t)) (i : Nat)
    (r : Row) (t : TypeDef) (p : PropertyDef) :
    IgnoresLookups (b.linkProperty expand i r t p) := by
  unfold linkProperty
  cases p.kind with
  | data type => exact ignoresLookups_pure ()
  | reference target =>
    cases Edges.exist r (b.placeOf t p) with
    | false => exact ignoresLookups_pure ()
    | true =>
      dsimp only
      rw [if_pos rfl]
      cases b.edgesOf r t p target with
      | error e => exact ignoresLookups_throw e
      | ok read =>
        obtain ⟨edges, type⟩ := read
        refine (ignoresLookups_linkKeys hexpand type edges.rowKeys).bind fun found => ?_
        cases fieldOf p.many found with
        | none => exact ignoresLookups_pure ()
        | some content => exact ignoresLookups_setField i p.name content

theorem ignoresLookups_link (hops i : Nat) (r : Row) (t : TypeDef) :
    IgnoresLookups (b.link hops i r t) := by
  induction hops generalizing i r t with
  | zero => exact ignoresLookups_pure ()
  | succ hops ih =>
    exact ignoresLookups_forM (fun p => ignoresLookups_linkProperty ih i r t p) t.properties

end Steps

/-- Two builds of a row that start with the same objects linked give the same graph or error. -/
theorem build_congr (b : GraphSource) {l l' : Linked} (h : l.nodes = l'.nodes) (r : Row) :
    (b.build l r).1 = (b.build l' r).1 := by
  unfold build
  cases Build.node b.family r b.root with
  | error fault => rfl
  | ok n =>
    have halike : (⟨.single r.key n, l.insert r.key 0⟩ : Building).Alike
        ⟨.single r.key n, l'.insert r.key 0⟩ := by
      refine ⟨rfl, ?_⟩
      simp only [Linked.insert, h]
    have hends := ignoresLookups_link (b := b) b.depth 0 r b.root _ _ halike
    dsimp only
    generalize b.link b.depth 0 r b.root ⟨.single r.key n, l.insert r.key 0⟩ = ended at hends
    generalize b.link b.depth 0 r b.root ⟨.single r.key n, l'.insert r.key 0⟩ = ended' at hends
    cases hends with
    | ok hafter => exact congrArg Except.ok hafter.graph
    | error hafter => rfl

/-- The graph of a row, or the error, when nothing was built before. -/
def alone (b : GraphSource) (r : Row) : Except QueryError Graph :=
  (b.build .empty r).1

end GraphSource

/-! ### Assemblers with different builders -/

section Builders

variable {σ τ α : Type}

namespace GraphBuilder

/-- Two builders obtain the same from related states, which are related again when the builds were
cleared. -/
def Matches (builder : GraphBuilder σ) (builder' : GraphBuilder τ) (R : σ → τ → Prop) : Prop :=
  ∀ x y r, R x y → (builder'.build y r).1 = (builder.build x r).1 ∧
    R (builder.clear (builder.build x r).2) (builder'.clear (builder'.build y r).2)

/-- Builds the same, and keeps a record of what was obtained for which row. -/
def recorded (builder : GraphBuilder σ) :
    GraphBuilder (σ × List (Row × Except QueryError Graph)) where
  build x r :=
    let (built, left) := builder.build x.1 r
    (built, left, x.2 ++ [(r, built)])
  clear x := (builder.clear x.1, x.2)

end GraphBuilder

namespace Assembly

/-- The same assembly with another state of the builder. -/
def withBuilder (s : Assembly σ) (y : τ) : Assembly τ :=
  { s with builder := y }

/-- Two steps end in the same way, but for the states of the builders, which are related. -/
def EndRelated (R : σ → τ → Prop) (ended : α × Assembly σ) (ended' : α × Assembly τ) : Prop :=
  ∃ y, R ended.2.builder y ∧ ended' = (ended.1, ended.2.withBuilder y)

end Assembly

namespace Assembler

open Assembly

/-- The same assembler with another builder. -/
def withBuilder (a : Assembler σ) (builder : GraphBuilder τ) : Assembler τ :=
  { a with builder }

variable {a : Assembler σ} {builder : GraphBuilder τ} {R : σ → τ → Prop}

theorem enter?_withBuilder (s : Assembly σ) (key : Bytes) (y : τ) :
    (s.withBuilder y).enter? key = (s.enter? key).map (·.withBuilder y) := by
  obtain ⟨x, seen, graphs, accepted, retained, ignored, unrecognized⟩ := s
  cases seen with
  | none => rfl
  | some keys =>
    change (if keys.contains key then none else _) = (if keys.contains key then none else _).map _
    cases keys.contains key <;> rfl

theorem endRelated_build (hmatch : a.builder.Matches builder R) (r : Row) {s : Assembly σ} {y : τ}
    (h : R s.builder y) :
    EndRelated R (a.build s r) ((a.withBuilder builder).build (s.withBuilder y) r) := by
  obtain ⟨hsame, hleft⟩ := hmatch s.builder y r h
  refine ⟨builder.clear (builder.build y r).2, hleft, ?_⟩
  exact congrArg (·, (a.build s r).2.withBuilder (builder.clear (builder.build y r).2)) hsame

/-- Judging what was built does not touch the builder. -/
theorem endRelated_judge {ended : Except QueryError Graph × Assembly σ}
    {ended' : Except QueryError Graph × Assembly τ} (h : EndRelated R ended ended') :
    EndRelated R (a.judge ended.2 ended.1) ((a.withBuilder builder).judge ended'.2 ended'.1) := by
  obtain ⟨built, s⟩ := ended
  obtain ⟨y, h, rfl⟩ := h
  cases built with
  | error e => exact ⟨y, h, rfl⟩
  | ok g =>
    have hsame : (a.withBuilder builder).recognizes g = a.recognizes g := rfl
    unfold judge
    simp only [hsame]
    cases a.recognizes g with
    | error e => exact ⟨y, h, rfl⟩
    | ok recognized =>
      cases recognized with
      | false => exact ⟨y, h, rfl⟩
      | true =>
        have hwindow : (a.withBuilder builder).window = a.window := rfl
        have haccepted : (s.withBuilder y).accepted = s.accepted := rfl
        simp only [accept, hwindow, haccepted]
        cases a.window.contains (s.accepted + 1) with
        | false => exact ⟨y, h, rfl⟩
        | true => exact ⟨y, h, rfl⟩

theorem endRelated_collect (hmatch : a.builder.Matches builder R) (r : Row) {s : Assembly σ} {y : τ}
    (h : R s.builder y) :
    EndRelated R (a.collect s r) ((a.withBuilder builder).collect (s.withBuilder y) r) := by
  have hdeleted : (a.withBuilder builder).isDeleted r = a.isDeleted r := rfl
  unfold collect
  rw [hdeleted, enter?_withBuilder]
  cases a.isDeleted r with
  | true => exact ⟨y, h, rfl⟩
  | false =>
    cases henter : s.enter? r.key with
    | none => exact ⟨y, h, rfl⟩
    | some s₁ =>
      obtain ⟨seen, rfl⟩ := enter?_eq_some henter
      have hpasses :
          (a.withBuilder builder).passesOver (({ s with seen } : Assembly σ).withBuilder y) =
            a.passesOver { s with seen } := rfl
      simp only [Option.map_some, hpasses]
      cases a.passesOver { s with seen } with
      | true => exact ⟨y, h, rfl⟩
      | false =>
        have hbuild := endRelated_build hmatch r (s := { s with seen }) h
        exact endRelated_judge hbuild

end Assembler

end Builders

/-! ### Assemblers that are asked one thing after the other -/

namespace Assembler

variable {σ τ : Type}

/-- What an assembler may be asked for. -/
inductive Call
  | collect (r : Row)
  | pop
  | drain

/-- What an assembler answers. -/
inductive Reply
  | collected (kept : Except QueryError Bool)
  | popped (ready : Option Graph)
  | drained (graphs : List Graph)

/-- The answer to one call, and the state after it. -/
def call (a : Assembler σ) (s : Assembly σ) : Call → Reply × Assembly σ
  | .collect r => (a.collect s r).map .collected id
  | .pop =>
    match a.pop? s with
    | some (g, s) => (.popped (some g), s)
    | none => (.popped none, s)
  | .drain => (a.drain s).map .drained id

/-- The answers to some calls, and the state after all of them. -/
def run (a : Assembler σ) : List Call → Assembly σ → List Reply × Assembly σ
  | [], s => ([], s)
  | c :: calls, s =>
    let (reply, s) := a.call s c
    let (replies, s) := a.run calls s
    (reply :: replies, s)

variable {a : Assembler σ} {builder : GraphBuilder τ} {R : σ → τ → Prop}

open Assembly

theorem endRelated_call (hmatch : a.builder.Matches builder R) (c : Call) {s : Assembly σ} {y : τ}
    (h : R s.builder y) :
    EndRelated R (a.call s c) ((a.withBuilder builder).call (s.withBuilder y) c) := by
  cases c with
  | collect r =>
    obtain ⟨y', h', hcollect⟩ := endRelated_collect hmatch r h
    refine ⟨y', h', ?_⟩
    rw [call, call, hcollect]
    rfl
  | pop =>
    obtain ⟨x, seen, graphs, accepted, retained, ignored, unrecognized⟩ := s
    obtain ⟨aBuilder, tombstone, recognizer, order, window⟩ := a
    cases order with
    | some compare => exact ⟨y, h, rfl⟩
    | none =>
      cases graphs with
      | nil => exact ⟨y, h, rfl⟩
      | cons g gs => exact ⟨y, h, rfl⟩
  | drain => exact ⟨y, h, rfl⟩

theorem endRelated_run (hmatch : a.builder.Matches builder R) (calls : List Call) {s : Assembly σ}
    {y : τ} (h : R s.builder y) :
    EndRelated R (a.run calls s) ((a.withBuilder builder).run calls (s.withBuilder y)) := by
  induction calls generalizing s y with
  | nil => exact ⟨y, h, rfl⟩
  | cons c calls ih =>
    obtain ⟨y₁, h₁, hcall⟩ := endRelated_call hmatch c h
    obtain ⟨y₂, h₂, hrun⟩ := ih h₁
    refine ⟨y₂, h₂, ?_⟩
    rw [run, run, hcall]
    simp only [hrun]

end Assembler

namespace GraphSource

variable {σ : Type}

/-- What some calls of an assembler come to, with a record of what was obtained for which row. -/
def traced (b : GraphSource) (a : Assembler σ) (distinct : Bool) (calls : List Assembler.Call) :
    List Assembler.Reply × Assembly (Linked × List (Row × Except QueryError Graph)) :=
  (a.withBuilder b.builder.recorded).run calls (.start (.empty, []) distinct)

/-- Between two builds nothing is linked, and the record says of each row what it leads to. -/
structure Cleared (b : GraphSource) (x : Linked × List (Row × Except QueryError Graph))
    (l : Linked) : Prop where
  same : x.1 = l
  nodes : l.nodes = []
  record : ∀ r built, (r, built) ∈ x.2 → built = b.alone r

theorem cleared_empty (b : GraphSource) : b.Cleared (.empty, []) .empty :=
  ⟨rfl, rfl, fun _ _ h => absurd h List.not_mem_nil⟩

/-- A build that starts with nothing linked ends so, also if it fails. -/
theorem matches_recorded (b : GraphSource) :
    b.builder.recorded.Matches b.builder b.Cleared := by
  rintro ⟨l, record⟩ _ r ⟨rfl, hnodes, hrecord⟩
  refine ⟨rfl, rfl, rfl, fun r' built hmem => ?_⟩
  rcases List.mem_append.mp hmem with hmem | hmem
  · exact hrecord r' built hmem
  · obtain ⟨rfl, rfl⟩ := Prod.mk.inj (List.mem_singleton.mp hmem)
    exact b.build_congr hnodes r'

/--
Whatever an assembler was asked before, what it obtains for a row is what the row alone leads to,
be it a graph or an error. The record of what it obtains changes nothing else.
-/
theorem recorded_alone (b : GraphSource) (a : Assembler σ) (distinct : Bool)
    (calls : List Assembler.Call) :
    (a.withBuilder b.builder).run calls (.start .empty distinct) =
        ((b.traced a distinct calls).1,
          (b.traced a distinct calls).2.withBuilder (b.traced a distinct calls).2.builder.1) ∧
      ∀ r built, (r, built) ∈ (b.traced a distinct calls).2.builder.2 → built = b.alone r := by
  obtain ⟨l, ⟨rfl, -, hrecord⟩, hrun⟩ :=
    Assembler.endRelated_run (a := a.withBuilder b.builder.recorded) b.matches_recorded calls
      (s := .start (.empty, []) distinct) b.cleared_empty
  exact ⟨hrun, hrecord⟩

end GraphSource

/-! ### A friend that cannot be read -/

namespace Friends

/-- The same friends, but the row of the fourth person cannot be read. -/
def broken : GraphSource :=
  { source with source := source.source.failingAt ⟨[], [], [[4]]⟩ }

/-- What makes results of all rows. -/
def everyone : Assembler Linked := ⟨broken.builder, none, none, none, .all⟩

/-- The second person comes in, then the first one. -/
def calls : List Assembler.Call := [.collect (row 2 "bob" [3]), .collect (row 1 "ann" [2, 3])]

/-- The graph of the second person fails when two objects are linked already. -/
theorem traced_broken :
    (broken.traced everyone true calls).2.builder.2 =
      [(row 2 "bob" [3], .error (.io "get 04 failed")), (row 1 "ann" [2, 3], .ok graph)] := by
  rfl

/-- Both objects are friends of the first person, whose graph is not affected. -/
theorem alone_of_traced_broken :
    (row 2 "bob" [3], .error (.io "get 04 failed")) ∈
        (broken.traced everyone true calls).2.builder.2 ∧
      (row 1 "ann" [2, 3], .ok graph) ∈ (broken.traced everyone true calls).2.builder.2 ∧
      .error (.io "get 04 failed") = broken.alone (row 2 "bob" [3]) ∧
      .ok graph = broken.alone (row 1 "ann" [2, 3]) := by
  have hfailed : (row 2 "bob" [3], .error (.io "get 04 failed")) ∈
      (broken.traced everyone true calls).2.builder.2 := by
    rw [traced_broken]
    exact List.mem_cons_self
  have hbuilt : (row 1 "ann" [2, 3], .ok graph) ∈
      (broken.traced everyone true calls).2.builder.2 := by
    rw [traced_broken]
    exact List.mem_cons_of_mem _ List.mem_cons_self
  have halone := (broken.recorded_alone everyone true calls).2
  exact ⟨hfailed, hbuilt, halone _ _ hfailed, halone _ _ hbuilt⟩

set_option maxRecDepth 10000 in
/-- Without clearing, the first person would be linked to itself. -/
example : (broken.build (broken.build .empty (row 2 "bob" [3])).2 (row 1 "ann" [2, 3])).1 =
    .ok ⟨[1], ⟨"Person", [("friends", .many [0, 1]), ("name", .value (.string "ann"))]⟩, []⟩ := by
  rfl

end Friends

end GraphTable
