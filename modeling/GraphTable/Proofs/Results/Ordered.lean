import GraphTable.Proofs.Results.Failure
import GraphTable.Proofs.Results.Opening
import GraphTable.Proofs.Results.Order

/-!
# Ordered results

Where results are ordered, the graphs of the window are kept until all rows were taken in, and then
they are sorted. The window counts graphs in the order in which their rows **arrive**, so which
graphs are kept has nothing to do with the order (`Assembler.kept`), and sorting only rearranges
them. A stream may stop before all rows were read, but then its window is over and no later row
brings a graph (`Assembler.kept_of_isOver`).

`ResultOrder.isSorting_results` puts this together with what is known of the order of graphs.
-/

namespace GraphTable

variable {σ : Type}

/-! ### The graphs of a window -/

namespace Assembler

variable {a : Assembler σ} {s : Assembly σ} {r : Row}

/-- A graph that was built and is recognized comes into the window if the number that is next is
wanted. -/
def wanted (a : Assembler σ) (s : Assembly σ) : Except QueryError Graph → List Graph
  | .error _ => []
  | .ok g =>
    match a.recognizes g with
    | .ok true => if a.window.contains (s.accepted + 1) then [g] else []
    | _ => []

/-- The graph that a row brings into the window, if the row is not marked as deleted and its key did
not come before. -/
def brought (a : Assembler σ) (s : Assembly σ) (r : Row) : List Graph :=
  if a.isDeleted r || s.repeats r.key then [] else a.wanted s (a.builder.build s.builder r).1

/-- The graphs that rows bring into the window, in the order of the rows. -/
def kept (a : Assembler σ) : Assembly σ → List Row → List Graph
  | _, [] => []
  | s, r :: rows => a.brought s r ++ a.kept (a.collect s r).2 rows

theorem wanted_eq_nil (h : a.window.contains (s.accepted + 1) = false)
    (built : Except QueryError Graph) : a.wanted s built = [] := by
  rcases built with e | g
  · rfl
  · rw [wanted, h]
    split <;> rfl

theorem graphs_judge (a : Assembler σ) (s : Assembly σ) (built : Except QueryError Graph) :
    (a.judge s built).2.graphs = s.graphs ++ a.wanted s built := by
  rcases built with e | g
  · exact (List.append_nil _).symm
  · rw [judge, wanted]
    obtain e | _ | _ := a.recognizes g
    · exact (List.append_nil _).symm
    · exact (List.append_nil _).symm
    · unfold accept
      dsimp only
      split
      · rfl
      · exact (List.append_nil _).symm

theorem graphs_assess (a : Assembler σ) (s : Assembly σ) (r : Row) :
    (a.assess s r).2.graphs = s.graphs ++ a.wanted s (a.builder.build s.builder r).1 := by
  unfold assess
  split
  · rename_i hpasses
    rw [passesOver, Bool.and_eq_true, Bool.not_eq_true'] at hpasses
    rw [wanted_eq_nil hpasses.2]
    exact (List.append_nil _).symm
  · exact a.graphs_judge _ _

/-- A row leaves the graphs that are kept as they are, and puts the one that it brings behind. -/
theorem graphs_collect (a : Assembler σ) (s : Assembly σ) (r : Row) :
    (a.collect s r).2.graphs = s.graphs ++ a.brought s r := by
  unfold brought
  cases hdeleted : a.isDeleted r with
  | true =>
    rw [collect_of_isDeleted hdeleted]
    exact (List.append_nil _).symm
  | false =>
    cases hrepeats : s.repeats r.key with
    | true =>
      rw [collect_of_repeats hrepeats]
      exact (List.append_nil _).symm
    | false => rw [collect_eq_assess hdeleted hrepeats, graphs_assess]; rfl

theorem graphs_takeAll (a : Assembler σ) (s : Assembly σ) (rows : List Row) :
    (a.takeAll s rows).graphs = s.graphs ++ a.kept s rows := by
  induction rows generalizing s with
  | nil => exact (List.append_nil _).symm
  | cons r rows ih =>
    change (a.takeAll (a.collect s r).2 rows).graphs = _
    rw [ih, graphs_collect, kept, List.append_assoc]

theorem kept_append (a : Assembler σ) (s : Assembly σ) (rows more : List Row) :
    a.kept s (rows ++ more) = a.kept s rows ++ a.kept (a.takeAll s rows) more := by
  induction rows generalizing s with
  | nil => rfl
  | cons r rows ih =>
    rw [List.cons_append, kept, ih, kept, List.append_assoc]
    rfl

/-- Once the window is over, no row brings a graph into it. -/
theorem kept_of_isOver (h : a.isOver s = true) (rows : List Row) : a.kept s rows = [] := by
  induction rows generalizing s with
  | nil => rfl
  | cons r rows ih =>
    have hout : a.window.contains (s.accepted + 1) = false :=
      Window.contains_of_not_reaches (Window.reaches_of_isOver h (Nat.le_refl _))
    have hbrought : a.brought s r = [] := by
      rw [brought, wanted_eq_nil hout]
      exact ite_self _
    have hover : a.isOver (a.collect s r).2 = true :=
      Window.isOver_of_le (a.accepted_le_collect s r) h
    rw [kept, hbrought, ih hover, List.append_nil]

end Assembler

/-! ### The rows of streams -/

/-- Rows of a scan are taken in up to the end of the window. -/
theorem Collecting.exists_takeAll {t : Collecting σ} {rows : List (Answer Row)}
    {s s' : Assembly σ} (h : t.takeRows rows s = (.ok (), s')) :
    ∃ front rest, rows = front.map .ok ++ rest ∧ t.assembler.takeAll s front = s' ∧
      (rest = [] ∨ t.assembler.isOver s' = true) := by
  fun_induction takeRows t rows s with
  | case1 s =>
    cases h
    exact ⟨[], [], rfl, rfl, .inl rfl⟩
  | case2 row rows s hover =>
    cases h
    exact ⟨[], row :: rows, rfl, rfl, .inr hover⟩
  | case3 => cases h
  | case4 => cases h
  | case5 rows s hover row _ s₁ hcollect ih =>
    obtain ⟨front, rest, hrows, htake, hend⟩ := ih h
    refine ⟨row :: front, rest, by rw [hrows]; rfl, ?_, hend⟩
    exact (Assembler.takeAll_cons_of_collect hcollect front).trans htake

namespace Streaming

variable {t : Streaming σ}

/-- Scans that are collected without a failure bring what all their rows bring. -/
theorem graphs_of_takeScans {scans : List Scan} (hpoints : ∀ x ∈ scans, x.isPoint = false)
    {c c' : Collection σ} (h : t.collecting.takeScans scans c = (.ok (), c')) :
    c'.assembly.graphs =
      c.assembly.graphs ++ t.assembler.kept c.assembly (t.rowsOf c.asked scans) := by
  induction scans generalizing c with
  | nil =>
    cases h
    exact (List.append_nil _).symm
  | cons scan scans ih =>
    obtain ⟨hscan, hpoints⟩ := List.forall_mem_cons.mp hpoints
    cases hover : t.assembler.isOver c.assembly with
    | true =>
      rw [takeScans_of_isOver hover] at h
      cases h
      rw [Assembler.kept_of_isOver hover, List.append_nil]
    | false =>
      rw [takeScans_of_openScan hover hscan] at h
      rw [rowsOf]
      rcases hopened : t.source.openScan c.asked scan t.columns with reason | rows
      · rw [hopened] at h
        cases h
      · rw [hopened] at h
        dsimp only at h ⊢
        rcases htake : t.collecting.takeRows rows c.assembly with ⟨_ | ⟨⟩, s⟩
        · rw [htake] at h
          cases h
        · rw [htake] at h
          obtain ⟨front, rest, hfront, hs, hend⟩ := Collecting.exists_takeAll htake
          have hs : t.assembler.takeAll c.assembly front = s := hs
          have hgraphs : c'.assembly.graphs =
              s.graphs ++ t.assembler.kept s (t.rowsOf (c.asked + 1) scans) := ih hpoints h
          have hfirst : s.graphs = c.assembly.graphs ++ t.assembler.kept c.assembly front :=
            hs ▸ t.assembler.graphs_takeAll c.assembly front
          -- rows that are left unread come after the end of the window
          have hunread : t.assembler.kept s (readable rest ++ t.rowsOf (c.asked + 1) scans) =
              t.assembler.kept s (t.rowsOf (c.asked + 1) scans) := by
            rcases hend with rfl | hend
            · rfl
            · have hend : t.assembler.isOver s = true := hend
              rw [Assembler.kept_of_isOver hend, Assembler.kept_of_isOver hend]
          rw [hgraphs, hfirst, hfront, readable_append, List.append_assoc, List.append_assoc,
            Assembler.kept_append, hs, hunread]

/-- A stream of ordered results yields the graphs of its window sorted if collecting them succeeds,
and nothing but the error if it fails. -/
theorem yields_sorted {cmp : Graph → Graph → Ordering} (horder : t.assembler.order = some cmp)
    (b : σ) {scans : List Scan} (asked : Nat) (hpoints : ∀ x ∈ scans, x.isPoint = false) :
    let kept := t.assembler.kept (.start b (1 < scans.length)) (t.rowsOf asked scans)
    let sorted := StableSort.sort cmp kept
    let collected := (t.collecting.run b scans asked).1
    collected = .ok sorted ∧ t.Yields (.start b scans asked) (sorted.map .ok) ∨
      ∃ e, collected = .error e ∧ t.Yields (.start b scans asked) [.error e] := by
  intro kept sorted collected
  obtain ⟨gs, hgs, hyields⟩ | ⟨e, gs, he, hyields, hnone⟩ :=
    t.yields_start_as_collected b asked hpoints
  · have hcollected := Collecting.run_eq t.collecting b scans asked
    rw [hcollected] at hgs
    rcases htake : t.collecting.takeScans scans ⟨.start b (1 < scans.length), asked, 0⟩ with
      ⟨e | ⟨⟩, c⟩
    · rw [htake] at hgs
      cases hgs
    · have hgraphs : c.assembly.graphs = kept := graphs_of_takeScans hpoints htake
      have hresults : t.assembler.results c.assembly = sorted := by
        rw [Assembler.results, horder, hgraphs]
      rw [htake] at hgs hcollected
      obtain rfl : sorted = gs := hresults.symm.trans (Except.ok.inj hgs)
      exact .inl ⟨(congrArg Prod.fst hcollected).trans hgs, hyields⟩
  · rw [horder] at hnone
    obtain rfl : gs = [] := hnone
    exact .inr ⟨e, he, hyields⟩

end Streaming

namespace ResultOrder

open StableSort

variable {root : TypeDef} {items : List OrderItem} {o : ResultOrder}

theorem isSorting_sort_of_fits (h : create root items = .ok o) {gs : List Graph}
    (hgs : ∀ g ∈ gs, o.Fits root g) : IsSorting o.compare gs (sort o.compare gs) :=
  isSorting_sort fun a ha b hb => compare_eq_placeOrder h (hgs a ha) (hgs b hb)

/--
Ordering by properties that are single data properties of a type, for graphs whose values have the
variants of the declared types where they are set. The comparison is a preorder, in which a property
that is not set comes first, or last if the order is downward. Whatever rows come in, the results
and what is drained are the graphs that the rows bring into the window, in order, and those that
compare as equal stay as they arrived. Where collecting scans succeeds, a stream of them yields
their graphs in this way too, and where it fails, the stream yields the error alone.
-/
theorem results_sorted (hcreate : create root items = .ok o) :
    (∀ a b, o.Fits root a → o.Fits root b → o.compare b a = (o.compare a b).swap) ∧
      (∀ a b c, o.Fits root a → o.Fits root b → o.Fits root c → (o.compare a b).isLE = true →
        (o.compare b c).isLE = true → (o.compare a c).isLE = true) ∧
      (∀ before i after a b v, items = before ++ i :: after → compareBy before a b = .eq →
        i.value? a = none → i.value? b = some v →
          o.compare a b = if i.descending then .gt else .lt) ∧
      ∀ {σ : Type} (t : Streaming σ), t.assembler.order = some o.compare →
        (∀ s rows, s.graphs = [] → (∀ g ∈ t.assembler.kept s rows, o.Fits root g) →
          let kept := t.assembler.kept s rows
          let after := t.assembler.takeAll s rows
          IsSorting o.compare kept (t.assembler.results after) ∧
            IsSorting o.compare kept (t.assembler.drain after).1) ∧
        ∀ b scans asked, (∀ x ∈ scans, x.isPoint = false) →
          let kept := t.assembler.kept (.start b (1 < scans.length)) (t.rowsOf asked scans)
          let collected := (t.collecting.run b scans asked).1
          (∀ g ∈ kept, o.Fits root g) →
            (∃ gs, collected = .ok gs ∧ t.Yields (.start b scans asked) (gs.map .ok) ∧
              IsSorting o.compare kept gs) ∨
            ∃ e, collected = .error e ∧ t.Yields (.start b scans asked) [.error e] := by
  refine ⟨fun a b ha hb => ?_, fun a b c ha hb hc hab hbc => ?_, ?_, fun t horder => ⟨?_, ?_⟩⟩
  · rw [compare_eq_placeOrder hcreate hb ha, compare_eq_placeOrder hcreate ha hb]
    exact Std.OrientedCmp.eq_swap
  · rw [compare_eq_placeOrder hcreate ha hb] at hab
    rw [compare_eq_placeOrder hcreate hb hc] at hbc
    rw [compare_eq_placeOrder hcreate ha hc]
    exact Std.TransCmp.isLE_trans hab hbc
  · rintro before i after a b v hitems hbefore ha hb
    rw [compare, (items_of_create hcreate).1, hitems]
    exact compareBy_of_unset hbefore ha hb
  · intro s rows hs hfits kept after
    have hresults : t.assembler.results after = sort o.compare kept := by
      rw [Assembler.results, horder, Assembler.graphs_takeAll, hs, List.nil_append]
    have hsorting := isSorting_sort_of_fits hcreate hfits
    rw [← hresults] at hsorting
    exact ⟨hsorting, hsorting⟩
  · intro b scans asked hpoints kept collected hfits
    obtain ⟨hcollected, hyields⟩ | hfailed := t.yields_sorted horder b asked hpoints
    · exact .inl ⟨_, hcollected, hyields, isSorting_sort_of_fits hcreate hfits⟩
    · exact .inr hfailed

/-- Members have a score. -/
def member : TypeDef := ⟨"http://ex", "Member", [⟨"score", .data .int, false⟩]⟩

/-- The member of a key. The score of the one of key 2 is not set, and that of key 1 is lower than
all others. -/
def scored (key : Bytes) : Graph :=
  .single key ⟨"Member", match key with
    | [2] => []
    | [1] => [("score", .value (.int 7))]
    | _ => [("score", .value (.int 8))]⟩

/-- Members by falling score, without the one that comes first. -/
def byScore : Streaming Unit where
  source := ⟨fun _ _ => .ok none, fun _ _ _ => .ok ([[9], [4], [2], [1], [5]].map (.ok ⟨·, []⟩))⟩
  columns := .all
  assembler :=
    { builder := ⟨fun _ r => (.ok (scored r.key), ()), id⟩
      tombstone := none
      recognizer := none
      order := some (ResultOrder.compare ⟨[⟨"score", true⟩]⟩)
      window := ⟨some 2, none⟩ }

/-- Equal scores stay as they arrived, and the score that is not set comes last. -/
theorem results_sorted_byScore :
    create member [⟨"score", true⟩] = .ok ⟨[⟨"score", true⟩]⟩ ∧
      (∀ g ∈ [[4], [2], [1], [5]].map scored, Fits member ⟨[⟨"score", true⟩]⟩ g) ∧
      byScore.Yields (.start () [.range [] none none] 0)
        ([[4], [5], [1], [2]].map (.ok ∘ scored)) ∧
      IsSorting (ResultOrder.compare ⟨[⟨"score", true⟩]⟩) ([[4], [2], [1], [5]].map scored)
        ([[4], [5], [1], [2]].map scored) := by
  have hcreate : create member [⟨"score", true⟩] = .ok ⟨[⟨"score", true⟩]⟩ := rfl
  have hfits : ∀ g ∈ [[4], [2], [1], [5]].map scored, Fits member ⟨[⟨"score", true⟩]⟩ g := by
    have hscores : ∀ g ∈ [[4], [2], [1], [5]].map scored,
        ∀ v ∈ OrderItem.value? ⟨"score", true⟩ g, DataType.int.fits v = true := by decide
    intro g hg i hi v hv p type hp htype
    obtain rfl := List.mem_singleton.mp hi
    obtain rfl : ⟨"score", .data .int, false⟩ = p := Option.some.inj hp
    obtain rfl : .int = type := Option.some.inj htype
    exact hscores g hg v hv
  have hrun : (byScore.collecting.run () [.range [] none none] 0).1 =
      .ok ([[4], [5], [1], [2]].map scored) := rfl
  refine ⟨hcreate, hfits, ?_⟩
  obtain ⟨-, -, -, hstreams⟩ := results_sorted hcreate
  obtain ⟨-, hstream⟩ := hstreams byScore rfl
  obtain ⟨gs, hgs, hyields, hsorting⟩ | ⟨e, he, -⟩ :=
    hstream () [.range [] none none] 0 (by decide) hfits
  · obtain rfl := Except.ok.inj (hrun.symm.trans hgs)
    exact ⟨hyields, hsorting⟩
  · exact nomatch hrun.symm.trans he

end ResultOrder

end GraphTable
