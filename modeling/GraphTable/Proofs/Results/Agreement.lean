import GraphTable.Proofs.Results.Feeding
import GraphTable.Proofs.Results.Reading

/-!
# Streams and collections agree

A stream yields the graphs that a collection of the same scans gives, and fails where it fails
(`yields_start_as_collected`), whatever the source answers and whatever building and recognizing
come to. The two read differently: a stream takes each graph out as soon as it is ready and opens a
scan only when it needs a row of it, while a collection keeps all graphs and goes through one scan
after the other.

The proof goes by what is **left to collect** at any point of a stream (`Streaming.remaining`): the
outcome of a collection that would go on from there. A step leaves it as it is (`Leaves.step`), so
asking a stream for its next result takes one graph off the front of that outcome, or comes to the
end of it (`Leaves.next`). What makes this work is that graphs kept before have no influence on what
is done with later rows (`Assembler.collect_prepend`).
-/

namespace GraphTable

variable {σ : Type}

/-! ### Graphs kept before -/

/-- A state with more graphs in front of those that are kept. -/
def Assembly.prepend (front : List Graph) (s : Assembly σ) : Assembly σ :=
  { s with graphs := front ++ s.graphs }

theorem Assembly.prepend_prepend (front more : List Graph) (s : Assembly σ) :
    (s.prepend front).prepend more = s.prepend (more ++ front) := by
  unfold prepend
  rw [List.append_assoc]

/-- A collection with more graphs in front of those that are kept. -/
def Collection.prepend (front : List Graph) (c : Collection σ) : Collection σ :=
  { c with assembly := c.assembly.prepend front }

namespace Assembler

variable {a : Assembler σ}

theorem isOver_prepend (front : List Graph) (s : Assembly σ) :
    a.isOver (s.prepend front) = a.isOver s :=
  rfl

theorem accept_prepend (front : List Graph) (s : Assembly σ) (g : Graph) :
    a.accept (s.prepend front) g = ((a.accept s g).1, (a.accept s g).2.prepend front) := by
  have haccepted : (s.prepend front).accepted = s.accepted := rfl
  unfold accept
  simp only [haccepted]
  by_cases hin : a.window.contains (s.accepted + 1) = true
  · -- a graph that is accepted comes after all that were kept
    simp only [hin, if_true, Assembly.prepend, List.append_assoc]
  · simp only [hin, Bool.false_eq_true, if_false, Assembly.prepend]

theorem judge_prepend (front : List Graph) (s : Assembly σ) (built : Except QueryError Graph) :
    a.judge (s.prepend front) built = ((a.judge s built).1, (a.judge s built).2.prepend front) := by
  unfold judge
  split
  · rfl
  · split
    · rfl
    · rfl
    · rw [accept_prepend]

/-- Graphs kept before do not matter to what becomes of a row. -/
theorem collect_prepend (front : List Graph) (s : Assembly σ) (r : Row) :
    a.collect (s.prepend front) r = ((a.collect s r).1, (a.collect s r).2.prepend front) := by
  -- whether a row is let in is decided by the keys that were seen
  have henter : (s.prepend front).enter? r.key = (s.enter? r.key).map (·.prepend front) := by
    have hseen : (s.prepend front).seen = s.seen := rfl
    unfold Assembly.enter?
    rw [hseen]
    cases s.seen with
    | none => rfl
    | some keys =>
      by_cases hkey : keys.contains r.key = true
      · simp only [hkey, if_true, Option.map_none]
      · simp only [hkey, Bool.false_eq_true, if_false]
        rfl
  unfold collect
  rw [henter]
  split
  · rfl
  · cases s.enter? r.key with
    | none => rfl
    | some s' =>
      have hpasses : a.passesOver (s'.prepend front) = a.passesOver s' := rfl
      have hbuild : a.build (s'.prepend front) r =
          ((a.build s' r).1, (a.build s' r).2.prepend front) := rfl
      simp only [Option.map_some, hpasses, hbuild]
      split
      · rfl
      · exact judge_prepend front _ _

/-- A row that fails leaves no graph. -/
theorem graphs_of_collect_error {s s' : Assembly σ} {r : Row} {e : QueryError}
    (h : a.collect s r = (.error e, s')) : s'.graphs = s.graphs := by
  unfold collect at h
  split at h
  · cases h
  · split at h
    · cases h
    · rename_i s₁ henter
      obtain ⟨seen, rfl⟩ := enter?_eq_some henter
      split at h
      · cases h
      · simp only [judge, build] at h
        split at h
        · rw [← (Prod.mk.inj h).2]
        · split at h
          · rw [← (Prod.mk.inj h).2]
          · cases h
          · cases h

theorem eq_prepend_of_pop? {s s' : Assembly σ} {g : Graph} (h : a.pop? s = some (g, s')) :
    a.order = none ∧ s = s'.prepend [g] := by
  unfold pop? at h
  split at h
  · rename_i horder hgraphs
    obtain ⟨rfl, rfl⟩ := Prod.mk.inj (Option.some.inj h)
    refine ⟨horder, ?_⟩
    rw [Assembly.prepend, List.singleton_append, ← hgraphs]
  · cases h

/-- No graph is in hand exactly if none is kept, or all are needed to order them. -/
theorem pop?_eq_none_iff {s : Assembly σ} :
    a.pop? s = none ↔ (a.order = none → s.graphs = []) := by
  unfold pop?
  split
  · rename_i horder hgraphs
    constructor
    · intro h
      cases h
    · intro h
      rw [h horder] at hgraphs
      cases hgraphs
  · rename_i hnot
    refine ⟨fun _ horder => ?_, fun _ => rfl⟩
    cases hgraphs : s.graphs with
    | nil => rfl
    | cons g gs => exact (hnot g gs horder hgraphs).elim

end Assembler

namespace Collecting

variable {t : Collecting σ}

theorem takeRows_of_isOver {s : Assembly σ} (h : t.assembler.isOver s = true)
    (rows : List (Answer Row)) : t.takeRows rows s = (.ok (), s) := by
  match rows with
  | [] => rfl
  | .error reason :: rows => rw [takeRows, if_pos h]
  | .ok row :: rows => rw [takeRows, if_pos h]

theorem takeRows_error {s : Assembly σ} (h : t.assembler.isOver s = false) (reason : String)
    (rows : List (Answer Row)) :
    t.takeRows (.error reason :: rows) s = (.error (.io reason), s) := by
  rw [takeRows, if_neg (Bool.eq_false_iff.mp h)]

theorem takeRows_ok {s : Assembly σ} (h : t.assembler.isOver s = false) (r : Row)
    (rows : List (Answer Row)) : t.takeRows (.ok r :: rows) s =
      match t.assembler.collect s r with
      | (.error e, s') => (.error e, s')
      | (.ok _, s') => t.takeRows rows s' := by
  rw [takeRows]
  exact if_neg (Bool.eq_false_iff.mp h)

theorem takeRows_of_collect {s s' : Assembly σ} {r : Row} {kept : Bool}
    (h : t.assembler.isOver s = false) (hcollect : t.assembler.collect s r = (.ok kept, s'))
    (rows : List (Answer Row)) : t.takeRows (.ok r :: rows) s = t.takeRows rows s' := by
  rw [takeRows_ok h, hcollect]

theorem takeRows_of_collect_error {s s' : Assembly σ} {r : Row} {e : QueryError}
    (h : t.assembler.isOver s = false) (hcollect : t.assembler.collect s r = (.error e, s'))
    (rows : List (Answer Row)) : t.takeRows (.ok r :: rows) s = (.error e, s') := by
  rw [takeRows_ok h, hcollect]

theorem takeRows_prepend (front : List Graph) (rows : List (Answer Row)) (s : Assembly σ) :
    t.takeRows rows (s.prepend front) =
      ((t.takeRows rows s).1, (t.takeRows rows s).2.prepend front) := by
  induction rows generalizing s with
  | nil => rfl
  | cons row rows ih =>
    have hprepend := Assembler.isOver_prepend (a := t.assembler) front s
    cases hover : t.assembler.isOver s with
    | true =>
      rw [takeRows_of_isOver hover, takeRows_of_isOver (hprepend.trans hover)]
    | false =>
      rcases row with reason | row
      · rw [takeRows_error hover, takeRows_error (hprepend.trans hover)]
      · rw [takeRows_ok hover, takeRows_ok (hprepend.trans hover), Assembler.collect_prepend]
        obtain ⟨kept | kept, s'⟩ := t.assembler.collect s row
        · rfl
        · exact ih s'

theorem takeScans_prepend (front : List Graph) (scans : List Scan) (c : Collection σ) :
    t.takeScans scans (c.prepend front) =
      ((t.takeScans scans c).1, (t.takeScans scans c).2.prepend front) := by
  induction scans generalizing c with
  | nil => rfl
  | cons scan scans ih =>
    have hrows : t.rowsOf (c.prepend front) scan =
        ((t.rowsOf c scan).1, (t.rowsOf c scan).2.prepend front) := by
      cases scan <;> rfl
    have hover : t.assembler.isOver (c.prepend front).assembly = t.assembler.isOver c.assembly :=
      rfl
    rw [takeScans, takeScans, hover, hrows]
    split
    · rfl
    · obtain ⟨answer, c'⟩ := t.rowsOf c scan
      cases answer with
      | error reason => rfl
      | ok rows =>
        have htake : t.takeRows rows (c'.prepend front).assembly = _ :=
          takeRows_prepend front rows c'.assembly
        simp only [htake]
        obtain ⟨outcome, s⟩ := t.takeRows rows c'.assembly
        cases outcome with
        | error e => rfl
        | ok _ => exact ih { c' with assembly := s }

/-- A scan of a range is opened, and counted. -/
theorem rowsOf_of_not_point (c : Collection σ) {scan : Scan} (h : scan.isPoint = false) :
    t.rowsOf c scan =
      (t.source.openScan c.asked scan t.columns, { c with asked := c.asked + 1 }) := by
  cases scan with
  | point key => cases h
  | range start stop sample => rfl
  | fuzzy template mask start stop => rfl

/-- A run comes to the results that are kept after all scans. -/
theorem run_eq (t : Collecting σ) (start : σ) (scans : List Scan) (asked : Nat) :
    t.run start scans asked =
      ((t.takeScans scans ⟨.start start (1 < scans.length), asked, 0⟩).1.map fun _ =>
        t.assembler.results
          (t.takeScans scans ⟨.start start (1 < scans.length), asked, 0⟩).2.assembly,
        (t.takeScans scans ⟨.start start (1 < scans.length), asked, 0⟩).2) := by
  unfold run
  dsimp only
  obtain ⟨e | done, c⟩ := t.takeScans scans ⟨.start start (1 < scans.length), asked, 0⟩
  · rfl
  · rfl

end Collecting

/-! ### What is left to collect -/

namespace Streaming

variable {t : Streaming σ}

/-- Collecting from the same source, by the same assembler. -/
def collecting (t : Streaming σ) : Collecting σ :=
  ⟨t.source, t.columns, t.assembler⟩

/-- What a collection comes to that goes on where a stream is. -/
def remaining (t : Streaming σ) (x : Stream σ) : Except QueryError Unit × Collection σ :=
  match t.collecting.takeRows x.rows x.assembly with
  | (.error e, s) => (.error e, ⟨s, x.asked, 0⟩)
  | (.ok (), s) => t.collecting.takeScans x.scans ⟨s, x.asked, 0⟩

theorem takeScans_of_isOver {c : Collection σ} (h : t.assembler.isOver c.assembly = true)
    (scans : List Scan) : t.collecting.takeScans scans c = (.ok (), c) := by
  cases scans with
  | nil => rfl
  | cons scan scans => exact if_pos h

theorem takeScans_of_openScan {c : Collection σ} {scan : Scan}
    (hover : t.assembler.isOver c.assembly = false) (hscan : scan.isPoint = false)
    (scans : List Scan) : t.collecting.takeScans (scan :: scans) c =
      match t.source.openScan c.asked scan t.columns with
      | .error reason => (.error (.io reason), { c with asked := c.asked + 1 })
      | .ok rows =>
        match t.collecting.takeRows rows c.assembly with
        | (.error e, s) => (.error e, { c with assembly := s, asked := c.asked + 1 })
        | (.ok (), s) =>
          t.collecting.takeScans scans { c with assembly := s, asked := c.asked + 1 } := by
  have hnot : t.collecting.assembler.isOver c.assembly = false := hover
  have hrows : t.collecting.rowsOf c scan =
      (t.source.openScan c.asked scan t.columns, { c with asked := c.asked + 1 }) :=
    Collecting.rowsOf_of_not_point c hscan
  rw [Collecting.takeScans, if_neg (Bool.eq_false_iff.mp hnot), hrows]
  rcases t.source.openScan c.asked scan t.columns with reason | rows <;> rfl

theorem remaining_prepend (front : List Graph) (x : Stream σ) :
    t.remaining { x with assembly := x.assembly.prepend front } =
      ((t.remaining x).1, (t.remaining x).2.prepend front) := by
  unfold remaining
  rw [Collecting.takeRows_prepend]
  obtain ⟨e | ⟨⟩, s⟩ := t.collecting.takeRows x.rows x.assembly
  · rfl
  · exact Collecting.takeScans_prepend front x.scans ⟨s, x.asked, 0⟩

/-- A stream is reading, and this is what is left to collect. -/
structure Leaves (t : Streaming σ) (left : Except QueryError Unit × Collection σ) (x : Stream σ) :
    Prop where
  phase : x.phase = .reading
  points : ∀ s ∈ x.scans, s.isPoint = false
  remaining_eq : t.remaining x = left

section Leaves

variable {left : Except QueryError Unit × Collection σ} {x y : Stream σ}

/-- Where no row is left, a collection goes on with the next scan. -/
theorem remaining_of_needs {scan : Scan} {scans : List Scan} (hx : t.Needs x) (hrows : x.rows = [])
    (hscans : x.scans = scan :: scans) (hscan : scan.isPoint = false) : t.remaining x =
      match t.source.openScan x.asked scan t.columns with
      | .error reason => (.error (.io reason), ⟨x.assembly, x.asked + 1, 0⟩)
      | .ok rows => t.remaining
          { x with rows, scans, asked := x.asked + 1, started := x.started + 1 } := by
  rw [remaining, hrows, hscans]
  change t.collecting.takeScans (scan :: scans) ⟨x.assembly, x.asked, 0⟩ = _
  rw [takeScans_of_openScan hx.isOver_eq_false hscan]
  rfl

/-- A step takes in what a collection would take in next. -/
theorem Leaves.step (h : t.Leaves left x) (hstep : t.Step x y) : t.Leaves left y := by
  obtain ⟨hphase, hpoints, rfl⟩ := h
  cases hstep with
  | row hx hrows hcollect =>
    refine ⟨hphase, hpoints, ?_⟩
    rw [remaining, remaining, hrows,
      Collecting.takeRows_of_collect hx.isOver_eq_false hcollect]
  | scan hx hrows hscans hopen =>
    rw [hscans] at hpoints
    obtain ⟨hscan, hpoints⟩ := List.forall_mem_cons.mp hpoints
    refine ⟨hphase, hpoints, ?_⟩
    rw [remaining_of_needs hx hrows hscans hscan, hopen]

/-- What the next result of a stream that is reading tells of what is left to collect. -/
theorem Leaves.next (h : t.Leaves left x) :
    (∃ g y after, t.next x = (some (.ok g), y) ∧ t.Leaves after y ∧ t.assembler.order = none ∧
      left = (after.1, after.2.prepend [g])) ∨
    (∃ e y c, t.next x = (some (.error e), y) ∧ y.phase = .finished ∧ left = (.error e, c) ∧
      y.assembly = c.assembly ∧ t.assembler.pop? c.assembly = none) ∨
    ∃ y c, t.next x = t.conclude y ∧ left = (.ok (), c) ∧ y.assembly = c.assembly ∧
      t.assembler.pop? c.assembly = none := by
  obtain ⟨out, hreads, hnext⟩ := reads_next (t := t) h.phase
  obtain ⟨y, ⟨hphase, hpoints, rfl⟩, hstop⟩ :=
    hreads.exists_stop (fun _ _ hstep h => h.step hstep) h
  rw [hnext]
  cases hstop with
  | @ready g s hpop =>
    obtain ⟨horder, hassembly⟩ := Assembler.eq_prepend_of_pop? hpop
    refine .inl ⟨g, _, _, rfl, ⟨hphase, hpoints, rfl⟩, horder, ?_⟩
    rw [← remaining_prepend, ← hassembly]
  | ended hpop hover =>
    refine .inr (.inr ⟨_, ⟨y.assembly, y.asked, 0⟩, rfl, ?_, rfl, hpop⟩)
    rw [remaining, Collecting.takeRows_of_isOver hover]
    exact takeScans_of_isOver hover y.scans
  | broken hx hrows =>
    refine .inr (.inl ⟨_, _, ⟨y.assembly, y.asked, 0⟩, rfl, rfl, ?_, rfl, hx.pop?_eq_none⟩)
    rw [remaining, hrows, Collecting.takeRows_error hx.isOver_eq_false]
  | @failed r rows e s hx hrows hcollect =>
    refine .inr (.inl ⟨e, _, ⟨s, y.asked, 0⟩, rfl, rfl, ?_, rfl, ?_⟩)
    · rw [remaining, hrows, Collecting.takeRows_of_collect_error hx.isOver_eq_false hcollect]
    · have hnone := hx.pop?_eq_none
      rw [Assembler.pop?_eq_none_iff] at hnone ⊢
      exact fun horder => (Assembler.graphs_of_collect_error hcollect).trans (hnone horder)
  | refused hx hrows hscans hopen =>
    rw [hscans] at hpoints
    refine .inr (.inl ⟨_, _, ⟨y.assembly, y.asked + 1, 0⟩, rfl, rfl, ?_, rfl, hx.pop?_eq_none⟩)
    rw [remaining_of_needs hx hrows hscans (List.forall_mem_cons.mp hpoints).1, hopen]
  | dry hx hrows hscans =>
    refine .inr (.inr ⟨_, ⟨y.assembly, y.asked, 0⟩, rfl, ?_, rfl, hx.pop?_eq_none⟩)
    rw [remaining, hrows, hscans]
    rfl

end Leaves

/-! ### Asking for all results -/

/-- The graphs that come of a collection, as far as a stream yields them. -/
def yielded (t : Streaming σ) : Except QueryError Unit × Collection σ → List Graph
  | (.ok (), c) => t.assembler.results c.assembly
  | (.error _, c) => if t.assembler.order.isSome then [] else c.assembly.graphs

/-- Everything that a stream yields where a collection comes to an outcome. -/
def items (t : Streaming σ) (left : Except QueryError Unit × Collection σ) :
    List (Except QueryError Graph) :=
  (t.yielded left).map .ok ++
    match left.1 with
    | .ok () => []
    | .error e => [.error e]

theorem items_prepend {g : Graph} {outcome : Except QueryError Unit} {c : Collection σ}
    (h : t.assembler.order = none) :
    t.items (outcome, c.prepend [g]) = .ok g :: t.items (outcome, c) := by
  obtain e | ⟨⟩ := outcome
  · simp only [items, yielded, h, Option.isSome_none, Bool.false_eq_true, if_false]
    rfl
  · simp only [items, yielded, Assembler.results, h]
    rfl

theorem items_of_error {e : QueryError} {c : Collection σ}
    (h : t.assembler.pop? c.assembly = none) : t.items (.error e, c) = [.error e] := by
  rw [Assembler.pop?_eq_none_iff] at h
  simp only [items, yielded]
  cases horder : t.assembler.order with
  | none =>
    rw [h horder]
    rfl
  | some compare => rfl

/-- Graphs that are to be yielded come one after the other, and nothing after them. -/
theorem drains_of_yieldFrom {gs : List Graph} {x y : Stream σ} (h : t.next x = yieldFrom y gs) :
    ∃ x', x'.phase = .finished ∧ Drains t x (gs.map .ok) x' ∧ x'.assembly = y.assembly := by
  induction gs generalizing x y with
  | nil => exact ⟨y.finish, rfl, .done h, rfl⟩
  | cons g gs ih =>
    obtain ⟨x', hphase, hdrains, hassembly⟩ := ih (x := { y with phase := .yielding gs }) rfl
    exact ⟨x', hphase, .more h hdrains, hassembly⟩

theorem drains_of_conclude {x y : Stream σ} {c : Collection σ} (hnext : t.next x = t.conclude y)
    (hy : y.assembly = c.assembly) (hpop : t.assembler.pop? c.assembly = none) :
    ∃ x' front, x'.phase = .finished ∧ Drains t x (t.items (.ok (), c)) x' ∧
      c.assembly = x'.assembly.prepend front := by
  have hitems : t.items (.ok (), c) = (t.assembler.results y.assembly).map .ok := by
    rw [hy]
    exact List.append_nil _
  rw [hitems]
  rw [Assembler.pop?_eq_none_iff, ← hy] at hpop
  unfold conclude at hnext
  split at hnext
  · rename_i horder
    rw [Assembler.results, horder, hpop horder]
    exact ⟨y.finish, [], rfl, .done hnext, hy.symm⟩
  · -- the graphs that were kept are taken out to be yielded
    obtain ⟨x', hphase, hdrains, hassembly⟩ := drains_of_yieldFrom hnext
    refine ⟨x', y.assembly.graphs, hphase, hdrains, ?_⟩
    rw [hassembly, ← hy]
    change y.assembly = { y.assembly with graphs := y.assembly.graphs ++ [] }
    rw [List.append_nil]

/-- A stream that is reading yields what is left to collect, and ends with the same counts. -/
theorem Leaves.drains {left : Except QueryError Unit × Collection σ} {x : Stream σ}
    (h : t.Leaves left x) :
    ∃ x' front, x'.phase = .finished ∧ Drains t x (t.items left) x' ∧
      left.2.assembly = x'.assembly.prepend front := by
  -- every graph that is yielded leaves one item less to come
  generalize hlength : (t.items left).length = n
  induction n using Nat.strongRecOn generalizing x left with
  | ind n ih =>
    obtain ⟨g, y, after, hnext, hy, horder, rfl⟩ | ⟨e, y, c, hnext, hphase, rfl, hy, hpop⟩ |
      ⟨y, c, hnext, rfl, hy, hpop⟩ := h.next
    · have hitems : t.items (after.1, after.2.prepend [g]) = .ok g :: t.items after :=
        items_prepend horder
      rw [hitems] at hlength ⊢
      have hless : (t.items after).length < n := by
        rw [List.length_cons] at hlength
        omega
      obtain ⟨x', front, hx', hdrains, hassembly⟩ := ih _ hless hy rfl
      refine ⟨x', [g] ++ front, hx', .more hnext hdrains, ?_⟩
      rw [← Assembly.prepend_prepend, ← hassembly]
      rfl
    · rw [items_of_error hpop]
      have hdone : t.next y = (none, y) := by rw [Streaming.next, hphase]
      exact ⟨y, [], hphase, .more hnext (.done hdone), hy.symm⟩
    · exact drains_of_conclude hnext hy hpop

theorem leaves_start (b : σ) {scans : List Scan} (asked : Nat)
    (hpoints : ∀ s ∈ scans, s.isPoint = false) :
    t.Leaves (t.collecting.takeScans scans ⟨.start b (1 < scans.length), asked, 0⟩)
      (.start b scans asked) where
  phase := by
    have hany : scans.any Scan.isPoint = false :=
      List.any_eq_false.mpr fun s hs => Bool.eq_false_iff.mp (hpoints s hs)
    rw [Stream.start, hany]
    rfl
  points := hpoints
  remaining_eq := rfl

/-- Asking a stream for its results gives just these, and nothing any more after them. -/
def Yields (t : Streaming σ) (x : Stream σ) (items : List (Except QueryError Graph)) : Prop :=
  ∃ x', (∀ others y, Drains t x others y ↔ others = items ∧ y = x') ∧ t.next x' = (none, x')

theorem yields_of_drains {x x' : Stream σ} {items : List (Except QueryError Graph)}
    (hphase : x'.phase = .finished) (h : Drains t x items x') : t.Yields x items := by
  refine ⟨x', fun others y => ⟨fun hother => hother.unique h, ?_⟩, ?_⟩
  · rintro ⟨rfl, rfl⟩
    exact h
  · rw [next, hphase]

/--
A stream yields the graphs that collecting the same scans gives, if it succeeds. If collecting
fails, the stream ends with the same error; it yields the graphs that were kept till then before,
and none of them if results are ordered.
-/
theorem yields_start_as_collected (t : Streaming σ) (b : σ) {scans : List Scan} (asked : Nat)
    (hpoints : ∀ s ∈ scans, s.isPoint = false) :
    let x := Stream.start b scans asked
    let collected := t.collecting.run b scans asked
    (∃ gs, collected.1 = .ok gs ∧ t.Yields x (gs.map .ok)) ∨
      ∃ e gs, collected.1 = .error e ∧ t.Yields x (gs.map .ok ++ [.error e]) ∧
        gs = if t.assembler.order.isSome then [] else collected.2.assembly.graphs := by
  intro x collected
  obtain ⟨x', -, hx', hdrains, -⟩ := (leaves_start (t := t) b asked hpoints).drains
  have hyields := yields_of_drains hx' hdrains
  have hcollected := t.collecting.run_eq b scans asked
  change collected = _ at hcollected
  rw [hcollected]
  generalize t.collecting.takeScans scans _ = left at hyields
  obtain ⟨e | ⟨⟩, c⟩ := left
  · exact .inr ⟨e, _, rfl, hyields, rfl⟩
  · refine .inl ⟨t.assembler.results c.assembly, rfl, ?_⟩
    simpa only [items, yielded, List.append_nil] using hyields

/-- The second of three rows cannot be read. -/
def brokenScan : Streaming Unit where
  source := ⟨fun _ _ => .ok none,
    fun _ _ _ => .ok [.ok ⟨[1], []⟩, .error "region offline", .ok ⟨[2], []⟩]⟩
  columns := .all
  assembler :=
    { builder := ⟨fun _ r => (.ok (.single r.key (.new "Event")), ()), id⟩
      tombstone := none
      recognizer := none
      order := none
      window := .all }

/-- The graph of the first row is yielded, and then the error that collecting comes to. -/
theorem yields_brokenScan :
    (brokenScan.collecting.run () [.range [] none none] 0).1 = .error (.io "region offline") ∧
      brokenScan.Yields (.start () [.range [] none none] 0)
        [.ok (.single [1] (.new "Event")), .error (.io "region offline")] := by
  have hpoints : ∀ s ∈ [Scan.range [] none none], s.isPoint = false := by decide
  obtain ⟨gs, hgs, -⟩ | ⟨e, gs, he, hyields, hkept⟩ :=
    yields_start_as_collected brokenScan () 0 hpoints
  · cases hgs
  · cases he
    subst hkept
    exact ⟨rfl, hyields⟩

end GraphTable.Streaming
