import GraphTable.Proofs.Results.Agreement

/-!
# What a stream yields

A stream whose source and assembler do not fail yields what the assembler makes of the rows of all
scans (`drains_start`), although it reads them one at a time, opens scans only when it needs their
rows, and stops once the window is over. It yields what is collected, and collecting the rows of all
scans comes to the same as feeding them, wherever one scan ends and the next begins
(`takeScans_of_opens`).
-/

namespace GraphTable

variable {σ : Type}

/-! ### Feeding rows -/

namespace Assembler

variable {a : Assembler σ} {f : Row → Graph} {p : Graph → Bool}

/-- A row that does not fail is taken in, and the graph that is ready then is kept. -/
theorem Total.collect_eq_take (h : a.Total f p) (s : Assembly σ) (r : Row) :
    ∃ kept, a.collect s r = (.ok kept, (a.take s r).2.prepend (a.take s r).1.toList) := by
  obtain ⟨kept, hkept⟩ := h.collect_ok s r
  refine ⟨kept, Prod.ext hkept ?_⟩
  rw [take]
  cases hpop : a.pop? (a.collect s r).2 with
  | none => rfl
  | some ready =>
    obtain ⟨g, s'⟩ := ready
    exact (eq_prepend_of_pop? hpop).2

theorem Total.graphs_feed (h : a.Total f p) {s : Assembly σ} (hs : s.graphs = [])
    (rows : List Row) : (a.feed rows s).2.graphs = [] := by
  induction rows generalizing s with
  | nil => exact hs
  | cons r rows ih =>
    cases hover : a.isOver s with
    | true => rwa [feed_of_isOver hover]
    | false =>
      rw [feed_cons hover]
      exact ih ((h.takes hs r).graphs_eq.trans hs)

theorem feed_append (rows more : List Row) (s : Assembly σ) :
    a.feed (rows ++ more) s =
      ((a.feed rows s).1 ++ (a.feed more (a.feed rows s).2).1,
        (a.feed more (a.feed rows s).2).2) := by
  induction rows generalizing s with
  | nil => rfl
  | cons r rows ih =>
    rw [List.cons_append]
    cases hover : a.isOver s with
    | true => rw [feed_of_isOver hover, feed_of_isOver hover, feed_of_isOver hover]; rfl
    | false => rw [feed_cons hover, feed_cons hover, ih, List.append_assoc]

end Assembler

namespace Streaming

open Assembler

variable {t : Streaming σ} {f : Row → Graph} {p : Graph → Bool}

/-! ### Collecting rows that do not fail -/

/-- The source opens some scans, the first of them after `n` others, and yields these rows. -/
inductive Opens (t : Streaming σ) : Nat → List Scan → List (List Row) → Prop
  | nil {n : Nat} : Opens t n [] []
  | cons {n : Nat} {scan : Scan} {scans : List Scan} {rows : List Row} {lists : List (List Row)}
      (h : t.source.openScan n scan t.columns = .ok (rows.map .ok))
      (rest : Opens t (n + 1) scans lists) : Opens t n (scan :: scans) (rows :: lists)

/-- Collecting rows keeps the graphs that feeding them takes out. -/
theorem takeRows_of_total (ht : t.assembler.Total f p) (rows : List Row) (s : Assembly σ) :
    t.collecting.takeRows (rows.map .ok) s =
      (.ok (), (t.assembler.feed rows s).2.prepend (t.assembler.feed rows s).1) := by
  induction rows generalizing s with
  | nil => rfl
  | cons r rows ih =>
    cases hover : t.assembler.isOver s with
    | true =>
      rw [Collecting.takeRows_of_isOver hover, feed_of_isOver hover]
      rfl
    | false =>
      obtain ⟨kept, hcollect⟩ := ht.collect_eq_take s r
      rw [List.map_cons, Collecting.takeRows_of_collect hover hcollect,
        Collecting.takeRows_prepend, ih, Assembly.prepend_prepend, feed_cons hover]

theorem takeScans_of_opens (ht : t.assembler.Total f p) {scans : List Scan}
    {lists : List (List Row)} {c : Collection σ} (hs : c.assembly.graphs = [])
    (hpoints : ∀ s ∈ scans, s.isPoint = false) (hopens : Opens t c.asked scans lists) :
    (t.collecting.takeScans scans c).1 = .ok () ∧
      (t.collecting.takeScans scans c).2.assembly =
        (t.assembler.feed lists.flatten c.assembly).2.prepend
          (t.assembler.feed lists.flatten c.assembly).1 := by
  induction scans generalizing c lists with
  | nil =>
    cases hopens
    exact ⟨rfl, rfl⟩
  | cons scan scans ih =>
    obtain ⟨hscan, hpoints⟩ := List.forall_mem_cons.mp hpoints
    cases hover : t.assembler.isOver c.assembly with
    | true =>
      rw [takeScans_of_isOver hover, feed_of_isOver hover]
      exact ⟨rfl, rfl⟩
    | false =>
      cases hopens with
      | @cons _ _ _ rows lists hopen rest =>
        rw [takeScans_of_openScan hover hscan, hopen, List.flatten_cons, feed_append]
        simp only [takeRows_of_total ht]
        let fed := t.assembler.feed rows c.assembly
        let after : Collection σ := { c with assembly := fed.2, asked := c.asked + 1 }
        obtain ⟨houtcome, hassembly⟩ :=
          ih (c := after) (ht.graphs_feed hs rows) hpoints rest
        -- the graphs of the scan stand in front of those of the scans after it
        have hmore : t.collecting.takeScans scans
            { c with assembly := fed.2.prepend fed.1, asked := c.asked + 1 } = _ :=
          Collecting.takeScans_prepend fed.1 scans after
        rw [hmore]
        refine ⟨houtcome, ?_⟩
        rw [← Assembly.prepend_prepend, ← hassembly]
        rfl

/-- A stream yields what feeding the rows of its scans comes to, and ends with the same counts. -/
theorem drains_start (ht : t.assembler.Total f p) {scans : List Scan} {lists : List (List Row)}
    {asked : Nat} (hpoints : ∀ s ∈ scans, s.isPoint = false) (hopens : Opens t asked scans lists)
    (b : σ) :
    let fed := t.assembler.feed lists.flatten (.start b (1 < scans.length))
    ∃ x graphs, Drains t (.start b scans asked) (fed.1.map .ok) x ∧ x.phase = .finished ∧
      x.assembly = { fed.2 with graphs } := by
  intro fed
  have hgraphs : fed.2.graphs = [] := ht.graphs_feed rfl lists.flatten
  obtain ⟨houtcome, hassembly⟩ := takeScans_of_opens ht
    (c := ⟨.start b (1 < scans.length), asked, 0⟩) rfl hpoints hopens
  obtain ⟨x, front, hphase, hdrains, hleft⟩ := (leaves_start (t := t) b asked hpoints).drains
  generalize t.collecting.takeScans scans _ = left at houtcome hassembly hdrains hleft
  obtain ⟨outcome, c⟩ := left
  cases houtcome
  have hc : c.assembly = fed.2.prepend fed.1 := hassembly
  have hitems : t.items (.ok (), c) = fed.1.map .ok := by
    rw [items, yielded, results, ht.order, hc, Assembly.prepend, hgraphs]
    simp only [List.append_nil]
  rw [hitems] at hdrains
  have hcounts := congrArg (fun s => { s with graphs := x.assembly.graphs }) (hleft.symm.trans hc)
  exact ⟨x, x.assembly.graphs, hdrains, hphase, hcounts⟩

/-- Two rows are read from every scan, and the second of the results is wanted. -/
def twoRows : Streaming (List Bytes) where
  source := ⟨fun _ _ => .ok none, fun _ _ _ => .ok ([⟨[1], []⟩, ⟨[2], []⟩].map .ok)⟩
  columns := .all
  assembler :=
    { builder := ⟨fun keys r => (.ok (.single r.key (.new "Event")), keys ++ [r.key]), id⟩
      tombstone := none
      recognizer := none
      order := none
      window := ⟨some 2, some 2⟩ }

end GraphTable.Streaming
