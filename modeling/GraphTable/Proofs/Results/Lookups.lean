import GraphTable.Proofs.Plan.Alternatives
import GraphTable.Proofs.Results.Agreement
import GraphTable.Proofs.Table.History

/-!
# Lookups as ranges

A plan that has lookups beside other scans reads the single key of each lookup as a range, so that
its scans can be streamed. For a table this makes no difference to what is collected: lookups of a
list of scans may be turned into ranges, all of them or just some, and the same results are kept or
the same error is met (`collects_alike_of_demoted`). In particular the plan may leave them as they
are (`run_unmixed`).

A range of a single key has at most one row, as the keys of a table are strictly increasing, and
this is the row that a lookup finds (`Table.scan_demote_point`). The two do differ in how the source
is asked: lookups and openings of scans are counted apart. A table gives the same answers whatever
it was asked before, so that collections are compared by their assemblies only.
-/

namespace GraphTable

/-! ### The range of a single key -/

/-- A key selects what is found at it. -/
theorem SortedList.filter_key_eq {α κ : Type} [LT κ] [BEq κ] [LawfulBEq κ]
    [Std.Irrefl (α := κ) (· < ·)] [Trans (α := κ) (· < ·) (· < ·) (· < ·)] {key : α → κ}
    {xs : List α} (h : Sorted key xs) (k : κ) :
    (xs.filter fun x => key x == k) = (xs.find? fun x => key x == k).toList := by
  have hone : Sorted key (xs.find? fun x => key x == k).toList := by
    cases xs.find? fun x => key x == k with
    | none => exact List.Pairwise.nil
    | some x => exact List.pairwise_singleton _ x
  refine eq_of_forall_mem_iff (h.filter _) hone fun x => ?_
  rw [List.mem_filter, Option.mem_toList, find?_eq_some_iff_mem h, beq_iff_eq]

/-- The range of a key has the row that a lookup of the key finds. -/
theorem Table.scan_demote_point (T : Table) (key : Bytes) (columns : ColumnFilter) :
    T.scan (Plan.demote (.point key)) columns = (T.row? key columns).toList := by
  have hcovers : (fun r : Row => (Plan.demote (.point key)).covers r.key) =
      fun r => r.key == key := by
    funext r
    rw [Plan.covers_demote]
    exact Bool.beq_comm
  rw [scan, row?, hcovers, SortedList.filter_key_eq T.ordered.1]
  cases T.rows.find? fun r => r.key == key with
  | none => rfl
  | some r => rfl

/-- A scan as it was, or as the range of its key if it is a lookup. -/
def Plan.Demoted (scan scan' : Scan) : Prop :=
  scan' = scan ∨ scan' = demote scan

theorem Plan.forall₂_demoted_unmixed (scans : List Scan) :
    List.Forall₂ Demoted scans (unmixed scans) := by
  unfold unmixed
  split
  · exact List.forall₂_map_right_iff.mpr (List.forall₂_same.mpr fun scan _ => .inr rfl)
  · exact List.forall₂_same.mpr fun scan _ => .inl rfl

/-! ### Collecting -/

namespace Collecting

variable {σ : Type} {t : Collecting σ} {T : Table}

/-- What a scan reads of a table does not depend on how often the table was asked before. -/
theorem rowsOf_congr (hsource : t.source = .ofTable T) (scan : Scan) {c c' : Collection σ}
    (hc : c'.assembly = c.assembly) :
    (t.rowsOf c' scan).1 = (t.rowsOf c scan).1 ∧
      (t.rowsOf c' scan).2.assembly = (t.rowsOf c scan).2.assembly := by
  cases hpoint : scan.isPoint with
  | true =>
    cases scan with
    | point key => exact ⟨rfl, hc⟩
    | range start stop sample => cases hpoint
    | fuzzy template mask start stop => cases hpoint
  | false =>
    rw [rowsOf_of_not_point c hpoint, rowsOf_of_not_point c' hpoint, hsource]
    exact ⟨rfl, hc⟩

/-- A lookup reads what the range of its key does. -/
theorem rowsOf_of_demoted (hsource : t.source = .ofTable T) {scan scan' : Scan}
    (h : Plan.Demoted scan scan') {c c' : Collection σ} (hc : c'.assembly = c.assembly) :
    (t.rowsOf c' scan').1 = (t.rowsOf c scan).1 ∧
      (t.rowsOf c' scan').2.assembly = (t.rowsOf c scan).2.assembly := by
  obtain rfl | rfl := h
  · exact rowsOf_congr hsource scan' hc
  · cases scan with
    | point key =>
      have hlookup : (t.rowsOf c (.point key)).1 =
          .ok ((T.row? key t.columns).toList.map .ok) := by
        rw [rowsOf, hsource]
        rfl
      have hrange : (t.rowsOf c' (Plan.demote (.point key))).1 =
          .ok ((T.scan (Plan.demote (.point key)) t.columns).map .ok) := by
        rw [rowsOf_of_not_point c' rfl, hsource]
        rfl
      rw [hlookup, hrange, T.scan_demote_point]
      exact ⟨rfl, hc⟩
    | range start stop sample => exact rowsOf_congr hsource _ hc
    | fuzzy template mask start stop => exact rowsOf_congr hsource _ hc

/-- Wherever collecting is, it goes on alike when lookups are turned into ranges. -/
theorem takeScans_of_demoted (hsource : t.source = .ofTable T) {scans scans' : List Scan}
    (h : List.Forall₂ Plan.Demoted scans scans') {c c' : Collection σ}
    (hc : c'.assembly = c.assembly) :
    (t.takeScans scans' c').1 = (t.takeScans scans c).1 ∧
      (t.takeScans scans' c').2.assembly = (t.takeScans scans c).2.assembly := by
  induction h generalizing c c' with
  | nil => exact ⟨rfl, hc⟩
  | @cons scan scan' scans scans' hscan hscans ih =>
    rw [takeScans, takeScans, hc]
    split
    · exact ⟨rfl, hc⟩
    · have hread := rowsOf_of_demoted hsource hscan hc
      generalize t.rowsOf c scan = read at hread ⊢
      generalize t.rowsOf c' scan' = read' at hread ⊢
      obtain ⟨answer, d⟩ := read
      obtain ⟨answer', d'⟩ := read'
      obtain ⟨rfl, hd⟩ : answer' = answer ∧ d'.assembly = d.assembly := hread
      cases answer' with
      | error reason => exact ⟨rfl, hd⟩
      | ok rows =>
        simp only [hd]
        obtain ⟨e | done, s⟩ := t.takeRows rows d.assembly
        · exact ⟨rfl, rfl⟩
        · exact ih rfl

/-- A run comes to the same when lookups are turned into ranges. -/
theorem run_of_demoted (hsource : t.source = .ofTable T) {scans scans' : List Scan}
    (h : List.Forall₂ Plan.Demoted scans scans') (b : σ) (asked asked' : Nat) :
    (t.run b scans' asked').1 = (t.run b scans asked).1 ∧
      (t.run b scans' asked').2.assembly = (t.run b scans asked).2.assembly := by
  -- the lists are of one length, so that both runs leave out repeated keys or neither does
  have hstart : (⟨.start b (1 < scans'.length), asked', 0⟩ : Collection σ).assembly =
      (⟨.start b (1 < scans.length), asked, 0⟩ : Collection σ).assembly := by
    rw [h.length_eq]
  obtain ⟨houtcome, hassembly⟩ := takeScans_of_demoted hsource h hstart
  rw [run_eq, run_eq]
  exact ⟨by rw [houtcome, hassembly], hassembly⟩

/-- What a plan does to its lookups makes no difference to a collection. -/
theorem run_unmixed (hsource : t.source = .ofTable T) (b : σ) (scans : List Scan) (asked : Nat) :
    (t.run b (Plan.unmixed scans) asked).1 = (t.run b scans asked).1 :=
  (run_of_demoted hsource (Plan.forall₂_demoted_unmixed scans) b asked asked).1

/--
Lookups of a table and the ranges of their single keys are interchangeable. Let any lookups of a
list of scans be turned into ranges. Then, whatever makes results of the rows, a run comes to the
same results or the same error, and ends with the same graphs kept and the same numbers counted;
and so does all that is left of a run, from wherever it is.
-/
theorem collects_alike_of_demoted (T : Table) (columns : ColumnFilter) (a : Assembler σ)
    {scans scans' : List Scan} (h : List.Forall₂ Plan.Demoted scans scans') :
    let t : Collecting σ := ⟨.ofTable T, columns, a⟩
    (∀ b asked asked', (t.run b scans' asked').1 = (t.run b scans asked).1 ∧
      (t.run b scans' asked').2.assembly = (t.run b scans asked).2.assembly) ∧
    ∀ c c' : Collection σ, c'.assembly = c.assembly →
      (t.takeScans scans' c').1 = (t.takeScans scans c).1 ∧
        (t.takeScans scans' c').2.assembly = (t.takeScans scans c).2.assembly :=
  ⟨run_of_demoted rfl h, fun _ _ => takeScans_of_demoted rfl h⟩

/-- The empty key, and keys of nothing but the highest byte. -/
def highKeys : Table :=
  .ofRows [⟨[], []⟩, ⟨[0xFF], []⟩, ⟨[0xFF, 0xFF], []⟩]

/-- Makes a result of every row but the first one that comes in. -/
def skippingFirst : Assembler Unit where
  builder := ⟨fun _ r => (.ok (.single r.key (.new "Event")), ()), id⟩
  tombstone := none
  recognizer := some fun _ => .ok true
  order := none
  window := ⟨some 2, none⟩

/-- The lookups of the empty key and of the key `FF` are turned into ranges; neither of these has
the row of `FF FF`, which comes in last. -/
theorem run_highKeys :
    let t : Collecting Unit := ⟨.ofTable highKeys, .all, skippingFirst⟩
    (t.run () [.range [] (some [0]) none, .range [0xFF] (some [0xFF, 0]) none,
      .point [0xFF, 0xFF]] 0).1 =
      .ok [.single [0xFF] (.new "Event"), .single [0xFF, 0xFF] (.new "Event")] := by
  have hdemoted : List.Forall₂ Plan.Demoted [.point [], .point [0xFF], .point [0xFF, 0xFF]]
      [.range [] (some [0]) none, .range [0xFF] (some [0xFF, 0]) none, .point [0xFF, 0xFF]] :=
    .cons (.inr rfl) (.cons (.inr rfl) (.cons (.inl rfl) .nil))
  exact ((collects_alike_of_demoted highKeys .all skippingFirst hdemoted).1 () 0 0).1

end Collecting

end GraphTable
