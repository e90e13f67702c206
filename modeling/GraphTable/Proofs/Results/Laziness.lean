import GraphTable.Proofs.Results.Opening
import GraphTable.Proofs.Results.Stream

/-!
# Nothing is read past the end of the window

A stream asks its source to open scans, and for the rows of the scan that is open. It asks for
neither once as many results were accepted as the window reaches to (`lazy_start`), whatever the
source answers and whatever building and recognizing come to. So a stream that is drained without an
error has opened the least number of scans that contain all results that are wanted.

What is asked is not part of a stream's state. The same reading is therefore written down once more,
with a record of all that is asked and of how many results were accepted then
(`Streaming.nextRecorded`); leaving the record out gives the reading as it is
(`nextRecorded_snd`).
-/

namespace GraphTable

/-- Something that a stream asks of its source, after so many results were accepted. -/
inductive Request
  /-- To open a scan. -/
  | scan (accepted : Nat)
  /-- For the next row, also if no row is left. -/
  | row (accepted : Nat)

namespace Request

/-- The number of results that were accepted before. -/
def accepted : Request → Nat
  | scan n | row n => n

/-- Whether it is a scan that is asked for. -/
def isScan : Request → Bool
  | scan _ => true
  | row _ => false

end Request

namespace Streaming

variable {σ : Type} {t : Streaming σ}

/-! ### Reading with a record -/

/-- Reads rows as `readRows` does, and records what is asked. -/
def readRowsRecorded (t : Streaming σ) :
    List (Answer Row) → Assembly σ → List Request × Halt × Assembly σ × List (Answer Row)
  | [], s =>
    if t.assembler.isOver s then ([], .over, s, []) else ([.row s.accepted], .dry, s, [])
  | row :: rows, s =>
    if t.assembler.isOver s then ([], .over, s, [])
    else
      match row with
      | .error reason => ([.row s.accepted], .failed (.io reason), s, rows)
      | .ok row =>
        match t.assembler.collect s row with
        | (.error e, s') => ([.row s.accepted], .failed e, s', rows)
        | (.ok _, s') =>
          match t.assembler.pop? s' with
          | some (g, s') => ([.row s.accepted], .ready g, s', rows)
          | none =>
            let (more, read) := t.readRowsRecorded rows s'
            (.row s.accepted :: more, read)

/-- Reads on and opens scans as `readScans` does, and records what is asked. -/
def readScansRecorded (t : Streaming σ) : List Scan → Stream σ → List Request × Halt × Stream σ
  | scans, x =>
    match t.readRowsRecorded x.rows x.assembly with
    | (record, .dry, s, rows) =>
      match scans with
      | [] => (record, .dry, { x with assembly := s, rows, scans := [] })
      | scan :: scans =>
        let record := record ++ [.scan s.accepted]
        let x := { x with assembly := s, rows, scans, asked := x.asked + 1 }
        match t.source.openScan (x.asked - 1) scan t.columns with
        | .error reason => (record, .failed (.io reason), x)
        | .ok rows =>
          let (more, read) := t.readScansRecorded scans { x with rows, started := x.started + 1 }
          (record ++ more, read)
    | (record, halt, s, rows) => (record, halt, { x with assembly := s, rows })

/-- Gives the next result as `next` does, and records what is asked for it. -/
def nextRecorded (t : Streaming σ) (x : Stream σ) :
    List Request × Option (Except QueryError Graph) × Stream σ :=
  match x.phase with
  | .finished => ([], none, x)
  | .refusing e => ([], some (.error e), x.finish)
  | .yielding gs => ([], yieldFrom x gs)
  | .reading =>
    match t.assembler.pop? x.assembly with
    | some (g, s) => ([], some (.ok g), { x with assembly := s })
    | none =>
      match t.readScansRecorded x.scans x with
      | (record, .ready g, x) => (record, some (.ok g), x)
      | (record, .failed e, x) => (record, some (.error e), x.finish)
      | (record, .dry, x) | (record, .over, x) => (record, t.conclude x)

theorem readRows_of_isOver {s : Assembly σ} (h : t.assembler.isOver s = true)
    (rows : List (Answer Row)) : t.readRows rows s = (.over, s, []) := by
  match rows with
  | [] => rw [readRows, if_pos h]
  | .error reason :: rows => rw [readRows, if_pos h]
  | .ok row :: rows => rw [readRows, if_pos h]

/-- Reading a row that does not fail takes it in, and stops if a graph is ready then. -/
theorem readRows_ok {s : Assembly σ} (h : t.assembler.isOver s = false) (r : Row)
    (rows : List (Answer Row)) : t.readRows (.ok r :: rows) s =
      match t.assembler.collect s r with
      | (.error e, s') => (.failed e, s', rows)
      | (.ok _, s') =>
        match t.assembler.pop? s' with
        | some (g, s') => (.ready g, s', rows)
        | none => t.readRows rows s' := by
  rw [readRows]
  exact if_neg (Bool.eq_false_iff.mp h)

/-- Where no row is left and more are needed, the window is not over. -/
theorem isOver_of_dry {rows rest : List (Answer Row)} {s s' : Assembly σ}
    (h : t.readRows rows s = (.dry, s', rest)) : t.assembler.isOver s' = false := by
  fun_induction readRows t rows s with
  | case1 s =>
    split at h
    · cases h
    · rename_i hover
      cases h
      exact Bool.eq_false_iff.mpr hover
  | case6 rows s hover row kept s₁ hcollect hnone ih => exact ih h
  | _ => cases h

theorem readRowsRecorded_of_isOver {s : Assembly σ} (h : t.assembler.isOver s = true)
    (rows : List (Answer Row)) : t.readRowsRecorded rows s = ([], .over, s, []) := by
  match rows with
  | [] => rw [readRowsRecorded, if_pos h]
  | .error reason :: rows => rw [readRowsRecorded, if_pos h]
  | .ok row :: rows => rw [readRowsRecorded, if_pos h]

theorem readRowsRecorded_snd (rows : List (Answer Row)) (s : Assembly σ) :
    (t.readRowsRecorded rows s).2 = t.readRows rows s := by
  fun_induction readRowsRecorded t rows s with
  | case1 s hover => rw [readRows, if_pos hover]
  | case2 s hover => rw [readRows, if_neg hover]
  | case3 row rows s hover => rw [readRows_of_isOver hover]
  | case4 rows s hover reason => rw [readRows, if_neg hover]
  | case5 rows s hover row e s₁ hcollect => rw [readRows_ok (Bool.eq_false_iff.mpr hover), hcollect]
  | case6 rows s hover row kept s₁ hcollect g s₂ hpop =>
    rw [readRows_ok (Bool.eq_false_iff.mpr hover), hcollect]
    simp only [hpop]
  | case7 rows s hover row kept s₁ hcollect hpop more read hread ih =>
    rw [readRows_ok (Bool.eq_false_iff.mpr hover), hcollect]
    simp only [hpop]
    rw [← ih, hread]

theorem readScansRecorded_snd (scans : List Scan) (x : Stream σ) :
    (t.readScansRecorded scans x).2 = t.readScans scans x := by
  induction scans generalizing x with
  | nil =>
    rw [readScansRecorded, readScans, ← readRowsRecorded_snd]
    rcases t.readRowsRecorded x.rows x.assembly with ⟨record, halt, s, rows⟩
    cases halt <;> rfl
  | cons scan scans ih =>
    rw [readScansRecorded, readScans, ← readRowsRecorded_snd]
    rcases t.readRowsRecorded x.rows x.assembly with ⟨record, halt, s, rows⟩
    cases halt with
    | dry =>
      dsimp only
      rcases t.source.openScan (x.asked + 1 - 1) scan t.columns with reason | rows
      · rfl
      · exact ih _
    | _ => rfl

/-- Recording what is asked changes nothing else. -/
theorem nextRecorded_snd (x : Stream σ) : (t.nextRecorded x).2 = t.next x := by
  rw [nextRecorded, next]
  rcases x.phase with _ | e | gs | _
  · dsimp only
    rcases t.assembler.pop? x.assembly with _ | ⟨g, s⟩
    · dsimp only
      rw [← readScansRecorded_snd]
      rcases t.readScansRecorded x.scans x with ⟨record, halt, y⟩
      cases halt <;> rfl
    · rfl
  · rfl
  · rfl
  · rfl

/-- A stream after so many results were asked for. -/
def after (t : Streaming σ) : Nat → Stream σ → Stream σ
  | 0, x => x
  | n + 1, x => t.after n (t.next x).2

/-- All that is asked of the source for so many results. -/
def requests (t : Streaming σ) : Nat → Stream σ → List Request
  | 0, _ => []
  | n + 1, x => (t.nextRecorded x).1 ++ t.requests n (t.next x).2

/-! ### What is asked, and when -/

/-- Whether all that was asked was asked before the window was over. -/
def Timely (t : Streaming σ) (record : List Request) : Prop :=
  ∀ q ∈ record, t.assembler.window.isOver q.accepted = false

/-- How often a scan was asked for. -/
def scansIn (record : List Request) : Nat :=
  record.countP Request.isScan

theorem scansIn_append (record more : List Request) :
    scansIn (record ++ more) = scansIn record + scansIn more :=
  List.countP_append

theorem timely_nil : t.Timely [] := by
  intro q hq
  cases hq

theorem timely_cons {q : Request} {record : List Request}
    (h : t.assembler.window.isOver q.accepted = false) (hrest : t.Timely record) :
    t.Timely (q :: record) :=
  List.forall_mem_cons.mpr ⟨h, hrest⟩

theorem Timely.append {record more : List Request} (h : t.Timely record) (hmore : t.Timely more) :
    t.Timely (record ++ more) :=
  List.forall_mem_append.mpr ⟨h, hmore⟩

theorem record_readRows (rows : List (Answer Row)) (s : Assembly σ) :
    t.Timely (t.readRowsRecorded rows s).1 ∧ scansIn (t.readRowsRecorded rows s).1 = 0 := by
  have hone : ∀ {s : Assembly σ}, ¬ t.assembler.isOver s = true →
      t.Timely [.row s.accepted] ∧ scansIn [.row s.accepted] = 0 := fun hover =>
    ⟨timely_cons (Bool.eq_false_iff.mpr hover) timely_nil, rfl⟩
  fun_induction readRowsRecorded t rows s with
  | case1 s hover => exact ⟨timely_nil, rfl⟩
  | case2 s hover => exact hone hover
  | case3 row rows s hover => exact ⟨timely_nil, rfl⟩
  | case4 rows s hover reason => exact hone hover
  | case5 rows s hover row e s₁ hcollect => exact hone hover
  | case6 rows s hover row kept s₁ hcollect g s₂ hpop => exact hone hover
  | case7 rows s hover row kept s₁ hcollect hpop more read hread ih =>
    rw [hread] at ih
    obtain ⟨htimely, hscans⟩ := ih
    exact ⟨timely_cons (Bool.eq_false_iff.mpr hover) htimely, hscans⟩

theorem record_readScans (scans : List Scan) (x : Stream σ) :
    t.Timely (t.readScansRecorded scans x).1 ∧
      x.asked + scansIn (t.readScansRecorded scans x).1 = (t.readScans scans x).2.asked := by
  induction scans generalizing x with
  | nil =>
    obtain ⟨htimely, hscans⟩ := record_readRows (t := t) x.rows x.assembly
    rw [readScansRecorded, readScans, ← readRowsRecorded_snd]
    generalize t.readRowsRecorded x.rows x.assembly = read at htimely hscans
    obtain ⟨record, halt, s, rows⟩ := read
    cases halt <;> exact ⟨htimely, congrArg (x.asked + ·) hscans⟩
  | cons scan scans ih =>
    obtain ⟨htimely, hscans⟩ := record_readRows (t := t) x.rows x.assembly
    have hdry : ∀ s rest, t.readRows x.rows x.assembly = (.dry, s, rest) →
        t.assembler.isOver s = false := fun _ _ => isOver_of_dry
    rw [readScansRecorded, readScans]
    rw [← readRowsRecorded_snd] at hdry ⊢
    generalize t.readRowsRecorded x.rows x.assembly = read at htimely hscans hdry
    obtain ⟨record, halt, s, rows⟩ := read
    cases halt with
    | dry =>
      -- a scan is asked for only when the rows before it have not ended the window
      have hover : t.assembler.isOver s = false := hdry s rows rfl
      have hrecord : t.Timely (record ++ [.scan s.accepted]) :=
        htimely.append (timely_cons hover timely_nil)
      have hone : scansIn (record ++ [.scan s.accepted]) = 1 := by
        rw [scansIn_append, hscans]
        rfl
      dsimp only
      rcases t.source.openScan (x.asked + 1 - 1) scan t.columns with reason | rows
      · exact ⟨hrecord, congrArg (x.asked + ·) hone⟩
      · obtain ⟨hmore, hcount⟩ := ih { x with
          assembly := s, rows, scans, asked := x.asked + 1, started := x.started + 1 }
        refine ⟨hrecord.append hmore, ?_⟩
        rw [scansIn_append, hone, ← Nat.add_assoc]
        exact hcount
    | _ => exact ⟨htimely, congrArg (x.asked + ·) hscans⟩

/-- Concluding a stream asks for nothing. -/
theorem conclude_snd (t : Streaming σ) (x : Stream σ) :
    (t.conclude x).2.assembly.accepted = x.assembly.accepted ∧
      (t.conclude x).2.asked = x.asked ∧ (t.conclude x).2.started = x.started := by
  unfold conclude
  cases t.assembler.order with
  | none => exact ⟨rfl, rfl, rfl⟩
  | some compare =>
    obtain ⟨hassembly, hasked, hstarted⟩ := yieldFrom_snd
      { x with assembly := (t.assembler.drain x.assembly).2, rows := [] }
      (t.assembler.drain x.assembly).1
    have haccepted := congrArg Assembly.accepted hassembly
    exact ⟨haccepted, hasked, hstarted⟩

theorem record_next (x : Stream σ) :
    t.Timely (t.nextRecorded x).1 ∧
      x.asked + scansIn (t.nextRecorded x).1 = (t.next x).2.asked := by
  rw [nextRecorded, next]
  rcases x.phase with _ | e | gs | _
  · dsimp only
    rcases t.assembler.pop? x.assembly with _ | ⟨g, s⟩
    · obtain ⟨htimely, hasked⟩ := record_readScans (t := t) x.scans x
      dsimp only
      rw [← readScansRecorded_snd] at hasked ⊢
      generalize t.readScansRecorded x.scans x = read at htimely hasked
      obtain ⟨record, g | e | - | -, y⟩ := read
      · exact ⟨htimely, hasked⟩
      · exact ⟨htimely, hasked⟩
      · exact ⟨htimely, hasked.trans (t.conclude_snd y).2.1.symm⟩
      · exact ⟨htimely, hasked.trans (t.conclude_snd y).2.1.symm⟩
    · exact ⟨timely_nil, rfl⟩
  · exact ⟨timely_nil, rfl⟩
  · exact ⟨timely_nil, (yieldFrom_snd x gs).2.1.symm⟩
  · exact ⟨timely_nil, rfl⟩

/-- Asking for any number of results asks the source for nothing once the window is over. -/
theorem record_requests (n : Nat) (x : Stream σ) :
    t.Timely (t.requests n x) ∧ x.asked + scansIn (t.requests n x) = (t.after n x).asked := by
  induction n generalizing x with
  | zero => exact ⟨timely_nil, rfl⟩
  | succ n ih =>
    obtain ⟨htimely, hasked⟩ := record_next (t := t) x
    obtain ⟨hmore, hcount⟩ := ih (t.next x).2
    refine ⟨htimely.append hmore, ?_⟩
    rw [requests, scansIn_append, ← Nat.add_assoc, hasked]
    exact hcount

/-! ### Streams whose window is over -/

theorem readScansRecorded_of_isOver {x : Stream σ} (h : t.assembler.isOver x.assembly = true)
    (scans : List Scan) : t.readScansRecorded scans x = ([], .over, { x with rows := [] }) := by
  unfold readScansRecorded
  rw [readRowsRecorded_of_isOver h]

/-- A stream whose window is over asks for nothing, and its window stays over. -/
theorem nextRecorded_of_isOver {x : Stream σ} (h : t.assembler.isOver x.assembly = true) :
    (t.nextRecorded x).1 = [] ∧ t.assembler.isOver (t.next x).2.assembly = true ∧
      (t.next x).2.asked = x.asked ∧ (t.next x).2.started = x.started := by
  rw [← nextRecorded_snd, nextRecorded]
  rcases x.phase with _ | e | gs | _
  · dsimp only
    cases hpop : t.assembler.pop? x.assembly with
    | none =>
      dsimp only
      rw [readScansRecorded_of_isOver h]
      obtain ⟨haccepted, hasked, hstarted⟩ := t.conclude_snd { x with rows := [] }
      refine ⟨rfl, ?_, hasked, hstarted⟩
      rw [Assembler.isOver, haccepted]
      exact h
    | some ready =>
      obtain ⟨g, s⟩ := ready
      obtain ⟨-, hs⟩ := Assembler.eq_prepend_of_pop? hpop
      rw [hs] at h
      exact ⟨rfl, h, rfl, rfl⟩
  · exact ⟨rfl, h, rfl, rfl⟩
  · obtain ⟨hassembly, hasked, hstarted⟩ := yieldFrom_snd x gs
    refine ⟨rfl, ?_, hasked, hstarted⟩
    dsimp only
    rw [hassembly]
    exact h
  · exact ⟨rfl, h, rfl, rfl⟩

theorem requests_of_isOver {x : Stream σ} (h : t.assembler.isOver x.assembly = true) (n : Nat) :
    t.requests n x = [] ∧ (t.after n x).asked = x.asked ∧ (t.after n x).started = x.started := by
  induction n generalizing x with
  | zero => exact ⟨rfl, rfl, rfl⟩
  | succ n ih =>
    obtain ⟨hrecord, hover, hasked, hstarted⟩ := nextRecorded_of_isOver h
    obtain ⟨hrequests, hasked', hstarted'⟩ := ih hover
    refine ⟨?_, hasked'.trans hasked, hstarted'.trans hstarted⟩
    rw [requests, hrecord, hrequests]
    rfl

/-! ### Streams that refuse their scans -/

theorem requests_of_finished {x : Stream σ} (h : x.phase = .finished) (n : Nat) :
    t.requests n x = [] ∧ t.after n x = x := by
  have hnext : t.nextRecorded x = ([], none, x) := by rw [nextRecorded, h]
  have hsnd : (t.next x).2 = x := by rw [← nextRecorded_snd, hnext]
  induction n with
  | zero => exact ⟨rfl, rfl⟩
  | succ n ih =>
    rw [requests, after, hsnd, hnext]
    exact ih

theorem requests_of_refusing {x : Stream σ} {e : QueryError} (h : x.phase = .refusing e)
    (n : Nat) : t.requests n x = [] ∧ (t.after n x).asked = x.asked ∧
      (t.after n x).started = x.started := by
  cases n with
  | zero => exact ⟨rfl, rfl, rfl⟩
  | succ n =>
    have hnext : t.nextRecorded x = ([], some (.error e), x.finish) := by rw [nextRecorded, h]
    have hsnd : (t.next x).2 = x.finish := by rw [← nextRecorded_snd, hnext]
    obtain ⟨hrequests, hafter⟩ := requests_of_finished (t := t) (x := x.finish) rfl n
    rw [requests, after, hsnd, hnext, hrequests, hafter]
    exact ⟨rfl, rfl, rfl⟩

/--
A stream of any scans, over any source and with any assembler. What it does is what is recorded of
it, and the scans that it counts as asked for are those of the record. However often it is asked for
results, it asks its source for scans and rows only while fewer results were accepted than the
window reaches to; once the window is over, it asks for nothing any more. If it is drained without
an error, the scans that it has opened are the least number of scans all rows of which come to as
many results as the window reaches to, and all scans if there is no such number. If one of the scans
is the lookup of a row, it asks for nothing at all.
-/
theorem lazy_start (t : Streaming σ) (b : σ) (scans : List Scan) (asked : Nat) :
    let x := Stream.start b scans asked
    let s := Assembly.start b (1 < scans.length)
    (∀ y, (t.nextRecorded y).2 = t.next y) ∧
    (∀ n, (∀ q ∈ t.requests n x, t.assembler.window.isOver q.accepted = false) ∧
      asked + scansIn (t.requests n x) = (t.after n x).asked) ∧
    (∀ m, t.assembler.isOver (t.after m x).assembly = true → ∀ n,
      t.requests n (t.after m x) = [] ∧
        (t.after n (t.after m x)).asked = (t.after m x).asked ∧
        (t.after n (t.after m x)).started = (t.after m x).started) ∧
    (∀ items y, Drains t x items y → (∀ item ∈ items, ∃ g, item = .ok g) →
      y.asked = asked + y.started ∧ t.Suffices s asked scans y.started ∧
        ∀ k, t.Suffices s asked scans k → y.started ≤ k) ∧
    (scans.any Scan.isPoint = true → ∀ n, t.requests n x = [] ∧
      (t.after n x).asked = asked ∧ (t.after n x).started = 0) := by
  intro x s
  refine ⟨nextRecorded_snd, fun n => record_requests n x,
    fun m hover n => requests_of_isOver hover n, ?_, ?_⟩
  · intro items y hdrains hok
    cases hpoints : scans.any Scan.isPoint with
    | true =>
      -- a stream that refuses its scans yields an error
      have hphase : x.phase = .refusing (.contract .pointInStream) := if_pos hpoints
      have hnext : t.next x = (some (.error (.contract .pointInStream)), x.finish) := by
        rw [next, hphase]
      cases hdrains with
      | done h => cases hnext.symm.trans h
      | more h rest =>
        obtain ⟨⟨⟩, rfl⟩ := Prod.mk.inj (hnext.symm.trans h)
        obtain ⟨g, hg⟩ := hok _ List.mem_cons_self
        cases hg
    | false =>
      have hsettled := Sound.settled_of_drains (.inl (reached_start b asked hpoints)) hdrains hok
      refine ⟨hsettled.asked, hsettled.enough, fun k hk => ?_⟩
      exact Nat.le_of_not_lt fun hlt => hsettled.needed k hlt hk
  · intro hpoints n
    have hphase : x.phase = .refusing (.contract .pointInStream) := if_pos hpoints
    exact requests_of_refusing hphase n

/-- The second result is the last one that is wanted, so the second scan is not opened. -/
theorem started_twoRows :
    ∃ x, Drains twoRows (.start [] [.range [] none none, .range [] none none] 0)
        [.ok (.single [2] (.new "Event"))] x ∧ x.started = 1 := by
  have ht : twoRows.assembler.Total (fun r => .single r.key (.new "Event")) fun _ => true :=
    ⟨fun _ _ => rfl, fun _ => rfl, rfl⟩
  have hopens : Opens twoRows 0 [.range [] none none, .range [] none none] [_, _] :=
    .cons rfl (.cons rfl .nil)
  obtain ⟨x, -, hdrains, -⟩ := drains_start ht (by decide) hopens []
  obtain ⟨-, -, -, hleast, -⟩ :=
    lazy_start twoRows [] [.range [] none none, .range [] none none] 0
  obtain ⟨-, henough, hle⟩ := hleast [.ok (.single [2] (.new "Event"))] x hdrains
    fun item hitem => ⟨_, List.mem_singleton.mp hitem⟩
  have hmost : x.started ≤ 1 := hle 1 (.inr rfl)
  refine ⟨x, hdrains, Nat.le_antisymm hmost (Nat.one_le_iff_ne_zero.mpr fun hzero => ?_)⟩
  -- without any row no result is accepted
  rw [hzero] at henough
  rcases henough with hlength | hreached
  · cases hlength
  · cases hreached

end Streaming

end GraphTable
