import GraphTable.Proofs.Results.Agreement

/-!
# How many scans a stream opens

A stream opens a scan only when the rows of all scans before it have not ended the window, and it
stops reading only when they have, or when no scan is left. So a stream that was drained without an
error has opened the least number of scans that contain all results that are wanted (`Suffices`,
`Sound.settled_of_drains`).

What is kept on the way is that the rows taken in so far and the rows in hand are all rows of the
scans that were opened (`Opened`). Graphs that were taken out already do not matter, since they only
stand in front of those that are kept.
-/

namespace GraphTable

variable {σ : Type}

/-! ### Rows that are taken in -/

namespace Assembler

variable {a : Assembler σ} {s : Assembly σ}

theorem accepted_le_accept (a : Assembler σ) (s : Assembly σ) (g : Graph) :
    s.accepted ≤ (a.accept s g).2.accepted := by
  unfold accept
  dsimp only
  split
  · exact Nat.le_succ _
  · exact Nat.le_succ _

/-- No row takes a result back. -/
theorem accepted_le_collect (a : Assembler σ) (s : Assembly σ) (r : Row) :
    s.accepted ≤ (a.collect s r).2.accepted := by
  unfold collect
  split
  · exact Nat.le_refl _
  · split
    · exact Nat.le_refl _
    · rename_i s₁ henter
      obtain ⟨seen, rfl⟩ := enter?_eq_some henter
      split
      · exact Nat.le_succ _
      · simp only [build, judge]
        split
        · exact Nat.le_refl _
        · split
          · exact Nat.le_refl _
          · exact Nat.le_refl _
          · exact accepted_le_accept a { s with seen, builder := _ } _

/-- Takes rows in one after the other, whatever comes of each. -/
def takeAll (a : Assembler σ) (s : Assembly σ) (rows : List Row) : Assembly σ :=
  rows.foldl (fun s r => (a.collect s r).2) s

theorem takeAll_cons_of_collect {s s' : Assembly σ} {r : Row} {kept : Except QueryError Bool}
    (h : a.collect s r = (kept, s')) (rows : List Row) :
    a.takeAll s (r :: rows) = a.takeAll s' rows := by
  change a.takeAll (a.collect s r).2 rows = _
  rw [h]

theorem takeAll_append (s : Assembly σ) (rows more : List Row) :
    a.takeAll s (rows ++ more) = a.takeAll (a.takeAll s rows) more :=
  List.foldl_append

theorem accepted_le_takeAll (a : Assembler σ) (s : Assembly σ) (rows : List Row) :
    s.accepted ≤ (a.takeAll s rows).accepted := by
  induction rows generalizing s with
  | nil => exact Nat.le_refl _
  | cons r rows ih => exact Nat.le_trans (a.accepted_le_collect s r) (ih _)

theorem takeAll_prepend (front : List Graph) (s : Assembly σ) (rows : List Row) :
    a.takeAll (s.prepend front) rows = (a.takeAll s rows).prepend front := by
  induction rows generalizing s with
  | nil => rfl
  | cons r rows ih =>
    have hcollect := congrArg Prod.snd (a.collect_prepend front s r)
    change a.takeAll (a.collect (s.prepend front) r).2 rows = _
    rw [hcollect]
    exact ih _

end Assembler

theorem Window.isOver_of_le {w : Window} {m n : Nat} (hle : m ≤ n) (h : w.isOver m = true) :
    w.isOver n = true := by
  unfold isOver at h ⊢
  cases hlast : w.last with
  | none =>
    rw [hlast] at h
    cases h
  | some last =>
    rw [hlast, Option.any_some, decide_eq_true_eq] at h
    rw [Option.any_some, decide_eq_true_eq]
    omega

namespace Streaming

variable {t : Streaming σ}

/-! ### How many scans are opened -/

/-- The rows of an opened scan that can be read. -/
def readable (rows : List (Answer Row)) : List Row :=
  rows.filterMap Except.toOption

theorem readable_append (front : List Row) (rest : List (Answer Row)) :
    readable (front.map .ok ++ rest) = front ++ readable rest := by
  rw [readable, List.filterMap_append, List.filterMap_map]
  congr 1
  exact List.filterMap_some

/-- The rows of some scans that can be read, if the first is opened after `n` others. -/
def rowsOf (t : Streaming σ) : Nat → List Scan → List Row
  | _, [] => []
  | n, scan :: scans =>
    (match t.source.openScan n scan t.columns with
      | .ok rows => readable rows
      | .error _ => []) ++ t.rowsOf (n + 1) scans

theorem rowsOf_concat {n : Nat} {scans : List Scan} {scan : Scan} {rows : List (Answer Row)}
    (h : t.source.openScan (n + scans.length) scan t.columns = .ok rows) :
    t.rowsOf n (scans ++ [scan]) = t.rowsOf n scans ++ readable rows := by
  induction scans generalizing n with
  | nil =>
    have hopen : t.source.openScan n scan t.columns = .ok rows := h
    rw [List.nil_append]
    simp only [rowsOf, hopen, List.append_nil, List.nil_append]
  | cons first scans ih =>
    rw [List.length_cons, Nat.add_comm scans.length, ← Nat.add_assoc] at h
    rw [List.cons_append, rowsOf, rowsOf, ih h, List.append_assoc]

/-- How many results all rows of some scans come to, from a state on. -/
def acceptedOf (t : Streaming σ) (s : Assembly σ) (n : Nat) (scans : List Scan) : Nat :=
  (t.assembler.takeAll s (t.rowsOf n scans)).accepted

/-- The first `k` of some scans contain all results that are wanted, or there are no more scans. -/
def Suffices (t : Streaming σ) (s : Assembly σ) (n : Nat) (scans : List Scan) (k : Nat) : Prop :=
  k = scans.length ∨ t.assembler.window.isOver (t.acceptedOf s n (scans.take k)) = true

/-- A stream has opened the first of some scans, and has taken in the rows before those that are
left, from a state on. -/
def Opened (t : Streaming σ) (s : Assembly σ) (n : Nat) (scans : List Scan) (x : Stream σ) :
    Prop :=
  ∃ done consumed graphs, scans = done ++ x.scans ∧ x.started = done.length ∧
    x.asked = n + x.started ∧ t.rowsOf n done = consumed ++ readable x.rows ∧
    t.assembler.takeAll s consumed = x.assembly.prepend graphs

/-- A stream is reading, and has needed all scans that it has opened. -/
structure Reached (t : Streaming σ) (s : Assembly σ) (n : Nat) (scans : List Scan) (x : Stream σ) :
    Prop where
  phase : x.phase = .reading
  opened : t.Opened s n scans x
  needed : ∀ k < x.started, ¬ t.Suffices s n scans k

/-- A stream has opened as many scans as suffice, and no more. -/
structure Settled (t : Streaming σ) (s : Assembly σ) (n : Nat) (scans : List Scan) (x : Stream σ) :
    Prop where
  asked : x.asked = n + x.started
  enough : t.Suffices s n scans x.started
  needed : ∀ k < x.started, ¬ t.Suffices s n scans k

section Opening

variable {s s' : Assembly σ} {n : Nat} {scans : List Scan} {x : Stream σ}

theorem Opened.take (h : t.Opened s n scans x) (front : List Row) (gs : List Graph)
    {rest : List (Answer Row)} (hrows : x.rows = front.map .ok ++ rest)
    (htake : t.assembler.takeAll x.assembly front = s'.prepend gs) :
    t.Opened s n scans { x with assembly := s', rows := rest } := by
  obtain ⟨done, consumed, graphs, hscans, hstarted, hasked, hall, hconsumed⟩ := h
  refine ⟨done, consumed ++ front, graphs ++ gs, hscans, hstarted, hasked, ?_, ?_⟩
  · rw [hall, hrows, readable_append, List.append_assoc]
  · rw [Assembler.takeAll_append, hconsumed, Assembler.takeAll_prepend, htake,
      Assembly.prepend_prepend]

/-- All results of the scans that were opened are those before, and those of the rows left. -/
theorem Opened.acceptedOf_eq (h : t.Opened s n scans x) :
    t.acceptedOf s n (scans.take x.started) =
      (t.assembler.takeAll x.assembly (readable x.rows)).accepted := by
  obtain ⟨done, consumed, graphs, hscans, hstarted, -, hall, hconsumed⟩ := h
  have htake : scans.take x.started = done := by rw [hscans, hstarted, List.take_left]
  rw [acceptedOf, htake, hall, Assembler.takeAll_append, hconsumed, Assembler.takeAll_prepend]
  rfl

/-- Where a stream stops because its window is over, the scans that it has opened suffice. -/
theorem Opened.suffices_of_isOver (h : t.Opened s n scans x)
    (hover : t.assembler.isOver x.assembly = true) : t.Suffices s n scans x.started := by
  right
  rw [h.acceptedOf_eq]
  exact Window.isOver_of_le (t.assembler.accepted_le_takeAll x.assembly _) hover

/-- Where the rows of the scans that were opened have not ended the window, more scans are needed,
if there are more. -/
theorem Opened.not_suffices (h : t.Opened s n scans x) (hrows : x.rows = [])
    (hover : t.assembler.isOver x.assembly = false) (hscans : x.scans ≠ []) :
    ¬ t.Suffices s n scans x.started := by
  rintro (hall | hreached)
  · obtain ⟨done, -, -, happend, hstarted, -⟩ := h
    rw [hstarted, happend, List.length_append] at hall
    have hpos := List.length_pos_iff.mpr hscans
    omega
  · rw [h.acceptedOf_eq, hrows] at hreached
    have hsame : t.assembler.isOver x.assembly = true := hreached
    rw [hover] at hsame
    cases hsame

theorem Opened.step {scan : Scan} {left : List Scan} {rows : List (Answer Row)}
    (h : t.Opened s n scans x) (hrows : x.rows = []) (hscans : x.scans = scan :: left)
    (hopen : t.source.openScan x.asked scan t.columns = .ok rows) :
    t.Opened s n scans
      { x with rows, scans := left, asked := x.asked + 1, started := x.started + 1 } := by
  obtain ⟨done, consumed, graphs, happend, hstarted, hasked, hall, hconsumed⟩ := h
  refine ⟨done ++ [scan], consumed, graphs, ?_, ?_, ?_, ?_, hconsumed⟩
  · rw [happend, hscans, List.append_assoc]
    rfl
  · rw [List.length_append, hstarted]
    rfl
  · rw [hasked]
    rfl
  · rw [hasked, hstarted] at hopen
    rw [rowsOf_concat hopen, hall, hrows]
    exact congrArg (· ++ readable rows) (List.append_nil consumed)

/-- A step takes in a row, or opens a scan that is needed. -/
theorem Reached.step {y : Stream σ} (h : t.Reached s n scans x) (hstep : t.Step x y) :
    t.Reached s n scans y := by
  cases hstep with
  | @row r rows kept s' hx hrows hcollect =>
    have htake : t.assembler.takeAll x.assembly [r] = s'.prepend [] :=
      Assembler.takeAll_cons_of_collect hcollect []
    exact ⟨h.phase, h.opened.take [r] [] hrows htake, h.needed⟩
  | scan hx hrows hscans hopen =>
    have hmore := h.opened.not_suffices hrows hx.isOver_eq_false
      (by rw [hscans]; exact List.cons_ne_nil _ _)
    refine ⟨h.phase, h.opened.step hrows hscans hopen, fun k hk => ?_⟩
    rcases Nat.lt_succ_iff_lt_or_eq.mp hk with hk | rfl
    · exact h.needed k hk
    · exact hmore

/-- A stream whose window is over, or that has no rows and no scans left, has opened enough. -/
theorem Reached.settled (h : t.Reached s n scans x)
    (hend : t.assembler.isOver x.assembly = true ∨ x.scans = []) : t.Settled s n scans x := by
  obtain ⟨done, -, -, happend, hstarted, hasked, -⟩ := h.opened
  refine ⟨hasked, ?_, h.needed⟩
  rcases hend with hover | hscans
  · exact h.opened.suffices_of_isOver hover
  · rw [hscans, List.append_nil] at happend
    exact .inl (hstarted.trans (congrArg List.length happend.symm))

/-! ### Streams that are drained -/

theorem yieldFrom_snd (x : Stream σ) (gs : List Graph) :
    (yieldFrom x gs).2.assembly = x.assembly ∧ (yieldFrom x gs).2.asked = x.asked ∧
      (yieldFrom x gs).2.started = x.started := by
  cases gs <;> exact ⟨rfl, rfl, rfl⟩

/-- A stream that has not failed: it is reading, or it has opened what suffices and is done. -/
def Sound (t : Streaming σ) (s : Assembly σ) (n : Nat) (scans : List Scan) (x : Stream σ) : Prop :=
  t.Reached s n scans x ∨
    t.Settled s n scans x ∧ (x.phase = .finished ∨ ∃ gs, x.phase = .yielding gs)

theorem Settled.of_eq {y : Stream σ} (h : t.Settled s n scans x) (hasked : y.asked = x.asked)
    (hstarted : y.started = x.started) : t.Settled s n scans y := by
  obtain ⟨hcount, henough, hneeded⟩ := h
  rw [← hstarted] at hcount henough hneeded
  exact ⟨hasked.trans hcount, henough, hneeded⟩

theorem Settled.sound_yieldFrom (h : t.Settled s n scans x) (gs : List Graph) :
    t.Sound s n scans (yieldFrom x gs).2 ∧ t.Settled s n scans (yieldFrom x gs).2 := by
  obtain ⟨-, hasked, hstarted⟩ := yieldFrom_snd x gs
  have hsettled := h.of_eq hasked hstarted
  refine ⟨.inr ⟨hsettled, ?_⟩, hsettled⟩
  cases gs with
  | nil => exact .inl rfl
  | cons g gs => exact .inr ⟨gs, rfl⟩

theorem Settled.sound_conclude (h : t.Settled s n scans x) :
    t.Sound s n scans (t.conclude x).2 ∧ t.Settled s n scans (t.conclude x).2 := by
  unfold conclude
  cases t.assembler.order with
  | none =>
    have hsettled : t.Settled s n scans x.finish := h.of_eq rfl rfl
    exact ⟨.inr ⟨hsettled, .inl rfl⟩, hsettled⟩
  | some compare =>
    have hdrained : t.Settled s n scans
        { x with assembly := (t.assembler.drain x.assembly).2, rows := [] } := h.of_eq rfl rfl
    exact hdrained.sound_yieldFrom _

/-- Asking a stream for its next result, without a failure, opens no scan that is not needed; if
there is none any more, as many scans were opened as suffice. -/
theorem Sound.next (hx : t.Sound s n scans x) (hok : ∀ e, (t.next x).1 ≠ some (.error e)) :
    t.Sound s n scans (t.next x).2 ∧ ((t.next x).1 = none → t.Settled s n scans (t.next x).2) := by
  rcases hx with hx | ⟨hx, hphase | ⟨gs, hphase⟩⟩
  · obtain ⟨out, hreads, hnext⟩ := reads_next (t := t) hx.phase
    obtain ⟨y, hy, hstop⟩ := hreads.exists_stop (fun _ _ hstep h => h.step hstep) hx
    rw [hnext] at hok ⊢
    cases hstop with
    | @ready g s' hpop =>
      obtain ⟨-, hs'⟩ := Assembler.eq_prepend_of_pop? hpop
      exact ⟨.inl ⟨hy.phase, hy.opened.take [] [g] rfl hs', hy.needed⟩, fun h => by cases h⟩
    | ended hpop hover =>
      have hsettled : t.Settled s n scans { y with rows := [] } :=
        (hy.settled (.inl hover)).of_eq rfl rfl
      exact ⟨hsettled.sound_conclude.1, fun _ => hsettled.sound_conclude.2⟩
    | dry _ _ hscans =>
      have hsettled := hy.settled (.inr hscans)
      exact ⟨hsettled.sound_conclude.1, fun _ => hsettled.sound_conclude.2⟩
    | broken | failed | refused => exact absurd rfl (hok _)
  · rw [Streaming.next, hphase]
    exact ⟨.inr ⟨hx, .inl hphase⟩, fun _ => hx⟩
  · rw [Streaming.next, hphase]
    exact ⟨(hx.sound_yieldFrom gs).1, fun _ => (hx.sound_yieldFrom gs).2⟩

theorem Sound.settled_of_drains {items : List (Except QueryError Graph)} {y : Stream σ}
    (hx : t.Sound s n scans x) (h : Drains t x items y)
    (hok : ∀ item ∈ items, ∃ g, item = .ok g) : t.Settled s n scans y := by
  induction h with
  | done h =>
    have hstep := hx.next fun e heq => by
      rw [h] at heq
      cases heq
    rw [h] at hstep
    exact hstep.2 rfl
  | more h _ ih =>
    obtain ⟨⟨g, rfl⟩, hrest⟩ := List.forall_mem_cons.mp hok
    have hstep := hx.next fun e heq => by
      rw [h] at heq
      cases heq
    rw [h] at hstep
    exact ih hstep.1 hrest

end Opening

theorem reached_start (b : σ) {scans : List Scan} (n : Nat)
    (hpoints : scans.any Scan.isPoint = false) :
    t.Reached (.start b (1 < scans.length)) n scans (.start b scans n) where
  phase := by
    rw [Stream.start, hpoints]
    rfl
  opened := ⟨[], [], [], rfl, rfl, rfl, rfl, rfl⟩
  needed k hk := absurd hk (Nat.not_lt_zero k)

end Streaming

end GraphTable
