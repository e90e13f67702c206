import GraphTable.Results.Stream
import Mathlib.Logic.Relation

/-!
# How a stream reads

A stream reads in **steps** (`Streaming.Step`): it takes in the next row of the scan that is open,
or opens the next scan if no row is left. It takes steps as long as it needs rows, which is while no
graph is ready and its window is not over (`Needs`), and stops in one of six ways (`Stops`). Asking
for the next result comes to some steps and an answer where they stop (`reads_next`).

So whatever is to be known of streams is proved of a step and of the six stops, and it holds of all
reading by `Reads.exists_stop`. Two things are kept by steps, and each gives a result of its own:
what is left to collect (`Leaves.step`), and which scans were needed so far (`Reached.step`).
-/

namespace GraphTable.Streaming

open Relation (ReflTransGen)

variable {σ : Type} {t : Streaming σ}

/-! ### Steps and stops -/

/-- A stream needs rows: no graph is ready, and its window is not over. -/
structure Needs (t : Streaming σ) (x : Stream σ) : Prop where
  pop?_eq_none : t.assembler.pop? x.assembly = none
  isOver_eq_false : t.assembler.isOver x.assembly = false

/-- One thing that a stream does as long as it needs rows. -/
inductive Step (t : Streaming σ) : Stream σ → Stream σ → Prop
  | row {x : Stream σ} {r : Row} {rows : List (Answer Row)} {kept : Bool} {s : Assembly σ}
      (hx : t.Needs x) (hrows : x.rows = .ok r :: rows)
      (hcollect : t.assembler.collect x.assembly r = (.ok kept, s)) :
      Step t x { x with assembly := s, rows }
  | scan {x : Stream σ} {scan : Scan} {scans : List Scan} {rows : List (Answer Row)}
      (hx : t.Needs x) (hrows : x.rows = []) (hscans : x.scans = scan :: scans)
      (hopen : t.source.openScan x.asked scan t.columns = .ok rows) :
      Step t x { x with rows, scans, asked := x.asked + 1, started := x.started + 1 }

/-- Where a stream stops reading, and how it is left. -/
inductive Stops (t : Streaming σ) (x : Stream σ) : Halt × Stream σ → Prop
  | ready {g : Graph} {s : Assembly σ} (hpop : t.assembler.pop? x.assembly = some (g, s)) :
      Stops t x (.ready g, { x with assembly := s })
  | ended (hpop : t.assembler.pop? x.assembly = none)
      (hover : t.assembler.isOver x.assembly = true) : Stops t x (.over, { x with rows := [] })
  /-- A row cannot be read. -/
  | broken {reason : String} {rows : List (Answer Row)} (hx : t.Needs x)
      (hrows : x.rows = .error reason :: rows) : Stops t x (.failed (.io reason), { x with rows })
  /-- A row cannot be taken in. -/
  | failed {r : Row} {rows : List (Answer Row)} {e : QueryError} {s : Assembly σ} (hx : t.Needs x)
      (hrows : x.rows = .ok r :: rows)
      (hcollect : t.assembler.collect x.assembly r = (.error e, s)) :
      Stops t x (.failed e, { x with assembly := s, rows })
  /-- A scan cannot be opened. -/
  | refused {scan : Scan} {scans : List Scan} {reason : String} (hx : t.Needs x)
      (hrows : x.rows = []) (hscans : x.scans = scan :: scans)
      (hopen : t.source.openScan x.asked scan t.columns = .error reason) :
      Stops t x (.failed (.io reason), { x with scans, asked := x.asked + 1 })
  | dry (hx : t.Needs x) (hrows : x.rows = []) (hscans : x.scans = []) : Stops t x (.dry, x)

/-- Reading from a stream on takes some steps and stops. -/
def Reads (t : Streaming σ) (x : Stream σ) (out : Halt × Stream σ) : Prop :=
  ∃ y, ReflTransGen t.Step x y ∧ t.Stops y out

/-- What every step keeps holds where reading stops. -/
theorem Reads.exists_stop {x : Stream σ} {out : Halt × Stream σ} {P : Stream σ → Prop}
    (h : t.Reads x out) (hstep : ∀ y z, t.Step y z → P y → P z) (hx : P x) :
    ∃ y, P y ∧ t.Stops y out := by
  obtain ⟨y, hsteps, hstop⟩ := h
  refine ⟨y, ?_, hstop⟩
  clear hstop
  induction hsteps with
  | refl => exact hx
  | tail _ h ih => exact hstep _ _ h ih

/-! ### The reading loop -/

/-- Reading the rows of a scan takes steps until it stops, or until no row is left. -/
theorem reads_readRows (x : Stream σ) {rows rest : List (Answer Row)} {s s' : Assembly σ}
    {halt : Halt} (hpop : t.assembler.pop? s = none)
    (h : t.readRows rows s = (halt, s', rest)) :
    halt = .dry ∧ rest = [] ∧ t.Needs { x with assembly := s', rows := rest } ∧
        ReflTransGen t.Step { x with assembly := s, rows } { x with assembly := s', rows := rest } ∨
      halt ≠ .dry ∧
        t.Reads { x with assembly := s, rows } (halt, { x with assembly := s', rows := rest }) := by
  fun_induction readRows t rows s with
  | case1 s =>
    split at h
    · rename_i hover
      cases h
      exact .inr ⟨by rintro ⟨⟩, _, .refl, .ended hpop hover⟩
    · rename_i hover
      cases h
      exact .inl ⟨rfl, rfl, ⟨hpop, Bool.eq_false_iff.mpr hover⟩, .refl⟩
  | case2 row rows s hover =>
    cases h
    exact .inr ⟨by rintro ⟨⟩, _, .refl, .ended hpop hover⟩
  | case3 rows s hover reason =>
    cases h
    exact .inr ⟨by rintro ⟨⟩, _, .refl, .broken ⟨hpop, Bool.eq_false_iff.mpr hover⟩ rfl⟩
  | case4 rows s hover row e s₁ hcollect =>
    cases h
    exact .inr ⟨by rintro ⟨⟩, _, .refl, .failed ⟨hpop, Bool.eq_false_iff.mpr hover⟩ rfl hcollect⟩
  | case5 rows s hover row _ s₁ hcollect g s₂ hready =>
    have hstep := Step.row (x := { x with assembly := s, rows := .ok row :: rows })
      ⟨hpop, Bool.eq_false_iff.mpr hover⟩ rfl hcollect
    cases h
    exact .inr ⟨by rintro ⟨⟩, _, .single hstep, .ready hready⟩
  | case6 rows s hover row _ s₁ hcollect hnone ih =>
    have hstep := Step.row (x := { x with assembly := s, rows := .ok row :: rows })
      ⟨hpop, Bool.eq_false_iff.mpr hover⟩ rfl hcollect
    obtain ⟨hdry, hrest, hneeds, hsteps⟩ | ⟨hhalt, y, hsteps, hstop⟩ := ih hnone h
    · exact .inl ⟨hdry, hrest, hneeds, .head hstep hsteps⟩
    · exact .inr ⟨hhalt, y, .head hstep hsteps, hstop⟩

theorem reads_readScans {scans : List Scan} {x : Stream σ}
    (hpop : t.assembler.pop? x.assembly = none) (hscans : x.scans = scans) :
    t.Reads x (t.readScans scans x) := by
  induction scans generalizing x with
  | nil =>
    rw [readScans]
    rcases hread : t.readRows x.rows x.assembly with ⟨halt, s, rest⟩
    obtain ⟨rfl, rfl, hneeds, hsteps⟩ | ⟨hhalt, hreads⟩ := reads_readRows x hpop hread
    · cases x
      cases hscans
      exact ⟨_, hsteps, .dry hneeds rfl rfl⟩
    · cases halt with
      | dry => exact absurd rfl hhalt
      | _ => exact hreads
  | cons scan scans ih =>
    rw [readScans]
    rcases hread : t.readRows x.rows x.assembly with ⟨halt, s, rest⟩
    obtain ⟨rfl, rfl, hneeds, hsteps⟩ | ⟨hhalt, hreads⟩ := reads_readRows x hpop hread
    · simp only [Nat.add_sub_cancel]
      rcases hopen : t.source.openScan x.asked scan t.columns with reason | rows
      · exact ⟨_, hsteps, .refused hneeds rfl hscans hopen⟩
      · -- reading goes on with the scan that was opened
        let y : Stream σ :=
          { x with assembly := s, rows, scans, asked := x.asked + 1, started := x.started + 1 }
        obtain ⟨z, hmore, hstop⟩ := ih (x := y) hneeds.pop?_eq_none rfl
        exact ⟨z, (hsteps.tail (.scan hneeds rfl hscans hopen)).trans hmore, hstop⟩
    · cases halt with
      | dry => exact absurd rfl hhalt
      | _ => exact hreads

/-- What a stream answers where reading has stopped. -/
def answer (t : Streaming σ) : Halt × Stream σ → Option (Except QueryError Graph) × Stream σ
  | (.ready g, x) => (some (.ok g), x)
  | (.failed e, x) => (some (.error e), x.finish)
  | (.dry, x) | (.over, x) => t.conclude x

/-- Asking a stream that is reading for its next result. -/
theorem reads_next {x : Stream σ} (hphase : x.phase = .reading) :
    ∃ out, t.Reads x out ∧ t.next x = t.answer out := by
  cases hpop : t.assembler.pop? x.assembly with
  | some ready =>
    obtain ⟨g, s⟩ := ready
    refine ⟨_, ⟨x, .refl, .ready hpop⟩, ?_⟩
    rw [next, hphase]
    simp only [hpop]
    rfl
  | none =>
    refine ⟨_, reads_readScans hpop rfl, ?_⟩
    rw [next, hphase]
    simp only [hpop]
    obtain ⟨g | e | - | -, y⟩ := t.readScans x.scans x <;> rfl

/-! ### Asking for all results -/

/-- Asking for results until there are no more. -/
inductive Drains (t : Streaming σ) :
    Stream σ → List (Except QueryError Graph) → Stream σ → Prop
  | done {x x' : Stream σ} (h : t.next x = (none, x')) : Drains t x [] x'
  | more {x y x' : Stream σ} {item : Except QueryError Graph}
      {items : List (Except QueryError Graph)} (h : t.next x = (some item, y))
      (rest : Drains t y items x') : Drains t x (item :: items) x'

/-- What a stream yields, and how it is left, does not depend on anything else. -/
theorem Drains.unique {x y z : Stream σ} {items others : List (Except QueryError Graph)}
    (h : Drains t x items y) (h' : Drains t x others z) : items = others ∧ y = z := by
  induction h generalizing others with
  | done h =>
    cases h' with
    | done h' => exact ⟨rfl, (Prod.mk.inj (h.symm.trans h')).2⟩
    | more h' _ => cases h.symm.trans h'
  | more h _ ih =>
    cases h' with
    | done h' => cases h.symm.trans h'
    | more h' rest =>
      obtain ⟨hitem, rfl⟩ := Prod.mk.inj (h.symm.trans h')
      obtain ⟨rfl, rfl⟩ := ih rest
      exact ⟨congrArg (· :: _) (Option.some.inj hitem), rfl⟩

end GraphTable.Streaming
