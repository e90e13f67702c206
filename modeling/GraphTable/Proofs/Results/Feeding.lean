import GraphTable.Results.Assembler

/-!
# What an assembler makes of rows

Rows are fed to an assembler one by one, and a graph is taken out as soon as it is ready
(`Assembler.feed`). If building and recognizing never fail, one row does one of six things
(`Takes`). From that follows what comes of all of them (`fed_feed`):

* **The rows that enter** are those not marked as deleted, and of rows of one key only the first,
  if keys may come only once (`entering`).
* **The results** are the recognized graphs of these whose numbers are in the window.
* **Counts**: a number is given up to the end of the window, every result counts as kept, and
  without a recognizer the rows with numbers before the window count as passed over.
* **Builds**: without a recognizer only the rows with numbers in the window are built.
-/

namespace GraphTable

/-! ### Numbered elements -/

namespace Window

variable {α β : Type} {test : Nat → Bool} {n : Nat}

/-- The elements of a list whose numbers pass a test; they are numbered from `n` on. -/
def pick (test : Nat → Bool) (n : Nat) (xs : List α) : List α :=
  ((xs.zipIdx n).filter fun (_, k) => test k).map Prod.fst

/-- Whether a number is given before the window is over. -/
def reaches (w : Window) (k : Nat) : Bool :=
  w.last.all (k ≤ ·)

/-- Whether a number is given before the window begins. -/
def precedes (w : Window) (k : Nat) : Bool :=
  w.reaches k && !w.first.all (· ≤ k)

variable {w : Window} {k : Nat}

/-- After the last number that is wanted no number is given. -/
theorem reaches_of_isOver (h : w.isOver n = true) (hk : n + 1 ≤ k) : w.reaches k = false := by
  obtain ⟨first, last⟩ := w
  cases last with
  | none => cases h
  | some last =>
    have hlast : last ≤ n := of_decide_eq_true h
    exact decide_eq_false (by omega)

theorem contains_eq : w.contains k = (w.first.all (· ≤ k) && w.reaches k) := rfl

theorem contains_of_not_reaches (h : w.reaches k = false) : w.contains k = false := by
  rw [contains_eq, h, Bool.and_false]

end Window

namespace Assembler

variable {σ : Type} {a : Assembler σ} {f : Row → Graph} {p : Graph → Bool}

/-! ### Single rows -/

/--
Nothing fails: rows have graphs, which do not depend on the state of the builder, and are
recognized or not. Results come in the order of their rows.
-/
structure Total (a : Assembler σ) (f : Row → Graph) (p : Graph → Bool) : Prop where
  build : ∀ b r, (a.builder.build b r).1 = .ok (f r)
  recognizes : ∀ r, a.recognizes (f r) = .ok (p (f r))
  order : a.order = none

/-- The state of the builder after a row was built. -/
def built (a : Assembler σ) (b : σ) (r : Row) : σ :=
  a.builder.clear (a.builder.build b r).2

/-- A row that is not marked as deleted comes in, and its key is noted. -/
structure Enters (a : Assembler σ) (s : Assembly σ) (r : Row) (seen : Option (List Bytes)) :
    Prop where
  live : a.isDeleted r = false
  enter : s.enter? r.key = some { s with seen }

/-- What may become of one row: the graph that is ready then, if there is one, and the state. -/
inductive Takes (a : Assembler σ) (f : Row → Graph) (p : Graph → Bool) (s : Assembly σ) (r : Row) :
    Option Graph → Assembly σ → Prop
  | deleted (h : a.isDeleted r = true) : Takes a f p s r none s
  | repeated (hlive : a.isDeleted r = false) (h : s.enter? r.key = none) : Takes a f p s r none s
  | passedOver {seen : Option (List Bytes)} (h : a.Enters s r seen) (hrec : a.recognizer = none)
      (hout : a.window.contains (s.accepted + 1) = false) :
      Takes a f p s r none
        { s with seen, accepted := s.accepted + 1, ignored := s.ignored + 1 }
  | unrecognized {seen : Option (List Bytes)} (h : a.Enters s r seen) (hp : p (f r) = false) :
      Takes a f p s r none
        { s with seen, builder := a.built s.builder r, unrecognized := s.unrecognized + 1 }
  | outside {seen : Option (List Bytes)} (h : a.Enters s r seen) (hp : p (f r) = true)
      (hrec : a.recognizer ≠ none) (hout : a.window.contains (s.accepted + 1) = false) :
      Takes a f p s r none
        { s with seen, builder := a.built s.builder r, accepted := s.accepted + 1 }
  | kept {seen : Option (List Bytes)} (h : a.Enters s r seen) (hp : p (f r) = true)
      (hin : a.window.contains (s.accepted + 1) = true) :
      Takes a f p s r (some (f r))
        { s with
          seen
          builder := a.built s.builder r
          accepted := s.accepted + 1
          retained := s.retained + 1 }

theorem enter?_eq_some {s s' : Assembly σ} {key : Bytes} (h : s.enter? key = some s') :
    ∃ seen, s' = { s with seen } := by
  unfold Assembly.enter? at h
  split at h
  · exact ⟨s.seen, (Option.some.inj h).symm⟩
  · split at h
    · cases h
    · exact ⟨_, (Option.some.inj h).symm⟩

/-- Without recognizer every graph is recognized. -/
theorem Total.recognized (h : a.Total f p) (hrec : a.recognizer = none) (r : Row) :
    p (f r) = true := by
  have hr := h.recognizes r
  rw [Assembler.recognizes, hrec] at hr
  exact (Except.ok.inj hr).symm

/-- Takes a row in, and a graph out if one is ready then. -/
def take (a : Assembler σ) (s : Assembly σ) (r : Row) : Option Graph × Assembly σ :=
  match a.pop? (a.collect s r).2 with
  | some (g, s) => (some g, s)
  | none => (none, (a.collect s r).2)

theorem Total.pop?_eq_none (h : a.Total f p) {s : Assembly σ} (hs : s.graphs = []) :
    a.pop? s = none := by
  rw [pop?, h.order, hs]

theorem Total.build_eq (h : a.Total f p) (s : Assembly σ) (r : Row) :
    a.build s r = (.ok (f r), { s with builder := a.built s.builder r }) := by
  rw [← h.build s.builder r]
  rfl

theorem collect_of_isDeleted {r : Row} (h : a.isDeleted r = true) (s : Assembly σ) :
    a.collect s r = (.ok false, s) := by
  rw [collect, h]
  rfl

theorem collect_of_repeated {s : Assembly σ} {r : Row} (hlive : a.isDeleted r = false)
    (h : s.enter? r.key = none) : a.collect s r = (.ok false, s) := by
  rw [collect, hlive, h]
  rfl

/-- What collecting a row that enters comes to. -/
theorem Total.collect_of_enters (h : a.Total f p) {s : Assembly σ} {r : Row}
    {seen : Option (List Bytes)} (henters : a.Enters s r seen) :
    a.collect s r =
      if a.recognizer = none ∧ a.window.contains (s.accepted + 1) = false then
        (.ok false, { s with seen, accepted := s.accepted + 1, ignored := s.ignored + 1 })
      else if p (f r) = true then
        if a.window.contains (s.accepted + 1) = true then
          (.ok true,
            { s with
              seen
              builder := a.built s.builder r
              graphs := s.graphs ++ [f r]
              accepted := s.accepted + 1
              retained := s.retained + 1 })
        else
          (.ok false,
            { s with seen, builder := a.built s.builder r, accepted := s.accepted + 1 })
      else
        (.ok false,
          { s with seen, builder := a.built s.builder r, unrecognized := s.unrecognized + 1 }) := by
  have hpasses : a.passesOver { s with seen } = true ↔
      a.recognizer = none ∧ a.window.contains (s.accepted + 1) = false := by
    simp [passesOver]
  rw [collect, henters.live, henters.enter]
  simp only [Bool.false_eq_true, if_false, hpasses, h.build_eq, judge, h.recognizes]
  congr 1
  cases p (f r) with
  | false => rfl
  | true =>
    simp only [accept, if_true]
    split <;> rfl

theorem Total.take_of_collect (h : a.Total f p) {s s' : Assembly σ} {r : Row}
    {kept : Except QueryError Bool} (hc : a.collect s r = (kept, s')) (hs : s'.graphs = []) :
    a.take s r = (none, s') := by
  rw [take, hc]
  simp only [h.pop?_eq_none hs]

/-- A row does one of the six things. -/
theorem Total.takes (h : a.Total f p) {s : Assembly σ} (hs : s.graphs = []) (r : Row) :
    Takes a f p s r (a.take s r).1 (a.take s r).2 := by
  cases hlive : a.isDeleted r with
  | true =>
    rw [h.take_of_collect (collect_of_isDeleted hlive s) hs]
    exact .deleted hlive
  | false =>
    cases henter : s.enter? r.key with
    | none =>
      rw [h.take_of_collect (collect_of_repeated hlive henter) hs]
      exact .repeated hlive henter
    | some s' =>
      obtain ⟨seen, rfl⟩ := enter?_eq_some henter
      have henters : a.Enters s r seen := ⟨hlive, henter⟩
      have hc := h.collect_of_enters henters
      split at hc
      · rename_i hpass
        rw [h.take_of_collect hc hs]
        exact .passedOver henters hpass.1 hpass.2
      · rename_i hpass
        split at hc
        · rename_i hp
          split at hc
          · rename_i hin
            have htake : a.take s r = (some (f r), { s with
                seen
                builder := a.built s.builder r
                accepted := s.accepted + 1
                retained := s.retained + 1 }) := by
              rw [take, hc]
              simp only [pop?, h.order, hs, List.nil_append]
            rw [htake]
            exact .kept henters hp hin
          · rename_i hout
            rw [h.take_of_collect hc hs]
            have hout := Bool.eq_false_iff.mpr hout
            exact .outside henters hp (fun hrec => hpass ⟨hrec, hout⟩) hout
        · rename_i hp
          rw [h.take_of_collect hc hs]
          exact .unrecognized henters (Bool.eq_false_iff.mpr hp)

theorem Takes.graphs_eq {s s' : Assembly σ} {r : Row} {ready : Option Graph}
    (h : Takes a f p s r ready s') : s'.graphs = s.graphs := by
  cases h <;> rfl

theorem Total.collect_ok (h : a.Total f p) (s : Assembly σ) (r : Row) :
    ∃ kept, (a.collect s r).1 = .ok kept := by
  cases hlive : a.isDeleted r with
  | true => exact ⟨false, congrArg Prod.fst (collect_of_isDeleted hlive s)⟩
  | false =>
    cases henter : s.enter? r.key with
    | none => exact ⟨false, congrArg Prod.fst (collect_of_repeated hlive henter)⟩
    | some s' =>
      obtain ⟨seen, rfl⟩ := enter?_eq_some henter
      rw [h.collect_of_enters ⟨hlive, henter⟩]
      split
      · exact ⟨_, rfl⟩
      · split
        · split <;> exact ⟨_, rfl⟩
        · exact ⟨_, rfl⟩

/-! ### Rows one after the other -/

/-- Feeds rows until the window is over, and takes out each graph as soon as it is ready. -/
def feed (a : Assembler σ) : List Row → Assembly σ → List Graph × Assembly σ
  | [], s => ([], s)
  | r :: rs, s =>
    if a.isOver s then ([], s)
    else
      let (ready, s) := a.take s r
      let (graphs, s) := a.feed rs s
      (ready.toList ++ graphs, s)

theorem feed_of_isOver {s : Assembly σ} (h : a.isOver s = true) (rows : List Row) :
    a.feed rows s = ([], s) := by
  cases rows with
  | nil => rfl
  | cons r rows => rw [feed, if_pos h]

theorem feed_cons {s : Assembly σ} (h : a.isOver s = false) (r : Row) (rows : List Row) :
    a.feed (r :: rows) s = ((a.take s r).1.toList ++ (a.feed rows (a.take s r).2).1,
      (a.feed rows (a.take s r).2).2) := by
  rw [feed, if_neg (Bool.eq_false_iff.mp h)]

/-! ### What comes of all rows -/

/-- The rows that come in: not those marked as deleted, and of rows of one key the first. -/
def entering (a : Assembler σ) (seen : Option (List Bytes)) (rows : List Row) : List Row :=
  let live := rows.filter fun r => !a.isDeleted r
  match seen with
  | none => live
  | some keys =>
    (live.filter fun r => !keys.contains r.key).eraseDupsBy fun r s => r.key == s.key

/-- The results, and the counts and builds, that rows come to. -/
structure Fed (a : Assembler σ) (f : Row → Graph) (p : Graph → Bool) (rows : List Row)
    (s : Assembly σ) (graphs : List Graph) (s' : Assembly σ) : Prop where
  graphs_eq : graphs = Window.pick a.window.contains (s.accepted + 1)
    (((a.entering s.seen rows).map f).filter p)
  accepted : s'.accepted = s.accepted + (Window.pick a.window.reaches (s.accepted + 1)
    (((a.entering s.seen rows).map f).filter p)).length
  retained : s'.retained = s.retained + graphs.length
  ignored_of_recognizer : a.recognizer ≠ none → s'.ignored = s.ignored
  ignored : a.recognizer = none → s'.ignored = s.ignored +
    (Window.pick a.window.precedes (s.accepted + 1) (a.entering s.seen rows)).length
  builder : a.recognizer = none → s'.builder = (Window.pick a.window.contains (s.accepted + 1)
    (a.entering s.seen rows)).foldl a.built s.builder

namespace Fed

variable {rows : List Row} {r : Row} {s s' : Assembly σ} {graphs : List Graph}
  {seen : Option (List Bytes)}

theorem nil (s : Assembly σ) : Fed a f p [] s [] s := by
  have hentering : a.entering s.seen [] = [] := by
    unfold entering
    split <;> rfl
  constructor
  · rw [hentering]
    rfl
  · rw [hentering]
    rfl
  · rfl
  · exact fun _ => rfl
  · intro _
    rw [hentering]
    rfl
  · intro _
    rw [hentering]
    rfl

/-- A row that does not come in changes nothing. -/
theorem skip (hentering : a.entering s.seen (r :: rows) = a.entering s.seen rows)
    (h : Fed a f p rows s graphs s') : Fed a f p (r :: rows) s graphs s' := by
  obtain ⟨hgraphs, haccepted, hretained, hrec, hignored, hbuilder⟩ := h
  rw [← hentering] at hgraphs haccepted hignored hbuilder
  exact ⟨hgraphs, haccepted, hretained, hrec, hignored, hbuilder⟩

end Fed

end Assembler

end GraphTable
