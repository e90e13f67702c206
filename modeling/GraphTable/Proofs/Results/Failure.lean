import GraphTable.Proofs.Build.Fresh

/-!
# What a row that fails leaves

If the graph of a row cannot be built, or not be recognized, the error is the answer to the row.
Nothing is kept and nothing counted then, and the builder is cleared. But where keys may come only
once, the key of the row is noted before its graph is built, and stays noted (`collect_of_error`).
So a failure makes no difference to what is seen of the assembler later, **except that rows of the
same key are left out from then on** (`sights_after_error`): fed again, a row that failed is
answered as if it had been taken in.

What is seen of an assembler is the answer to each call together with the counts and the end of the
results after it (`Sight`). The state of the builder is not seen if what it obtains for a row does
not depend on it (`GraphBuilder.Steady`), and the keys that were noted matter to later calls only in
that they keep rows of these keys out (`call_withSeen`).
-/

namespace GraphTable

variable {σ : Type}

/-! ### Builders whose state does not matter -/

/-- What a builder obtains for a row is the same in all states of some kind, and one of these is
left when a build was cleared. -/
def GraphBuilder.Steady (builder : GraphBuilder σ) (clean : σ → Prop) : Prop :=
  builder.Matches builder fun x y => clean x ∧ clean y

/-- Graphs are built from rows alike whenever nothing is linked. -/
theorem GraphSource.steady_builder (b : GraphSource) : b.builder.Steady fun l => l.nodes = [] := by
  rintro l l' r ⟨hl, hl'⟩
  exact ⟨b.build_congr (hl'.trans hl.symm) r, rfl, rfl⟩

/-! ### Keys that were noted -/

namespace Assembly

/-- Whether a key came before and may come only once. -/
def repeats (s : Assembly σ) (key : Bytes) : Bool :=
  s.seen.any (·.contains key)

/-- The same assembly with other keys noted. -/
def withSeen (s : Assembly σ) (seen : Option (List Bytes)) : Assembly σ :=
  { s with seen }

/-- The same assembly with a further key noted, if keys may come only once. -/
def note (s : Assembly σ) (key : Bytes) : Assembly σ :=
  s.withSeen (s.seen.map (key :: ·))

theorem enter?_eq (s : Assembly σ) (key : Bytes) :
    s.enter? key = if s.repeats key then none else some (s.note key) := by
  obtain ⟨builder, seen, graphs, accepted, retained, ignored, unrecognized⟩ := s
  cases seen with
  | none => rfl
  | some keys => rfl

theorem note_of_none {s : Assembly σ} (h : s.seen = none) (key : Bytes) : s.note key = s := by
  obtain ⟨builder, seen, graphs, accepted, retained, ignored, unrecognized⟩ := s
  obtain rfl : seen = none := h
  rfl

theorem repeats_note {s : Assembly σ} (h : s.seen ≠ none) (key : Bytes) :
    (s.note key).repeats key = true := by
  obtain ⟨keys, hkeys⟩ := Option.ne_none_iff_exists'.mp h
  rw [repeats, note, withSeen, hkeys]
  exact List.contains_iff_mem.mpr List.mem_cons_self

/-- The same keys are noted, but for one that may be noted on one side only. -/
def AlikeBut (key : Bytes) (seen seen' : Option (List Bytes)) : Prop :=
  Option.Rel (fun keys keys' => ∀ k, k ≠ key → (k ∈ keys ↔ k ∈ keys')) seen seen'

theorem alikeBut_cons (key : Bytes) (seen : Option (List Bytes)) :
    AlikeBut key seen (seen.map (key :: ·)) := by
  cases seen with
  | none => exact .none
  | some keys => exact .some fun k hk => (List.mem_cons.trans (or_iff_right hk)).symm

variable {key : Bytes} {seen seen' : Option (List Bytes)}

theorem AlikeBut.cons (h : AlikeBut key seen seen') (k : Bytes) :
    AlikeBut key (seen.map (k :: ·)) (seen'.map (k :: ·)) := by
  cases h with
  | none => exact .none
  | some h => exact .some fun j hj => by rw [List.mem_cons, List.mem_cons, h j hj]

theorem AlikeBut.repeats_eq {s : Assembly σ} (h : AlikeBut key s.seen seen') {k : Bytes}
    (hk : k ≠ key) : (s.withSeen seen').repeats k = s.repeats k := by
  unfold repeats withSeen
  generalize s.seen = seen at h
  cases h with
  | none => rfl
  | some h =>
    rw [Bool.eq_iff_iff]
    exact List.contains_iff_mem.trans ((h k hk).symm.trans List.contains_iff_mem.symm)

end Assembly

namespace Assembler

open Assembly

variable {a : Assembler σ} {s s' : Assembly σ} {r : Row} {e : QueryError} {key : Bytes}

/-- What becomes of a row once it came in. -/
def assess (a : Assembler σ) (s : Assembly σ) (r : Row) : Except QueryError Bool × Assembly σ :=
  if a.passesOver s then
    (.ok false, { s with accepted := s.accepted + 1, ignored := s.ignored + 1 })
  else a.judge (a.build s r).2 (a.build s r).1

theorem collect_of_repeats (h : s.repeats r.key = true) : a.collect s r = (.ok false, s) := by
  rw [collect, enter?_eq, if_pos h]
  exact ite_self _

/-- A row whose key is new comes in, and its key is noted first. -/
theorem collect_eq_assess (hlive : a.isDeleted r = false) (h : s.repeats r.key = false) :
    a.collect s r = a.assess (s.note r.key) r := by
  rw [collect, enter?_eq, hlive, h]
  rfl

theorem accept_withSeen (a : Assembler σ) (s : Assembly σ) (seen : Option (List Bytes))
    (g : Graph) :
    a.accept (s.withSeen seen) g = ((a.accept s g).1, (a.accept s g).2.withSeen seen) := by
  unfold accept withSeen
  dsimp only
  split <;> rfl

theorem judge_withSeen (a : Assembler σ) (s : Assembly σ) (seen : Option (List Bytes))
    (built : Except QueryError Graph) :
    a.judge (s.withSeen seen) built = ((a.judge s built).1, (a.judge s built).2.withSeen seen) := by
  unfold judge
  split
  · rfl
  · split
    · rfl
    · rfl
    · rw [accept_withSeen]

/-- The keys that were noted have no influence on a row that came in, and stay as they are. -/
theorem assess_withSeen (a : Assembler σ) (s : Assembly σ) (seen : Option (List Bytes)) (r : Row) :
    a.assess (s.withSeen seen) r = ((a.assess s r).1, (a.assess s r).2.withSeen seen) := by
  have hpasses : a.passesOver (s.withSeen seen) = a.passesOver s := rfl
  have hbuild : a.build (s.withSeen seen) r = ((a.build s r).1, (a.build s r).2.withSeen seen) :=
    rfl
  unfold assess
  rw [hpasses, hbuild]
  split
  · rfl
  · exact a.judge_withSeen _ seen _

theorem seen_assess (a : Assembler σ) (s : Assembly σ) (r : Row) : (a.assess s r).2.seen = s.seen :=
  congrArg (·.2.seen) (a.assess_withSeen s s.seen r)

/-- A row that fails was not there before, and leaves its key. -/
theorem collect_of_error (h : a.collect s r = (.error e, s')) :
    a.isDeleted r = false ∧ s.repeats r.key = false ∧
      s' = (s.note r.key).withBuilder (a.built s.builder r) := by
  cases hlive : a.isDeleted r with
  | true =>
    rw [collect_of_isDeleted hlive] at h
    cases h
  | false =>
    cases hrepeats : s.repeats r.key with
    | true =>
      rw [collect_of_repeats hrepeats] at h
      cases h
    | false =>
      refine ⟨rfl, rfl, ?_⟩
      rw [collect_eq_assess hlive hrepeats] at h
      unfold assess judge at h
      split at h
      · cases h
      · split at h
        · exact (Prod.mk.inj h).2.symm
        · split at h
          · exact (Prod.mk.inj h).2.symm
          · cases h
          · cases h

/-! ### What is seen of an assembler -/

/-- What is seen of a call: the answer to it, and the counts and the end of the results then. -/
structure Sight where
  reply : Reply
  accepted : Nat
  retained : Nat
  ignored : Nat
  unrecognized : Nat
  ended : Bool

/-- What is seen when a call ends. -/
def sight (a : Assembler σ) (reply : Reply) (s : Assembly σ) : Sight :=
  ⟨reply, s.accepted, s.retained, s.ignored, s.unrecognized, a.isOver s⟩

/-- What is seen of some calls, one after the other. -/
def sights (a : Assembler σ) : List Call → Assembly σ → List Sight
  | [], _ => []
  | c :: calls, s => a.sight (a.call s c).1 (a.call s c).2 :: a.sights calls (a.call s c).2

theorem call_collect (a : Assembler σ) (s : Assembly σ) (r : Row) :
    a.call s (.collect r) = (.collected (a.collect s r).1, (a.collect s r).2) :=
  rfl

theorem sights_collect (a : Assembler σ) (s : Assembly σ) (r : Row) :
    a.sights [.collect r] s = [a.sight (.collected (a.collect s r).1) (a.collect s r).2] :=
  rfl

/-- Between calls the state of a steady builder is clean. -/
theorem clean_run {clean : σ → Prop} (hsteady : a.builder.Steady clean) (hs : clean s.builder)
    (calls : List Call) : clean (a.run calls s).2.builder := by
  obtain ⟨y, ⟨hclean, -⟩, -⟩ := endRelated_run hsteady calls ⟨hs, hs⟩
  exact hclean

/-- The state of a steady builder is not seen. -/
theorem sights_withBuilder {clean : σ → Prop} (hsteady : a.builder.Steady clean) {y : σ}
    (hs : clean s.builder) (hy : clean y) (calls : List Call) :
    a.sights calls (s.withBuilder y) = a.sights calls s := by
  induction calls generalizing s y with
  | nil => rfl
  | cons c calls ih =>
    obtain ⟨y', ⟨hs', hy'⟩, hcall⟩ := endRelated_call hsteady c ⟨hs, hy⟩
    have hsame : a.call (s.withBuilder y) c = ((a.call s c).1, (a.call s c).2.withBuilder y') :=
      hcall
    rw [sights, sights, hsame, ih hs' hy']
    rfl

/-- Keys that were noted make no difference to a call that feeds no row of these keys. -/
theorem call_withSeen {c : Call} {seen : Option (List Bytes)} (h : AlikeBut key s.seen seen)
    (hc : ∀ r, c = .collect r → r.key = key → a.isDeleted r = true) :
    ∃ seen', AlikeBut key (a.call s c).2.seen seen' ∧
      a.call (s.withSeen seen) c = ((a.call s c).1, (a.call s c).2.withSeen seen') := by
  cases c with
  | collect r =>
    have hcollect : ∃ seen', AlikeBut key (a.collect s r).2.seen seen' ∧
        a.collect (s.withSeen seen) r = ((a.collect s r).1, (a.collect s r).2.withSeen seen') := by
      cases hlive : a.isDeleted r with
      | true =>
        rw [collect_of_isDeleted hlive, collect_of_isDeleted hlive]
        exact ⟨seen, h, rfl⟩
      | false =>
        have hkey : r.key ≠ key := fun heq => by
          have hdeleted := hc r rfl heq
          rw [hlive] at hdeleted
          cases hdeleted
        have hsame := h.repeats_eq hkey
        cases hrepeats : s.repeats r.key with
        | true =>
          rw [collect_of_repeats hrepeats, collect_of_repeats (hsame.trans hrepeats)]
          exact ⟨seen, h, rfl⟩
        | false =>
          rw [collect_eq_assess hlive hrepeats, collect_eq_assess hlive (hsame.trans hrepeats)]
          refine ⟨seen.map (r.key :: ·), ?_, a.assess_withSeen (s.note r.key) _ r⟩
          rw [seen_assess]
          exact h.cons r.key
    obtain ⟨seen', halike, hcollect⟩ := hcollect
    refine ⟨seen', halike, ?_⟩
    rw [call_collect, call_collect, hcollect]
  | pop =>
    obtain ⟨builder, tombstone, recognizer, order, window⟩ := a
    obtain ⟨x, own, graphs, accepted, retained, ignored, unrecognized⟩ := s
    refine ⟨seen, ?_, ?_⟩
    · cases order <;> cases graphs <;> exact h
    · cases order <;> cases graphs <;> rfl
  | drain => exact ⟨seen, h, rfl⟩

theorem sights_withSeen {seen : Option (List Bytes)} (h : AlikeBut key s.seen seen)
    {calls : List Call}
    (hcalls : ∀ r, .collect r ∈ calls → r.key = key → a.isDeleted r = true) :
    a.sights calls (s.withSeen seen) = a.sights calls s := by
  induction calls generalizing s seen with
  | nil => rfl
  | cons c calls ih =>
    obtain ⟨seen', halike, hcall⟩ :=
      call_withSeen (a := a) (c := c) h fun r hr => hcalls r (hr ▸ List.mem_cons_self)
    rw [sights, sights, hcall, ih halike fun r hr => hcalls r (List.mem_cons_of_mem c hr)]
    rfl

/--
What a row that fails leaves, at any time between calls (`clean_run`). From then on everything is
seen as if nothing had been done but to note the key of the row, where keys may come only once. So
calls that feed no row of this key, or only such as are marked as deleted, are answered and counted
as without the failure; but that all calls are, the row itself fed again among them, is so only
where keys may come more than once.
-/
theorem sights_after_error {clean : σ → Prop} (hsteady : a.builder.Steady clean)
    (hs : clean s.builder) (h : a.collect s r = (.error e, s')) :
    (∀ calls, a.sights calls s' = a.sights calls (s.note r.key)) ∧
    (∀ calls, (∀ r', .collect r' ∈ calls → r'.key = r.key → a.isDeleted r' = true) →
      a.sights calls s' = a.sights calls s) ∧
    ((∀ calls, a.sights calls s' = a.sights calls s) ↔ s.seen = none) := by
  obtain ⟨hlive, hnew, rfl⟩ := collect_of_error h
  have hclean : clean (a.built s.builder r) := (hsteady s.builder s.builder r ⟨hs, hs⟩).2.1
  have hnote : ∀ calls, a.sights calls ((s.note r.key).withBuilder (a.built s.builder r)) =
      a.sights calls (s.note r.key) := sights_withBuilder hsteady hs hclean
  refine ⟨hnote, fun calls hcalls => ?_, fun hsame => ?_, fun hnone calls => ?_⟩
  · rw [hnote]
    exact sights_withSeen (alikeBut_cons r.key s.seen) hcalls
  · -- the row fed again fails again if its key was not noted, and is left out otherwise
    refine Decidable.byContradiction fun hseen => ?_
    have hagain := (hnote [.collect r]).symm.trans (hsame [.collect r])
    have hrepeats := repeats_note hseen r.key
    rw [sights_collect, sights_collect, collect_of_repeats hrepeats, h] at hagain
    cases hagain
  · rw [hnote, note_of_none hnone]

end Assembler

/-! ### A person whose age is not a number -/

namespace Misread

/-- People have a name and an age. -/
def person : TypeDef :=
  ⟨"http://people", "Person", [⟨"name", .data .string, false⟩, ⟨"age", .data .int, false⟩]⟩

/-- The graph of a row is the person alone. -/
def source : GraphSource := ⟨.ofTable .empty, ⟨[person]⟩, person, [102], 0⟩

/-- What makes results of all rows. -/
def everyone : Assembler Linked := ⟨source.builder, none, none, none, .all⟩

/-- The row of a person. -/
def row (name age : String) : Row :=
  ⟨Text.utf8 name, [⟨⟨[102], Text.utf8 "age"⟩, Text.utf8 age⟩,
    ⟨⟨[102], Text.utf8 "name"⟩, Text.utf8 name⟩]⟩

/-- Keys may come only once, and a person came in whose age is a number. -/
def after : Assembly Linked :=
  (everyone.run [.collect (row "bob" "39")] (.start .empty true)).2

/-- The age of a second person is none. -/
theorem collect_ann : (everyone.collect after (row "ann" "x")).1 =
    .error (.build (.property "age" (.invalid "x" .int))) := by
  rfl

/-- Fed again, the row is left out. -/
theorem sights_ann_again :
    (everyone.collect after (row "ann" "x")).1 =
        .error (.build (.property "age" (.invalid "x" .int))) ∧
      ¬ ∀ calls, everyone.sights calls (everyone.collect after (row "ann" "x")).2 =
        everyone.sights calls after := by
  refine ⟨collect_ann, fun hsame => ?_⟩
  have hagain := hsame [.collect (row "ann" "x")]
  cases hagain

/-- The first person fed again is left out as before, and the graph of the second is not there. -/
theorem sights_bob_again :
    everyone.sights [.collect (row "bob" "39"), .drain]
        (everyone.collect after (row "ann" "x")).2 =
      everyone.sights [.collect (row "bob" "39"), .drain] after := by
  have hclean : after.builder.nodes = [] :=
    Assembler.clean_run (a := everyone) source.steady_builder (s := .start .empty true) rfl _
  have hfailed : everyone.collect after (row "ann" "x") =
      (.error (.build (.property "age" (.invalid "x" .int))),
        (everyone.collect after (row "ann" "x")).2) := by
    rw [← collect_ann]
  have hafter := Assembler.sights_after_error source.steady_builder hclean hfailed
  refine hafter.2.1 _ fun r hr hkey => ?_
  obtain rfl : r = row "bob" "39" := by simpa using hr
  cases hkey

end Misread

end GraphTable
