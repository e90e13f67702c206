import GraphTable.Proofs.Build.Sources
import GraphTable.Proofs.Results.Agreement
import GraphTable.Proofs.Table.Deletion
import GraphTable.Service.Basic

/-!
# Rows that are marked as deleted

A row that is marked as deleted is no result of any query (`Assembler.collect_of_isDeleted`). For
the queries of a service, marking a row is therefore as good as deleting it (`find_marked`),
whatever they ask for, **unless a graph comes to an edge to the row**: whether a row is marked is
only looked at when it comes in as a result, and a row that an edge leads to is linked, marked or
not (`Guestbook.find_reply_marked_ne`).
-/

namespace GraphTable

variable {σ : Type}

namespace Assembler

variable {a : Assembler σ}

/-- What becomes of a row depends on the builder only as far as that builds its graph. -/
theorem collect_withBuilder {builder : GraphBuilder σ} {r : Row}
    (hclear : builder.clear = a.builder.clear)
    (hbuild : ∀ x, builder.build x r = a.builder.build x r) (s : Assembly σ) :
    ({ a with builder } : Assembler σ).collect s r = a.collect s r := by
  have hsame : ∀ s, ({ a with builder } : Assembler σ).build s r = a.build s r := by
    intro s
    unfold build
    rw [hbuild, hclear]
  unfold collect
  simp only [hsame]
  rfl

end Assembler

namespace Collecting

/-- Taking rows in is the same without those that have no effect. -/
theorem takeRows_filter {t t' : Collecting σ} {key : Bytes} {rows : List Row}
    (hover : ∀ s, t'.assembler.isOver s = t.assembler.isOver s)
    (hmarked : ∀ r ∈ rows, r.key = key → ∀ s, t.assembler.collect s r = (.ok false, s))
    (hsame : ∀ r ∈ rows, r.key ≠ key → ∀ s, t.assembler.collect s r = t'.assembler.collect s r)
    (s : Assembly σ) :
    t.takeRows (rows.map .ok) s = t'.takeRows ((rows.filter fun r => r.key != key).map .ok) s := by
  induction rows generalizing s with
  | nil => rfl
  | cons r rows ih =>
    obtain ⟨hone, hmarked⟩ := List.forall_mem_cons.mp hmarked
    obtain ⟨hother, hsame⟩ := List.forall_mem_cons.mp hsame
    have hrest := ih hmarked hsame
    cases hend : t.assembler.isOver s with
    | true => rw [takeRows_of_isOver hend, takeRows_of_isOver ((hover s).trans hend)]
    | false =>
      rw [List.map_cons, takeRows_ok hend]
      by_cases hkey : r.key = key
      · rw [hone hkey, List.filter_cons_of_neg (by simp [hkey])]
        exact hrest s
      · rw [List.filter_cons_of_pos (by simp [hkey]), List.map_cons,
          takeRows_ok ((hover s).trans hend), hother hkey]
        obtain ⟨e | kept, s'⟩ := t'.assembler.collect s r
        · rfl
        · exact hrest s'

theorem openScan_ofTable (T : Table) (n : Nat) {scan : Scan} (h : scan.isPoint = false)
    (columns : ColumnFilter) :
    (RowSource.ofTable T).openScan n scan columns = .ok ((T.scan scan columns).map .ok) := by
  change (if scan.isPoint then _ else _) = _
  rw [h]
  rfl

/-- What a scan reads of a table does not depend on what was read before, and without a row it is
the same but for that row. -/
theorem rowsOf_ofTable {t t' : Collecting σ} {T : Table} {key : Bytes} {cell : Cell}
    (hsource : t.source = .ofTable (T.put key cell))
    (hsource' : t'.source = .ofTable (T.deleteRow key)) (hcolumns : t'.columns = t.columns)
    (scan : Scan) :
    ∃ rows : List Row,
      (∀ c, ∃ n m, t.rowsOf c scan = (.ok (rows.map .ok), ⟨c.assembly, n, m⟩)) ∧
      (∀ c, ∃ n m, t'.rowsOf c scan =
        (.ok ((rows.filter fun r => r.key != key).map .ok), ⟨c.assembly, n, m⟩)) ∧
      ∀ r ∈ rows, ∃ own ∈ (T.put key cell).rows, t.columns.project own = r := by
  cases hpoint : scan.isPoint with
  | false =>
    refine ⟨(T.put key cell).scan scan t.columns, fun c => ⟨c.asked + 1, c.lookups, ?_⟩,
      fun c => ⟨c.asked + 1, c.lookups, ?_⟩, fun r hr => ?_⟩
    · rw [rowsOf_of_not_point c hpoint, hsource, openScan_ofTable _ _ hpoint]
    · rw [rowsOf_of_not_point c hpoint, hsource', hcolumns, openScan_ofTable _ _ hpoint,
        T.scan_deleteRow key cell]
    · obtain ⟨own, hown, rfl⟩ := List.mem_map.mp hr
      exact ⟨own, (List.mem_filter.mp hown).1, rfl⟩
  | true =>
    obtain ⟨other, rfl⟩ : ∃ other, scan = .point other := by
      cases scan with
      | point other => exact ⟨other, rfl⟩
      | range start stop sample => cases hpoint
      | fuzzy template mask start stop => cases hpoint
    refine ⟨((T.put key cell).row? other t.columns).toList,
      fun c => ⟨c.asked, c.lookups + 1, ?_⟩, fun c => ⟨c.asked, c.lookups + 1, ?_⟩, fun r hr => ?_⟩
    · rw [rowsOf, hsource]
      rfl
    · rw [rowsOf, hsource', hcolumns, ← T.toList_row?_deleteRow key cell]
      rfl
    · obtain ⟨own, hown, rfl⟩ := Option.map_eq_some_iff.mp (Option.mem_toList.mp hr)
      exact ⟨own, List.mem_of_find?_eq_some hown, rfl⟩

/-- Collecting from a table with a row is as good as collecting from the table without it, if the
row has no effect and the others have the same. -/
theorem takeScans_deleteRow (t t' : Collecting σ) {T : Table} {key : Bytes} {cell : Cell}
    (hsource : t.source = .ofTable (T.put key cell))
    (hsource' : t'.source = .ofTable (T.deleteRow key)) (hcolumns : t'.columns = t.columns)
    (hover : ∀ s, t'.assembler.isOver s = t.assembler.isOver s)
    (hmarked : ∀ own ∈ (T.put key cell).rows, own.key = key →
      ∀ s, t.assembler.collect s (t.columns.project own) = (.ok false, s))
    (hsame : ∀ own ∈ (T.put key cell).rows, own.key ≠ key → ∀ s,
      t.assembler.collect s (t.columns.project own) =
        t'.assembler.collect s (t.columns.project own))
    (scans : List Scan) (c c' : Collection σ) (hc : c'.assembly = c.assembly) :
    (t.takeScans scans c).1 = (t'.takeScans scans c').1 ∧
      (t.takeScans scans c).2.assembly = (t'.takeScans scans c').2.assembly := by
  induction scans generalizing c c' with
  | nil => exact ⟨rfl, hc.symm⟩
  | cons scan scans ih =>
    rw [takeScans, takeScans, hc, hover]
    split
    · exact ⟨rfl, hc.symm⟩
    · obtain ⟨rows, hrows, hrows', hread⟩ := rowsOf_ofTable hsource hsource' hcolumns scan
      have htake : t.takeRows (rows.map .ok) c.assembly =
          t'.takeRows ((rows.filter fun r => r.key != key).map .ok) c.assembly := by
        refine takeRows_filter hover (fun r hr hkey => ?_) (fun r hr hkey => ?_) _
        · obtain ⟨own, hown, rfl⟩ := hread r hr
          exact hmarked own hown hkey
        · obtain ⟨own, hown, rfl⟩ := hread r hr
          exact hsame own hown hkey
      obtain ⟨n, m, hrows⟩ := hrows c
      obtain ⟨n', m', hrows'⟩ := hrows' c'
      rw [hrows, hrows', hc]
      -- what was read so far differs in how often the source was asked only
      simp only [htake]
      obtain ⟨e | done, s⟩ := t'.takeRows _ c.assembly
      · exact ⟨rfl, rfl⟩
      · exact ih _ _ rfl

/-- Collecting from a table gives the same when a row is left out that is marked as deleted, by
assemblers that build the same graphs of all other rows. -/
theorem run_deleteRow (T : Table) (key : Bytes) (cell : Cell) (columns : ColumnFilter)
    (a : Assembler σ) (builder : GraphBuilder σ)
    (hmarked : ∀ own ∈ (T.put key cell).rows, own.key = key →
      a.isDeleted (columns.project own) = true)
    (hsame : ∀ own ∈ (T.deleteRow key).rows, ∀ s,
      builder.build s (columns.project own) = a.builder.build s (columns.project own))
    (hclear : builder.clear = a.builder.clear) (start : σ) (scans : List Scan)
    (asked asked' : Nat) :
    (run ⟨.ofTable (T.put key cell), columns, { a with builder }⟩ start scans asked).1 =
      (run ⟨.ofTable (T.deleteRow key), columns, a⟩ start scans asked').1 := by
  have hothers : ∀ own ∈ (T.put key cell).rows, own.key ≠ key → own ∈ (T.deleteRow key).rows := by
    intro own hown hkey
    rw [T.rows_deleteRow key cell]
    exact List.mem_filter.mpr ⟨hown, by simpa using hkey⟩
  obtain ⟨hdone, hassembly⟩ := takeScans_deleteRow
    ⟨.ofTable (T.put key cell), columns, { a with builder }⟩
    ⟨.ofTable (T.deleteRow key), columns, a⟩ rfl rfl rfl (fun _ => rfl)
    (fun own hown hkey => Assembler.collect_of_isDeleted (hmarked own hown hkey))
    (fun own hown hkey =>
      Assembler.collect_withBuilder hclear (hsame own (hothers own hown hkey)))
    scans ⟨.start start (1 < scans.length), asked, 0⟩
    ⟨.start start (1 < scans.length), asked', 0⟩ rfl
  rw [run_eq, run_eq, hdone, hassembly]
  rfl

end Collecting

/-! ### Queries -/

namespace Service

/-- Answering a query reads the rows of a source, whether it is open already or not. -/
def ReadsFrom (v : Service) (s : Session) (q : Query) (source : RowSource) : Prop :=
  ∃ h, (v.table s q).1 = .ok h ∧ h.source = source

/-- After planning, the recognizer and the order are created, and none of this reads the store. -/
theorem prepare_of_plan {v : Service} {q : Query} {t : TypeDef} {m : TypeMapping} {c : Config}
    {p : Plan} (hroot : v.root q = .ok (t, m)) (hplan : v.plan q = .ok (c, p)) (store : Store)
    (source : RowSource) :
    ({ v with store } : Service).prepare source q =
      ((v.recognizer? t q c p).mapError (fun e => ServiceError.ofQuery (.planning e)) >>=
        fun recognizer => (order? t q).mapError (fun e => ServiceError.ofQuery (.planning e)) >>=
        fun order => .ok (p.scans, ⟨(v.graphSource source t m q).builder,
          Assembler.tombstoneOf m.table.family m.table.tombstones, recognizer.map recognition,
          order.map ResultOrder.compare, q.window⟩, .ofFamily m.table.family)) := by
  have hsame : ({ v with store } : Service).plan q = .ok (c, p) := hplan
  have hfound : ({ v with store } : Service).root q = .ok (t, m) := hroot
  have hrecognizer : ({ v with store } : Service).recognizer? t q c p = v.recognizer? t q c p := rfl
  unfold prepare assembler
  rw [hsame, hfound]
  dsimp only [bind, Except.bind]
  rw [hrecognizer]
  cases (v.recognizer? t q c p).mapError fun e => ServiceError.ofQuery (.planning e) with
  | error e => rfl
  | ok recognizer =>
    cases (order? t q).mapError fun e => ServiceError.ofQuery (.planning e) with
    | error e => rfl
    | ok order => rfl

/-- What makes the results of a query does not depend on the store, but for what builds the
graphs. -/
theorem prepare_cases {v : Service} {q : Query} {t : TypeDef} {m : TypeMapping}
    (hroot : v.root q = .ok (t, m)) :
    (∃ e, ∀ store source, ({ v with store } : Service).prepare source q = .error e) ∨
      ∃ scans recognizer order, ∀ store source, ({ v with store } : Service).prepare source q =
        .ok (scans, ⟨(v.graphSource source t m q).builder,
          Assembler.tombstoneOf m.table.family m.table.tombstones, recognizer, order, q.window⟩,
          .ofFamily m.table.family) := by
  cases hplan : v.plan q with
  | error e =>
    refine .inl ⟨e, fun store source => ?_⟩
    have hsame : ({ v with store } : Service).plan q = .error e := hplan
    rw [prepare, hsame]
    rfl
  | ok planned =>
    obtain ⟨c, p⟩ := planned
    have hsteps := prepare_of_plan hroot hplan
    generalize (v.recognizer? t q c p).mapError (fun e => ServiceError.ofQuery (.planning e)) =
      recognized at hsteps
    generalize (order? t q).mapError (fun e => ServiceError.ofQuery (.planning e)) =
      ordered at hsteps
    rcases recognized with e | recognizer
    · exact .inl ⟨e, hsteps⟩
    · rcases ordered with e | order
      · exact .inl ⟨e, hsteps⟩
      · exact .inr ⟨p.scans, recognizer.map recognition, order.map ResultOrder.compare, hsteps⟩

/-- A table that is not open yet is the one of the store. -/
theorem readsFrom_of_closed {v : Service} {s : Session} {q : Query} {t : TypeDef} {m : TypeMapping}
    {source : RowSource} (hroot : v.root q = .ok (t, m))
    (hopen : v.store.openTable m.table.name = .ok source)
    (hclosed : s.handles.entries.lookup m.table.name = none) : v.ReadsFrom s q source := by
  refine ⟨⟨m.table.name, s.asked.length, source⟩, ?_, rfl⟩
  have hexpired : s.handles.expire.entries.lookup m.table.name = none := by
    unfold HandleCache.expire
    split
    · rfl
    · exact hclosed
  have hhandle : v.openHandle s m.table.name = .ok ⟨m.table.name, s.asked.length, source⟩ := by
    rw [openHandle, hopen]
    rfl
  unfold table HandleCache.get
  simp only [hroot, hexpired, hhandle]
  rfl

/-- A query collects the rows of the source that it reads from. -/
theorem find_of_readsFrom {v : Service} {s : Session} {q : Query} {source : RowSource}
    (h : v.ReadsFrom s q source) :
    ∃ asked, (v.find s q).1 = match v.prepare source q with
      | .error e => .error e
      | .ok (scans, assembler, columns) =>
        (Collecting.run ⟨source, columns, assembler⟩ .empty scans asked).1.mapError .ofQuery := by
  obtain ⟨handle, htable, rfl⟩ := h
  refine ⟨(v.table s q).2.askedOf handle, ?_⟩
  unfold find
  revert htable
  obtain ⟨answer, s'⟩ := v.table s q
  rintro ⟨⟩
  dsimp only
  cases v.prepare handle.source q with
  | error e => rfl
  | ok prepared => rfl

/--
A query gives the same results, or the same error, when a row is marked as deleted as when it is
deleted, unless the graph of another row comes to an edge to it.
-/
theorem find_marked (v : Service) (store : Store) {s s' : Session} {q : Query} {t : TypeDef}
    {m : TypeMapping} (T : Table) (key value : Bytes)
    (hroot : v.root q = .ok (t, m)) (htombstones : m.table.tombstones = true)
    (hmarked : v.ReadsFrom s q (.ofTable
      (T.put key ⟨⟨m.table.family, Column.graphQualifier .tombstone⟩, value⟩)))
    (hdeleted : ({ v with store } : Service).ReadsFrom s' q (.ofTable (T.deleteRow key)))
    (hedges : ∀ own ∈ (T.deleteRow key).rows,
      ¬ (v.graphSource (.ofTable (T.deleteRow key)) t m q).ComesTo
        ((ColumnFilter.ofFamily m.table.family).project own) key) :
    (v.find s q).1 = (({ v with store } : Service).find s' q).1 := by
  obtain ⟨asked, hfind⟩ := find_of_readsFrom hmarked
  obtain ⟨asked', hfind'⟩ := find_of_readsFrom hdeleted
  rw [hfind, hfind']
  obtain ⟨e, hprepare⟩ | ⟨scans, recognizer, order, hprepare⟩ := prepare_cases hroot
  · rw [hprepare v.store, hprepare store]
  · rw [hprepare v.store, hprepare store]
    have hrun := Collecting.run_deleteRow T key
      ⟨⟨m.table.family, Column.graphQualifier .tombstone⟩, value⟩ (.ofFamily m.table.family)
      ⟨(v.graphSource (.ofTable (T.deleteRow key)) t m q).builder,
        Assembler.tombstoneOf m.table.family m.table.tombstones, recognizer, order, q.window⟩
      (v.graphSource (.ofTable (T.put key
        ⟨⟨m.table.family, Column.graphQualifier .tombstone⟩, value⟩)) t m q).builder
      (fun own hown hkey => ?_) (fun own hown => ?_) rfl .empty scans asked asked'
    · exact congrArg (Except.mapError ServiceError.ofQuery) hrun
    · have haccepts : (ColumnFilter.ofFamily m.table.family).accepts
          ⟨⟨m.table.family, Column.graphQualifier .tombstone⟩, value⟩ = true := by
        simp [ColumnFilter.accepts, ColumnFilter.ofFamily]
      rw [Assembler.isDeleted, htombstones]
      exact T.contains_of_mem_put key _ hown hkey haccepts
    · -- the graphs of the rows that are left never ask for the row that is marked
      have havoids := GraphSource.avoids_of_not_comesTo (hedges own hown) .start (Nat.add_comm _ _)
      refine GraphSource.build_withSource (fun other hother => ?_) havoids
      exact congrArg Except.ok (T.row?_deleteRow_of_ne key _ hother _).symm

end Service

/-! ### A guestbook -/

namespace Guestbook

/-- The entries that reply to an entry. -/
def replies : PropertyDef := ⟨"replies", .reference "Entry", true⟩

/-- Entries are numbered. -/
def entry : TypeDef := ⟨"http://guestbook", "Entry", [⟨"number", .data .byte, false⟩, replies]⟩

/-- Entries are found by their number. -/
def byNumber : TypeMapping where
  typeName := "Entry"
  table := ⟨"entries", [102], .jenkins, true⟩
  fields := [⟨0, 1, .property ["number"], .byte, .native, 0, .jenkins, Nat.zero_lt_one⟩]
  checked := rfl

/-- Where the edges to replies are. -/
def place : Edges.Place := ⟨Column.defaultDelimiter, [102], "Entry", none, "replies"⟩

/-- The row of an entry. -/
def row (number : UInt8) (replies : List UInt8) : Row where
  key := [number]
  cells :=
    [⟨⟨[102], place.qualifier .baseType⟩, Text.utf8 "Entry"⟩,
      ⟨⟨[102], place.qualifier .count⟩, Column.decimal replies.length⟩,
      ⟨⟨[102], place.qualifier .rowKeys⟩, Edges.encodeRowKeys (replies.map fun k => [k])⟩,
      ⟨⟨[102], Text.utf8 "number"⟩, Column.decimal number.toNat⟩]

/-- The second entry replies to the first one. -/
def entries : Table := .ofRows [row 1 [2], row 2 [], row 3 []]

/-- The entries, one of which is marked as deleted. -/
def marked (number : UInt8) : Table :=
  entries.put [number] ⟨⟨[102], Column.graphQualifier .tombstone⟩, []⟩

/-- The entries but one. -/
def deleted (number : UInt8) : Table := entries.deleteRow [number]

def service (T : Table) : Service :=
  .create (.ofTables [("entries", T)]) ⟨[entry]⟩ ⟨[byNumber]⟩ .default

def session : Session := .start .default

/-- The query for all entries. -/
def all : Query := .ofType "Entry"

theorem readsFrom_service (T : Table) : (service T).ReadsFrom session all (.ofTable T) :=
  Service.readsFrom_of_closed (m := byNumber) rfl rfl rfl

/-- The object of an entry. -/
def node (number : Int64) (replies : List Nat) : Node :=
  ⟨"Entry", [("replies", .many replies), ("number", .value (.int number))]⟩

/-- The object of an entry whose replies are not asked for. -/
def reply (number : Int64) : Node := ⟨"Entry", [("number", .value (.int number))]⟩

set_option maxRecDepth 10000 in
theorem rows_deleted_three : (deleted 3).rows = [row 1 [2], row 2 []] := by
  rfl

/-- What builds the graphs when the third entry is deleted. -/
def source : GraphSource :=
  (service (deleted 3)).graphSource (.ofTable (deleted 3)) entry byNumber all

/-- Walks pass the first two entries only. -/
theorem mem_of_walk {own r : Row} {keys : List Bytes} {t : TypeDef} (hown : own ∈ (deleted 3).rows)
    (h : source.Walk ((ColumnFilter.ofFamily [102]).project own) keys r t) :
    r ∈ [row 1 [2], row 2 []] ∧ t = entry := by
  have hproject : ∀ own ∈ [row 1 [2], row 2 []],
      (ColumnFilter.ofFamily [102]).project own ∈ [row 1 [2], row 2 []] := by
    decide
  cases h with
  | start => exact ⟨hproject own (rows_deleted_three ▸ hown), rfl⟩
  | step hwalk hedge hrow =>
    obtain ⟨own', hown', rfl⟩ := Option.map_eq_some_iff.mp (Except.ok.inj hrow)
    refine ⟨hproject own' ?_, List.mem_singleton.mp hedge.mem_types⟩
    rw [← rows_deleted_three]
    exact List.mem_of_find?_eq_some hown'

/-- Edges lead to the second entry only. -/
theorem key_of_hasEdge {r : Row} {p : PropertyDef} {key : Bytes} {type : TypeDef}
    (hr : r ∈ [row 1 [2], row 2 []]) (h : source.HasEdge r entry p key type) : key = [2] := by
  have hfirst : Edges.read (row 1 [2]) place = .ok ⟨"Entry", none, [], none, [[2]], 1⟩ := rfl
  have hsecond : Edges.read (row 2 []) place = .ok ⟨"Entry", none, [], none, [], 0⟩ := rfl
  obtain ⟨hp, target, edges, hkind, -, hread, hkey⟩ := h
  rcases List.mem_cons.mp hp with rfl | hp
  · cases hkind
  · obtain rfl := List.mem_singleton.mp hp
    have hedges : Edges.read r place = .ok edges := (GraphSource.edgesOf_eq_ok_iff.mp hread).1
    rcases List.mem_cons.mp hr with rfl | hr
    · obtain rfl := Except.ok.inj (hfirst.symm.trans hedges)
      exact List.mem_singleton.mp hkey
    · obtain rfl := List.mem_singleton.mp hr
      obtain rfl := Except.ok.inj (hsecond.symm.trans hedges)
      cases hkey

/-- The results are the same when the third entry is marked as when it is deleted. -/
theorem find_lastEntry_marked :
    ((service (marked 3)).find session all).1 = ((service (deleted 3)).find session all).1 := by
  refine Service.find_marked (service (marked 3)) (service (deleted 3)).store entries [3] []
    (m := byNumber) rfl rfl (readsFrom_service _) (readsFrom_service _) ?_
  rintro own hown ⟨keys, r, t, p, type, hwalk, -, hedge⟩
  obtain ⟨hr, rfl⟩ := mem_of_walk hown hwalk
  exact absurd (key_of_hasEdge hr hedge) (by decide)

set_option maxRecDepth 10000 in
/-- The first entry has the second one as a reply when that is marked, but not when it is
deleted. -/
theorem find_reply_marked_ne :
    ∃ gs gs', ((service (marked 2)).find session all).1 = .ok gs ∧
      ((service (deleted 2)).find session all).1 = .ok gs' ∧ gs ≠ gs' :=
  ⟨[⟨[1], node 1 [1], [reply 2]⟩, ⟨[3], node 3 [], []⟩],
    [⟨[1], node 1 [], []⟩, ⟨[3], node 3 [], []⟩], rfl, rfl, by decide⟩

end Guestbook

end GraphTable
