import GraphTable.Plan.Disjunct
import GraphTable.Predicate.Expr
import GraphTable.Predicate.Validate

/-!
# Plans

The scans that together read every row that a predicate may hold of, and whether the predicate
has to be evaluated on what they read. Each alternative of the predicate gets its own scan. If
the alternatives are too many, or one of them says nothing about the key, all rows of the type
are read.
-/

namespace GraphTable.Expr

/-!
### Disjunctive form

A predicate as a list of alternatives, each a list of terms that have to hold together:
conjunctions are distributed over disjunctions. The form can be exponentially larger than the
predicate, so it is given up when it has too many alternatives.
-/

/-- The greatest number of alternatives that are told apart. -/
def maxDisjuncts : Nat := 64

/-- Every alternative of the one list together with every alternative of the other. -/
def distribute (ls rs : List (List Expr)) : List (List Expr) :=
  ls.flatMap fun l => rs.map fun r => l ++ r

/-- The alternatives of a predicate, unless they or those of a part of it are too many. -/
def disjuncts? : Expr → Option (List (List Expr))
  | logical _ .or l r => do
    let all := (← l.disjuncts?) ++ (← r.disjuncts?)
    if all.length ≤ maxDisjuncts then some all else none
  | logical _ .and l r => do
    let ls ← l.disjuncts?
    let rs ← r.disjuncts?
    if ls.length * rs.length ≤ maxDisjuncts then some (distribute ls rs) else none
  | e => some [[e]]

end GraphTable.Expr

namespace GraphTable

/-! ### The scans of a query -/

/-- The scans of a query. -/
structure Plan where
  scans : List Scan
  /-- Whether the scans may read rows that the predicate does not hold of. -/
  requiresRecognizer : Bool
  /-- Whether all rows of the type are read. -/
  fallback : Bool
  deriving DecidableEq

namespace Plan

/-- Whether some row is looked up by its key. -/
def hasPoints (p : Plan) : Bool :=
  p.scans.any Scan.isPoint

/-- Keeps a fraction of the rows; only plans that read all rows of the type are sampled. -/
def sampled (p : Plan) (fraction : Binary32) : Plan :=
  if p.fallback then
    { p with
      scans := p.scans.map fun
        | .range start stop _ => .range start stop (some fraction)
        | s => s }
  else p

/-- The plan that reads all rows of the type. -/
def ofType (filtered : Bool) (root : TypeDef) (mapping : TypeMapping) :
    Except QueryError Plan := do
  let stem ← (mapping.typeStem root).mapError .store
  return ⟨[.range stem (Bytes.successor? stem) none], filtered, true⟩

/-- The scans of all alternatives, unless one of them cannot be planned. -/
def ofDisjuncts (root : TypeDef) (mapping : TypeMapping) :
    List (List Expr) → Except QueryError (Option (List DisjunctPlan))
  | [] => .ok (some [])
  | terms :: more => do
    match ← (← KeyConstraints.gather root mapping terms).plan with
    | none => return none
    | some p => return (← ofDisjuncts root mapping more).map (p :: ·)

/-- The scans without repetitions; of equal ones the first stays. -/
def distinct (scans : List Scan) : List Scan :=
  scans.foldl (fun kept s => if kept.contains s then kept else kept ++ [s]) []

/-- A lookup as the range of its single key. -/
def demote : Scan → Scan
  | .point key => .range key (some (key ++ [0])) none
  | s => s

/-- Turns lookups into ranges if there are other scans as well. -/
def unmixed (scans : List Scan) : List Scan :=
  if scans.any Scan.isPoint && !scans.all Scan.isPoint then scans.map demote else scans

/-- Plans a predicate on a root type, or the reading of all its rows. -/
def ofPredicate (catalog : Catalog) (root : TypeDef) (mapping : TypeMapping)
    (predicate : Option Expr) : Except QueryError Plan :=
  match predicate with
  | none => ofType false root mapping
  | some e => do
    (e.validate catalog root).mapError .planning
    match e.disjuncts? with
    | none => ofType true root mapping
    | some alternatives =>
      match ← ofDisjuncts root mapping alternatives with
      | none => ofType true root mapping
      | some plans =>
        return ⟨unmixed (distinct (plans.map DisjunctPlan.scan)),
          plans.any DisjunctPlan.residual, false⟩

end Plan

end GraphTable
