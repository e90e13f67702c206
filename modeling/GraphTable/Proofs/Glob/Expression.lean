import GraphTable.Proofs.Glob.Matching
import Mathlib.Data.List.Infix

/-!
# The regular expressions of glob patterns

The regular expression of a pattern is a concatenation of characters, dots and starred dots. What
such a concatenation denotes is said of its characters (`Expression.Denotes`), and not of the pieces
that it was made from. So it matters that all characters with a meaning of their own are escaped: a
dot without its backslash stands for **any** character, and a star without it makes a run of a dot
before it. The expression of a pattern denotes the texts that the pattern stands for
(`Glob.denotes_regex_iff`).

Expressions are compiled and matched by a library, and all that is assumed of one is what it says of
such concatenations (`ExpressionLibrary.Lawful`).
-/

namespace GraphTable

/-- What a concatenation of characters, dots and starred dots denotes, if a dot stands for line
breaks too. A character that has a meaning of its own stands for itself after a backslash. -/
inductive Expression.Denotes : List Char → List Char → Prop
  | nil : Denotes [] []
  | plain {c : Char} {expr text : List Char} (h : GlobPiece.isMeta c = false)
      (rest : Denotes expr text) : Denotes (c :: expr) (c :: text)
  | escaped {c : Char} {expr text : List Char} (h : GlobPiece.isMeta c = true)
      (rest : Denotes expr text) : Denotes ('\\' :: c :: expr) (c :: text)
  | dot (c : Char) {expr text : List Char} (rest : Denotes expr text) :
      Denotes ('.' :: expr) (c :: text)
  | run (part : List Char) {expr text : List Char} (rest : Denotes expr text) :
      Denotes ('.' :: '*' :: expr) (part ++ text)

namespace Expression

variable {c : Char} {expr text : List Char}

theorem not_denotes_star : ¬ Denotes ('*' :: expr) text := by
  intro h
  cases h with
  | plain hmeta => exact absurd hmeta (by decide)

theorem denotes_nil_iff : Denotes [] text ↔ text = [] := by
  constructor
  · intro h
    cases h
    rfl
  · rintro rfl
    exact .nil

theorem denotes_plain_iff (hplain : GlobPiece.isMeta c = false) :
    Denotes (c :: expr) text ↔ ∃ rest, text = c :: rest ∧ Denotes expr rest := by
  constructor
  · intro h
    cases h with
    | plain _ hrest => exact ⟨_, rfl, hrest⟩
    | _ => exact absurd hplain (by decide)
  · rintro ⟨rest, rfl, hrest⟩
    exact .plain hplain hrest

theorem denotes_escaped_iff (hmeta : GlobPiece.isMeta c = true) :
    Denotes ('\\' :: c :: expr) text ↔ ∃ rest, text = c :: rest ∧ Denotes expr rest := by
  constructor
  · intro h
    cases h with
    | plain hplain => exact absurd hplain (by decide)
    | escaped _ hrest => exact ⟨_, rfl, hrest⟩
  · rintro ⟨rest, rfl, hrest⟩
    exact .escaped hmeta hrest

theorem denotes_dot_iff (hstar : expr.head? ≠ some '*') :
    Denotes ('.' :: expr) text ↔ ∃ c rest, text = c :: rest ∧ Denotes expr rest := by
  constructor
  · intro h
    cases h with
    | plain hplain => exact absurd hplain (by decide)
    | dot c hrest => exact ⟨c, _, rfl, hrest⟩
    | run => exact absurd rfl hstar
  · rintro ⟨c, rest, rfl, hrest⟩
    exact .dot c hrest

theorem denotes_run_iff :
    Denotes ('.' :: '*' :: expr) text ↔ ∃ part rest, part ++ rest = text ∧ Denotes expr rest := by
  constructor
  · intro h
    cases h with
    | plain hplain => exact absurd hplain (by decide)
    | dot _ hrest => exact absurd hrest not_denotes_star
    | run part hrest => exact ⟨part, _, rfl, hrest⟩
  · rintro ⟨part, rest, rfl, hrest⟩
    exact .run part hrest

end Expression

namespace Glob

theorem regex_exactly_of_meta {c : Char} (h : GlobPiece.isMeta c = true) :
    (GlobPiece.exactly c).regex = ['\\', c] :=
  if_pos h

theorem regex_exactly_of_plain {c : Char} (h : GlobPiece.isMeta c = false) :
    (GlobPiece.exactly c).regex = [c] :=
  if_neg (Bool.eq_false_iff.mp h)

/-- No expression of pieces makes a run of a dot that is put before it. -/
theorem head?_flatMap_regex (pieces : List GlobPiece) :
    (pieces.flatMap GlobPiece.regex).head? ≠ some '*' := by
  rcases pieces with _ | ⟨p, pieces⟩
  · exact nofun
  · rw [List.flatMap_cons]
    cases p with
    | run => simp [GlobPiece.regex]
    | single => simp [GlobPiece.regex]
    | exactly c =>
      cases hmeta : GlobPiece.isMeta c with
      | true => simp [regex_exactly_of_meta hmeta]
      | false =>
        rw [regex_exactly_of_plain hmeta]
        rintro hstar
        obtain rfl : c = '*' := Option.some.inj hstar
        exact absurd hmeta (by decide)

open Expression in
/-- The expression of a pattern denotes what the pattern stands for. -/
theorem denotes_regex_iff (pieces : List GlobPiece) (text : List Char) :
    Denotes (pieces.flatMap GlobPiece.regex) text ↔ StandFor pieces text := by
  induction pieces generalizing text with
  | nil => rw [standFor_nil_iff, List.flatMap_nil, denotes_nil_iff]
  | cons p pieces ih =>
    rw [standFor_cons_iff, List.flatMap_cons]
    cases p with
    | run =>
      change Denotes ('.' :: '*' :: pieces.flatMap GlobPiece.regex) text ↔ _
      simp only [denotes_run_iff, ih, GlobPiece.StandsFor, true_and]
    | single =>
      change Denotes ('.' :: pieces.flatMap GlobPiece.regex) text ↔ _
      simp only [denotes_dot_iff (head?_flatMap_regex pieces), ih, GlobPiece.StandsFor,
        List.length_eq_one_iff]
      constructor
      · rintro ⟨c, rest, rfl, hrest⟩
        exact ⟨[c], rest, rfl, ⟨c, rfl⟩, hrest⟩
      · rintro ⟨_, rest, rfl, ⟨c, rfl⟩, hrest⟩
        exact ⟨c, rest, rfl, hrest⟩
    | exactly c =>
      have hone : Denotes ((GlobPiece.exactly c).regex ++ pieces.flatMap GlobPiece.regex) text ↔
          ∃ rest, text = c :: rest ∧ Denotes (pieces.flatMap GlobPiece.regex) rest := by
        cases hmeta : GlobPiece.isMeta c with
        | true => exact regex_exactly_of_meta hmeta ▸ denotes_escaped_iff hmeta
        | false => exact regex_exactly_of_plain hmeta ▸ denotes_plain_iff hmeta
      simp only [hone, ih, GlobPiece.StandsFor]
      constructor
      · rintro ⟨rest, rfl, hrest⟩
        exact ⟨[c], rest, rfl, rfl, hrest⟩
      · rintro ⟨_, rest, rfl, rfl, hrest⟩
        exact ⟨rest, rfl, hrest⟩

end Glob

/-! ### Libraries -/

/-- A library that compiles regular expressions and matches texts against them. -/
structure ExpressionLibrary where
  /-- What expressions are compiled to. -/
  Compiled : Type
  /-- Compiles an expression, unless the library refuses it. -/
  compile : String → Option Compiled
  /-- Whether a text matches an expression. -/
  isMatch : Compiled → String → Bool

/-- What is assumed of a library: if it compiles a concatenation of characters, escaped characters,
dots and starred dots, with a dot for line breaks too and anchors at both ends, the texts that the
concatenation denotes match it. -/
structure ExpressionLibrary.Lawful (library : ExpressionLibrary) : Prop where
  isMatch_iff : ∀ {expr : List Char} {x : library.Compiled},
    (∃ text, Expression.Denotes expr text) →
      library.compile ("(?s)^" ++ String.ofList expr ++ "$") = some x →
        ∀ text, library.isMatch x text = true ↔ Expression.Denotes expr text.toList

namespace Glob

/-- Every pattern stands for some text, so that its expression is such a concatenation. -/
theorem exists_standFor (pieces : List GlobPiece) : ∃ text, StandFor pieces text := by
  induction pieces with
  | nil => exact ⟨[], standFor_nil_iff.mpr rfl⟩
  | cons p pieces ih =>
    obtain ⟨rest, hrest⟩ := ih
    obtain ⟨part, hpart⟩ : ∃ part, p.StandsFor part := by
      cases p with
      | run => exact ⟨[], trivial⟩
      | single => exact ⟨['a'], rfl⟩
      | exactly c => exact ⟨[c], rfl⟩
    exact ⟨part ++ rest, standFor_cons_iff.mpr ⟨part, rest, rfl, hpart, hrest⟩⟩

/-- A library answers what the pattern itself does. -/
theorem isMatch_regex {library : ExpressionLibrary} (hlawful : library.Lawful) {g : Glob}
    {x : library.Compiled} (hx : library.compile g.regex = some x) (text : String) :
    library.isMatch x text = g.accepts text := by
  obtain ⟨some', hsome⟩ := exists_standFor g.pieces
  have hdenotes := hlawful.isMatch_iff ⟨some', (denotes_regex_iff g.pieces some').mpr hsome⟩ hx text
  rw [Bool.eq_iff_iff, hdenotes, denotes_regex_iff, accepts_iff]

end Glob

/-! ### A library of concatenations -/

namespace Expression

/-- Whether a concatenation denotes a text; for a run, all parts are tried. -/
def accepts : List Char → List Char → Bool
  | [], text => text.isEmpty
  | '\\' :: c :: expr, text => text.head? == some c && accepts expr text.tail
  | '.' :: '*' :: expr, text => text.tails.any (accepts expr)
  | '.' :: expr, text => !text.isEmpty && accepts expr text.tail
  | c :: expr, text => text.head? == some c && accepts expr text.tail

theorem head_tail_iff {P : List Char → Prop} :
    text.head? = some c ∧ P text.tail ↔ ∃ rest, text = c :: rest ∧ P rest := by
  rw [List.head?_eq_some_iff]
  constructor
  · rintro ⟨⟨rest, rfl⟩, h⟩
    exact ⟨rest, rfl, h⟩
  · rintro ⟨rest, rfl, h⟩
    exact ⟨⟨rest, rfl⟩, h⟩

theorem accepts_iff {denoted : List Char} (h : Denotes expr denoted) (text : List Char) :
    accepts expr text = true ↔ Denotes expr text := by
  induction h generalizing text with
  | nil => rw [denotes_nil_iff, accepts, List.isEmpty_iff]
  | @plain c expr _ hplain _ ih =>
    have hother : ∀ d, GlobPiece.isMeta d = true → c ≠ d := by
      rintro d hd rfl
      exact absurd hplain (Bool.eq_false_iff.mp · hd)
    rw [denotes_plain_iff hplain, accepts, Bool.and_eq_true, beq_iff_eq, ih, head_tail_iff]
    · exact fun _ _ hc => absurd hc (hother '\\' (by decide))
    · exact fun _ hc => absurd hc (hother '.' (by decide))
    · exact fun hc => absurd hc (hother '.' (by decide))
  | escaped hmeta _ ih =>
    rw [denotes_escaped_iff hmeta, accepts, Bool.and_eq_true, beq_iff_eq, ih, head_tail_iff]
  | @dot c expr _ hrest ih =>
    have hstar : ∀ others, expr ≠ '*' :: others := by
      rintro others rfl
      exact not_denotes_star hrest
    rw [denotes_dot_iff fun hhead => ?_, accepts]
    · cases text with
      | nil => simp
      | cons d text => simp [ih]
    · exact hstar
    · obtain ⟨others, hothers⟩ := List.head?_eq_some_iff.mp hhead
      exact hstar others hothers
  | run part _ ih =>
    rw [denotes_run_iff, accepts, List.any_eq_true]
    simp only [List.mem_tails, ih]
    constructor
    · rintro ⟨rest, ⟨part, htext⟩, hrest⟩
      exact ⟨part, rest, htext, hrest⟩
    · rintro ⟨part, rest, htext, hrest⟩
      exact ⟨rest, ⟨part, htext⟩, hrest⟩

end Expression

/-- A library that takes every expression for a concatenation between its two anchors. -/
def ExpressionLibrary.concatenations : ExpressionLibrary where
  Compiled := List Char
  compile s := some (s.toList.drop 5).dropLast
  isMatch expr text := Expression.accepts expr text.toList

theorem ExpressionLibrary.lawful_concatenations : concatenations.Lawful where
  isMatch_iff := by
    rintro expr x ⟨denoted, hdenoted⟩ hx text
    have hbody : (("(?s)^" ++ String.ofList expr ++ "$").toList.drop 5).dropLast = expr := by simp
    obtain rfl : expr = x := hbody.symm.trans (Option.some.inj hx)
    exact Expression.accepts_iff hdenoted text.toList

end GraphTable
