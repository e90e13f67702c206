import GraphTable.Glob
import Mathlib.Data.List.Forall2

/-!
# What glob patterns stand for

A pattern stands for a text if the text can be cut into consecutive parts, one for each character of
the pattern, that the characters stand for: a star for any part, the empty one and one with line
breaks too, a question mark for a part of one character, and every other character for itself.

Rows decide this (`Glob.accepts_iff`). They are computed from the end of the pattern on and say it
of all ends of the text, so that no part has to be guessed. All that the proof knows of a row is its
first entry: that of a text with one character more is put in front of it (`Glob.row_cons`),
whatever the piece is, so that a row is followed along the text like a single answer.
-/

namespace GraphTable

/-- What a piece of a pattern stands for. -/
def GlobPiece.StandsFor : GlobPiece → List Char → Prop
  | run, _ => True
  | single, part => part.length = 1
  | exactly c, part => part = [c]

/-- A text can be cut into consecutive parts that pieces stand for. -/
def Glob.StandFor (pieces : List GlobPiece) (text : List Char) : Prop :=
  ∃ parts, List.Forall₂ GlobPiece.StandsFor pieces parts ∧ parts.flatten = text

namespace Glob

variable {p : GlobPiece} {pieces : List GlobPiece} {c : Char} {text : List Char}

theorem standFor_nil_iff : StandFor [] text ↔ text = [] := by
  constructor
  · rintro ⟨parts, hparts, rfl⟩
    rw [List.forall₂_nil_left_iff.mp hparts, List.flatten_nil]
  · rintro rfl
    exact ⟨[], .nil, List.flatten_nil⟩

theorem standFor_cons_iff :
    StandFor (p :: pieces) text ↔
      ∃ part rest, part ++ rest = text ∧ p.StandsFor part ∧ StandFor pieces rest := by
  constructor
  · rintro ⟨parts, hparts, rfl⟩
    obtain ⟨part, others, hpart, hothers, rfl⟩ := List.forall₂_cons_left_iff.mp hparts
    exact ⟨part, others.flatten, rfl, hpart, others, hothers, rfl⟩
  · rintro ⟨part, rest, rfl, hpart, others, hothers, rfl⟩
    exact ⟨part :: others, .cons hpart hothers, List.flatten_cons⟩

/-- A run takes nothing, or else the first character and then goes on. -/
theorem standFor_run_cons_iff :
    StandFor (.run :: pieces) (c :: text) ↔
      StandFor pieces (c :: text) ∨ StandFor (.run :: pieces) text := by
  simp only [standFor_cons_iff, GlobPiece.StandsFor, true_and]
  constructor
  · rintro ⟨part, rest, htext, hrest⟩
    rcases List.append_eq_cons_iff.mp htext with ⟨-, rfl⟩ | ⟨part', rfl, rfl⟩
    · exact .inl hrest
    · exact .inr ⟨part', rest, rfl, hrest⟩
  · rintro (hnow | ⟨part, rest, rfl, hrest⟩)
    · exact ⟨[], c :: text, rfl, hnow⟩
    · exact ⟨c :: part, rest, rfl, hrest⟩

theorem standFor_run_nil_iff : StandFor (.run :: pieces) [] ↔ StandFor pieces [] := by
  simp only [standFor_cons_iff, GlobPiece.StandsFor, true_and, List.append_eq_nil_iff]
  constructor
  · rintro ⟨_, _, ⟨rfl, rfl⟩, h⟩
    exact h
  · exact fun h => ⟨[], [], ⟨rfl, rfl⟩, h⟩

/-- A piece stands for the single characters that are as asked, and its rows are made so. -/
structure Asks (p : GlobPiece) (asked : Char → Bool) : Prop where
  standsFor_iff : ∀ part, p.StandsFor part ↔ ∃ c, asked c = true ∧ part = [c]
  addPiece_eq : ∀ text row, addPiece text row p = afterOne text asked row

theorem asks_single : Asks .single fun _ => true where
  standsFor_iff part := by simp [GlobPiece.StandsFor, List.length_eq_one_iff]
  addPiece_eq _ _ := rfl

theorem asks_exactly (d : Char) : Asks (.exactly d) (· == d) where
  standsFor_iff part := by simp [GlobPiece.StandsFor]
  addPiece_eq _ _ := rfl

variable {asked : Char → Bool}

theorem not_standFor_cons_nil (h : Asks p asked) : ¬ StandFor (p :: pieces) [] := by
  rw [standFor_cons_iff]
  rintro ⟨part, rest, htext, hpart, -⟩
  obtain ⟨c, -, rfl⟩ := (h.standsFor_iff part).mp hpart
  cases htext

theorem standFor_cons_cons_iff (h : Asks p asked) :
    StandFor (p :: pieces) (c :: text) ↔ asked c = true ∧ StandFor pieces text := by
  simp only [standFor_cons_iff, h.standsFor_iff]
  constructor
  · rintro ⟨_, rest, htext, ⟨d, hd, rfl⟩, hrest⟩
    obtain ⟨rfl, rfl⟩ := List.cons_eq_cons.mp htext
    exact ⟨hd, hrest⟩
  · rintro ⟨hc, hrest⟩
    exact ⟨[c], text, rfl, ⟨c, hc, rfl⟩, hrest⟩

/-! ### Rows -/

theorem orLater_ne_nil {row : List Bool} (h : row ≠ []) : orLater row ≠ [] := by
  obtain ⟨b, row, rfl⟩ := List.exists_cons_of_ne_nil h
  exact List.cons_ne_nil _ _

theorem row_ne_nil (text : List Char) (pieces : List GlobPiece) : row text pieces ≠ [] := by
  have hlast : ∀ (init : List Bool) (b : Bool), init ++ [b] ≠ [] := fun init b =>
    List.append_ne_nil_of_right_ne_nil init (List.cons_ne_nil b [])
  induction pieces with
  | nil => exact hlast _ true
  | cons p pieces ih =>
    cases p with
    | run => exact orLater_ne_nil ih
    | single => exact hlast _ false
    | exactly d => exact hlast _ false

theorem afterOne_cons (asked : Char → Bool) (b : Bool) {row : List Bool} (h : row ≠ []) :
    afterOne (c :: text) asked (b :: row) =
      (asked c && row.headD false) :: afterOne text asked row := by
  obtain ⟨b', row, rfl⟩ := List.exists_cons_of_ne_nil h
  rfl

/-- The entry of the whole text. -/
def entry (pieces : List GlobPiece) (text : List Char) : Bool :=
  (row text pieces).headD false

/-- The empty text has no end but itself. -/
theorem row_nil (pieces : List GlobPiece) : row [] pieces = [entry pieces []] := by
  have hone : ∃ b, row [] pieces = [b] := by
    induction pieces with
    | nil => exact ⟨true, rfl⟩
    | cons p pieces ih =>
      obtain ⟨b, hb⟩ := ih
      cases p with
      | run => exact ⟨_, congrArg orLater hb⟩
      | single => exact ⟨false, rfl⟩
      | exactly d => exact ⟨false, rfl⟩
  obtain ⟨b, hb⟩ := hone
  rw [entry, hb, List.headD_cons]

/-- The other ends of a text are those of the text without its first character. -/
theorem row_cons (c : Char) (text : List Char) (pieces : List GlobPiece) :
    row (c :: text) pieces = entry pieces (c :: text) :: row text pieces := by
  have hsome : ∃ b, row (c :: text) pieces = b :: row text pieces := by
    induction pieces with
    | nil => exact ⟨false, rfl⟩
    | cons p pieces ih =>
      obtain ⟨b, hb⟩ := ih
      have hne := row_ne_nil text pieces
      cases p with
      | run => exact ⟨_, congrArg orLater hb⟩
      | single => exact ⟨_, (congrArg _ hb).trans (afterOne_cons _ b hne)⟩
      | exactly d => exact ⟨_, (congrArg _ hb).trans (afterOne_cons _ b hne)⟩
  obtain ⟨b, hb⟩ := hsome
  rw [entry, hb, List.headD_cons]

theorem entry_run_nil : entry (.run :: pieces) [] = entry pieces [] := by
  rw [entry, row, row_nil]
  exact Bool.or_false _

theorem entry_run_cons : entry (.run :: pieces) (c :: text) =
    (entry pieces (c :: text) || entry (.run :: pieces) text) := by
  rw [entry, row, row_cons]
  rfl

theorem entry_cons_nil (h : Asks p asked) : entry (p :: pieces) [] = false := by
  rw [entry, row, h.addPiece_eq]
  rfl

theorem entry_cons_cons (h : Asks p asked) :
    entry (p :: pieces) (c :: text) = (asked c && entry pieces text) := by
  rw [entry, row, h.addPiece_eq, row_cons, afterOne_cons _ _ (row_ne_nil text pieces)]
  rfl

/-- Runs are taken apart by the text: what follows is at this end or at a later one. -/
theorem entry_run_iff (ih : ∀ text, entry pieces text = true ↔ StandFor pieces text)
    (text : List Char) : entry (.run :: pieces) text = true ↔ StandFor (.run :: pieces) text := by
  induction text with
  | nil => rw [entry_run_nil, standFor_run_nil_iff, ih]
  | cons c text ihtext => rw [entry_run_cons, Bool.or_eq_true, standFor_run_cons_iff, ih, ihtext]

theorem entry_cons_iff (h : Asks p asked)
    (ih : ∀ text, entry pieces text = true ↔ StandFor pieces text) (text : List Char) :
    entry (p :: pieces) text = true ↔ StandFor (p :: pieces) text := by
  cases text with
  | nil => rw [entry_cons_nil h, iff_false_intro (not_standFor_cons_nil h), Bool.false_eq_true]
  | cons c text => rw [entry_cons_cons h, Bool.and_eq_true, standFor_cons_cons_iff h, ih]

theorem entry_iff (pieces : List GlobPiece) (text : List Char) :
    entry pieces text = true ↔ StandFor pieces text := by
  induction pieces generalizing text with
  | nil =>
    rw [standFor_nil_iff]
    cases text with
    | nil => exact iff_of_true rfl rfl
    | cons c text => exact iff_of_false Bool.false_ne_true (List.cons_ne_nil c text)
  | cons p pieces ih =>
    cases p with
    | run => exact entry_run_iff ih text
    | single => exact entry_cons_iff asks_single ih text
    | exactly d => exact entry_cons_iff (asks_exactly d) ih text

/-- A pattern accepts the texts that it stands for. -/
theorem accepts_iff (g : Glob) (text : String) :
    g.accepts text = true ↔ StandFor g.pieces text.toList :=
  entry_iff g.pieces text.toList

end Glob

end GraphTable
