import GraphTable.Proofs.Glob.Expression
import Mathlib.Data.List.Dedup

/-!
# Answers of a cache of patterns

A cache reads a pattern when it is used first and answers from what it has kept later. What it keeps
of a pattern is what reading gives (`GlobCache.Sound`), so the answers are those of the patterns
alone, whatever was asked before, and every pattern that was used is kept once
(`GlobCache.answers_iff`).

What a pattern stands for is said of its characters here (`Glob.Covers`). The regular expression of
the pattern is **not** needed for the answers; a library that compiles it answers the same. Nothing
is said of a library that refuses the expression, which a cache has no error for.
-/

namespace GraphTable

namespace Glob

/-- What a character of a pattern stands for: a star for every part of a text, a question mark for
every single character, and every other character for itself. -/
def CharStandsFor (c : Char) (part : List Char) : Prop :=
  if c = '*' then True else if c = '?' then part.length = 1 else part = [c]

/-- A text can be cut into consecutive parts that the characters of a pattern stand for. -/
def Covers (pattern text : String) : Prop :=
  ∃ parts, List.Forall₂ CharStandsFor pattern.toList parts ∧ parts.flatten = text.toList

theorem standsFor_ofChar (c : Char) : (GlobPiece.ofChar c).StandsFor = CharStandsFor c := by
  funext part
  unfold GlobPiece.ofChar CharStandsFor
  by_cases hstar : c = '*'
  · rw [if_pos hstar, if_pos hstar]
    rfl
  · rw [if_neg hstar, if_neg hstar]
    split <;> rfl

theorem accepts_ofPattern_iff {pattern text : String} :
    (ofPattern pattern).accepts text = true ↔ Covers pattern text := by
  rw [accepts_iff]
  unfold StandFor Covers
  simp only [ofPattern, List.forall₂_map_left_iff, standsFor_ofChar]

end Glob

namespace GlobCache

variable {c : GlobCache} {pattern text : String}

/-- The patterns that were used. -/
def patterns (c : GlobCache) : List String :=
  c.globs.map Prod.fst

/-- Every pattern is kept once, with what is read of it. -/
structure Sound (c : GlobCache) : Prop where
  nodup : c.patterns.Nodup
  read : ∀ entry ∈ c.globs, entry.2 = Glob.ofPattern entry.1

theorem sound_empty : empty.Sound :=
  ⟨List.nodup_nil, nofun⟩

/-- Using a pattern gives what is read of it, and keeps it unless it was there already. -/
theorem glob_cases (hc : c.Sound) (pattern : String) :
    pattern ∈ c.patterns ∧ c.glob pattern = (Glob.ofPattern pattern, c) ∨
      pattern ∉ c.patterns ∧ c.glob pattern =
        (Glob.ofPattern pattern, ⟨(pattern, Glob.ofPattern pattern) :: c.globs⟩) := by
  rw [glob]
  rcases hlookup : c.globs.lookup pattern with _ | g
  · refine .inr ⟨fun hmem => ?_, rfl⟩
    obtain ⟨entry, hentry, rfl⟩ := List.mem_map.mp hmem
    exact absurd rfl (bne_iff_ne.mp (List.lookup_eq_none_iff.mp hlookup entry hentry))
  · obtain ⟨before, after, hglobs, -⟩ := List.lookup_eq_some_iff.mp hlookup
    have hentry : (pattern, g) ∈ c.globs := hglobs ▸ List.mem_append_right before List.mem_cons_self
    refine .inl ⟨List.mem_map_of_mem hentry, ?_⟩
    rw [← hc.read _ hentry]

/-- The answer is that of the pattern, and it is the only pattern that is kept in addition. -/
theorem accepts_of_sound (hc : c.Sound) (pattern text : String) :
    (c.accepts pattern text).1 = (Glob.ofPattern pattern).accepts text ∧
      (c.accepts pattern text).2.Sound ∧
      ∀ other, other ∈ (c.accepts pattern text).2.patterns ↔
        other = pattern ∨ other ∈ c.patterns := by
  rw [accepts]
  obtain ⟨hmem, hglob⟩ | ⟨hmem, hglob⟩ := glob_cases hc pattern
  · rw [hglob]
    refine ⟨rfl, hc, fun other => (or_iff_right_of_imp ?_).symm⟩
    rintro rfl
    exact hmem
  · rw [hglob]
    refine ⟨rfl, ⟨List.nodup_cons.mpr ⟨hmem, hc.nodup⟩, ?_⟩, fun other => List.mem_cons⟩
    exact List.forall_mem_cons.mpr ⟨rfl, hc.read⟩

/-- Whether patterns stand for texts, one after the other, and the cache after this. -/
def answers (c : GlobCache) : List (String × String) → List Bool × GlobCache
  | [] => ([], c)
  | (pattern, text) :: calls =>
    let (answer, c) := c.accepts pattern text
    let (others, c) := c.answers calls
    (answer :: others, c)

theorem answers_cons (c : GlobCache) (pattern text : String) (calls : List (String × String)) :
    c.answers ((pattern, text) :: calls) =
      ((c.accepts pattern text).1 :: ((c.accepts pattern text).2.answers calls).1,
        ((c.accepts pattern text).2.answers calls).2) :=
  rfl

/-- All answers are those of the patterns alone. -/
theorem answers_of_sound (calls : List (String × String)) (hc : c.Sound) :
    (c.answers calls).1 = calls.map (fun call => (Glob.ofPattern call.1).accepts call.2) ∧
      (c.answers calls).2.Sound ∧
      ∀ other, other ∈ (c.answers calls).2.patterns ↔
        other ∈ calls.map Prod.fst ∨ other ∈ c.patterns := by
  induction calls generalizing c with
  | nil => exact ⟨rfl, hc, fun other => by simp [answers]⟩
  | cons call calls ih =>
    obtain ⟨pattern, text⟩ := call
    obtain ⟨hanswer, hsound, hkept⟩ := accepts_of_sound hc pattern text
    obtain ⟨hanswers, hsoundAfter, hkeptAfter⟩ := ih hsound
    rw [answers_cons]
    refine ⟨?_, hsoundAfter, fun other => ?_⟩
    · rw [hanswer, hanswers, List.map_cons]
    · rw [hkeptAfter, hkept, List.map_cons, List.mem_cons]
      tauto

/--
Every sequence of questions to a new cache. An answer is true if and only if the text can be cut
into consecutive parts that the characters of the pattern stand for, and it is the answer of every
library of regular expressions that compiles the expression of the pattern. Then there is exactly
one entry for each pattern that was used.
-/
theorem answers_iff {library : ExpressionLibrary} (hlawful : library.Lawful)
    (calls : List (String × String)) :
    let answers := (empty.answers calls).1
    let after := (empty.answers calls).2
    List.Forall₂ (fun call answer =>
        (answer = true ↔ Glob.Covers call.1 call.2) ∧
          ∀ x, library.compile (Glob.ofPattern call.1).regex = some x →
            library.isMatch x call.2 = answer) calls answers ∧
      after.patterns.Nodup ∧ (∀ pattern, pattern ∈ after.patterns ↔ pattern ∈ calls.map Prod.fst) ∧
      after.size = (calls.map Prod.fst).dedup.length := by
  intro answers after
  obtain ⟨hanswers, hsound, hkept⟩ := answers_of_sound calls sound_empty
  have hused : ∀ pattern, pattern ∈ after.patterns ↔ pattern ∈ calls.map Prod.fst := fun pattern =>
    (hkept pattern).trans (or_iff_left List.not_mem_nil)
  refine ⟨?_, hsound.nodup, hused, ?_⟩
  · change List.Forall₂ _ calls (empty.answers calls).1
    rw [hanswers, List.forall₂_map_right_iff, List.forall₂_same]
    intro call _
    exact ⟨Glob.accepts_ofPattern_iff, fun x hx => Glob.isMatch_regex hlawful hx call.2⟩
  · have hperm : after.patterns.Perm (calls.map Prod.fst).dedup := by
      refine (List.perm_ext_iff_of_nodup hsound.nodup (List.nodup_dedup _)).mpr fun pattern => ?_
      rw [hused, List.mem_dedup]
    rw [← hperm.length_eq, patterns, List.length_map, size]

/-- A dot stands for itself only, and a star for a line break too. -/
theorem answers_iff_dotted :
    ExpressionLibrary.concatenations.Lawful ∧
      Glob.Covers "a.*?" "a.b\né" ∧ ¬ Glob.Covers "a.*?" "axbé" ∧ Glob.Covers "" "" ∧
      ExpressionLibrary.concatenations.isMatch "a\\..*.".toList "a.b\né" = true ∧
      (empty.answers [("a.*?", "a.b\né"), ("", ""), ("a.*?", "axbé")]).2.size = 2 := by
  have hlawful := ExpressionLibrary.lawful_concatenations
  obtain ⟨hanswers, -, -, hsize⟩ :=
    answers_iff hlawful [("a.*?", "a.b\né"), ("", ""), ("a.*?", "axbé")]
  have htruths : (empty.answers [("a.*?", "a.b\né"), ("", ""), ("a.*?", "axbé")]).1 =
      [true, true, false] := by decide +kernel
  have hcompile : ExpressionLibrary.concatenations.compile (Glob.ofPattern "a.*?").regex =
      some "a\\..*.".toList := by
    have hbody : ((Glob.ofPattern "a.*?").regex.toList.drop 5).dropLast = "a\\..*.".toList := by
      decide +kernel
    exact congrArg some hbody
  rw [htruths] at hanswers
  obtain ⟨⟨hfirst, hmatch⟩, hanswers⟩ := List.forall₂_cons.mp hanswers
  obtain ⟨⟨hempty, -⟩, hanswers⟩ := List.forall₂_cons.mp hanswers
  obtain ⟨⟨hlast, -⟩, -⟩ := List.forall₂_cons.mp hanswers
  refine ⟨hlawful, hfirst.mp rfl, fun hcovers => ?_, hempty.mp rfl, hmatch _ hcompile, ?_⟩
  · exact absurd (hlast.mpr hcovers) Bool.false_ne_true
  · exact hsize.trans (by decide +kernel)

end GlobCache

end GraphTable
