/-!
# Glob patterns

The patterns of pattern tests: a star stands for any run of characters, a question mark for any
single one, and every other character for itself. A text matches if the pattern stands for the
whole of it.

* `row` decides this from the end of the pattern on, for all ends of the text at once: it says
  of every end of the text whether the pattern stands for it.
* `regex` is the regular expression that says the same.
* A cache keeps what it has read of the patterns that were used.

Every pattern can be read. A library of regular expressions takes the expression of a pattern, which
is made of dots, stars after dots and escaped characters, unless it is too long for the library.
This refusal is **left out**: there is no error for it, and a cache answers for such a pattern as
well.
-/

namespace GraphTable

/-- What a character of a pattern stands for. -/
inductive GlobPiece
  /-- Any run of characters. -/
  | run
  /-- Any single character. -/
  | single
  /-- One character. -/
  | exactly (c : Char)
  deriving DecidableEq, Repr

namespace GlobPiece

/-- What a character stands for. -/
def ofChar (c : Char) : GlobPiece :=
  if c = '*' then run else if c = '?' then single else exactly c

/-- The characters that regular expressions give a meaning to. -/
def isMeta (c : Char) : Bool :=
  "\\.+*?()|[]\x7b\x7d^$#&-~".toList.contains c

/-- The regular expression of a piece. -/
def regex : GlobPiece → List Char
  | run => ['.', '*']
  | single => ['.']
  | exactly c => if isMeta c then ['\\', c] else [c]

end GlobPiece

/-- A pattern, as its pieces. -/
structure Glob where
  pieces : List GlobPiece
  deriving DecidableEq, Repr

namespace Glob

/-- Reads a pattern. -/
def ofPattern (pattern : String) : Glob := ⟨pattern.toList.map GlobPiece.ofChar⟩

/-- The regular expression that matches the same texts, with a dot for line breaks too. -/
def regex (g : Glob) : String :=
  "(?s)^" ++ String.ofList (g.pieces.flatMap GlobPiece.regex) ++ "$"

/-! ### Matching -/

/-- The row of no pieces, which stand for the empty end only. -/
def emptyRow (text : List Char) : List Bool :=
  text.map (fun _ => false) ++ [true]

/-- For every end, whether the row holds there or at some shorter end. -/
def orLater : List Bool → List Bool
  | [] => []
  | b :: bs =>
    let later := orLater bs
    (b || later.headD false) :: later

/-- For every end, whether its first character is as asked and the row holds at what is left. -/
def afterOne (text : List Char) (asked : Char → Bool) (row : List Bool) : List Bool :=
  List.zipWith (fun c later => asked c && later) text row.tail ++ [false]

/-- The row of pieces from the row of what comes after the first of them. -/
def addPiece (text : List Char) (row : List Bool) : GlobPiece → List Bool
  | .run => orLater row
  | .single => afterOne text (fun _ => true) row
  | .exactly c => afterOne text (· == c) row

/-- For every end of a text, whether the pieces stand for it; the whole text is in front. -/
def row (text : List Char) : List GlobPiece → List Bool
  | [] => emptyRow text
  | p :: pieces => addPiece text (row text pieces) p

/-- Whether a pattern stands for a text. -/
def accepts (g : Glob) (text : String) : Bool :=
  (row text.toList g.pieces).headD false

end Glob

/-- The patterns that were used so far, each once and with what was read of it. -/
structure GlobCache where
  globs : List (String × Glob)

namespace GlobCache

/-- The cache before anything was used. -/
def empty : GlobCache := ⟨[]⟩

/-- The number of patterns. -/
def size (c : GlobCache) : Nat := c.globs.length

/-- What was read of a pattern; one that was not used yet is read and kept. -/
def glob (c : GlobCache) (pattern : String) : Glob × GlobCache :=
  match c.globs.lookup pattern with
  | some g => (g, c)
  | none =>
    let g := Glob.ofPattern pattern
    (g, ⟨(pattern, g) :: c.globs⟩)

/-- Whether a pattern stands for a text. -/
def accepts (c : GlobCache) (pattern text : String) : Bool × GlobCache :=
  let (g, c) := c.glob pattern
  (g.accepts text, c)

end GlobCache

end GraphTable
