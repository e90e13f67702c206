/-!
# Blanks, pieces and numerals

What readers of text share.

* `trim` takes off the blanks at the two ends of a text. Every reader of literals in this library
  trims first.
* `cut sep cs` is the list of pieces between the occurrences of `sep`, found from the left without
  overlap. There is always at least one piece, and joining the pieces with the separator gives the
  text back (`intercalate_cut`).
* `natural?` and `integer?` read decimal numerals of whole numbers without any bound; the bounds of
  64-bit words are those of `word?` and `count?`. Writing uses no leading zero and no plus sign, and
  what is written is read back (`natural?_digits`, `integer?_integer`).
-/

namespace GraphTable.Text

/-! ### Blank characters -/

/-- The characters with the Unicode property `White_Space`. -/
def isBlank (c : Char) : Bool :=
  let n := c.toNat
  (9 ≤ n && n ≤ 13) || n == 0x20 || n == 0x85 || n == 0xA0 || n == 0x1680 ||
    (0x2000 ≤ n && n ≤ 0x200A) || n == 0x2028 || n == 0x2029 || n == 0x202F || n == 0x205F ||
    n == 0x3000

/-- Drops the blanks in front. -/
def skipBlanks (cs : List Char) : List Char :=
  cs.dropWhile isBlank

/-- Drops the blanks at both ends. -/
def trimChars (cs : List Char) : List Char :=
  (skipBlanks (skipBlanks cs).reverse).reverse

/-- The text without the blanks at its two ends. -/
def trim (s : String) : String :=
  String.ofList (trimChars s.toList)

theorem isBlank_of_isWhitespace {c : Char} (h : c.isWhitespace = true) : isBlank c = true := by
  simp only [Char.isWhitespace, Bool.or_eq_true, decide_eq_true_eq] at h
  rcases h with ((rfl | rfl) | rfl) | rfl <;> decide

theorem toList_trim (s : String) : (trim s).toList = trimChars s.toList := by
  simp [trim]

/-! ### Cutting at a separator -/

/-- Puts a character in front of the first piece. -/
private def pushFront (c : Char) : List (List Char) → List (List Char)
  | [] => [[c]]
  | piece :: pieces => (c :: piece) :: pieces

/--
The pieces of a text after its first `skip` characters, which belong to a separator
already found. The empty separator occurs nowhere.
-/
def cutFrom (sep : List Char) : Nat → List Char → List (List Char)
  | _, [] => [[]]
  | skip + 1, _ :: cs => cutFrom sep skip cs
  | 0, c :: cs =>
    if !sep.isEmpty && sep.isPrefixOf (c :: cs) then [] :: cutFrom sep (sep.length - 1) cs
    else pushFront c (cutFrom sep 0 cs)

/-- The pieces of a text between the occurrences of a separator. -/
def cut (sep cs : List Char) : List (List Char) :=
  cutFrom sep 0 cs

/-- The pieces of a text between the occurrences of a separator. -/
def split (sep s : String) : List String :=
  (cut sep.toList s.toList).map String.ofList

theorem cutFrom_ne_nil (sep : List Char) (skip : Nat) (cs : List Char) :
    cutFrom sep skip cs ≠ [] := by
  induction cs generalizing skip with
  | nil => cases skip <;> simp [cutFrom]
  | cons c cs ih =>
    cases skip with
    | succ skip => simpa [cutFrom] using ih skip
    | zero =>
      simp only [cutFrom]
      split
      · simp
      · cases h : cutFrom sep 0 cs <;> simp [pushFront]

private theorem intercalate_pushFront (sep : List Char) (c : Char) {pieces : List (List Char)}
    (h : pieces ≠ []) :
    List.intercalate sep (pushFront c pieces) = c :: List.intercalate sep pieces := by
  match pieces, h with
  | [piece], _ => simp [pushFront, List.intercalate]
  | piece :: next :: rest, _ => simp [pushFront, List.intercalate]

private theorem intercalate_nil_cons (sep : List Char) {pieces : List (List Char)}
    (h : pieces ≠ []) :
    List.intercalate sep ([] :: pieces) = sep ++ List.intercalate sep pieces := by
  match pieces, h with
  | piece :: rest, _ => simp [List.intercalate]

theorem intercalate_cutFrom (sep : List Char) (skip : Nat) (cs : List Char) :
    List.intercalate sep (cutFrom sep skip cs) = cs.drop skip := by
  induction cs generalizing skip with
  | nil => cases skip <;> simp [cutFrom, List.intercalate]
  | cons c cs ih =>
    cases skip with
    | succ skip => simpa [cutFrom] using ih skip
    | zero =>
      simp only [cutFrom]
      split
      · rename_i h
        rw [Bool.and_eq_true] at h
        obtain ⟨rest, hrest⟩ := List.isPrefixOf_iff_prefix.mp h.2
        rw [intercalate_nil_cons sep (cutFrom_ne_nil _ _ _), ih]
        cases sep with
        | nil => simp at h
        | cons s sep =>
          simp only [List.cons_append, List.cons.injEq] at hrest
          obtain ⟨rfl, rfl⟩ := hrest
          simp
      · rw [intercalate_pushFront sep c (cutFrom_ne_nil _ _ _), ih]
        simp

theorem intercalate_cut (sep cs : List Char) : List.intercalate sep (cut sep cs) = cs := by
  simpa [cut] using intercalate_cutFrom sep 0 cs

/-! ### Numerals -/

/-- The decimal digits of a number, without leading zeros. -/
def digits (n : Nat) : List Char :=
  Nat.toDigits 10 n

/-- The digits of a number, after a minus sign if it is negative. -/
def integer (z : Int) : List Char :=
  if z < 0 then '-' :: digits z.natAbs else digits z.natAbs

/-- The number that a list of one or more digits denotes. -/
def natural? (cs : List Char) : Option Nat :=
  if cs ≠ [] ∧ cs.all Char.isDigit then some (Nat.ofDigitChars 10 cs 0) else none

/-- The number that digits denote, after at most one sign. -/
def integer? : List Char → Option Int
  | '-' :: cs => (natural? cs).map fun n : Nat => -(n : Int)
  | '+' :: cs => (natural? cs).map fun n : Nat => (n : Int)
  | cs => (natural? cs).map fun n : Nat => (n : Int)

/-- A number within the bounds of signed 64-bit words. -/
def word? (cs : List Char) : Option Int64 :=
  (integer? cs).bind fun z =>
    if Int64.minValue.toInt ≤ z ∧ z ≤ Int64.maxValue.toInt then some (Int64.ofInt z) else none

/-- A number within the bounds of unsigned 64-bit words, after at most a plus sign. -/
def count? (cs : List Char) : Option UInt64 :=
  let unsigned := match cs with
    | '+' :: rest => rest
    | _ => cs
  (natural? unsigned).bind fun n => if n < UInt64.size then some (UInt64.ofNat n) else none

theorem natural?_digits (n : Nat) : natural? (digits n) = some n := by
  have hd : (digits n).all Char.isDigit = true := by
    rw [List.all_eq_true]
    intro c hc
    exact Nat.isDigit_of_mem_toDigits (by decide) (by decide) hc
  have hne : digits n ≠ [] := Nat.toDigits_ne_nil
  simp [natural?, hd, hne]
  exact Nat.ofDigitChars_ten_toDigits

theorem digits_eq_cons (n : Nat) : ∃ c cs, digits n = c :: cs ∧ c.isDigit = true := by
  cases h : digits n with
  | nil => exact absurd h Nat.toDigits_ne_nil
  | cons c cs =>
    refine ⟨c, cs, rfl, ?_⟩
    exact Nat.isDigit_of_mem_toDigits (b := 10) (n := n) (by decide) (by decide)
      (by have : c ∈ digits n := by simp [h]
          exact this)

theorem integer?_digits (n : Nat) : integer? (digits n) = some (n : Int) := by
  obtain ⟨c, cs, h, hc⟩ := digits_eq_cons n
  have hread := natural?_digits n
  rw [h] at hread ⊢
  have h1 : c ≠ '-' := by rintro rfl; simp at hc
  have h2 : c ≠ '+' := by rintro rfl; simp at hc
  unfold integer?
  split
  · rename_i heq; cases heq; exact absurd rfl h1
  · rename_i heq; cases heq; exact absurd rfl h2
  · simp [hread]

theorem integer?_integer (z : Int) : integer? (integer z) = some z := by
  unfold integer
  split
  · rename_i h
    have habs : -(z.natAbs : Int) = z := by omega
    show (natural? (digits z.natAbs)).map (fun n : Nat => -(n : Int)) = some z
    rw [natural?_digits, Option.map_some, habs]
  · rename_i h
    rw [integer?_digits]
    simp only [Option.some.injEq]
    omega

end GraphTable.Text
