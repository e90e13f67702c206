import GraphTable.Text.Basic

/-!
# JSON documents

A document is read into a tree first (`Json.read`), and the tree is decoded into what it is
expected to hold after that. The tree is as lenient as a reader that skips over what it does
not need: numbers keep their digits, so that one too great for any word is no fault unless it
is asked for, and a text whose escapes name half a surrogate pair is kept as unreadable.

A record may be written as an object with named fields, in any order, or as an array of its
fields in their fixed order (`fields`). Unknown names are skipped; a name given twice is a
fault.
-/

namespace GraphTable

/-- The tree of a document. -/
inductive Json
  | null
  | bool (b : Bool)
  /-- A number, as it is written. -/
  | number (written : List Char)
  /-- A text, unless its escapes name half a surrogate pair. -/
  | string (s : Option String)
  | array (items : List Json)
  | object (members : List (Option String × Json))

namespace Json

/-- Why a document cannot be read, and up to where it was read. -/
structure Fault where
  reason : String
  line : Nat
  column : Nat
  deriving DecidableEq, Repr

/-- The wording of a fault. -/
def Fault.message (f : Fault) : String :=
  f.reason ++ " at line " ++ toString f.line ++ " column " ++ toString f.column

/-- Where and why a reader stops: the reason, and the text that is left. -/
abbrev Stop := String × List Char

/-! ### Characters and words -/

/-- The characters that may stand between the parts of a document. -/
def isSpace (c : Char) : Bool :=
  c == ' ' || c == '\n' || c == '\t' || c == '\r'

/-- Drops space in front. -/
def skipSpace (cs : List Char) : List Char :=
  cs.dropWhile isSpace

/-- The value of a hexadecimal digit. -/
def hexDigit? (c : Char) : Option Nat :=
  if c.isDigit then some (c.toNat - 48)
  else if 'a' ≤ c ∧ c ≤ 'f' then some (c.toNat - 87)
  else if 'A' ≤ c ∧ c ≤ 'F' then some (c.toNat - 55)
  else none

/-- The value of four hexadecimal digits. -/
def hexQuad? (a b c d : Char) : Option Nat := do
  return ((← hexDigit? a) * 16 + (← hexDigit? b)) * 256 + (← hexDigit? c) * 16 + (← hexDigit? d)

/-- The character that a letter stands for after a backslash. -/
def escape? (c : Char) : Option Char :=
  match c with
  | '"' => some '"'
  | '\\' => some '\\'
  | '/' => some '/'
  | 'b' => some '\x08'
  | 'f' => some '\x0c'
  | 'n' => some '\n'
  | 'r' => some '\r'
  | 't' => some '\t'
  | _ => none

/-- One piece of a text: a character, or a 16-bit unit that an escape names. -/
private inductive Piece
  | char (c : Char)
  | unit (n : Nat)

/-- Reads the pieces of a text up to its closing quote. -/
private def readPieces : List Char → Except Stop (List Piece × List Char)
  | [] => .error ("EOF while parsing a string", [])
  | '"' :: rest => .ok ([], rest)
  | '\\' :: 'u' :: a :: b :: c :: d :: rest =>
    match hexQuad? a b c d with
    | none => .error ("invalid escape", rest)
    | some n => do
      let (ps, left) ← readPieces rest
      return (.unit n :: ps, left)
  | '\\' :: e :: rest =>
    match escape? e with
    | none => .error ("invalid escape", rest)
    | some c => do
      let (ps, left) ← readPieces rest
      return (.char c :: ps, left)
  | c :: rest =>
    if c.toNat < 0x20 then
      .error ("control character (\\u0000-\\u001F) found while parsing a string", rest)
    else do
      let (ps, left) ← readPieces rest
      return (.char c :: ps, left)

/-- Joins surrogate pairs; half a pair makes the text unreadable. -/
private def joinPieces : List Piece → Option (List Char)
  | [] => some []
  | .char c :: ps => (joinPieces ps).map (c :: ·)
  | .unit n :: ps =>
    if n < 0xD800 ∨ 0xE000 ≤ n then (joinPieces ps).map (Char.ofNat n :: ·)
    else
      match ps with
      | .unit m :: rest =>
        if n < 0xDC00 ∧ 0xDC00 ≤ m ∧ m < 0xE000 then
          (joinPieces rest).map
            (Char.ofNat (0x10000 + (n - 0xD800) * 0x400 + (m - 0xDC00)) :: ·)
        else none
      | _ => none

/-- Reads a text after its opening quote. -/
def readString (cs : List Char) : Except Stop (Option String × List Char) := do
  let (ps, left) ← readPieces cs
  return ((joinPieces ps).map String.ofList, left)

/-- Reads one or more digits. -/
private def readDigits (cs : List Char) : Except Stop (List Char × List Char) :=
  match cs.takeWhile Char.isDigit with
  | [] => .error ("invalid number", cs)
  | ds => .ok (ds, cs.dropWhile Char.isDigit)

/-- Reads a whole part: a single zero, or digits that do not begin with one. -/
private def readWhole : List Char → Except Stop (List Char × List Char)
  | '0' :: d :: rest =>
    if d.isDigit then .error ("invalid number", d :: rest) else .ok (['0'], d :: rest)
  | cs => readDigits cs

/-- Reads a point and digits, if there is a point. -/
private def readFraction : List Char → Except Stop (List Char × List Char)
  | '.' :: rest => do
    let (ds, left) ← readDigits rest
    return ('.' :: ds, left)
  | cs => .ok ([], cs)

/-- Reads an exponent, if there is one. -/
private def readExponent : List Char → Except Stop (List Char × List Char)
  | [] => .ok ([], [])
  | c :: rest =>
    if c = 'e' ∨ c = 'E' then
      match rest with
      | '+' :: more => do
        let (ds, left) ← readDigits more
        return (c :: '+' :: ds, left)
      | '-' :: more => do
        let (ds, left) ← readDigits more
        return (c :: '-' :: ds, left)
      | _ => do
        let (ds, left) ← readDigits rest
        return (c :: ds, left)
    else .ok ([], c :: rest)

/-- Reads a number. -/
def readNumber (cs : List Char) : Except Stop (Json × List Char) := do
  let (sign, rest) := match cs with
    | '-' :: rest => (['-'], rest)
    | _ => ([], cs)
  let (whole, rest) ← readWhole rest
  let (fraction, rest) ← readFraction rest
  let (exponent, rest) ← readExponent rest
  return (.number (sign ++ whole ++ fraction ++ exponent), rest)

/-! ### Values -/

/-- Drops a colon, with space around it. -/
private def skipColon (cs : List Char) : Except Stop (List Char) :=
  match skipSpace cs with
  | ':' :: rest => .ok rest
  | rest => .error ("expected a colon", rest)

mutual

/-- Reads a value. Every level of nesting takes one unit of fuel, as every further item does. -/
def readValue : Nat → List Char → Except Stop (Json × List Char)
  | 0, cs => .error ("nested too deeply", cs)
  | fuel + 1, cs =>
    match skipSpace cs with
    | [] => .error ("EOF while parsing a value", [])
    | 'n' :: 'u' :: 'l' :: 'l' :: rest => .ok (.null, rest)
    | 't' :: 'r' :: 'u' :: 'e' :: rest => .ok (.bool true, rest)
    | 'f' :: 'a' :: 'l' :: 's' :: 'e' :: rest => .ok (.bool false, rest)
    | '"' :: rest => do
      let (s, left) ← readString rest
      return (.string s, left)
    | '[' :: rest =>
      match skipSpace rest with
      | ']' :: left => .ok (.array [], left)
      | _ => do
        let (items, left) ← readItems fuel rest
        return (.array items, left)
    | '{' :: rest =>
      match skipSpace rest with
      | '}' :: left => .ok (.object [], left)
      | _ => do
        let (members, left) ← readMembers fuel rest
        return (.object members, left)
    | c :: rest =>
      if c = '-' ∨ c.isDigit then readNumber (c :: rest)
      else .error ("expected value", c :: rest)

/-- Reads one or more items and the bracket after them. -/
def readItems : Nat → List Char → Except Stop (List Json × List Char)
  | 0, cs => .error ("nested too deeply", cs)
  | fuel + 1, cs => do
    let (item, rest) ← readValue fuel cs
    match skipSpace rest with
    | ',' :: rest => do
      let (items, left) ← readItems fuel rest
      return (item :: items, left)
    | ']' :: left => return ([item], left)
    | rest => .error ("expected , or ]", rest)

/-- Reads one or more named members and the brace after them. -/
def readMembers : Nat → List Char → Except Stop ((List (Option String × Json)) × List Char)
  | 0, cs => .error ("nested too deeply", cs)
  | fuel + 1, cs =>
    match skipSpace cs with
    | '"' :: rest => do
      let (name, rest) ← readString rest
      let (value, rest) ← readValue fuel (← skipColon rest)
      match skipSpace rest with
      | ',' :: rest => do
        let (members, left) ← readMembers fuel rest
        return ((name, value) :: members, left)
      | '}' :: left => return ([(name, value)], left)
      | rest => .error ("expected , or \x7d", rest)
    | rest => .error ("key must be a string", rest)

end

/-- The fault of a reason, placed where the given text is left of the whole. -/
def faultAt (whole left : List Char) (reason : String) : Fault :=
  let before := whole.take (whole.length - left.length)
  let lines := before.filter fun c => c == '\n'
  let last := before.reverse.takeWhile fun c => c != '\n'
  ⟨reason, lines.length + 1, last.length⟩

/-- Reads a document, with nothing but space after its value. -/
def read (text : String) : Except Fault Json :=
  let cs := text.toList
  match readValue (cs.length + 1) cs with
  | .error (reason, left) => .error (faultAt cs left reason)
  | .ok (j, rest) =>
    match skipSpace rest with
    | [] => .ok j
    | left => .error (faultAt cs left "trailing characters")

/-! ### Decoding -/

/-- A text. -/
def asString : Json → Except String String
  | string (some s) => .ok s
  | string none => .error "lone leading surrogate in hex escape"
  | _ => .error "invalid type: expected a string"

/-- A truth value. -/
def asBool : Json → Except String Bool
  | bool b => .ok b
  | _ => .error "invalid type: expected a boolean"

/-- A whole number of at most 64 bits, written without sign, point and exponent. -/
def asCount : Json → Except String Nat
  | number written =>
    match Text.natural? written with
    | some n => if n < UInt64.size then .ok n else .error "invalid type: expected usize"
    | none => .error "invalid type: expected usize"
  | _ => .error "invalid type: expected usize"

/-- Nothing, or what the decoder takes. -/
def asOption {α : Type} (decode : Json → Except String α) : Json → Except String (Option α)
  | null => .ok none
  | j => (decode j).map some

/-- An array of what the decoder takes. -/
def asList {α : Type} (decode : Json → Except String α) : Json → Except String (List α)
  | array items => items.mapM decode
  | _ => .error "invalid type: expected a sequence"

/-- One of several words, as a text or as the only name in an object that gives it nothing. -/
def asWord {α : Type} (word? : String → Option α) : Json → Except String α
  | object [(name, null)] => do
    match word? (← asString (string name)) with
    | some a => .ok a
    | none => .error "unknown variant"
  | j => do
    match word? (← asString j) with
    | some a => .ok a
    | none => .error "unknown variant"

/-- The fields of an object by name, in the order of the names asked for. -/
private def namedFields (names : List String) (members : List (Option String × Json)) :
    Except String (List (Option Json)) := do
  let members ← members.mapM fun (name, j) => do return (← asString (string name), j)
  names.mapM fun name =>
    match members.filter fun m => m.1 == name with
    | [] => .ok none
    | [(_, j)] => .ok (some j)
    | _ => .error ("duplicate field '" ++ name ++ "'")

/--
The fields of a record, in the order of their names: by name from an object, by position from
an array, which may stop early but not go on too long.
-/
def fields (names : List String) : Json → Except String (List (Option Json))
  | object members => namedFields names members
  | array items =>
    if names.length < items.length then .error "trailing characters"
    else .ok (items.map some ++ List.replicate (names.length - items.length) none)
  | _ => .error "invalid type: expected a map"

/-- A field that has to be there. -/
def required {α : Type} (name : String) (decode : Json → Except String α) :
    Option Json → Except String α
  | some j => decode j
  | none => .error ("missing field '" ++ name ++ "'")

/-- A field that may be left out, and what it holds then. -/
def orDefault {α : Type} (fallback : α) (decode : Json → Except String α) :
    Option Json → Except String α
  | some j => decode j
  | none => .ok fallback

/-- Reads and decodes a document. What is wrong with its content is known at its end. -/
def decode {α : Type} (decoder : Json → Except String α) (text : String) : Except Fault α := do
  match decoder (← read text) with
  | .ok a => .ok a
  | .error reason => .error (faultAt text.toList [] reason)

end Json

end GraphTable
