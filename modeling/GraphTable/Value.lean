import GraphTable.Binary64.Decimal
import GraphTable.Bytes
import GraphTable.DataType
import GraphTable.Date
import GraphTable.Text.Utf8

/-!
# Values

The values of data properties and key fields: one closed type of six variants. Data types do
not determine variants one to one; times of day and time stamps, for instance, are kept as
text and compare as text.

`DataType.read` takes the text of a literal to a value of a type, and `DataType.coerce` brings
any value into the variant that a type expects, by way of its text where the variants differ.

Truth values are `true`, `false`, `1` and `0`; numbers may have a sign in front; blanks around
truth values, numbers and dates do not count. Texts, time stamps, times of day and bytes are
taken as they stand.
-/

namespace GraphTable

/-- A value of a data property or key field. -/
inductive Value
  | bool (b : Bool)
  | int (i : Int64)
  | float (x : Binary64)
  | string (s : String)
  | date (d : Date)
  | bytes (bs : Bytes)
  deriving DecidableEq

namespace Value

/-- The text of a value: bytes are shown in hexadecimal, everything else as it is read. -/
def text : Value → String
  | bool b => if b then "true" else "false"
  | int i => String.ofList (Text.integer i.toInt)
  | float x => String.ofList x.text
  | string s => s
  | date d => String.ofList d.text
  | bytes bs => Bytes.hex bs

/-- The text of a value as bytes, except that bytes stand for themselves. -/
def canonicalBytes : Value → Bytes
  | bytes bs => bs
  | v => Text.utf8 v.text

end Value

/-! ### Reading values -/

/-- Why a text is not a literal of a data type. -/
inductive ReadError
  | invalid (text : String) (type : DataType)
  | outOfRange (text : String) (type : DataType)
  | unsupported (type : DataType)
  deriving DecidableEq, Repr

namespace ReadError

/-- The wording of an error. -/
def message : ReadError → String
  | invalid text type => "cannot convert '" ++ text ++ "' to " ++ type.name
  | outOfRange text type => "value '" ++ text ++ "' out of range for " ++ type.name
  | unsupported type => "data type " ++ type.name ++ " has no literal form"

end ReadError

namespace DataType

/-- Reads a truth value. -/
def readBool? (cs : List Char) : Option Bool :=
  let word := cs.map Char.toLower
  if word = "true".toList ∨ word = "1".toList then some true
  else if word = "false".toList ∨ word = "0".toList then some false
  else none

/-- Reads a whole number within the bounds of an integral type. -/
def readInt (type : DataType) (text : String) : Except ReadError Value :=
  match Text.word? (Text.trimChars text.toList) with
  | none => .error (.invalid text type)
  | some i =>
    if i < type.integralBounds.1 ∨ type.integralBounds.2 < i then
      .error (.outOfRange text type)
    else .ok (.int i)

/-- Gives a value that was read, or says that the text is no literal of the type. -/
def orInvalid (type : DataType) (text : String) : Option Value → Except ReadError Value
  | some v => .ok v
  | none => .error (.invalid text type)

/-- Reads a literal of a type. -/
def read (type : DataType) (text : String) : Except ReadError Value :=
  match type with
  | boolean => type.orInvalid text ((readBool? (Text.trimChars text.toList)).map .bool)
  | byte | short | int | long => type.readInt text
  | float | double | decimal =>
    type.orInvalid text ((Binary64.read? (Text.trimChars text.toList)).map .float)
  | string | dateTime | time => .ok (.string text)
  | date => type.orInvalid text ((Date.read? (Text.trimChars text.toList)).map .date)
  | bytes => .ok (.bytes (Text.utf8 text))
  | object => .error (.unsupported type)

/-- Whether a value has the variant that a type expects. -/
def fits (type : DataType) (v : Value) : Bool :=
  match type.flavor, v with
  | .integral, .bool _ => type == boolean
  | .integral, .int _ => type != boolean
  | .real, .float _ => true
  | .string, .string _ => true
  | .temporal, .date _ => type == date
  | .temporal, .string _ => type != date
  | .other, .bytes _ => type == bytes
  | _, _ => false

/--
Brings a value into the variant that a type expects. A value of that variant stays as it is,
whether or not it is within the bounds of the type; whole numbers become reals directly; all
else is read from its text.
-/
def coerce (type : DataType) (v : Value) : Except ReadError Value :=
  if type.fits v then .ok v
  else
    match type.flavor, v with
    | .real, .int i => .ok (.float (Binary64.ofInt i.toInt))
    | _, _ => type.read v.text

theorem coerce_of_fits {type : DataType} {v : Value} (h : type.fits v = true) :
    type.coerce v = .ok v := by
  simp [coerce, h]

/-- Reading gives a value of the variant that the type expects. -/
theorem fits_of_read {type : DataType} {text : String} {v : Value}
    (h : type.read text = .ok v) : type.fits v = true := by
  cases type <;> simp only [read, readInt, orInvalid] at h <;> repeat' split at h
  all_goals first
    | cases h; rfl
    | (rename_i heq; simp only [Option.map_eq_some_iff] at heq
       obtain ⟨_, _, rfl⟩ := heq; cases h; rfl)
    | cases h

/-- What a value is coerced to has the variant that the type expects. -/
theorem fits_of_coerce {type : DataType} {v w : Value} (h : type.coerce v = .ok w) :
    type.fits w = true := by
  unfold coerce at h
  split at h
  · cases h; assumption
  · split at h
    · rename_i hf _
      cases h
      simp [fits, hf]
    · exact fits_of_read h

end DataType

end GraphTable
