import GraphTable.Hash
import GraphTable.Value

/-!
# Codecs of key fields

A codec turns the value of one key field into the bytes it takes up in a row key. Three kinds
can be read back: **pad** writes the text of the value, filled up to a length; **native**
writes a binary form of the data type; **min byte** writes the shortest binary form. The two
kinds of hash cannot.

This module has the kinds, the choice of a codec for a data type, and what is known of a codec
without looking at any value: its width and its reversibility.
-/

namespace GraphTable

/-- The kind of a codec. -/
inductive CodecKind
  | pad
  | hash
  | lexicoHash
  | native
  | minByte
  deriving DecidableEq, Repr

namespace CodecKind

/-- The kind of a name, blanks and case apart. Unknown names mean padding. -/
def ofName (name : String) : CodecKind :=
  let word := (Text.trimChars name.toList).map Char.toLower
  if word = "hash".toList then hash
  else if word = "lexicohash".toList ∨ word = "lexico_hash".toList then lexicoHash
  else if word = "native".toList then native
  else if word = "minbyte".toList ∨ word = "min_byte".toList then minByte
  else pad

end CodecKind

/-- A codec for values of a data type. -/
inductive Codec
  /-- Text, filled up to a length unless that is zero. -/
  | pad (type : DataType) (maxLength : Nat)
  /-- Four bytes of a hash. -/
  | hash (type : DataType) (algorithm : HashAlgorithm)
  /-- A hash as ten decimal digits. -/
  | lexicoHash (type : DataType) (algorithm : HashAlgorithm)
  /-- The binary form of the data type. -/
  | native (type : DataType)
  /-- The shortest binary form. -/
  | minByte (type : DataType)
  deriving DecidableEq, Repr

namespace Codec

/-- The number of digits of a hash written as text. -/
def hashDigits : Nat := 10

/--
The codec of a kind for a data type. Types that the binary kinds have no form for are padded.
-/
def select (kind : CodecKind) (type : DataType) (maxLength : Nat) (algorithm : HashAlgorithm) :
    Codec :=
  match kind with
  | .pad => pad type maxLength
  | .hash => hash type algorithm
  | .lexicoHash => lexicoHash type algorithm
  | .native => if type = .object then pad type maxLength else native type
  | .minByte =>
    if type.flavor = .integral ∨ type.flavor = .real ∨ type = .date then minByte type
    else pad type maxLength

/-- The name of a codec. -/
def name : Codec → String
  | pad _ _ => "pad"
  | hash _ _ => "hash"
  | lexicoHash _ _ => "lexicohash"
  | native _ => "native"
  | minByte _ => "minbyte"

/-- The data type that a codec takes values of. -/
def type : Codec → DataType
  | pad type _ | hash type _ | lexicoHash type _ | native type | minByte type => type

/-- Whether values can be read back. -/
def isReversible : Codec → Bool
  | hash _ _ | lexicoHash _ _ => false
  | _ => true

/-- The width of the binary form of a data type, unless it varies. -/
def nativeWidth? : DataType → Option Nat
  | .boolean | .byte => some 1
  | .short => some 2
  | .int | .float | .date => some 4
  | .long | .double | .decimal => some 8
  | _ => none

/-- The width of everything that a codec writes, unless it varies. -/
def width? : Codec → Option Nat
  | pad _ maxLength => if 0 < maxLength then some maxLength else none
  | hash _ _ => some 4
  | lexicoHash _ _ => some hashDigits
  | native type => nativeWidth? type
  | minByte _ => none

end Codec

end GraphTable
