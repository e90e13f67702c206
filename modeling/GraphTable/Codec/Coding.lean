import GraphTable.Codec.Binary
import GraphTable.Error.Store

/-!
# Encoding and decoding

The two directions of a codec, and which values are safe bounds of a range: a bound is safe if
byte order agrees with value order between it and everything the codec may have stored.
-/

namespace GraphTable.Codec

/-!
### Padded text

Numbers are filled up with zeros in front, after their sign; all else is filled up with null
bytes at the end. Reading takes the filling off again, so text that ends in null bytes of its
own loses them.
-/

/-- Whether a value is filled up in front. -/
def isNumeric : Value → Bool
  | .bool _ | .int _ | .float _ => true
  | _ => false

/-- What a value is written as before it is filled up. -/
def padBody : Value → Bytes
  | .bool b => Text.utf8 (if b then "1" else "0")
  | v => v.canonicalBytes

/-- Zeros in front, after a minus sign. -/
def fillFront (count : Nat) (body : Bytes) : Bytes :=
  match body with
  | 45 :: digits => 45 :: (List.replicate count 48 ++ digits)
  | digits => List.replicate count 48 ++ digits

/-- Null bytes at the end. -/
def fillBack (count : Nat) (body : Bytes) : Bytes :=
  body ++ List.replicate count 0

/-- Writes a value, filled up to a length unless that is zero. -/
def padEncode (v : Value) (maxLength : Nat) : Except StoreError Bytes :=
  let body := padBody v
  if maxLength = 0 then .ok body
  else if maxLength < body.length then .error (.overflow body.length maxLength)
  else
    let count := maxLength - body.length
    .ok (if isNumeric v then fillFront count body else fillBack count body)

/-- Drops zeros as long as a digit follows. -/
def dropZeros : List Char → List Char
  | '0' :: d :: rest => if d.isDigit then dropZeros (d :: rest) else '0' :: d :: rest
  | cs => cs

/-- A number without its filling; nothing at all counts as zero. -/
def stripZeros : List Char → List Char
  | '-' :: digits => '-' :: atLeastZero (dropZeros digits)
  | digits => atLeastZero (dropZeros digits)
where
  /-- A zero in place of nothing. -/
  atLeastZero : List Char → List Char
    | [] => ['0']
    | digits => digits

/-- The bytes up to the last one that is not null. -/
def stripNulls (bytes : Bytes) : Bytes :=
  (bytes.reverse.dropWhile fun b => b == 0).reverse

/-- Reads a literal, as an operation on keys. -/
def readKeyText (type : DataType) (text : String) : Except StoreError Value :=
  (type.read text).mapError .read

/-- The text of a padded field. -/
def padText (bytes : Bytes) : Except StoreError String :=
  match Text.ofUtf8? bytes with
  | some text => .ok text
  | none => .error (.malformedKey .padNotText)

/-- Reads a padded value. -/
def padDecode (type : DataType) (bytes : Bytes) : Except StoreError Value :=
  match type.flavor with
  | .integral | .real => do
    let digits := stripZeros (← padText bytes).toList
    if type = .boolean then return .bool (digits = ['1'])
    else readKeyText type (String.ofList digits)
  | _ =>
    let body := stripNulls bytes
    if type = .bytes then .ok (.bytes body)
    else do readKeyText type (← padText body)

/-! ### The directions of a codec -/

/-- Brings a value into the variant that a type expects, as an operation on keys. -/
def coerceKey (type : DataType) (v : Value) : Except StoreError Value :=
  (type.coerce v).mapError .read

/-- A hash as decimal digits of a fixed count. -/
def hashText (h : UInt32) : Bytes :=
  let ds := Text.digits h.toNat
  (List.replicate (hashDigits - ds.length) '0' ++ ds).map fun c => UInt8.ofNat c.toNat

/-- The bytes of a value in a key. -/
def encode (codec : Codec) (v : Value) : Except StoreError Bytes := do
  let v ← coerceKey codec.type v
  match codec with
  | pad _ maxLength => padEncode v maxLength
  | hash _ algorithm => return Bytes.bigEndian 4 (algorithm.hash v.canonicalBytes).toNat
  | lexicoHash _ algorithm => return hashText (algorithm.hash v.canonicalBytes)
  | native type => nativeEncode type v
  | minByte _ => minByteEncode v

/-- The value of bytes in a key. -/
def decode (codec : Codec) (bytes : Bytes) : Except StoreError Value :=
  match codec with
  | pad type _ => padDecode type bytes
  | hash _ _ | lexicoHash _ _ => .error (.irreversible codec.name)
  | native type => nativeDecode type bytes
  | minByte type => minByteDecode type bytes

/--
Whether a range that ends at a value selects just the stored values on its side. Padded
negative numbers and binary numbers do not sort by value, since a sign comes first in either.
-/
def preservesOrder (codec : Codec) (v : Value) : Bool :=
  match codec.type.coerce v with
  | .error _ => false
  | .ok v =>
    match codec, v with
    | pad _ maxLength, .int i => 0 < maxLength && 0 ≤ i
    | pad _ _, .float _ => false
    | pad _ maxLength, _ => 0 < maxLength
    | native _, .bool _ | native _, .string _ | native _, .bytes _ => true
    | _, _ => false

end GraphTable.Codec
