import GraphTable.Codec.Basic
import GraphTable.Error.Store

/-!
# Binary forms

Whole numbers are written in two's complement of the width of their type, dates as their day
number, reals as their bits, and text and bytes as they are.

In the shortest form a whole number is written in two's complement without the leading bytes that
only repeat its sign, and a date as its day number in the same way. A real is written in 32 bits if
that loses nothing and in 64 bits otherwise.
-/

namespace GraphTable.Codec

/-! ### Forms of the width of a type -/

/-- The number of bytes that a number needs in two's complement. -/
def signedWidth (z : Int) : Nat :=
  let magnitude := if z < 0 then (-z - 1).toNat else z.toNat
  (if magnitude = 0 then 0 else magnitude.log2 + 1) / 8 + 1

/-- Writes a number in two's complement of a width, if it has room there. -/
def narrow (width : Nat) (z : Int) : Except StoreError Bytes :=
  let bound : Int := (Nat.pow 2 (8 * width - 1) : Nat)
  if -bound ≤ z ∧ z < bound then .ok (Bytes.ofInt width z)
  else .error (.overflow (signedWidth z) width)

/-- The bits of a real. -/
def doubleBytes (x : Binary64) : Bytes :=
  Bytes.bigEndian 8 x.bits.toNat

/-- The bits of a real in the format of 32 bits. -/
def singleBytes (x : Binary64) : Bytes :=
  Bytes.bigEndian 4 x.toSingle.bits.toNat

/-- The real of eight bytes. -/
def ofDoubleBytes (bytes : Bytes) : Binary64 :=
  ⟨UInt64.ofNat (Bytes.toNat bytes)⟩

/-- The real of four bytes. -/
def ofSingleBytes (bytes : Bytes) : Binary64 :=
  .ofSingle ⟨UInt32.ofNat (Bytes.toNat bytes)⟩

/-- Writes the binary form of a value. -/
def nativeEncode (type : DataType) (v : Value) : Except StoreError Bytes :=
  match type, v with
  | .boolean, .bool b => .ok [if b then 1 else 0]
  | .byte, .int i => narrow 1 i.toInt
  | .short, .int i => narrow 2 i.toInt
  | .int, .int i => narrow 4 i.toInt
  | .long, .int i => .ok (Bytes.ofInt 8 i.toInt)
  | .float, .float x => .ok (singleBytes x)
  | .double, .float x | .decimal, .float x => .ok (doubleBytes x)
  | .date, .date d => .ok (Bytes.ofInt 4 d.dayNumber)
  | _, .string s => .ok (Text.utf8 s)
  | _, .bytes bs => .ok bs
  | _, _ => .error (.unsupported "native" type)

/-- Takes bytes of one width only. -/
def ofWidth {α : Type} (width : Nat) (bytes : Bytes) (f : Bytes → α) : Except StoreError α :=
  if bytes.length = width then .ok (f bytes)
  else .error (.malformedKey (.width width bytes.length))

/-- A whole number in two's complement. -/
def signedValue (bytes : Bytes) : Value :=
  .int (Int64.ofInt (Bytes.toInt bytes))

/-- The date of a day number. -/
def dateValue (days : Int) : Except StoreError Value :=
  match Date.ofDayNumber? days with
  | some d => .ok (.date d)
  | none => .error (.malformedKey (.dayNumber days))

/-- Reads the binary form of a value. -/
def nativeDecode (type : DataType) (bytes : Bytes) : Except StoreError Value :=
  match type with
  | .boolean => ofWidth 1 bytes fun bs => .bool (bs != [0])
  | .byte => ofWidth 1 bytes signedValue
  | .short => ofWidth 2 bytes signedValue
  | .int => ofWidth 4 bytes signedValue
  | .long => ofWidth 8 bytes signedValue
  | .float => ofWidth 4 bytes fun bs => .float (ofSingleBytes bs)
  | .double | .decimal => ofWidth 8 bytes fun bs => .float (ofDoubleBytes bs)
  | .date => do dateValue (← ofWidth 4 bytes Bytes.toInt)
  | .bytes => .ok (.bytes bytes)
  | .string | .dateTime | .time =>
    match Text.ofUtf8? bytes with
    | some text => .ok (.string text)
    | none => .error (.malformedKey .nativeNotText)
  | .object => .error (.unsupported "native" type)

/-! ### Shortest forms -/

/-- Drops leading bytes that only repeat the sign of the next one, down to a single byte. -/
def dropSignBytes : Bytes → Bytes
  | b :: c :: rest =>
    if (b = 0 ∧ c < 128) ∨ (b = 255 ∧ 128 ≤ c) then dropSignBytes (c :: rest)
    else b :: c :: rest
  | bytes => bytes

/-- The shortest two's complement of a number of at most 64 bits. -/
def shortestSigned (z : Int) : Bytes :=
  dropSignBytes (Bytes.ofInt 8 z)

/-- The number of a two's complement of one to eight bytes. -/
def readSigned (bytes : Bytes) : Except StoreError Int :=
  if bytes.length = 0 ∨ 8 < bytes.length then
    .error (.malformedKey (.minByteInteger bytes.length))
  else .ok (Bytes.toInt bytes)

/-- Whether the format of 32 bits can tell a real; no pattern is told from another not-a-number. -/
def fitsSingle (x : Binary64) : Bool :=
  x.isNaN || (Binary64.compare? (.ofSingle x.toSingle) x) == some .eq

/-- Writes the shortest binary form of a value. -/
def minByteEncode : Value → Except StoreError Bytes
  | .bool b => .ok [if b then 1 else 0]
  | .int i => .ok (shortestSigned i.toInt)
  | .float x => .ok (if fitsSingle x then singleBytes x else doubleBytes x)
  | .date d => .ok (shortestSigned d.dayNumber)
  | .string _ | .bytes _ => .error (.unsupported "minbyte" .string)

/-- Reads the shortest binary form of a value. -/
def minByteDecode (type : DataType) (bytes : Bytes) : Except StoreError Value :=
  match type.flavor with
  | .integral => do
    let z ← readSigned bytes
    if type = .boolean then return .bool (z != 0) else return .int (Int64.ofInt z)
  | .real =>
    match bytes.length with
    | 4 => .ok (.float (ofSingleBytes bytes))
    | 8 => .ok (.float (ofDoubleBytes bytes))
    | n => .error (.malformedKey (.minByteReal n))
  | _ =>
    if type = .date then do
      let days ← readSigned bytes
      if Int32.minValue.toInt ≤ days ∧ days ≤ Int32.maxValue.toInt then dateValue days
      else .error (.malformedKey .dayNumberTooGreat)
    else .error (.unsupported "minbyte" type)

end GraphTable.Codec
