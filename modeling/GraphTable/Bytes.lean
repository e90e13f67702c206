/-!
# Byte strings

Keys, column names and cell contents are byte strings, kept as lists and ordered
lexicographically (the order of `List`). This module has the three things that keys are
built from:

* **Big-endian numbers** (`bigEndian`, `toNat`): a number in a fixed count of bytes, most
  significant first, so that the order of bytes is the order of numbers.
* **Two's complement** (`ofInt`, `toInt`): the same for signed numbers, modulo a power
  of 256.
* **The successor of a stem** (`successor?`): the least byte string above every extension
  of a given one. A range from a stem to its successor holds exactly the extensions.
-/

namespace GraphTable

/-- A byte string. -/
abbrev Bytes := List UInt8

namespace Bytes

/-! ### Numbers -/

/-- The low `width` bytes of `n`, most significant first. -/
def bigEndian : Nat → Nat → Bytes
  | 0, _ => []
  | width + 1, n => bigEndian width (n / 256) ++ [UInt8.ofNat n]

/-- The number that a byte string denotes, most significant byte first. -/
def toNat (bytes : Bytes) : Nat :=
  bytes.foldl (fun n b => n * 256 + b.toNat) 0

/-- The two's complement of `z` in `width` bytes, most significant first. -/
def ofInt (width : Nat) (z : Int) : Bytes :=
  bigEndian width (z % (Nat.pow 256 width : Nat)).toNat

/-- Whether the sign bit, the top bit of the first byte, is set. -/
def isNegative : Bytes → Bool
  | [] => false
  | b :: _ => 128 ≤ b.toNat

/-- The signed number that a byte string denotes in two's complement. -/
def toInt (bytes : Bytes) : Int :=
  if isNegative bytes then (toNat bytes : Int) - (Nat.pow 256 bytes.length : Nat)
  else toNat bytes

theorem length_bigEndian (width n : Nat) : (bigEndian width n).length = width := by
  induction width generalizing n with
  | zero => rfl
  | succ width ih => simp [bigEndian, ih]

theorem toNat_append_singleton (bytes : Bytes) (b : UInt8) :
    toNat (bytes ++ [b]) = toNat bytes * 256 + b.toNat := by
  simp [toNat, List.foldl_append]

theorem toNat_bigEndian (width n : Nat) : toNat (bigEndian width n) = n % Nat.pow 256 width := by
  induction width generalizing n with
  | zero => simp [bigEndian, toNat, Nat.mod_one]
  | succ width ih =>
    rw [bigEndian, toNat_append_singleton, ih]
    have h : n % Nat.pow 256 (width + 1) = n / 256 % Nat.pow 256 width * 256 + n % 256 := by
      rw [show Nat.pow 256 (width + 1) = 256 * Nat.pow 256 width from Nat.mul_comm _ _,
        Nat.mod_mul, Nat.mul_comm (256 : Nat)]
      omega
    rw [h]
    simp

/-! ### Ranges of extensions -/

/--
The least byte string above every extension of the given one: trailing bytes 255 are
dropped and the last byte left is raised by one. There is none when nothing is left.
-/
def successor? : Bytes → Option Bytes
  | [] => none
  | b :: rest =>
    match successor? rest with
    | some above => some (b :: above)
    | none => if b = 255 then none else some [b + 1]

/-! ### Text form -/

/-- One hexadecimal digit, in lower case. -/
private def hexDigit (n : Nat) : Char :=
  if n < 10 then Char.ofNat (48 + n) else Char.ofNat (87 + n)

/-- Two lower-case hexadecimal digits a byte. -/
def hex (bytes : Bytes) : String :=
  String.ofList (bytes.flatMap fun b => [hexDigit (b.toNat / 16), hexDigit (b.toNat % 16)])

end Bytes

end GraphTable
