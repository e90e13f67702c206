import GraphTable.Bytes
import GraphTable.Text.Basic

/-!
# Hash algorithms

The algorithms a table may name for its hashed key fields. All of them give 32 bits: the
one-at-a-time hash, the cyclic redundancy check, and the first word of the 256-bit secure hash.
-/

namespace GraphTable.Hash

/-!
### The one-at-a-time hash

A 32-bit hash that mixes in one byte after the other and stirs the state once more at the end.
-/

/-- Mixes one byte into the state. -/
private def jenkinsStep (h : UInt32) (b : UInt8) : UInt32 :=
  let h := h + b.toUInt32
  let h := h + (h <<< 10)
  h ^^^ (h >>> 6)

/-- The one-at-a-time hash of a byte string. -/
def jenkins (bytes : Bytes) : UInt32 :=
  let h := bytes.foldl jenkinsStep 0
  let h := h + (h <<< 3)
  let h := h ^^^ (h >>> 11)
  h + (h <<< 15)

/-!
### The cyclic redundancy check

The 32-bit check with the reflected polynomial `0xEDB88320`, started with and finished by all
ones.
-/

/-- Shifts out the low bit, and subtracts the polynomial if it was set. -/
private def crcBit (crc : UInt32) : UInt32 :=
  if crc &&& 1 = 1 then (crc >>> 1) ^^^ 0xEDB88320 else crc >>> 1

/-- Shifts out eight bits after adding a byte to them. -/
private def crcStep (crc : UInt32) (b : UInt8) : UInt32 :=
  (crcBit ∘ crcBit ∘ crcBit ∘ crcBit ∘ crcBit ∘ crcBit ∘ crcBit ∘ crcBit) (crc ^^^ b.toUInt32)

/-- The cyclic redundancy check of a byte string. -/
def crc32 (bytes : Bytes) : UInt32 :=
  bytes.foldl crcStep 0xFFFFFFFF ^^^ 0xFFFFFFFF

/-!
### The 256-bit secure hash

The message is closed by a one bit, filled up with zeros and ended by its length in bits, so
that it is a list of blocks of sixteen words. Each block is stretched to sixty-four words,
which are stirred into a state of eight words one by one; the state before the block is added
afterwards.
-/

/-- The constants that the sixty-four rounds add. -/
private def sha256Constants : List UInt32 :=
  [0x428a2f98, 0x71374491, 0xb5c0fbcf, 0xe9b5dba5, 0x3956c25b, 0x59f111f1, 0x923f82a4,
   0xab1c5ed5, 0xd807aa98, 0x12835b01, 0x243185be, 0x550c7dc3, 0x72be5d74, 0x80deb1fe,
   0x9bdc06a7, 0xc19bf174, 0xe49b69c1, 0xefbe4786, 0x0fc19dc6, 0x240ca1cc, 0x2de92c6f,
   0x4a7484aa, 0x5cb0a9dc, 0x76f988da, 0x983e5152, 0xa831c66d, 0xb00327c8, 0xbf597fc7,
   0xc6e00bf3, 0xd5a79147, 0x06ca6351, 0x14292967, 0x27b70a85, 0x2e1b2138, 0x4d2c6dfc,
   0x53380d13, 0x650a7354, 0x766a0abb, 0x81c2c92e, 0x92722c85, 0xa2bfe8a1, 0xa81a664b,
   0xc24b8b70, 0xc76c51a3, 0xd192e819, 0xd6990624, 0xf40e3585, 0x106aa070, 0x19a4c116,
   0x1e376c08, 0x2748774c, 0x34b0bcb5, 0x391c0cb3, 0x4ed8aa4a, 0x5b9cca4f, 0x682e6ff3,
   0x748f82ee, 0x78a5636f, 0x84c87814, 0x8cc70208, 0x90befffa, 0xa4506ceb, 0xbef9a3f7,
   0xc67178f2]

/-- The state of the hash. -/
private structure Sha256State where
  a : UInt32
  b : UInt32
  c : UInt32
  d : UInt32
  e : UInt32
  f : UInt32
  g : UInt32
  h : UInt32

/-- The state before the first block. -/
private def Sha256State.start : Sha256State :=
  ⟨0x6a09e667, 0xbb67ae85, 0x3c6ef372, 0xa54ff53a, 0x510e527f, 0x9b05688c, 0x1f83d9ab,
    0x5be0cd19⟩

/-- Turns a word to the right. -/
private def rotateRight (w : UInt32) (n : UInt32) : UInt32 :=
  (w >>> n) ||| (w <<< (32 - n))

/-- One round. -/
private def Sha256State.round (s : Sha256State) (k w : UInt32) : Sha256State :=
  let s1 := rotateRight s.e 6 ^^^ rotateRight s.e 11 ^^^ rotateRight s.e 25
  let choice := (s.e &&& s.f) ^^^ ((~~~s.e) &&& s.g)
  let t1 := s.h + s1 + choice + k + w
  let s0 := rotateRight s.a 2 ^^^ rotateRight s.a 13 ^^^ rotateRight s.a 22
  let majority := (s.a &&& s.b) ^^^ (s.a &&& s.c) ^^^ (s.b &&& s.c)
  ⟨t1 + s0 + majority, s.a, s.b, s.c, s.d + t1, s.e, s.f, s.g⟩

/-- Stretches a block by one word after the other; the words are listed from the last one back. -/
private def stretch : Nat → List UInt32 → List UInt32
  | 0, ws => ws
  | n + 1, ws =>
    let w2 := ws.getD 1 0
    let w15 := ws.getD 14 0
    let s1 := rotateRight w2 17 ^^^ rotateRight w2 19 ^^^ (w2 >>> 10)
    let s0 := rotateRight w15 7 ^^^ rotateRight w15 18 ^^^ (w15 >>> 3)
    stretch n ((s1 + ws.getD 6 0 + s0 + ws.getD 15 0) :: ws)

/-- Stirs one block of sixteen words into the state. -/
private def Sha256State.absorb (s : Sha256State) (block : List UInt32) : Sha256State :=
  let ws := (stretch 48 block.reverse).reverse
  let t := (sha256Constants.zip ws).foldl (fun t (k, w) => t.round k w) s
  ⟨s.a + t.a, s.b + t.b, s.c + t.c, s.d + t.d, s.e + t.e, s.f + t.f, s.g + t.g, s.h + t.h⟩

/-- The message with its closing bit, its fill and its length. -/
private def filled (bytes : Bytes) : Bytes :=
  let n := bytes.length
  bytes ++ 0x80 :: (List.replicate ((119 - n % 64) % 64) 0 ++ Bytes.bigEndian 8 (8 * n))

/-- Pieces of `size` elements, as many as asked for. -/
private def pieces {α : Type} (size : Nat) : Nat → List α → List (List α)
  | 0, _ => []
  | n + 1, xs => xs.take size :: pieces size n (xs.drop size)

/-- The first word of the 256-bit secure hash of a byte string. -/
def sha256Word (bytes : Bytes) : UInt32 :=
  let message := filled bytes
  let words := (pieces 4 (message.length / 4) message).map fun w => UInt32.ofNat (Bytes.toNat w)
  let final := (pieces 16 (words.length / 16) words).foldl Sha256State.absorb Sha256State.start
  final.a

end GraphTable.Hash

namespace GraphTable

/-! ### Algorithms by name -/

/-- A hash algorithm. -/
inductive HashAlgorithm
  | jenkins
  | crc32
  | sha256
  deriving DecidableEq, Repr

namespace HashAlgorithm

/-- The algorithm of a name, blanks and case apart. No name and unknown names mean the first. -/
def ofName (name : Option String) : HashAlgorithm :=
  match name.map fun n => (Text.trimChars n.toList).map Char.toLower with
  | none => jenkins
  | some n =>
    if n = "crc32".toList then crc32 else if n = "sha256".toList then sha256 else jenkins

/-- The hash of a byte string. -/
def hash : HashAlgorithm → Bytes → UInt32
  | jenkins, bytes => Hash.jenkins bytes
  | crc32, bytes => Hash.crc32 bytes
  | sha256, bytes => Hash.sha256Word bytes

end HashAlgorithm

end GraphTable
