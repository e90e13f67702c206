import GraphTable.Bytes

/-!
# Text as bytes

Text is stored as UTF-8. `utf8` and `ofUtf8?` are the two directions, and `ofUtf8Lossy`
reads any bytes at all, for messages: each longest run of bytes that begins a character
without completing it is shown as one replacement character.

Byte strings compare lexicographically, and texts as the bytes that encode them.
-/

namespace GraphTable.Text

/-- The UTF-8 encoding of a text. -/
def utf8 (s : String) : Bytes :=
  s.toUTF8.data.toList

/-- The text that bytes encode, if they are UTF-8. -/
def ofUtf8? (bytes : Bytes) : Option String :=
  String.fromUTF8? ⟨bytes.toArray⟩

theorem ofUtf8?_utf8 (s : String) : ofUtf8? (utf8 s) = some s := by
  have h : (⟨(utf8 s).toArray⟩ : ByteArray) = s.toByteArray := by simp [utf8]
  simp [ofUtf8?, h, String.fromUTF8?, String.fromUTF8, s.isValidUTF8]

theorem utf8_of_ofUtf8? {bytes : Bytes} {s : String} (h : ofUtf8? bytes = some s) :
    utf8 s = bytes := by
  simp only [ofUtf8?, String.fromUTF8?] at h
  split at h
  · cases h
    simp [utf8, String.fromUTF8]
  · cases h

theorem utf8_injective {s t : String} (h : utf8 s = utf8 t) : s = t := by
  have := ofUtf8?_utf8 s
  rw [h, ofUtf8?_utf8] at this
  exact (Option.some.inj this).symm

/-! ### Reading any bytes -/

/--
How a first byte goes on: the count of bytes that follow it and the least and greatest
value of the next one. There is none for a byte that begins no character.
-/
private def lead? (b : UInt8) : Option (Nat × Nat × Nat) :=
  let n := b.toNat
  if n < 0x80 then some (0, 0, 0)
  else if 0xC2 ≤ n ∧ n ≤ 0xDF then some (1, 0x80, 0xBF)
  else if n = 0xE0 then some (2, 0xA0, 0xBF)
  else if n = 0xED then some (2, 0x80, 0x9F)
  else if 0xE1 ≤ n ∧ n ≤ 0xEF then some (2, 0x80, 0xBF)
  else if n = 0xF0 then some (3, 0x90, 0xBF)
  else if 0xF1 ≤ n ∧ n ≤ 0xF3 then some (3, 0x80, 0xBF)
  else if n = 0xF4 then some (3, 0x80, 0x8F)
  else none

/-- The bytes at the front that go on a character, at most `count` of them. -/
private def tails : Nat → Nat → Nat → Bytes → Bytes
  | 0, _, _, _ => []
  | _ + 1, _, _, [] => []
  | count + 1, low, high, b :: rest =>
    if low ≤ b.toNat ∧ b.toNat ≤ high then b :: tails count 0x80 0xBF rest else []

/-- Reads bytes from the front, leaving out the first `skip` of them. -/
private def readLossy : Nat → Bytes → List Char
  | _, [] => []
  | skip + 1, _ :: rest => readLossy skip rest
  | 0, b :: rest =>
    match lead? b with
    | none => '\uFFFD' :: readLossy 0 rest
    | some (count, low, high) =>
      let more := tails count low high rest
      if more.length = count then
        let code := more.foldl (fun n c => n * 64 + (c.toNat - 0x80))
          (if count = 0 then b.toNat else b.toNat % Nat.pow 2 (6 - count))
        Char.ofNat code :: readLossy count rest
      else '\uFFFD' :: readLossy more.length rest

/-- The text of any bytes, with a replacement character wherever they are not UTF-8. -/
def ofUtf8Lossy (bytes : Bytes) : String :=
  String.ofList (readLossy 0 bytes)

end GraphTable.Text

namespace GraphTable

/-! ### The order of byte strings and texts -/

/-- How two byte strings compare. -/
def Bytes.compare (a b : Bytes) : Ordering :=
  if a < b then .lt else if a = b then .eq else .gt

/-- How two texts compare. -/
def Text.compare (s t : String) : Ordering :=
  Bytes.compare (Text.utf8 s) (Text.utf8 t)

end GraphTable
