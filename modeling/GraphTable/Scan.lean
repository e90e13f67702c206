import GraphTable.Binary64.Arithmetic
import GraphTable.Bytes
import GraphTable.Hash

/-!
# Scans of the key space

What is read of a table: a single row by its key, the rows of a range of keys, or the rows of
a range whose keys match a template in which some bytes are free. A range may be sampled, which
keeps a fixed part of the keys, chosen by their checksum.
-/

namespace GraphTable

/-- A selection of rows by their keys. -/
inductive Scan
  /-- The row of one key. -/
  | point (key : Bytes)
  /-- The rows from `start` on and below `stop`, or only a fraction of them. -/
  | range (start : Bytes) (stop : Option Bytes) (sample : Option Binary32)
  /-- The rows of a range whose keys match a template under a mask. -/
  | fuzzy (template mask : Bytes) (start : Bytes) (stop : Option Bytes)
  deriving DecidableEq, Repr

namespace Scan

/-- The mask byte of a template position that has to match. -/
def fixedMask : UInt8 := 0

/-- The mask byte of a template position that is free. -/
def freeMask : UInt8 := 1

/-- Whether a key begins with a template, up to the free positions. -/
def matchesTemplate : Bytes → Bytes → Bytes → Bool
  | key, template, mask =>
    decide (template.length ≤ key.length) &&
      ((template.zip mask).zip key).all fun ((t, m), k) => m == freeMask || t == k

/-- Whether a scan looks up a single key. -/
def isPoint : Scan → Bool
  | point _ => true
  | _ => false

/-- The least key that a scan may read. -/
def start : Scan → Bytes
  | point key => key
  | range start _ _ => start
  | fuzzy _ _ start _ => start

/-- The key below which a range ends, if it ends. -/
def stop? : Scan → Option Bytes
  | point _ => none
  | range _ stop _ => stop
  | fuzzy _ _ _ stop => stop

/-- Whether a key is in a range. -/
def inRange (start : Bytes) (stop : Option Bytes) (key : Bytes) : Bool :=
  decide (start ≤ key) &&
    match stop with
    | none => true
    | some stop => decide (key < stop)

theorem inRange_iff {start key : Bytes} {stop : Option Bytes} :
    inRange start stop key = true ↔ start ≤ key ∧ ∀ above, stop = some above → key < above := by
  unfold inRange
  cases stop <;> simp

/-- The number of classes that checksums divide keys into. -/
def sampleClasses : Nat := 10000

/--
Whether a key belongs to the given fraction of all keys: its checksum falls into one of the
first classes, as many of ten thousand as the fraction, confined to 0 to 1, comes to.
-/
def sampled (fraction : Binary32) (key : Bytes) : Bool :=
  let one := Binary64.ofInt 1
  let x := Binary64.ofSingle fraction
  let confined :=
    if x.isNaN then x
    else if x.place < 0 then Binary64.ofInt 0
    else if one.place < x.place then one
    else x
  let bound := Binary64.ofSingle (confined.mul (.ofInt sampleClasses)).toSingle
  (Binary64.ofInt ((Hash.crc32 key).toNat % sampleClasses : Nat)).compare? bound == some .lt

/-- Whether a scan selects a key. -/
def covers (scan : Scan) (key : Bytes) : Bool :=
  match scan with
  | point own => own == key
  | range start stop sample =>
    inRange start stop key &&
      match sample with
      | none => true
      | some fraction => sampled fraction key
  | fuzzy template mask start stop =>
    inRange start stop key && matchesTemplate key template mask

end Scan

end GraphTable
