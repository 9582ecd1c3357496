import ApproxSet.Evict.Dense
import ApproxSet.Wire.Cursor
import ApproxSet.Wire.LittleEndian
import ApproxSet.Word.Digits
import ApproxSet.Word.Mix

/-!
# Cuckoo filters

A power of two of bit-dense buckets, the two buckets of a fingerprint lying anywhere in the table.
-/
namespace ApproxSet

structure Cuckoo where
  seed : UInt64
  /-- Logarithm of the number of buckets. -/
  indexBits : Nat
  table : Dense

namespace Cuckoo

/-- The load limit 0.96 in units of `2 ^ -53`, to which it is rounded. -/
def loadLimit : Nat := 8646911284551352

/-- Whether `capacity` keys load `2 ^ e` buckets past the limit. The capacity is taken to 53 binary
digits; the number of slots is taken in 64 bits, and any capacity overloads no slots. -/
def overloads (capacity e : Nat) : Bool :=
  let slots := (1 <<< (e + 2)) % UInt64.size
  loadLimit * slots < significant 53 capacity <<< 53

/-- Logarithm of the number of buckets for `capacity` keys: the least that has a slot for each,
and one more where that would pass the load limit. -/
def indexBitsFor (capacity : Nat) : Nat :=
  let e := ceilLog2 ((capacity + 3) / 4)
  if overloads capacity e then e + 1 else e

def scheme (width indexBits : Nat) : Scheme where
  width := width
  home h := h.toNat % (1 <<< indexBits)
  reach _ := indexBits

def build [Draws] (hashes : List UInt64) (width : Nat) (capacity : Option Nat) (seed : UInt64)
    (maxKicks : Nat) : Except Error Cuckoo := do
  let keys := distinct hashes
  let e := indexBitsFor (capacity.getD keys.length)
  let table ← (scheme width e).store maxKicks seed (Dense.empty width (1 <<< e)) keys
  return ⟨seed, e, table⟩

def mayContain (f : Cuckoo) (hash : UInt64) : Bool :=
  (scheme f.table.width f.indexBits).mayHold f.table.contains (mix hash f.seed)

def headerSize : Nat := 10

def encode (f : Cuckoo) : List UInt8 :=
  LittleEndian.bytes 8 f.seed.toNat ++ LittleEndian.bytes 1 f.table.width ++
    LittleEndian.bytes 1 f.indexBits ++ f.table.bytes.toList

def decode (body : List UInt8) : Except Error Cuckoo := do
  let (head, c) ← (Cursor.ofBytes body).header headerSize
  let width := LittleEndian.fieldAt 8 1 head
  let e := LittleEndian.fieldAt 9 1 head
  if e > 40 then
    throw (.invalidField "cuckoo idx_bits")
  let (data, c) ← c.bulk (Dense.byteSize width (1 <<< e))
  c.finish
  if width ≠ 8 ∧ width ≠ 12 ∧ width ≠ 16 then
    throw (.invalidField "bucket fp_bits")
  return ⟨(LittleEndian.fieldAt 0 8 head).toUInt64, e, ⟨width, data.toArray⟩⟩

/-- Length of the encoding. -/
def size (f : Cuckoo) : Nat := headerSize + f.table.bytes.size

end Cuckoo

end ApproxSet
