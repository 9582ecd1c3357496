import ApproxSet.Evict.Dense
import ApproxSet.Evict.Quad
import ApproxSet.Wire.Cursor
import ApproxSet.Wire.LittleEndian
import ApproxSet.Word.Digits
import ApproxSet.Word.Mix

/-!
# Vacuum filters

The two buckets of a fingerprint lie in one aligned range of buckets whose length, a power of two,
is chosen by the low two bits of the fingerprint. So the number of buckets need only be a multiple
of these lengths. Buckets are stored bit-dense, or packed as sets of four; before they are packed,
they are filled in a table with a word for each slot.
-/
namespace ApproxSet

/-! ### A word for each slot -/

structure Loose where
  /-- Slot `k` of bucket `i` at index `4 i + k`. -/
  slots : Array UInt32

namespace Loose

def empty (buckets : Nat) : Loose := ⟨Array.replicate (4 * buckets) 0⟩

def slot (t : Loose) (i k : Nat) : UInt32 := t.slots.getD (4 * i + k) 0

def free? (t : Loose) (i : Nat) : Option Nat := (List.range 4).find? fun k => t.slot i k == 0

def get (t : Loose) (i k : Nat) : UInt64 := (t.slot i k).toUInt64

def put (t : Loose) (i k : Nat) (fp : UInt64) : Loose :=
  match t with
  | ⟨slots⟩ => ⟨slots.setIfInBounds (4 * i + k) fp.toUInt32⟩

instance : BucketTable Loose := ⟨free?, get, put⟩

end Loose

/-! ### Filters -/

structure Vacuum where
  seed : UInt64
  /-- Width of a stored fingerprint in bits. -/
  width : Nat
  packed : Bool
  buckets : Nat
  /-- Logarithms of the range lengths. -/
  ranges : Vector Nat 4
  bytes : Array UInt8

namespace Vacuum

structure Sizing where
  buckets : Nat
  ranges : Vector Nat 4

/-- Nine keys for ten slots. Up to 1024 buckets form one range. Above that the longest range is
about an eighth of the table, between 1024 and 4096 buckets, and each further one is half as
long. -/
def sizingFor (capacity : Nat) : Except Error Sizing :=
  let needed := max 1 ((5 * capacity + 17) / 18)
  if needed ≤ 1024 then
    let e := ceilLog2 needed
    .ok ⟨1 <<< e, #v[e, e, e, e]⟩
  else
    let r := max 10 (min 12 (needed / 8).log2)
    let n := roundUpTo (1 <<< r) needed
    if n < UInt32.size then .ok ⟨n, #v[r, r - 1, r - 2, r - 3]⟩
    else .error (.invalidField "vacuum num_buckets")

def scheme (width buckets : Nat) (ranges : Vector Nat 4) : Scheme where
  width := width
  home h := scale32 h.toUInt32 buckets
  reach fp := ranges.get ⟨fp.toNat % 4, Nat.mod_lt _ (by decide)⟩

/-- Bits of a packed bucket. -/
def packedBits (width : Nat) : Nat := 4 * width - 4

/-- Bytes of a packed table. -/
def packedSize (width buckets : Nat) : Nat := (packedBits width * buckets + 7) / 8

/-- Packs the first `buckets` buckets of a table. -/
def packTable (width buckets : Nat) (t : Loose) : Array UInt8 :=
  let bits := packedBits width
  (List.range buckets).foldl
    (fun bytes i => BitField.set bytes (bits * i) (BitField.lowMask bits)
      (Quad.pack width ⟨t.slot i 0, t.slot i 1, t.slot i 2, t.slot i 3⟩))
    (Array.replicate (packedSize width buckets) 0)

/-- A packed table stores one bit more of each fingerprint in the same space. -/
def build [Draws] (hashes : List UInt64) (width : Nat) (packed : Bool) (capacity : Option Nat)
    (seed : UInt64) (maxKicks : Nat) : Except Error Vacuum := do
  let keys := distinct hashes
  let z ← sizingFor (capacity.getD keys.length)
  if packed then
    let width := width + 1
    let table ← (scheme width z.buckets z.ranges).store maxKicks seed (Loose.empty z.buckets) keys
    return ⟨seed, width, true, z.buckets, z.ranges, packTable width z.buckets table⟩
  else
    let table ← (scheme width z.buckets z.ranges).store maxKicks seed
      (Dense.empty width z.buckets) keys
    return ⟨seed, width, false, z.buckets, z.ranges, table.bytes⟩

/-- Whether bucket `i` holds `fp`; a packed word that no bucket packs to may hold anything. -/
def contains (f : Vacuum) (i : Nat) (fp : UInt64) : Bool :=
  if f.packed then
    let bits := packedBits f.width
    match Quad.unpack? f.width (BitField.get f.bytes (bits * i) (BitField.lowMask bits)) with
    | some q => q.toList.any fun s => s.toUInt64 == fp
    | none => true
  else (Dense.mk f.width f.bytes).contains i fp

def mayContain (f : Vacuum) (hash : UInt64) : Bool :=
  (scheme f.width f.buckets f.ranges).mayHold f.contains (mix hash f.seed)

def headerSize : Nat := 18

def encode (f : Vacuum) : List UInt8 :=
  LittleEndian.bytes 8 f.seed.toNat ++ LittleEndian.bytes 1 f.width ++
    LittleEndian.bytes 1 f.packed.toNat ++ LittleEndian.bytes 4 f.buckets ++
    LittleEndian.pack 1 id f.ranges.toArray ++ f.bytes.toList

/-- Whether tables of this form store fingerprints of this width. -/
def widthFits (width : Nat) (packed : Bool) : Bool :=
  let plain := if packed then width - 1 else width
  plain == 8 || plain == 12 || plain == 16

def decode (body : List UInt8) : Except Error Vacuum := do
  let (head, c) ← (Cursor.ofBytes body).header headerSize
  let width := LittleEndian.fieldAt 8 1 head
  let form := LittleEndian.fieldAt 9 1 head
  if form > 1 then
    throw (.invalidField "vacuum packed")
  let packed := form == 1
  if !widthFits width packed then
    throw (.invalidField "vacuum fp_bits")
  let n := LittleEndian.fieldAt 10 4 head
  if n = 0 then
    throw (.invalidField "vacuum num_buckets")
  let range (i : Nat) : Nat := LittleEndian.fieldAt (14 + i) 1 head
  let ranges := #v[range 0, range 1, range 2, range 3]
  if ranges.any fun r => r > 31 || n % (1 <<< r) != 0 then
    throw (.invalidField "vacuum ranges")
  let (data, c) ← c.bulk (if packed then packedSize width n else Dense.byteSize width n)
  c.finish
  return ⟨(LittleEndian.fieldAt 0 8 head).toUInt64, width, packed, n, ranges, data.toArray⟩

/-- Length of the encoding. -/
def size (f : Vacuum) : Nat := headerSize + f.bytes.size

end Vacuum

end ApproxSet
