import ApproxSet.Wire.Cursor
import ApproxSet.Wire.LittleEndian
import ApproxSet.Word.Digits
import ApproxSet.Word.Mix

/-!
# Blocked Bloom filters

A key belongs to one bucket of eight words and sets one bit in each of them. A hash may be present
when all eight of its bits are set in its bucket.
-/
namespace ApproxSet

structure Bloom where
  seed : UInt64
  buckets : Nat
  /-- Eight words for each bucket. -/
  words : Array UInt64

namespace Bloom

def salts : Vector UInt32 8 :=
  #v[0x47b6137b, 0x44974d91, 0x8824ad5b, 0xa2b7289d, 0x705495c7, 0x2df1424b, 0x9efc4947, 0x5c6bfb31]

/-- The bit that the low half `h` of a mixed hash has in word `i` of its bucket. -/
def bit (h : UInt32) (i : Fin 8) : UInt64 :=
  (1 : UInt64) <<< ((h * salts[i]) >>> 26).toUInt64

/-- The bucket of a mixed hash, chosen by its high half. -/
def bucketOf (h : UInt64) (buckets : Nat) : Nat := scale32 (h >>> 32).toUInt32 buckets

/-- Sets the eight bits of a mixed hash. -/
def mark (buckets : Nat) (words : Array UInt64) (h : UInt64) : Array UInt64 :=
  let base := 8 * bucketOf h buckets
  (List.finRange 8).foldl
    (fun words (i : Fin 8) => words.modify (base + i.val) (· ||| bit h.toUInt32 i)) words

/-- One bucket for each 512 bits of the budget, and at least one. -/
def bucketCount (keys bitsPerKey : Nat) : Nat := max 1 ((keys * bitsPerKey + 511) / 512)

def build (hashes : List UInt64) (bitsPerKey : Nat) (seed : UInt64) : Except Error Bloom :=
  let n := bucketCount hashes.length bitsPerKey
  if n < UInt32.size then
    .ok ⟨seed, n, hashes.foldl (fun ws k => mark n ws (mix k seed)) (Array.replicate (8 * n) 0)⟩
  else .error (.invalidField "bloom num_buckets")

def mayContain (f : Bloom) (hash : UInt64) : Bool :=
  let h := mix hash f.seed
  let base := 8 * bucketOf h f.buckets
  (List.finRange 8).all fun i => f.words.getD (base + i.val) 0 &&& bit h.toUInt32 i != 0

def headerSize : Nat := 12

def encode (f : Bloom) : List UInt8 :=
  LittleEndian.bytes 8 f.seed.toNat ++ LittleEndian.bytes 4 f.buckets ++
    LittleEndian.pack 8 UInt64.toNat f.words

def decode (body : List UInt8) : Except Error Bloom := do
  let (head, c) ← (Cursor.ofBytes body).header headerSize
  let n := LittleEndian.fieldAt 8 4 head
  if n = 0 then
    throw (.invalidField "bloom num_buckets")
  let (data, c) ← c.bulk (8 * (8 * n))
  c.finish
  return {
    seed := (LittleEndian.fieldAt 0 8 head).toUInt64
    buckets := n
    words := LittleEndian.unpack 8 Nat.toUInt64 (8 * n) data }

/-- Length of the encoding. -/
def size (f : Bloom) : Nat := headerSize + 8 * f.words.size

end Bloom

end ApproxSet
