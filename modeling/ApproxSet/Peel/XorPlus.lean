import ApproxSet.Bits.Rank
import ApproxSet.Peel.Xor

/-!
# Xor filters with the third block compressed

Lower blocks are peeled first, so most slots of the third block stay zero. Only its other slots are
kept, and a ranked bit list over the block tells where.
-/
namespace ApproxSet

structure XorPlus (w : Nat) where
  seed : UInt64
  blockLength : Nat
  /-- Two whole blocks and then the slots of the third that are not zero. -/
  slots : Array (BitVec w)
  /-- The slots of the third block that are kept. -/
  kept : RankedBits

namespace XorPlus

variable {w : Nat}

/-- The same filter with the zero slots of the third block left out. -/
def ofXor (f : Xor w) : XorPlus w :=
  let n := f.blockLength
  { seed := f.seed
    blockLength := n
    slots := f.slots.extract 0 (2 * n) ++ (f.slots.extract (2 * n) (3 * n)).filter (· != 0)
    kept := .ofBits n fun i => f.slots.getD (2 * n + i) 0 != 0 }

def build (w : Nat) (hashes : List UInt64) (seed : UInt64) (tries : Nat) :
    Except Error (XorPlus w) :=
  (Xor.build w hashes seed tries).map ofXor

/-- Number of slots kept of the third block. -/
def thirdLength (f : XorPlus w) : Nat := f.slots.size - 2 * f.blockLength

/-- Where counts that do not fit the slots point past them, the hash may be present. -/
def mayContain (f : XorPlus w) (hash : UInt64) : Bool :=
  let h := mix hash f.seed
  let t := (Layout.blocks f.blockLength).slots h
  let low := f.slots.getD t.a 0 ^^^ f.slots.getD t.b 0
  let i := t.c - 2 * f.blockLength
  if f.kept.get i then
    match f.slots[2 * f.blockLength + f.kept.rank i]? with
    | some v => low ^^^ v == fingerprint w h
    | none => true
  else low == fingerprint w h

def headerSize : Nat := 16

def encode (f : XorPlus w) : List UInt8 :=
  LittleEndian.bytes 8 f.seed.toNat ++ LittleEndian.bytes 4 f.blockLength ++
    LittleEndian.bytes 4 f.thirdLength ++ LittleEndian.pack (w / 8) BitVec.toNat f.slots ++
    LittleEndian.pack 8 UInt64.toNat f.kept.words ++
    LittleEndian.pack 8 UInt64.toNat f.kept.counts

def decode (w : Nat) (body : List UInt8) : Except Error (XorPlus w) := do
  let (head, c) ← (Cursor.ofBytes body).header headerSize
  let n := LittleEndian.fieldAt 8 4 head
  let third := LittleEndian.fieldAt 12 4 head
  if n = 0 then
    throw (.invalidField "xor+ block_len")
  if third > n then
    throw (.invalidField "xor+ third_len")
  let (data, c) ← c.bulk ((2 * n + third) * (w / 8))
  let (words, c) ← c.bulk (8 * RankedBits.wordsFor n)
  let (counts, c) ← c.bulk (8 * RankedBits.countsFor n)
  c.finish
  return {
    seed := (LittleEndian.fieldAt 0 8 head).toUInt64
    blockLength := n
    slots := LittleEndian.unpack (w / 8) (BitVec.ofNat w) (2 * n + third) data
    kept :=
      { words := LittleEndian.unpack 8 Nat.toUInt64 (RankedBits.wordsFor n) words
        counts := LittleEndian.unpack 8 Nat.toUInt64 (RankedBits.countsFor n) counts } }

/-- Length of the encoding. -/
def size (f : XorPlus w) : Nat :=
  headerSize + f.slots.size * (w / 8) + 8 * (f.kept.words.size + f.kept.counts.size)

end XorPlus

end ApproxSet
