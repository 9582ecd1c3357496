import ApproxSet.Peel.Assign
import ApproxSet.Wire.Cursor
import ApproxSet.Wire.LittleEndian
import ApproxSet.Word.Mix

/-!
# Binary fuse filters

Slots of `w` bits in segments, the three slots of a key lying in three consecutive segments.
-/
namespace ApproxSet

namespace Segments

/-- No segment is longer than this. -/
def maxLength : Nat := 262144

/-- `2` to the power `⌊log n / log 3.33 + 2.25⌋`, capped; the power is taken in 64 bits. -/
def lengthFor (n : Nat) : Nat :=
  if n = 0 then 4
  else
    let e := ((Float.ofNat n).log / (3.33 : Float).log + 2.25).floor.toUInt32
    min (1 <<< (e.toNat % 64)) maxLength

/-- Slots wanted for `n` keys: `0.875 + 0.25 log 10^6 / log n` for each, but at least `1.125`. -/
def slotsFor (n : Nat) : Nat :=
  if n ≤ 1 then 0
  else
    let x := 0.875 + 0.25 * (1000000 : Float).log / (Float.ofNat n).log
    let factor := if x < 1.125 then 1.125 else x
    (Float.ofNat n * factor).round.toUInt64.toNat

/-- The first slot ranges over all segments but two, and over at least one. -/
def ofKeyCount (n : Nat) : Except Error Segments :=
  let length := lengthFor n
  let first := max 1 ((slotsFor n + length - 1) / length - 2)
  if (first + 2) * length < UInt32.size then .ok ⟨length, first * length⟩
  else .error (.invalidField "fuse segment_count_length")

end Segments

structure Fuse (w : Nat) where
  seed : UInt64
  segments : Segments
  slots : Array (BitVec w)

namespace Fuse

variable {w : Nat}

def build (w : Nat) (hashes : List UInt64) (seed : UInt64) (tries : Nat) :
    Except Error (Fuse w) := do
  let keys := distinct hashes
  let g ← Segments.ofKeyCount keys.length
  let (s, slots) ← g.layout.solve w keys seed tries
  return ⟨s, g, slots⟩

def mayContain (f : Fuse w) (hash : UInt64) : Bool :=
  let h := mix hash f.seed
  f.segments.layout.sum f.slots h == fingerprint w h

def headerSize : Nat := 20

def encode (f : Fuse w) : List UInt8 :=
  LittleEndian.bytes 8 f.seed.toNat ++ LittleEndian.bytes 4 f.segments.length ++
    LittleEndian.bytes 4 f.segments.spread ++ LittleEndian.bytes 4 f.segments.size ++
    LittleEndian.pack (w / 8) BitVec.toNat f.slots

/-- The segments a header describes: a power of two not above the cap, a positive multiple of it,
and the slot count that follows from the two. -/
def readSegments (length spread slots : Nat) : Except Error Segments := do
  if 1 <<< length.log2 ≠ length ∨ length > Segments.maxLength then
    throw (.invalidField "fuse segment_length")
  if spread = 0 ∨ spread % length ≠ 0 then
    throw (.invalidField "fuse segment_count_length")
  if slots ≠ (Segments.mk length spread).size then
    throw (.invalidField "fuse array_len")
  return ⟨length, spread⟩

def decode (w : Nat) (body : List UInt8) : Except Error (Fuse w) := do
  let (head, c) ← (Cursor.ofBytes body).header headerSize
  let g ← readSegments (LittleEndian.fieldAt 8 4 head) (LittleEndian.fieldAt 12 4 head)
    (LittleEndian.fieldAt 16 4 head)
  let (data, c) ← c.bulk (g.size * (w / 8))
  c.finish
  return {
    seed := (LittleEndian.fieldAt 0 8 head).toUInt64
    segments := g
    slots := LittleEndian.unpack (w / 8) (BitVec.ofNat w) g.size data }

/-- Length of the encoding. -/
def size (f : Fuse w) : Nat := headerSize + f.slots.size * (w / 8)

end Fuse

end ApproxSet
