import ApproxSet.Peel.Assign
import ApproxSet.Wire.Cursor
import ApproxSet.Wire.LittleEndian
import ApproxSet.Word.Mix

/-!
# Xor filters

Three equal blocks of slots of `w` bits.
-/
namespace ApproxSet

structure Xor (w : Nat) where
  seed : UInt64
  blockLength : Nat
  slots : Array (BitVec w)

namespace Xor

/-- A third of `32 + 1.23 n` slots. -/
def blockLength? (n : Nat) : Except Error Nat :=
  let b := (32 + (123 * n + 99) / 100) / 3
  if b < UInt32.size then .ok b else .error (.invalidField "xor block_len")

variable {w : Nat}

/-- A filter over distinct keys in blocks of a given length. -/
def ofDistinct (w : Nat) (keys : List UInt64) (blockLength : Nat) (seed : UInt64) (tries : Nat) :
    Except Error (Xor w) := do
  let (s, slots) ← (Layout.blocks blockLength).solve w keys seed tries
  return ⟨s, blockLength, slots⟩

def build (w : Nat) (hashes : List UInt64) (seed : UInt64) (tries : Nat) :
    Except Error (Xor w) := do
  let keys := distinct hashes
  ofDistinct w keys (← blockLength? keys.length) seed tries

def mayContain (f : Xor w) (hash : UInt64) : Bool :=
  let h := mix hash f.seed
  (Layout.blocks f.blockLength).sum f.slots h == fingerprint w h

def headerSize : Nat := 12

def encode (f : Xor w) : List UInt8 :=
  LittleEndian.bytes 8 f.seed.toNat ++ LittleEndian.bytes 4 f.blockLength ++
    LittleEndian.pack (w / 8) BitVec.toNat f.slots

def decode (w : Nat) (body : List UInt8) : Except Error (Xor w) := do
  let (head, c) ← (Cursor.ofBytes body).header headerSize
  let n := LittleEndian.fieldAt 8 4 head
  if n = 0 then
    throw (.invalidField "xor block_len")
  let (data, c) ← c.bulk (3 * n * (w / 8))
  c.finish
  return {
    seed := (LittleEndian.fieldAt 0 8 head).toUInt64
    blockLength := n
    slots := LittleEndian.unpack (w / 8) (BitVec.ofNat w) (3 * n) data }

/-- Length of the encoding. -/
def size (f : Xor w) : Nat := headerSize + f.slots.size * (w / 8)

end Xor

end ApproxSet
