import ApproxSet.Ribbon.Solution
import ApproxSet.Search
import ApproxSet.Wire.Cursor
import ApproxSet.Wire.LittleEndian
import ApproxSet.Word.Digits
import ApproxSet.Word.Mix

/-!
# Ribbon filters

Keys are split into shards by the top bits of their mixed hash. A shard turns each of its keys into
a row and takes the first of 256 seed bytes under which all rows have a common solution. The shards'
equations are solved together, and a hash may be present when its row is satisfied.
-/
namespace ApproxSet

structure Ribbon where
  seed : UInt64
  /-- Logarithm of the number of shards. -/
  shardBits : Nat
  columns : Columns
  /-- The seed byte of each shard. -/
  shardSeeds : Array UInt8
  /-- The solution, a word for each column of each block. -/
  words : Array UInt64

namespace Ribbon

/-- No ribbon is made of more keys. -/
def maxKeys : Nat := 950000000

/-- The shard of a mixed hash. -/
def shardOf (base : UInt64) (shardBits : Nat) : Nat := base.toNat >>> (64 - shardBits)

/-- The row of a mixed hash in a shard of `slots` slots. It ends at the last slot or before. -/
def rowOf (base : UInt64) (shardSeed slots : Nat) : Row :=
  let h := mix base ((shardSeed + 1).toUInt64 * golden)
  { start := scale64 h (slots - 63)
    coeff := mix h 0xC2B2AE3D27D4EB4F ||| 1
    value := h.toUInt32 }

/-- A shard has between 4096 and 8192 keys on average, or is the only one. -/
def shardBitsFor (keys : Nat) : Nat := (keys / 4096).log2

/-- Slots of a shard: one for each key, a sixth more, and a block at the end. -/
def shardSlots (keys shardBits : Nat) : Nat :=
  let shards := 1 <<< shardBits
  let each := (keys + shards - 1) / shards
  roundUpTo 64 (each + each / 6 + 64)

/-- The band of all rows of a shard under one seed byte. -/
def bandUnder? (bases : List UInt64) (slots shardSeed : Nat) : Option Band :=
  bases.foldlM (fun band b => band.add? (rowOf b shardSeed slots)) (Band.empty slots)

/-- The first seed byte whose rows do not contradict one another, with their band. -/
def solveShard? (bases : List UInt64) (slots : Nat) : Option (Nat × Band) :=
  firstSuccess (bandUnder? bases slots) 256

/-- The mixed hashes that fall in shard `s`. -/
def inShard (bases : List UInt64) (shardBits s : Nat) : List UInt64 :=
  bases.filter fun b => shardOf b shardBits == s

/-- Seed bytes and bands of all shards in order. -/
def solveShards? (bases : List UInt64) (shardBits slots : Nat) : Option (List (Nat × Band)) :=
  (List.range (1 <<< shardBits)).mapM fun s => solveShard? (inShard bases shardBits s) slots

/-- The mixed hashes in ascending order. -/
def basesOf (keys : List UInt64) (seed : UInt64) : List UInt64 :=
  (keys.map (mix · seed)).mergeSort (· ≤ ·)

/-- Words for `milliBits` thousandths of a column for each slot. -/
def wordsFor (slots milliBits : Nat) : Nat := (slots * milliBits + 63999) / 64000

def build (hashes : List UInt64) (milliBits : Nat) (seed : UInt64) (minKeys : Nat) :
    Except Error Ribbon :=
  let keys := distinct hashes
  let n := keys.length
  if n < minKeys ∨ n > maxKeys then .error (.keyCount n minKeys maxKeys)
  else
    let shardBits := shardBitsFor n
    let slots := shardSlots n shardBits
    let total := (1 <<< shardBits) * slots
    if UInt32.size ≤ total / 64 then .error (.invalidField "ribbon num_blocks")
    else
      match solveShards? (basesOf keys seed) shardBits slots with
      | none => .error .unsolvable
      | some shards =>
        let columns := Columns.spread (total / 64) (wordsFor total milliBits)
        let sys : Band := shards.foldl (fun acc s => acc ++ s.2) #[]
        .ok {
          seed := seed
          shardBits := shardBits
          columns := columns
          shardSeeds := (shards.map fun s => UInt8.ofNat s.1).toArray
          words := sys.solve columns }

/-- Slots of each shard of a filter. -/
def slots (f : Ribbon) : Nat := f.columns.blocks / (1 <<< f.shardBits) * 64

def mayContain (f : Ribbon) (hash : UInt64) : Bool :=
  let base := mix hash f.seed
  let s := shardOf base f.shardBits
  let r := rowOf base (f.shardSeeds.getD s 0).toNat f.slots
  f.columns.satisfies f.words { r with start := s * f.slots + r.start }

def headerSize : Nat := 18

def encode (f : Ribbon) : List UInt8 :=
  LittleEndian.bytes 8 f.seed.toNat ++ LittleEndian.bytes 1 f.shardBits ++
    LittleEndian.bytes 1 f.columns.upper ++ LittleEndian.bytes 4 f.columns.blocks ++
    LittleEndian.bytes 4 f.columns.upperStart ++ f.shardSeeds.toList ++
    LittleEndian.pack 8 UInt64.toNat f.words

def decode (body : List UInt8) : Except Error Ribbon := do
  let (head, c) ← (Cursor.ofBytes body).header headerSize
  let shardBits := LittleEndian.fieldAt 8 1 head
  if shardBits > 32 then
    throw (.invalidField "ribbon log2_vshards")
  let columns : Columns :=
    { upper := LittleEndian.fieldAt 9 1 head
      blocks := LittleEndian.fieldAt 10 4 head
      upperStart := LittleEndian.fieldAt 14 4 head }
  if !columns.isValid then
    throw (.invalidField "ribbon columns")
  if columns.blocks % (1 <<< shardBits) ≠ 0 then
    throw (.invalidField "ribbon num_blocks")
  let (seeds, c) ← c.bulk (1 <<< shardBits)
  let (data, c) ← c.bulk (8 * columns.words)
  c.finish
  return {
    seed := (LittleEndian.fieldAt 0 8 head).toUInt64
    shardBits := shardBits
    columns := columns
    shardSeeds := seeds.toArray
    words := LittleEndian.unpack 8 Nat.toUInt64 columns.words data }

/-- Length of the encoding. -/
def size (f : Ribbon) : Nat := headerSize + f.shardSeeds.size + 8 * f.words.size

end Ribbon

end ApproxSet
