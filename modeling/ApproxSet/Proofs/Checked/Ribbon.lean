import ApproxSet.Proofs.Checked.Columns
import ApproxSet.Proofs.Ribbon.Basic

/-!
# Ribbon filters, every step checked

A row ends at the last slot of its shard or before. So a row that begins inside a block never begins
in the last one, and the block it runs into has at least as many columns as its own.
-/
namespace ApproxSet
open Checked Reading LittleEndian

/-! ### Columns -/

def checkedValueBit (v : UInt32) (j : Nat) : Option Bool := do
  let x ← shiftRight32 v j
  return x &&& 1 == 1

theorem checkedValueBit_eq (v : UInt32) {j : Nat} (hj : j < 32) :
    checkedValueBit v j = some (valueBit v j) := by
  have hbit : (v >>> j.toUInt32 &&& 1 == 1) = v.toNat.testBit j := by
    have hj' : j.toUInt32.toNat = j := by
      rw [Nat.toUInt32_eq, UInt32.toNat_ofNat', Nat.mod_eq_of_lt (by omega)]
    rw [Bool.eq_iff_iff, beq_iff_eq, ← UInt32.toNat_inj, UInt32.toNat_and, UInt32.toNat_shiftRight,
      hj', Nat.mod_eq_of_lt hj, UInt32.toNat_one, Nat.and_one_is_mod, Nat.shiftRight_eq_div_pow,
      Nat.testBit_eq_decide_div_mod_eq, decide_eq_true_iff]
  rw [checkedValueBit, bind_eq (shiftRight32_eq v hj), hbit, Option.pure_def]
  rfl

namespace Columns

variable {c : Columns} {b : Nat}

/-- The 64 bits of column `j` from bit `k` of a block on, the words of the block starting at `first`
and those of the next one at `next`. -/
def checkedBits (words : Array UInt64) (first next k j : Nat) : Option UInt64 := do
  let w ← fetch words (← add first j)
  if k = 0 then return w
  let after ← fetch words (← add next j)
  let low ← shiftRight w k
  let high ← shiftLeft after (← sub 64 k)
  return low ||| high

/-- A slot inside a block needs a block after it. -/
theorem checkedBits_eq {words : Array UInt64} (hwords : words.size = c.words)
    (hlt : c.words < 2 ^ 60) {slot j : Nat} (hslot : slot + 64 ≤ 64 * c.blocks)
    (hj : j < c.width (slot / 64)) :
    checkedBits words (c.offset (slot / 64)) (c.offset (slot / 64) + c.width (slot / 64))
      (slot % 64) j = some (c.bitsAt words slot j) := by
  have hthis := offset_add_lt (by omega : slot / 64 < c.blocks) hj
  rw [checkedBits, bind_eq (add_eq (by omega)), bind_eq (fetch_eq (by omega) 0), bitsAt]
  by_cases hk : slot % 64 = 0
  · rw [if_pos hk, if_pos hk, Option.pure_def]
  · have hj' := Nat.lt_of_lt_of_le hj (width_le_width c (Nat.le_add_right (slot / 64) 1))
    have hnext := offset_add_lt (by omega : slot / 64 + 1 < c.blocks) hj'
    rw [offset_succ] at hnext
    rw [if_neg hk, if_neg hk, bind_eq (add_eq (by omega)), bind_eq (fetch_eq (by omega) 0),
      bind_eq (shiftRight_eq _ (by omega)), bind_eq (sub_eq (by omega)),
      bind_eq (shiftLeft_eq _ (by omega)), Option.pure_def]

def checkedSatisfies (c : Columns) (words : Array UInt64) (r : Row) : Option Bool := do
  let first ← c.checkedOffset (r.start / 64)
  let n ← c.checkedWidth (r.start / 64)
  let next ← add first n
  (List.range n).allM fun j => do
    let v ← checkedBits words first next (r.start % 64) j
    let bit ← checkedValueBit r.value j
    return parity (v &&& r.coeff) == bit

theorem words_lt (hc : c.Valid) (hlt : c.blocks < 256 ^ 4) : c.words < 2 ^ 60 := by
  have hwords := hc.words_add
  have hmost : c.blocks * c.upper ≤ 256 ^ 4 * 32 := Nat.mul_le_mul hlt.le hc.upper_le
  omega

theorem checkedSatisfies_eq (hc : c.Valid) (hlt : c.blocks < 256 ^ 4) {words : Array UInt64}
    (hwords : words.size = c.words) {r : Row} (hr : r.start + 64 ≤ 64 * c.blocks) :
    c.checkedSatisfies words r = some (c.satisfies words r) := by
  have hsize := words_lt hc hlt
  have hwidth (b : Nat) : c.width b ≤ 32 := (width_le_upper c b).trans hc.upper_le
  have hpos := hc.width_pos (r.start / 64)
  have hfirst := offset_add_lt (by omega : r.start / 64 < c.blocks) hpos
  have hle := hwidth (r.start / 64)
  rw [checkedSatisfies, bind_eq (checkedOffset_eq hc (by omega)), bind_eq (checkedWidth_eq hc _),
    bind_eq (add_eq (by omega)), satisfies]
  apply allM_eq
  intro j hj
  have hj := List.mem_range.mp hj
  rw [bind_eq (checkedBits_eq hwords hsize hr hj), bind_eq (checkedValueBit_eq _ (by omega)),
    Option.pure_def]

end Columns

/-! ### Shards -/

namespace Ribbon

def checkedShardOf (base : UInt64) (shardBits : Nat) : Option Nat :=
  if shardBits = 0 then some 0
  else do
    let s ← shiftRight base (← sub 64 shardBits)
    return s.toNat

theorem checkedShardOf_eq (base : UInt64) {shardBits : Nat} (h : shardBits ≤ 64) :
    checkedShardOf base shardBits = some (shardOf base shardBits) := by
  rw [checkedShardOf, shardOf, Nat.shiftRight_eq_div_pow]
  by_cases hz : shardBits = 0
  · rw [if_pos hz, hz, Nat.div_eq_of_lt base.toNat_lt]
  · rw [if_neg hz, bind_eq (sub_eq h), bind_eq (shiftRight_eq _ (by omega)),
      toNat_shiftRight _ (by omega), Option.pure_def]

def checkedRowOf (base : UInt64) (shardSeed slots : Nat) : Option Row := do
  let h := mix base ((← add shardSeed 1).toUInt64 * golden)
  let start ← checkedScale64 h (← sub slots 63)
  return { start := start, coeff := mix h 0xC2B2AE3D27D4EB4F ||| 1, value := h.toUInt32 }

theorem checkedRowOf_eq (base : UInt64) {shardSeed slots : Nat} (hseed : shardSeed < 256)
    (h₁ : 64 ≤ slots) (h₂ : slots < 2 ^ 64) :
    checkedRowOf base shardSeed slots = some (rowOf base shardSeed slots) := by
  rw [checkedRowOf, bind_eq (add_eq (by omega)), bind_eq (sub_eq (by omega)),
    bind_eq (checkedScale64_eq _ (by omega)), rowOf, Option.pure_def]

/-- Slots of each shard. -/
def checkedSlots (c : Columns) (shardBits : Nat) : Option Nat := do
  let blocks ← div c.blocks (← power 64 shardBits)
  mul blocks 64

theorem checkedSlots_eq {c : Columns} (hc : c.blocks < 256 ^ 4) {shardBits : Nat}
    (h : shardBits < 64) :
    checkedSlots c shardBits = some (c.blocks / (1 <<< shardBits) * 64) := by
  have hpos : 0 < 1 <<< shardBits := Nat.shiftLeft_pos_iff.mpr Nat.one_pos
  have hle := Nat.div_le_self c.blocks (1 <<< shardBits)
  rw [checkedSlots, bind_eq (power_eq h), bind_eq (div_eq hpos), mul_eq (by omega)]

def checkedMayContain (f : Ribbon) (hash : UInt64) : Option Bool := do
  let base := mix hash f.seed
  let slots ← checkedSlots f.columns f.shardBits
  let s ← checkedShardOf base f.shardBits
  let seed ← fetch f.shardSeeds s
  let r ← checkedRowOf base seed.toNat slots
  let start ← add (← mul s slots) r.start
  f.columns.checkedSatisfies f.words { r with start := start }

theorem checkedMayContain_eq {f : Ribbon} (hf : f.Stored) (q : UInt64) :
    f.checkedMayContain q = some (f.mayContain q) := by
  have hlt := hf.lt
  have hbits := hf.shardBits_le
  obtain ⟨hslots, -, htotal⟩ := hf.slots_spec
  obtain ⟨-, -, hend⟩ := hf.placedRow_bounds q rfl
  have hs := shardOf_lt (mix q f.seed) (by omega : f.shardBits ≤ 64)
  have hchecked : checkedSlots f.columns f.shardBits = some f.slots :=
    checkedSlots_eq hlt (by omega)
  have hseed := (f.shardSeeds.getD (shardOf (mix q f.seed) f.shardBits) 0).toNat_lt
  have hle : f.slots ≤ (1 <<< f.shardBits) * f.slots :=
    Nat.le_mul_of_pos_left _ (Nat.shiftLeft_pos_iff.mpr Nat.one_pos)
  rw [placedRow] at hend
  dsimp only at hend
  rw [checkedMayContain, bind_eq hchecked, bind_eq (checkedShardOf_eq _ (by omega)),
    bind_eq (fetch_eq (by rwa [hf.size_shardSeeds]) 0),
    bind_eq (checkedRowOf_eq _ hseed hslots (by omega)), bind_eq (mul_eq (by omega)),
    bind_eq (add_eq (by omega)), mayContain]
  exact Columns.checkedSatisfies_eq hf.columns hlt hf.size_words hend

def checkedDecode (body : List UInt8) : Reading Ribbon := do
  let (head, c) ← outcome ((Cursor.ofBytes body).header headerSize)
  let shardBits := fieldAt 8 1 head
  if shardBits > 32 then
    throw (.invalidField "ribbon log2_vshards")
  let columns := columnsOf head
  if !columns.isValid then
    throw (.invalidField "ribbon columns")
  let shards ← compute (power 64 shardBits)
  let rest ← compute (mod columns.blocks shards)
  if rest ≠ 0 then
    throw (.invalidField "ribbon num_blocks")
  let _ ← compute (checkedSlots columns shardBits)
  let (seeds, c) ← outcome (c.bulk shards)
  let words ← compute (columns.checkedOffset columns.blocks)
  let (data, c) ← outcome (c.bulk (8 * words))
  outcome c.finish
  return {
    seed := (fieldAt 0 8 head).toUInt64
    shardBits := shardBits
    columns := columns
    shardSeeds := seeds.toArray
    words := unpack 8 Nat.toUInt64 words data }

theorem checkedDecode_eq (body : List UInt8) : checkedDecode body = outcome (decode body) := by
  apply outcome_bind
  rintro ⟨head, c⟩ _
  have hblocks : (columnsOf head).blocks < 256 ^ 4 := fieldAt_lt ..
  refine throw_if fun hbits => throw_if fun hvalid => ?_
  rw [Bool.not_eq_true', Bool.not_eq_false, Columns.isValid_iff] at hvalid
  have hpos : 0 < 1 <<< fieldAt 8 1 head := Nat.shiftLeft_pos_iff.mpr Nat.one_pos
  rw [compute_bind (power_eq (by omega)), compute_bind (mod_eq hpos)]
  apply throw_if
  intro _
  rw [compute_bind (checkedSlots_eq hblocks (by omega))]
  apply outcome_bind
  rintro ⟨seeds, c⟩ _
  dsimp only
  have hwords := (Columns.words_lt hvalid hblocks).trans (by decide : 2 ^ 60 < 2 ^ 64)
  rw [compute_bind (Columns.checkedOffset_eq hvalid hwords)]
  apply outcome_bind
  rintro ⟨data, c⟩ _
  exact outcome_bind fun _ _ => rfl

end Ribbon

end ApproxSet
