import ApproxSet.Evict.Vacuum
import ApproxSet.Proofs.Evict.Table
import Mathlib.Data.List.Find

/-!
# Loose buckets act as slots
-/
namespace ApproxSet.Loose

/-- A table of `n` buckets with numbers below `2 ^ width`. -/
structure Good (width n : Nat) (t : Loose) : Prop where
  size_eq : t.slots.size = 4 * n
  slot_lt : ∀ i k, (t.slot i k).toNat < 2 ^ width

variable {width n : Nat} {t : Loose}

theorem slot_put (t : Loose) (i k : Nat) (fp : UInt64) (j l : Nat) :
    (t.put i k fp).slot j l =
      if 4 * j + l = 4 * i + k ∧ 4 * i + k < t.slots.size then fp.toUInt32 else t.slot j l := by
  cases t
  simp only [put, slot, Array.getD_eq_getD_getElem?, Array.getElem?_setIfInBounds]
  split
  · rename_i h
    split <;> simp_all
  · rename_i h
    simp [Ne.symm h]

theorem size_put (t : Loose) (i k : Nat) (fp : UInt64) :
    (t.put i k fp).slots.size = t.slots.size := by
  cases t
  rw [put, Array.size_setIfInBounds]

theorem toNat_toUInt32 (hw : width ≤ 32) {fp : UInt64} (hfp : fp.toNat < 2 ^ width) :
    fp.toUInt32.toNat = fp.toNat := by
  have hle : 2 ^ width ≤ 2 ^ 32 := Nat.pow_le_pow_right (by decide) hw
  rw [UInt64.toNat_toUInt32, Nat.mod_eq_of_lt (Nat.lt_of_lt_of_le hfp hle)]

theorem toUInt64_toUInt32 (hw : width ≤ 32) {fp : UInt64} (hfp : fp.toNat < 2 ^ width) :
    fp.toUInt32.toUInt64 = fp := by
  apply UInt64.toNat_inj.mp
  rw [UInt32.toNat_toUInt64, toNat_toUInt32 hw hfp]

theorem bucketTable_get : @BucketTable.get Loose _ = get := rfl

theorem bucketTable_put : @BucketTable.put Loose _ = put := rfl

theorem free?_eq (t : Loose) (i : Nat) :
    t.free? i = (List.range 4).find? fun k => t.get i k == 0 := by
  refine List.find?_congr fun k _ => ?_
  have hz : t.slot i k = 0 ↔ (t.slot i k).toUInt64 = 0 := by
    rw [← UInt32.toNat_inj, ← UInt64.toNat_inj, UInt32.toNat_toUInt64]
    rfl
  rw [get, Bool.eq_iff_iff, beq_iff_eq, beq_iff_eq, hz]

theorem actsAs (hw : width ≤ 32) (n : Nat) : ActsAs Loose width n (Good width n) := by
  constructor
  · intro t i k hg _ _
    exact hg.slot_lt i k
  · intro t i _ _
    exact free?_eq t i
  · intro t i k fp hg _ _ hfp
    rw [bucketTable_put]
    refine ⟨(size_put t i k fp).trans hg.size_eq, fun j l => ?_⟩
    rw [slot_put]
    split
    · rwa [toNat_toUInt32 hw hfp]
    · exact hg.slot_lt j l
  · intro t i k fp hg hi hk hfp j l _ hl
    have hsame : (4 * j + l = 4 * i + k ∧ 4 * i + k < t.slots.size) ↔ j = i ∧ l = k := by
      rw [hg.size_eq]
      omega
    rw [bucketTable_get, bucketTable_put, get, slot_put]
    simp only [hsame]
    split
    · exact toUInt64_toUInt32 hw hfp
    · rfl

theorem slot_empty (n i k : Nat) : (empty n).slot i k = 0 := by
  by_cases h : 4 * i + k < 4 * n <;> simp [slot, empty, h]

theorem good_empty (width n : Nat) : (empty n).Good width n := by
  refine ⟨Array.size_replicate, fun i k => ?_⟩
  rw [slot_empty]
  exact Nat.two_pow_pos width

theorem get_empty (n i k : Nat) : (empty n).get i k = 0 := by
  rw [get, slot_empty]
  rfl

end ApproxSet.Loose
