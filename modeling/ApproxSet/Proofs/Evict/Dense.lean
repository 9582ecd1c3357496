import ApproxSet.Evict.Dense
import ApproxSet.Proofs.Bits.Field
import ApproxSet.Proofs.Evict.Table
import Mathlib.Data.List.Find
import Mathlib.Tactic.Ring

/-!
# Bit-dense buckets act as slots

Slot `k` of bucket `i` is the field number `4 i + k`, so a write to one slot changes no other. The
window on a bucket shows all of its four slots for widths up to sixteen.
-/
namespace ApproxSet.Dense

/-- A table of `n` buckets of four fields of `width` bits. -/
structure Good (width n : Nat) (t : Dense) : Prop where
  width_eq : t.width = width
  size_eq : t.bytes.size = (4 * width * n + 7) / 8

variable {width n : Nat} {t : Dense}

theorem position_eq (t : Dense) (i k : Nat) : t.position i k = t.width * (4 * i + k) := by
  rw [position]
  ring

theorem bitAt_mask (t : Dense) (hw : t.width < 64) (j : Nat) :
    bitAt t.mask j = decide (j < t.width) :=
  bitAt_ones hw j

theorem position_in_window (t : Dense) (hw : t.width ≤ 16) (i k : Nat) :
    t.position i k % 8 + t.width ≤ 64 := by
  have hmod := Nat.mod_lt (t.position i k) (by decide : 8 > 0)
  omega

theorem bitAt_get (t : Dense) (hw : t.width ≤ 16) (i k j : Nat) :
    bitAt (t.get i k) j =
      (decide (j < t.width) && BitField.bitOf t.bytes (t.width * (4 * i + k) + j)) := by
  rw [get, BitField.bitAt_get _ _ (bitAt_mask t (by omega)) (position_in_window t hw i k),
    position_eq]

theorem get_lt (t : Dense) (hw : t.width ≤ 16) (i k : Nat) : (t.get i k).toNat < 2 ^ t.width := by
  apply Nat.lt_pow_two_of_testBit
  intro j hj
  have hlt : ¬ j < t.width := by omega
  rw [← bitAt_eq_testBit, bitAt_get t hw]
  simp [hlt]

/-- The window on a bucket ends behind its last slot. -/
theorem bucket_in_window {w : Nat} (hw : w ≤ 16) (i : Nat) : 4 * w * i % 8 + 4 * w ≤ 64 := by
  by_cases h : w = 16
  · subst h
    omega
  · have hmod : 4 * w * i % 8 ≤ 4 := by
      rw [Nat.mul_assoc]
      omega
    omega

theorem slotOf_bucket (t : Dense) (hw : t.width ≤ 16) (i : Nat) {k : Nat} (hk : k < 4) :
    t.slotOf (t.bucket i) k = t.get i k := by
  have hwindow := bucket_in_window hw i
  have hplace : t.width * k ≤ t.width * 3 := Nat.mul_le_mul_left _ (by omega)
  apply eq_of_bitAt
  intro j _
  rw [slotOf, bitAt_and, bitAt_shiftRight _ (by omega), bucket, BitField.bitAt_bitsFrom,
    bitAt_mask t (by omega), bitAt_get t hw]
  by_cases hj : j < t.width
  · have hin : 4 * t.width * i % 8 + (t.width * k + j) < 64 := by omega
    have hpos : 4 * t.width * i + (t.width * k + j) = t.width * (4 * i + k) + j := by ring
    simp [hj, hin, hpos]
  · simp [hj]

/-- A bucket holds a number when one of its slots does. -/
theorem contains_iff (t : Dense) (hw : t.width ≤ 16) (i : Nat) (fp : UInt64) :
    t.contains i fp = true ↔ ∃ k, k < 4 ∧ t.get i k = fp := by
  simp only [contains, List.any_eq_true, List.mem_range, beq_iff_eq]
  refine exists_congr fun k => and_congr_right fun hk => ?_
  rw [slotOf_bucket t hw i hk]

theorem free?_eq (t : Dense) (hw : t.width ≤ 16) (i : Nat) :
    t.free? i = (List.range 4).find? fun k => t.get i k == 0 := by
  refine List.find?_congr fun k hk => ?_
  rw [slotOf_bucket t hw i (List.mem_range.mp hk)]

theorem put_eq (t : Dense) (i k : Nat) (fp : UInt64) :
    t.put i k fp = ⟨t.width, BitField.set t.bytes (t.position i k) t.mask fp⟩ := by
  cases t
  rw [put]

theorem width_put (t : Dense) (i k : Nat) (fp : UInt64) : (t.put i k fp).width = t.width := by
  rw [put_eq]

theorem size_put (t : Dense) (i k : Nat) (fp : UInt64) :
    (t.put i k fp).bytes.size = t.bytes.size := by
  rw [put_eq, BitField.size_set]

/-- A write changes its slot and no other. -/
theorem get_put (hw : width ≤ 16) (hg : t.Good width n) {i k : Nat} (hi : i < n) (hk : k < 4)
    {fp : UInt64} (hfp : fp.toNat < 2 ^ width) (j : Nat) {l : Nat} (hl : l < 4) :
    (t.put i k fp).get j l = if j = i ∧ l = k then fp else t.get j l := by
  rcases hg with ⟨rfl, hsize⟩
  have hmask := bitAt_mask t (by omega)
  have hread : (t.put i k fp).get j l =
      BitField.get (BitField.set t.bytes (t.position i k) t.mask fp) (t.position j l) t.mask := by
    simp only [get, put_eq, position, mask]
  rw [hread]
  by_cases hsame : j = i ∧ l = k
  · rcases hsame with ⟨rfl, rfl⟩
    have hend : t.width * (4 * j + l) + t.width ≤ 4 * t.width * n := by
      have hle : t.width * (4 * j + l + 1) ≤ t.width * (4 * n) :=
        Nat.mul_le_mul_left _ (by omega)
      have hmul : t.width * (4 * n) = 4 * t.width * n := by ring
      rwa [Nat.mul_add, Nat.mul_one, hmul] at hle
    rw [if_pos ⟨rfl, rfl⟩]
    apply BitField.get_set_self hmask (position_in_window t hw j l) _ hfp
    rw [position_eq]
    omega
  · have hslots : 4 * j + l ≠ 4 * i + k := by omega
    have hapart := fields_apart (w := t.width) hslots
    rw [if_neg hsame]
    apply BitField.get_set_of_disjoint _ hmask (position_in_window t hw i k) hmask
      (position_in_window t hw j l)
    rwa [position_eq, position_eq]

theorem bucketTable_get : @BucketTable.get Dense _ = get := rfl

theorem bucketTable_put : @BucketTable.put Dense _ = put := rfl

theorem actsAs (hw : width ≤ 16) (n : Nat) : ActsAs Dense width n (Good width n) := by
  constructor
  · intro t i k hg _ _
    rcases hg with ⟨rfl, -⟩
    exact get_lt t hw i k
  · intro t i hg _
    rcases hg with ⟨rfl, -⟩
    exact free?_eq t hw i
  · intro t i k fp hg _ _ _
    rw [bucketTable_put]
    exact ⟨(width_put t i k fp).trans hg.width_eq, (size_put t i k fp).trans hg.size_eq⟩
  · intro t i k fp hg hi hk hfp j l _ hl
    rw [bucketTable_get, bucketTable_put]
    exact get_put hw hg hi hk hfp j hl

theorem byteSize_eq_mod (width n : Nat) :
    byteSize width n = (4 * width * n % 2 ^ 64 + 7) / 8 :=
  rfl

theorem byteSize_eq (hlt : 4 * width * n < 2 ^ 64) :
    byteSize width n = (4 * width * n + 7) / 8 := by
  rw [byteSize_eq_mod, Nat.mod_eq_of_lt hlt]

/-- Where a bucket is of whole bytes, the size is exact just when the bits fit a word. -/
theorem byteSize_eq_iff (hdvd : 8 ∣ 4 * width * n) :
    byteSize width n = 4 * width * n / 8 ↔ 4 * width * n < 2 ^ 64 := by
  rw [byteSize_eq_mod]
  omega

theorem byteSize_eq_zero_iff (hdvd : 8 ∣ 4 * width * n) :
    byteSize width n = 0 ↔ 2 ^ 64 ∣ 4 * width * n := by
  rw [byteSize_eq_mod]
  omega

theorem good_empty (hlt : 4 * width * n < 2 ^ 64) : (empty width n).Good width n := by
  refine ⟨rfl, ?_⟩
  rw [empty, Array.size_replicate, byteSize_eq hlt]

theorem get_empty (hw : width ≤ 16) (n i k : Nat) : (empty width n).get i k = 0 := by
  apply eq_of_bitAt
  intro j _
  rw [bitAt_get _ hw, empty, BitField.bitOf_replicate_zero, Bool.and_false, bitAt_zero]

/-- Without bytes every slot is empty, whatever was written. -/
theorem get_of_size_eq_zero (t : Dense) (hw : t.width ≤ 16) (h : t.bytes.size = 0) (i k : Nat) :
    t.get i k = 0 := by
  apply eq_of_bitAt
  intro j _
  rw [bitAt_get t hw, BitField.bitOf_of_ge (by omega), Bool.and_false, bitAt_zero]

end ApproxSet.Dense
