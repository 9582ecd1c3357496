import ApproxSet.Bits.Field
import ApproxSet.Word.Digits
import Mathlib.Algebra.Group.Nat.Defs

/-!
# Words bit by bit

What `bitAt` sees of the word operations. Shift amounts are natural numbers below 64, as all the
shifts of the library are; two words with the same 64 bits are equal (`eq_of_bitAt`).
-/
namespace ApproxSet

theorem bitAt_eq_testBit (w : UInt64) (i : Nat) : bitAt w i = w.toNat.testBit i := rfl

theorem bitAt_of_ge (w : UInt64) {i : Nat} (h : 64 ≤ i) : bitAt w i = false :=
  BitVec.getLsbD_of_ge _ _ h

theorem eq_of_bitAt {v w : UInt64} (h : ∀ i, i < 64 → bitAt v i = bitAt w i) : v = w :=
  UInt64.toBitVec_inj.mp (BitVec.eq_of_getLsbD_eq h)

@[simp] theorem bitAt_zero (i : Nat) : bitAt 0 i = false := by
  simp [bitAt]

@[simp] theorem bitAt_xor (v w : UInt64) (i : Nat) :
    bitAt (v ^^^ w) i = (bitAt v i ^^ bitAt w i) := by
  simp [bitAt]

@[simp] theorem bitAt_and (v w : UInt64) (i : Nat) :
    bitAt (v &&& w) i = (bitAt v i && bitAt w i) := by
  simp [bitAt]

@[simp] theorem bitAt_or (v w : UInt64) (i : Nat) :
    bitAt (v ||| w) i = (bitAt v i || bitAt w i) := by
  simp [bitAt]

theorem bitAt_not (w : UInt64) {i : Nat} (h : i < 64) : bitAt (~~~w) i = !bitAt w i := by
  simp [bitAt, h]

/-- A shift amount below 64 is not changed by the machine's reduction modulo 64. -/
theorem toNat_shiftAmount {k : Nat} (hk : k < 64) : (k.toUInt64.toBitVec % 64).toNat = k := by
  have h64 : (64 : BitVec 64).toNat = 64 := rfl
  rw [Nat.toUInt64_eq, UInt64.toBitVec_ofNat', BitVec.toNat_umod, BitVec.toNat_ofNat, h64]
  omega

theorem bitAt_shiftRight (w : UInt64) {k : Nat} (hk : k < 64) (i : Nat) :
    bitAt (w >>> k.toUInt64) i = bitAt w (k + i) := by
  simp only [bitAt, UInt64.toBitVec_shiftRight, BitVec.ushiftRight_eq', toNat_shiftAmount hk,
    BitVec.getLsbD_ushiftRight]

theorem bitAt_shiftLeft (w : UInt64) {k : Nat} (hk : k < 64) (i : Nat) :
    bitAt (w <<< k.toUInt64) i = (decide (i < 64) && (decide (k ≤ i) && bitAt w (i - k))) := by
  simp only [bitAt, UInt64.toBitVec_shiftLeft, BitVec.shiftLeft_eq', toNat_shiftAmount hk,
    BitVec.getLsbD_shiftLeft]
  by_cases h : i < k
  · simp [h, Nat.not_le.mpr h]
  · simp [h, Nat.le_of_not_lt h]

theorem toNat_toUInt64 {k : Nat} (hk : k < 2 ^ 64) : k.toUInt64.toNat = k := by
  rw [Nat.toUInt64_eq, UInt64.toNat_ofNat', Nat.mod_eq_of_lt hk]

theorem toUInt64_eq_iff {j k : Nat} : j.toUInt64 = k.toUInt64 ↔ j % 2 ^ 64 = k % 2 ^ 64 := by
  rw [← UInt64.toNat_inj, Nat.toUInt64_eq, Nat.toUInt64_eq, UInt64.toNat_ofNat',
    UInt64.toNat_ofNat']

theorem toNat_shiftRight (w : UInt64) {k : Nat} (hk : k < 64) :
    (w >>> k.toUInt64).toNat = w.toNat / 2 ^ k := by
  rw [UInt64.toNat_shiftRight, toNat_toUInt64 (by omega), Nat.mod_eq_of_lt hk,
    Nat.shiftRight_eq_div_pow]

theorem toUInt64_add (j k : Nat) : j.toUInt64 + k.toUInt64 = (j + k).toUInt64 :=
  (UInt64.ofNat_add j k).symm

theorem toUInt64_mul (j k : Nat) : j.toUInt64 * k.toUInt64 = (j * k).toUInt64 :=
  (UInt64.ofNat_mul j k).symm

theorem bitAt_toUInt64 {n : Nat} (h : n < 2 ^ 64) (i : Nat) : bitAt n.toUInt64 i = n.testBit i := by
  rw [bitAt_eq_testBit, toNat_toUInt64 h]

/-- A difference of shift amounts. -/
theorem toUInt64_sub {j k : Nat} (h : k ≤ j) (hj : j < 2 ^ 64) :
    j.toUInt64 - k.toUInt64 = (j - k).toUInt64 := by
  have hle : k.toUInt64 ≤ j.toUInt64 := by
    rw [UInt64.le_iff_toNat_le, toNat_toUInt64 hj, toNat_toUInt64 (by omega)]
    exact h
  apply UInt64.toNat_inj.mp
  rw [UInt64.toNat_sub_of_le _ _ hle, toNat_toUInt64 hj, toNat_toUInt64 (by omega),
    toNat_toUInt64 (by omega)]

theorem toNat_one_shiftLeft {k : Nat} (hk : k < 64) :
    ((1 : UInt64) <<< k.toUInt64).toNat = 2 ^ k := by
  rw [UInt64.toNat_shiftLeft, toNat_toUInt64 (by omega), Nat.mod_eq_of_lt hk, UInt64.toNat_one,
    Nat.one_shiftLeft]
  exact Nat.mod_eq_of_lt (Nat.pow_lt_pow_right (by decide) hk)

theorem bitAt_one_shiftLeft {k : Nat} (hk : k < 64) (i : Nat) :
    bitAt ((1 : UInt64) <<< k.toUInt64) i = decide (k = i) := by
  rw [bitAt_eq_testBit, toNat_one_shiftLeft hk, Nat.testBit_two_pow]

theorem toNat_ones {k : Nat} (hk : k < 64) :
    ((1 : UInt64) <<< k.toUInt64 - 1).toNat = 2 ^ k - 1 := by
  have h := toNat_one_shiftLeft hk
  have hp := Nat.two_pow_pos k
  rw [UInt64.toNat_sub_of_le _ _ (by rw [UInt64.le_iff_toNat_le, h]; exact hp), h]
  rfl

theorem bitAt_of_toNat_eq {mask : UInt64} {k : Nat} (h : mask.toNat = 2 ^ k - 1) (i : Nat) :
    bitAt mask i = decide (i < k) := by
  rw [bitAt_eq_testBit, h, Nat.testBit_two_pow_sub_one]

theorem bitAt_ones {k : Nat} (hk : k < 64) (i : Nat) :
    bitAt ((1 : UInt64) <<< k.toUInt64 - 1) i = decide (i < k) :=
  bitAt_of_toNat_eq (toNat_ones hk) i

theorem bitAt_lowMask {k : Nat} (hk : k ≤ 64) (i : Nat) :
    bitAt (BitField.lowMask k) i = decide (i < k) := by
  unfold BitField.lowMask
  split
  · rename_i h
    exact bitAt_ones h i
  · have hk' : k = 64 := by omega
    subst hk'
    by_cases h : i < 64
    · rw [bitAt_not _ h, bitAt_zero]
      simp [h]
    · rw [bitAt_of_ge _ (Nat.le_of_not_lt h)]
      simp [h]

theorem bitAt_ite_shiftLeft (b : Bool) {k : Nat} (hk : k < 64) (i : Nat) :
    bitAt (if b then 1 <<< k.toUInt64 else 0) i = (b && decide (k = i)) := by
  cases b
  · simp
  · simpa using bitAt_one_shiftLeft hk i

theorem bitAt_wordOf (p : Nat → Bool) {n : Nat} (hn : n ≤ 64) (i : Nat) :
    bitAt (wordOf p n) i = (decide (i < n) && p i) := by
  induction n with
  | zero => simp [wordOf]
  | succ n ih =>
    rw [wordOf, bitAt_or, ih (by omega), bitAt_ite_shiftLeft _ (by omega)]
    by_cases h : n = i
    · subst h
      simp
    · have hlt : i < n + 1 ↔ i < n := by omega
      simp [h, hlt]

/-- A word with the low `n` bits of another and no more is that word modulo `2 ^ n`. -/
theorem toNat_eq_mod_of_bitAt {v w : UInt64} {n : Nat}
    (h : ∀ i, bitAt v i = (decide (i < n) && bitAt w i)) : v.toNat = w.toNat % 2 ^ n := by
  apply Nat.eq_of_testBit_eq
  intro i
  rw [Nat.testBit_mod_two_pow]
  exact h i

/-- Different fields of equal width do not overlap. -/
theorem fields_apart {w a b : Nat} (h : a ≠ b) : w * a + w ≤ w * b ∨ w * b + w ≤ w * a := by
  rcases Nat.lt_or_gt_of_ne h with hlt | hlt
  · have hle := Nat.mul_le_mul_left w (Nat.succ_le_of_lt hlt)
    rw [Nat.mul_succ] at hle
    exact Or.inl hle
  · have hle := Nat.mul_le_mul_left w (Nat.succ_le_of_lt hlt)
    rw [Nat.mul_succ] at hle
    exact Or.inr hle

/-- A xor with an offset below a power of two stays in the aligned block of that length. -/
theorem xor_div_of_lt {m e : Nat} (h : m < 2 ^ e) (n : Nat) : (n ^^^ m) / 2 ^ e = n / 2 ^ e := by
  rw [Nat.xor_div_two_pow, Nat.div_eq_of_lt h, Nat.xor_zero]

theorem xor_lt_of_dvd {i m e n : Nat} (h : m < 2 ^ e) (hd : 2 ^ e ∣ n) (hi : i < n) :
    i ^^^ m < n := by
  rcases hd with ⟨k, rfl⟩
  have hk : i / 2 ^ e < k := Nat.div_lt_of_lt_mul hi
  rw [← xor_div_of_lt h i, Nat.div_lt_iff_lt_mul (Nat.two_pow_pos e)] at hk
  rwa [Nat.mul_comm]

end ApproxSet
