import ApproxSet.Proofs.Word.Bits
import ApproxSet.Word.Digits
import Mathlib.Algebra.Group.Nat.Defs

/-!
# Parity and rounding up

`xorUpTo p n` is the sum of `p 0, …, p (n - 1)` modulo two. Folding a word onto itself keeps the sum
over its bits, so `parity` is the sum over all 64. Then bounds for the sizes that are rounded up to
a power of two or to a multiple.
-/
namespace ApproxSet

def xorUpTo (p : Nat → Bool) : Nat → Bool
  | 0 => false
  | n + 1 => xorUpTo p n ^^ p n

theorem xorUpTo_congr {p q : Nat → Bool} {n : Nat} (h : ∀ i, i < n → p i = q i) :
    xorUpTo p n = xorUpTo q n := by
  induction n with
  | zero => rfl
  | succ n ih => rw [xorUpTo, xorUpTo, ih fun i hi => h i (by omega), h n (by omega)]

theorem xorUpTo_xor (p q : Nat → Bool) (n : Nat) :
    xorUpTo (fun i => p i ^^ q i) n = (xorUpTo p n ^^ xorUpTo q n) := by
  induction n with
  | zero => rfl
  | succ n ih =>
    rw [xorUpTo, xorUpTo, xorUpTo, ih]
    cases xorUpTo p n <;> cases xorUpTo q n <;> cases p n <;> cases q n <;> rfl

theorem xorUpTo_add (p : Nat → Bool) (m n : Nat) :
    xorUpTo p (m + n) = (xorUpTo p m ^^ xorUpTo (fun i => p (m + i)) n) := by
  induction n with
  | zero => simp [xorUpTo]
  | succ n ih => rw [← Nat.add_assoc, xorUpTo, ih, xorUpTo, Bool.xor_assoc]

theorem xorUpTo_false {p : Nat → Bool} {n : Nat} (h : ∀ i, i < n → p i = false) :
    xorUpTo p n = false := by
  induction n with
  | zero => rfl
  | succ n ih => rw [xorUpTo, ih fun i hi => h i (by omega), h n (by omega), Bool.xor_false]

/-- The first summand taken off the front. -/
theorem xorUpTo_succ_left (p : Nat → Bool) (n : Nat) :
    xorUpTo p (n + 1) = (p 0 ^^ xorUpTo (fun i => p (i + 1)) n) := by
  have hsum : xorUpTo (fun i => p (1 + i)) n = xorUpTo (fun i => p (i + 1)) n :=
    xorUpTo_congr fun i _ => by rw [Nat.add_comm]
  have hone : xorUpTo p 1 = p 0 := Bool.false_xor _
  rw [Nat.add_comm n 1, xorUpTo_add, hone, hsum]

/-- One folding step halves the number of bits. -/
theorem xorUpTo_fold (w : UInt64) {k : Nat} (hk : k < 64) :
    xorUpTo (bitAt (w ^^^ (w >>> k.toUInt64))) k = xorUpTo (bitAt w) (k + k) := by
  have hbits : xorUpTo (bitAt (w ^^^ (w >>> k.toUInt64))) k =
      xorUpTo (fun i => bitAt w i ^^ bitAt w (k + i)) k :=
    xorUpTo_congr fun i _ => by rw [bitAt_xor, bitAt_shiftRight _ hk]
  rw [hbits, xorUpTo_xor, xorUpTo_add]

theorem and_one_eq_one (w : UInt64) : (w &&& 1 == 1) = bitAt w 0 := by
  have hone (i : Nat) : bitAt 1 i = decide (i < 1) := bitAt_ones (k := 1) (by decide) i
  rw [Bool.eq_iff_iff, beq_iff_eq]
  constructor
  · intro h
    have hbit := congrArg (bitAt · 0) h
    simpa [hone] using hbit
  · intro h
    apply eq_of_bitAt
    intro i _
    rw [bitAt_and, hone]
    by_cases hi : i < 1
    · obtain rfl : i = 0 := by omega
      simp [h]
    · simp [hi]

theorem parity_eq_xorUpTo (w : UInt64) : parity w = xorUpTo (bitAt w) 64 := by
  have hone (v : UInt64) : bitAt v 0 = xorUpTo (bitAt v) 1 := (Bool.false_xor _).symm
  have h₁ (v : UInt64) : xorUpTo (bitAt (v ^^^ (v >>> 1))) 1 = xorUpTo (bitAt v) 2 :=
    xorUpTo_fold v (k := 1) (by decide)
  have h₂ (v : UInt64) : xorUpTo (bitAt (v ^^^ (v >>> 2))) 2 = xorUpTo (bitAt v) 4 :=
    xorUpTo_fold v (k := 2) (by decide)
  have h₄ (v : UInt64) : xorUpTo (bitAt (v ^^^ (v >>> 4))) 4 = xorUpTo (bitAt v) 8 :=
    xorUpTo_fold v (k := 4) (by decide)
  have h₈ (v : UInt64) : xorUpTo (bitAt (v ^^^ (v >>> 8))) 8 = xorUpTo (bitAt v) 16 :=
    xorUpTo_fold v (k := 8) (by decide)
  have h₁₆ (v : UInt64) : xorUpTo (bitAt (v ^^^ (v >>> 16))) 16 = xorUpTo (bitAt v) 32 :=
    xorUpTo_fold v (k := 16) (by decide)
  have h₃₂ (v : UInt64) : xorUpTo (bitAt (v ^^^ (v >>> 32))) 32 = xorUpTo (bitAt v) 64 :=
    xorUpTo_fold v (k := 32) (by decide)
  simp only [parity]
  rw [and_one_eq_one, hone, h₁, h₂, h₄, h₈, h₁₆, h₃₂]

/-! ### Rounding up -/

theorem ceilLog2_le {n k : Nat} (h : n ≤ 2 ^ k) : ceilLog2 n ≤ k := by
  unfold ceilLog2
  split
  · exact Nat.zero_le k
  · have hlt : (n - 1).log2 < k := (Nat.log2_lt (by omega)).mpr (by omega)
    exact hlt

theorem le_two_pow_ceilLog2 (n : Nat) : n ≤ 2 ^ ceilLog2 n := by
  unfold ceilLog2
  split
  · omega
  · have hlt := Nat.lt_log2_self (n := n - 1)
    omega

/-- A number of at most `k` binary digits is not rounded. -/
theorem significant_of_lt {k n : Nat} (h : n < 2 ^ k) : significant k n = n := by
  rw [significant, Nat.one_shiftLeft, if_pos h]

theorem dvd_roundUpTo (m n : Nat) : m ∣ roundUpTo m n := Nat.dvd_mul_left ..

theorem le_roundUpTo {m : Nat} (hm : 0 < m) (n : Nat) : n ≤ roundUpTo m n := by
  have hdiv := Nat.div_add_mod (n + m - 1) m
  have hlt := Nat.mod_lt (n + m - 1) hm
  rw [roundUpTo, Nat.mul_comm]
  omega

theorem roundUpTo_lt {m : Nat} (hm : 0 < m) (n : Nat) : roundUpTo m n < n + m := by
  have hle := Nat.div_mul_le_self (n + m - 1) m
  rw [roundUpTo]
  omega

end ApproxSet
