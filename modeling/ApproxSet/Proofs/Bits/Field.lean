import ApproxSet.Bits.Field
import ApproxSet.Proofs.Word.Bits

/-!
# Bit fields one bit at a time

`bitOf` is a bit of a byte array. A window shows the bits from a byte on (`bitAt_window`), and a
write changes the bits of its field and no others (`bitOf_set`). So a field reads as what was
written last to it (`get_set_self`), and a write to another one does not show
(`get_set_of_disjoint`).
-/
namespace ApproxSet.BitField

/-- Bit `p` of a byte array, false past its end. -/
def bitOf (b : Array UInt8) (p : Nat) : Bool := (b.getD (p / 8) 0).toNat.testBit (p % 8)

theorem bitOf_of_ge {b : Array UInt8} {p : Nat} (h : 8 * b.size ≤ p) : bitOf b p = false := by
  have hout : ¬ p / 8 < b.size := by omega
  simp [bitOf, hout]

theorem bitOf_replicate_zero (n p : Nat) : bitOf (Array.replicate n 0) p = false := by
  by_cases h : p / 8 < n <;> simp [bitOf, h]

theorem bitAt_byte (x : UInt8) (j : Nat) : bitAt x.toUInt64 j = x.toNat.testBit j := rfl

theorem testBit_of_byte (x : UInt8) {j : Nat} (h : 8 ≤ j) : x.toNat.testBit j = false :=
  Nat.testBit_lt_two_pow
    (Nat.lt_of_lt_of_le x.toNat_lt (Nat.pow_le_pow_right (by decide) h))

theorem bitAt_windowOf (b : Array UInt8) (i : Nat) {n : Nat} (hn : n ≤ 8) (j : Nat) :
    bitAt (windowOf b i n) j = (decide (j < 8 * n) && bitOf b (8 * i + j)) := by
  induction n generalizing i j with
  | zero => simp [windowOf]
  | succ n ih =>
    have hshift : bitAt (windowOf b (i + 1) n <<< 8) j = _ :=
      bitAt_shiftLeft _ (k := 8) (by decide) j
    rw [windowOf, bitAt_or, bitAt_byte, hshift, ih _ (by omega)]
    by_cases hj : j < 8
    · have hdiv : (8 * i + j) / 8 = i := by omega
      have hmod : (8 * i + j) % 8 = j := by omega
      have h₁ : j < 8 * (n + 1) := by omega
      have h₂ : ¬ 8 ≤ j := by omega
      simp [bitOf, hdiv, hmod, h₁, h₂]
    · have hge : 8 ≤ j := by omega
      have hback : 8 * (i + 1) + (j - 8) = 8 * i + j := by omega
      rw [testBit_of_byte _ hge, hback]
      by_cases hlt : j < 8 * (n + 1)
      · have h₁ : j < 64 := by omega
        have h₂ : j - 8 < 8 * n := by omega
        simp [hlt, h₁, h₂, hge]
      · have h₂ : ¬ j - 8 < 8 * n := by omega
        simp [hlt, h₂]

theorem bitAt_window (b : Array UInt8) (i j : Nat) :
    bitAt (window b i) j = (decide (j < 64) && bitOf b (8 * i + j)) :=
  bitAt_windowOf b i (Nat.le_refl 8) j

/-- Bits from a position on are shown up to the end of the window that starts at its byte. -/
theorem bitAt_bitsFrom (b : Array UInt8) (pos j : Nat) :
    bitAt (bitsFrom b pos) j = (decide (pos % 8 + j < 64) && bitOf b (pos + j)) := by
  have hpos : 8 * (pos / 8) + (pos % 8 + j) = pos + j := by omega
  rw [bitsFrom, bitAt_shiftRight _ (by omega), bitAt_window, hpos]

theorem bitAt_get (b : Array UInt8) (pos : Nat) {w : Nat} {mask : UInt64}
    (hmask : ∀ j, bitAt mask j = decide (j < w)) (hw : pos % 8 + w ≤ 64) (j : Nat) :
    bitAt (get b pos mask) j = (decide (j < w) && bitOf b (pos + j)) := by
  rw [get, bitAt_and, bitAt_bitsFrom, hmask]
  by_cases hj : j < w
  · have hlt : pos % 8 + j < 64 := by omega
    simp [hj, hlt]
  · simp [hj]

theorem bitOf_setIfInBounds (b : Array UInt8) (i : Nat) (x : UInt8) (p : Nat) :
    bitOf (b.setIfInBounds i x) p =
      if p / 8 = i ∧ i < b.size then x.toNat.testBit (p % 8) else bitOf b p := by
  simp only [bitOf, Array.getD_eq_getD_getElem?, Array.getElem?_setIfInBounds]
  by_cases hp : p / 8 = i
  · subst hp
    by_cases hs : p / 8 < b.size <;> simp [hs]
  · simp [hp, Ne.symm hp]

theorem testBit_toUInt8 (w : UInt64) (j : Nat) :
    w.toUInt8.toNat.testBit j = (decide (j < 8) && bitAt w j) := by
  rw [UInt64.toNat_toUInt8, Nat.testBit_mod_two_pow, bitAt_eq_testBit]

theorem bitOf_storeWindow (b : Array UInt8) (i : Nat) (w : UInt64) {n : Nat} (hn : n ≤ 8)
    (p : Nat) :
    bitOf (storeWindow b i w n) p =
      if 8 * i ≤ p ∧ p < 8 * (i + n) ∧ p < 8 * b.size then bitAt w (p - 8 * i) else bitOf b p := by
  induction n generalizing b i w with
  | zero =>
    have hno : ¬ (8 * i ≤ p ∧ p < 8 * (i + 0) ∧ p < 8 * b.size) := by omega
    rw [storeWindow, if_neg hno]
  | succ n ih =>
    have hshift : bitAt (w >>> 8) (p - 8 * (i + 1)) = bitAt w (8 + (p - 8 * (i + 1))) :=
      bitAt_shiftRight w (k := 8) (by decide) _
    rw [storeWindow, ih _ _ _ (by omega), Array.size_setIfInBounds, bitOf_setIfInBounds,
      testBit_toUInt8, hshift]
    by_cases hrest : 8 * (i + 1) ≤ p ∧ p < 8 * (i + 1 + n) ∧ p < 8 * b.size
    · have hall : 8 * i ≤ p ∧ p < 8 * (i + (n + 1)) ∧ p < 8 * b.size := by omega
      have hplace : 8 + (p - 8 * (i + 1)) = p - 8 * i := by omega
      rw [if_pos hrest, if_pos hall, hplace]
    · rw [if_neg hrest]
      by_cases hfirst : p / 8 = i ∧ i < b.size
      · have hall : 8 * i ≤ p ∧ p < 8 * (i + (n + 1)) ∧ p < 8 * b.size := by omega
        have hplace : p - 8 * i = p % 8 := by omega
        have hlt : p % 8 < 8 := Nat.mod_lt _ (by decide)
        rw [if_pos hfirst, if_pos hall, hplace]
        simp [hlt]
      · have hno : ¬ (8 * i ≤ p ∧ p < 8 * (i + (n + 1)) ∧ p < 8 * b.size) := by omega
        rw [if_neg hfirst, if_neg hno]

/-- A write puts the low bits of `v` into its field, as far as the array goes, and keeps every other
bit. -/
theorem bitOf_set (b : Array UInt8) (pos : Nat) {w : Nat} {mask : UInt64}
    (hmask : ∀ j, bitAt mask j = decide (j < w)) (hw : pos % 8 + w ≤ 64) (v : UInt64) (p : Nat) :
    bitOf (set b pos mask v) p =
      if pos ≤ p ∧ p < pos + w ∧ p < 8 * b.size then bitAt v (p - pos) else bitOf b p := by
  have hpos : pos % 8 < 64 := by omega
  rw [set, bitOf_storeWindow _ _ _ (Nat.le_refl 8)]
  by_cases hin : 8 * (pos / 8) ≤ p ∧ p < 8 * (pos / 8 + 8) ∧ p < 8 * b.size
  · have hj : p - 8 * (pos / 8) < 64 := by omega
    have hback : 8 * (pos / 8) + (p - 8 * (pos / 8)) = p := by omega
    rw [if_pos hin, bitAt_or, bitAt_and, bitAt_not _ hj, bitAt_shiftLeft _ hpos,
      bitAt_shiftLeft _ hpos, bitAt_and, hmask, bitAt_window, hback]
    by_cases hfield : pos ≤ p ∧ p < pos + w ∧ p < 8 * b.size
    · have h₁ : pos % 8 ≤ p - 8 * (pos / 8) := by omega
      have h₂ : p - 8 * (pos / 8) - pos % 8 = p - pos := by omega
      have h₃ : p - pos < w := by omega
      rw [if_pos hfield, h₂]
      simp [hj, h₁, h₃]
    · rw [if_neg hfield]
      by_cases h₁ : pos % 8 ≤ p - 8 * (pos / 8)
      · have h₃ : ¬ p - 8 * (pos / 8) - pos % 8 < w := by omega
        simp [hj, h₁, h₃]
      · simp [hj, h₁]
  · have hno : ¬ (pos ≤ p ∧ p < pos + w ∧ p < 8 * b.size) := by omega
    rw [if_neg hin, if_neg hno]

/-- A field that was written inside the array reads as what was written, cut to its width. -/
theorem toNat_get_set {b : Array UInt8} {pos w : Nat} {mask : UInt64}
    (hmask : ∀ j, bitAt mask j = decide (j < w)) (hw : pos % 8 + w ≤ 64)
    (hin : pos + w ≤ 8 * b.size) (v : UInt64) :
    (get (set b pos mask v) pos mask).toNat = v.toNat % 2 ^ w := by
  apply toNat_eq_mod_of_bitAt
  intro j
  rw [bitAt_get _ _ hmask hw, bitOf_set _ _ hmask hw]
  by_cases hj : j < w
  · have hfield : pos ≤ pos + j ∧ pos + j < pos + w ∧ pos + j < 8 * b.size := by omega
    rw [if_pos hfield, Nat.add_sub_cancel_left]
  · simp [hj]

theorem get_set_self {b : Array UInt8} {pos w : Nat} {mask v : UInt64}
    (hmask : ∀ j, bitAt mask j = decide (j < w)) (hw : pos % 8 + w ≤ 64)
    (hin : pos + w ≤ 8 * b.size) (hv : v.toNat < 2 ^ w) :
    get (set b pos mask v) pos mask = v := by
  apply UInt64.toNat_inj.mp
  rw [toNat_get_set hmask hw hin, Nat.mod_eq_of_lt hv]

theorem bitOf_set_of_outside (b : Array UInt8) {pos w : Nat} {mask : UInt64}
    (hmask : ∀ j, bitAt mask j = decide (j < w)) (hw : pos % 8 + w ≤ 64) (v : UInt64) {p : Nat}
    (hp : p < pos ∨ pos + w ≤ p) : bitOf (set b pos mask v) p = bitOf b p := by
  have hno : ¬ (pos ≤ p ∧ p < pos + w ∧ p < 8 * b.size) := by omega
  rw [bitOf_set b pos hmask hw, if_neg hno]

/-- A field reads as before when it does not meet the one that is written. -/
theorem get_set_of_disjoint (b : Array UInt8) {pos pos' w w' : Nat} {mask mask' : UInt64}
    (hmask : ∀ j, bitAt mask j = decide (j < w)) (hw : pos % 8 + w ≤ 64)
    (hmask' : ∀ j, bitAt mask' j = decide (j < w')) (hw' : pos' % 8 + w' ≤ 64)
    (hapart : pos' + w' ≤ pos ∨ pos + w ≤ pos') (v : UInt64) :
    get (set b pos mask v) pos' mask' = get b pos' mask' := by
  apply eq_of_bitAt
  intro j _
  rw [bitAt_get _ _ hmask' hw', bitAt_get _ _ hmask' hw']
  by_cases hj : j < w'
  · rw [bitOf_set_of_outside b hmask hw v (by omega)]
  · simp [hj]

/-- What a read shows: the bits up to the end of the eight bytes that it begins in, zeros where the
array has ended before. -/
theorem bitAt_bitsFrom_eq_ite (b : Array UInt8) (p j : Nat) :
    bitAt (bitsFrom b p) j =
      if p + j < 8 * (p / 8 + 8) ∧ p + j < 8 * b.size then bitOf b (p + j) else false := by
  have hwindow : p % 8 + j < 64 ↔ p + j < 8 * (p / 8 + 8) := by omega
  rw [bitAt_bitsFrom]
  by_cases hend : p + j < 8 * b.size
  · simp [hwindow, hend]
  · simp [hend, bitOf_of_ge (Nat.le_of_not_lt hend)]

/-- A field of up to 64 bits that fits its window and the array holds after a write what was
written, and nothing else changes; a read shows the array's bits up to the end of its window. -/
theorem set_exact_framed (b : Array UInt8) :
    (∀ (pos w : Nat) (mask v : UInt64), mask.toNat = 2 ^ w - 1 → pos % 8 + w ≤ 64 →
      pos + w ≤ 8 * b.size →
      (get (set b pos mask v) pos mask).toNat = v.toNat % 2 ^ w ∧
        (∀ p, p < pos ∨ pos + w ≤ p → bitOf (set b pos mask v) p = bitOf b p) ∧
        (set b pos mask v).size = b.size) ∧
      ∀ p j, bitAt (bitsFrom b p) j =
        if p + j < 8 * (p / 8 + 8) ∧ p + j < 8 * b.size then bitOf b (p + j) else false := by
  constructor
  · intro pos w mask v hmask hw hin
    have hbits := bitAt_of_toNat_eq hmask
    exact ⟨toNat_get_set hbits hw hin v, fun p hp => bitOf_set_of_outside b hbits hw v hp,
      size_set b pos mask v⟩
  · exact bitAt_bitsFrom_eq_ite b

/-- The last twelve bits of four bytes, whose window reaches past the array. -/
theorem set_exact_framed_last_twelve :
    (0xfff : UInt64).toNat = 2 ^ 12 - 1 ∧ 20 % 8 + 12 ≤ 64 ∧
      20 + 12 ≤ 8 * #[0xff, 0xff, 0xff, 0xff].size ∧
      (get (set #[0xff, 0xff, 0xff, 0xff] 20 0xfff 0x7abc) 20 0xfff).toNat = 0xabc ∧
      (∀ p, p < 20 ∨ 32 ≤ p → bitOf (set #[0xff, 0xff, 0xff, 0xff] 20 0xfff 0x7abc) p =
        bitOf #[0xff, 0xff, 0xff, 0xff] p) ∧
      bitAt (bitsFrom #[0xff, 0xff, 0xff, 0xff] 20) 11 = true ∧
      bitAt (bitsFrom #[0xff, 0xff, 0xff, 0xff] 20) 12 = false := by
  have hexact := set_exact_framed #[0xff, 0xff, 0xff, 0xff]
  obtain ⟨hread, hkept, -⟩ :=
    hexact.1 20 12 0xfff 0x7abc (by decide) (by decide) (by decide)
  exact ⟨by decide, by decide, by decide, hread, hkept, hexact.2 20 11, hexact.2 20 12⟩

end ApproxSet.BitField
