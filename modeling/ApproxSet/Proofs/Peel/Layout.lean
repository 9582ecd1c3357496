import ApproxSet.Peel.Layout
import ApproxSet.Proofs.Word.Bits

/-!
# The slots of a hash

A proper layout sends every hash to three distinct slots below its size. Blocks of positive length
are proper, and so are valid segments.
-/
namespace ApproxSet

structure Layout.Proper (l : Layout) : Prop where
  lt_size : ∀ h, ∀ s ∈ (l.slots h).toList, s < l.size
  nodup : ∀ h, (l.slots h).toList.Nodup

/-- What a header of segments is checked for. -/
structure Segments.Valid (g : Segments) : Prop where
  isPowerOfTwo : ∃ e, g.length = 2 ^ e
  dvd : g.length ∣ g.spread
  pos : 0 < g.spread

namespace Layout

/-- Each slot of a hash lies in a block of its own. -/
theorem blocks_slots {n : Nat} (hn : 0 < n) (h : UInt64) :
    ((blocks n).slots h).a < n ∧
      (n ≤ ((blocks n).slots h).b ∧ ((blocks n).slots h).b < 2 * n) ∧
        (2 * n ≤ ((blocks n).slots h).c ∧ ((blocks n).slots h).c < 3 * n) := by
  have h₁ := scale32_lt h.toUInt32 hn
  have h₂ := scale32_lt (rotateLeft h 21).toUInt32 hn
  have h₃ := scale32_lt (rotateLeft h 42).toUInt32 hn
  simp only [blocks]
  omega

theorem blocks_proper {n : Nat} (hn : 0 < n) : (blocks n).Proper := by
  constructor
  · intro h s hs
    obtain ⟨ha, ⟨-, hb⟩, -, hc⟩ := blocks_slots hn h
    have hsize : (blocks n).size = 3 * n := rfl
    simp only [Triple.toList, List.mem_cons, List.not_mem_nil, or_false] at hs
    omega
  · intro h
    obtain ⟨ha, ⟨hb, hb'⟩, hc, -⟩ := blocks_slots hn h
    simp only [Triple.toList, List.nodup_cons, List.mem_cons, List.not_mem_nil, or_false, not_or,
      not_false_eq_true, List.nodup_nil, and_true]
    omega

end Layout

namespace Segments

variable {g : Segments}

theorem Valid.length_pos (hg : g.Valid) : 0 < g.length := by
  obtain ⟨e, he⟩ := hg.isPowerOfTwo
  rw [he]
  exact Nat.two_pow_pos e

/-- The slots of a hash lie in three consecutive segments. -/
theorem Valid.slots_div (hg : g.Valid) (h : UInt64) :
    (g.slots h).b / g.length = (g.slots h).a / g.length + 1 ∧
      (g.slots h).c / g.length = (g.slots h).a / g.length + 2 := by
  obtain ⟨e, he⟩ := hg.isPowerOfTwo
  have hpos := hg.length_pos
  have hx (n m : Nat) : (n ^^^ (m % g.length)) / g.length = n / g.length := by
    rw [he]
    exact xor_div_of_lt (Nat.mod_lt _ (Nat.two_pow_pos e)) n
  simp only [slots]
  rw [hx, hx, Nat.add_div_right _ hpos, Nat.add_mul_div_right _ _ hpos]
  exact ⟨rfl, rfl⟩

theorem Valid.slots_a_lt (hg : g.Valid) (h : UInt64) : (g.slots h).a < g.spread :=
  scale64_lt h hg.pos

theorem Valid.proper (hg : g.Valid) : g.layout.Proper := by
  have hpos := hg.length_pos
  constructor
  · intro h s hs
    obtain ⟨hb, hc⟩ := hg.slots_div h
    have ha := hg.slots_a_lt h
    obtain ⟨k, hk⟩ := hg.dvd
    have hak : (g.slots h).a / g.length < k := Nat.div_lt_of_lt_mul (hk ▸ ha)
    have hsize : g.size = (k + 2) * g.length := by
      rw [size, hk, Nat.add_mul, Nat.mul_comm g.length k]
    -- each of the three slots lies in one of the first `k + 2` segments
    have hin {s : Nat} (hs : s / g.length < k + 2) : s < g.layout.size := by
      change s < g.size
      rw [hsize]
      exact (Nat.div_lt_iff_lt_mul hpos).mp hs
    simp only [layout, Triple.toList, List.mem_cons, List.not_mem_nil, or_false] at hs
    rcases hs with rfl | rfl | rfl <;> apply hin <;> omega
  · intro h
    obtain ⟨hb, hc⟩ := hg.slots_div h
    have hne {s t : Nat} (hst : s / g.length ≠ t / g.length) : s ≠ t := fun e => hst (e ▸ rfl)
    have hab : (g.slots h).a ≠ (g.slots h).b := hne (by omega)
    have hac : (g.slots h).a ≠ (g.slots h).c := hne (by omega)
    have hbc : (g.slots h).b ≠ (g.slots h).c := hne (by omega)
    simp [layout, Triple.toList, hab, hac, hbc]

end Segments

end ApproxSet
