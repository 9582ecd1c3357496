import ApproxSet.Proofs.Evict.Cuckoo
import ApproxSet.Proofs.Evict.Vacuum

/-!
# What tables with buckets answer

A cuckoo or vacuum filter contains a hash exactly when a built hash has its fingerprint and shares
its buckets. The seed, the hashes and the capacity determine this: the choices made in relocation
and the budget for them do not appear.
-/
namespace ApproxSet.Scheme

/-- Cuckoo tables are sized in 64-bit words, which is exact for up to `2 ^ 58` keys; that many
hashes take `2 ^ 61` bytes. -/
theorem mayContain_iff_holds [Draws] :
    (∀ (w : BucketWidth) (hashes : List UInt64) (capacity : Option Nat) (seed : UInt64)
      (maxKicks : Nat) (f : Cuckoo), capacity.getD (distinct hashes).length ≤ 2 ^ 58 →
      Cuckoo.build hashes w.bits capacity seed maxKicks = .ok f → ∀ q, f.mayContain q = true ↔
        (Cuckoo.scheme w.bits
          (Cuckoo.indexBitsFor (capacity.getD (distinct hashes).length))).Holds
            (hashes.map (mix · seed)) (mix q seed)) ∧
    ∀ (w : BucketWidth) (packed : Bool) (hashes : List UInt64) (capacity : Option Nat)
      (seed : UInt64) (maxKicks : Nat) (f : Vacuum),
      Vacuum.build hashes w.bits packed capacity seed maxKicks = .ok f →
      ∃ z, Vacuum.sizingFor (capacity.getD (distinct hashes).length) = .ok z ∧
        ∀ q, f.mayContain q = true ↔
          (Vacuum.scheme (Vacuum.storedWidth w.bits packed) z.buckets z.ranges).Holds
            (hashes.map (mix · seed)) (mix q seed) := by
  constructor
  · intro w hashes capacity seed maxKicks f hcap h q
    obtain ⟨h₁, h₂⟩ := w.bits_bounds
    exact Cuckoo.mayContain_build_iff (by omega) h₂ hcap h q
  · intro w packed hashes capacity seed maxKicks f h
    obtain ⟨h₁, h₂⟩ := w.bits_bounds
    exact Vacuum.mayContain_build_iff h₁ h₂ h

/-- Seven hashes in eight slots: a cuckoo table places the last by a chain of two kicks, a packed
vacuum table by one of three. -/
theorem mayContain_iff_holds_seven :
    (∃ f, Cuckoo.build [1, 2, 3, 4, 5, 6, 7] 8 none 18 2 = .ok f ∧ ∀ q, f.mayContain q = true ↔
        (Cuckoo.scheme 8 (Cuckoo.indexBitsFor (distinct [1, 2, 3, 4, 5, 6, 7]).length)).Holds
          ([1, 2, 3, 4, 5, 6, 7].map (mix · 18)) (mix q 18)) ∧
      ∃ f z, Vacuum.build [1, 2, 3, 4, 5, 6, 7] 8 true none 18 3 = .ok f ∧
        Vacuum.sizingFor (distinct [1, 2, 3, 4, 5, 6, 7]).length = .ok z ∧
        ∀ q, f.mayContain q = true ↔ (Vacuum.scheme 9 z.buckets z.ranges).Holds
          ([1, 2, 3, 4, 5, 6, 7].map (mix · 18)) (mix q 18) := by
  have hkeys : distinct [1, 2, 3, 4, 5, 6, 7] = [1, 2, 3, 4, 5, 6, 7] :=
    distinct_of_ascending (by decide)
  have hcap : (none : Option Nat).getD (distinct [1, 2, 3, 4, 5, 6, 7]).length ≤ 2 ^ 58 := by
    rw [hkeys]
    decide
  have hcuckoo : (Cuckoo.build [1, 2, 3, 4, 5, 6, 7] 8 none 18 2).isOk = true := by
    rw [Cuckoo.build, hkeys]
    decide +kernel
  have hvacuum : (Vacuum.build [1, 2, 3, 4, 5, 6, 7] 8 true none 18 3).isOk = true := by
    rw [Vacuum.build, hkeys]
    decide +kernel
  obtain ⟨f, hf⟩ := exists_ok_of_isOk hcuckoo
  obtain ⟨g, hg⟩ := exists_ok_of_isOk hvacuum
  obtain ⟨z, hz, hiff⟩ := mayContain_iff_holds.2 .eight true _ none 18 3 g hg
  exact ⟨⟨f, hf, mayContain_iff_holds.1 .eight _ none 18 2 f hcap hf⟩, g, z, hg, hz, hiff⟩

end ApproxSet.Scheme
