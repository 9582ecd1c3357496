import ApproxSet.Filter
import ApproxSet.Proofs.Bloom
import ApproxSet.Proofs.Evict.Cuckoo
import ApproxSet.Proofs.Evict.Vacuum
import ApproxSet.Proofs.Peel.Fuse
import ApproxSet.Proofs.Peel.XorPlus
import ApproxSet.Proofs.Ribbon.Basic

/-!
# Filters of any family

What holds of each family holds of all: a built filter contains its hashes and is a stored one, and
the stored filters are those that are read back.
-/
namespace ApproxSet

/-- The family that names a filter built for this one: a ribbon is one whatever stands by. -/
def Family.writtenAs : Family → Family
  | .ribbonWithFallback => .ribbon
  | family => family

namespace Filter

/-- What a stored filter is known to be. -/
def Stored : Filter → Prop
  | .xor _ f => f.Stored
  | .xorPlus _ f => f.Stored
  | .binaryFuse _ f => f.Stored
  | .blockedBloom f => f.Stored
  | .cuckoo f => f.Stored
  | .vacuum f => f.Stored
  | .ribbon f => f.Stored

section Build

variable {family : Family} {hashes : List UInt64} {o : Options} {seed : UInt64} {f : Filter}

theorem stored_of_build (hcap : o.capacity.getD (distinct hashes).length ≤ 2 ^ 32)
    (h : build family hashes o seed = .ok f) : f.Stored := by
  cases family with
  | xor w =>
    obtain ⟨g, hg, rfl⟩ := map_eq_ok_iff.mp h
    exact Xor.stored_of_build hg
  | xorPlus w =>
    obtain ⟨g, hg, rfl⟩ := map_eq_ok_iff.mp h
    exact XorPlus.stored_of_build hg
  | binaryFuse w =>
    obtain ⟨g, hg, rfl⟩ := map_eq_ok_iff.mp h
    exact Fuse.stored_of_build hg
  | blockedBloom =>
    obtain ⟨g, hg, rfl⟩ := map_eq_ok_iff.mp h
    exact (Bloom.build_eq_ok hg).2.1
  | cuckoo w =>
    obtain ⟨g, hg, rfl⟩ := map_eq_ok_iff.mp h
    exact Cuckoo.stored_of_build (hcap.trans (by decide)) hg
  | vacuum w packed =>
    obtain ⟨g, hg, rfl⟩ := map_eq_ok_iff.mp h
    exact Vacuum.stored_of_build hg
  | ribbon | ribbonWithFallback =>
    obtain ⟨g, hg, rfl⟩ := map_eq_ok_iff.mp h
    exact Ribbon.stored_of_build hg

theorem mayContain_of_mem (hcap : o.capacity.getD (distinct hashes).length ≤ 2 ^ 32)
    (h : build family hashes o seed = .ok f) {q : UInt64} (hq : q ∈ hashes) :
    f.mayContain q = true := by
  cases family with
  | xor w =>
    obtain ⟨g, hg, rfl⟩ := map_eq_ok_iff.mp h
    exact Xor.mayContain_of_mem hg hq
  | xorPlus w =>
    obtain ⟨g, hg, rfl⟩ := map_eq_ok_iff.mp h
    exact XorPlus.mayContain_of_mem hg hq
  | binaryFuse w =>
    obtain ⟨g, hg, rfl⟩ := map_eq_ok_iff.mp h
    exact Fuse.mayContain_of_mem hg hq
  | blockedBloom =>
    obtain ⟨g, hg, rfl⟩ := map_eq_ok_iff.mp h
    exact Bloom.mayContain_of_mem hg hq
  | cuckoo w =>
    obtain ⟨g, hg, rfl⟩ := map_eq_ok_iff.mp h
    obtain ⟨h₁, h₂⟩ := w.bits_bounds
    exact Cuckoo.mayContain_of_mem (by omega) h₂ (hcap.trans (by decide)) hg hq
  | vacuum w packed =>
    obtain ⟨g, hg, rfl⟩ := map_eq_ok_iff.mp h
    obtain ⟨h₁, h₂⟩ := w.bits_bounds
    exact Vacuum.mayContain_of_mem h₁ h₂ hg hq
  | ribbon | ribbonWithFallback =>
    obtain ⟨g, hg, rfl⟩ := map_eq_ok_iff.mp h
    exact Ribbon.mayContain_of_mem hg hq

theorem family_of_build (h : build family hashes o seed = .ok f) : f.family = family.writtenAs := by
  cases family with
  | xor w | xorPlus w | binaryFuse w | blockedBloom | ribbon | ribbonWithFallback =>
    obtain ⟨g, -, rfl⟩ := map_eq_ok_iff.mp h
    rfl
  | cuckoo w =>
    obtain ⟨g, hg, rfl⟩ := map_eq_ok_iff.mp h
    rw [Filter.family, Cuckoo.width_of_build hg]
    cases w <;> rfl
  | vacuum w packed =>
    obtain ⟨g, hg, rfl⟩ := map_eq_ok_iff.mp h
    rw [Filter.family, Vacuum.width_of_build hg]
    cases w <;> cases packed <;> rfl

end Build

/-! ### The stored form -/

/-- A fallback is not a family of its own. -/
theorem family_ne_ribbonWithFallback (f : Filter) : f.family ≠ .ribbonWithFallback := by
  cases f with
  | cuckoo f =>
    simp only [family, cuckooFamily]
    split <;> decide
  | vacuum f =>
    simp only [family, vacuumFamily]
    split <;> decide
  | _ => simp [family]

theorem decodeAs_cuckoo (width : Nat) (body : List UInt8) :
    decodeAs (cuckooFamily width) body = (Cuckoo.decode body).map .cuckoo := by
  unfold cuckooFamily
  split <;> rfl

theorem decodeAs_vacuum (width : Nat) (body : List UInt8) :
    decodeAs (vacuumFamily width) body = (Vacuum.decode body).map .vacuum := by
  unfold vacuumFamily
  split <;> rfl

theorem decodeAs_encode {f : Filter} (hf : f.Stored) : decodeAs f.family f.encode = .ok f := by
  cases f with
  | xor w f => exact map_eq_ok_iff.mpr ⟨f, Xor.decode_encode w.bits_whole hf, rfl⟩
  | xorPlus w f => exact map_eq_ok_iff.mpr ⟨f, XorPlus.decode_encode w.bits_whole hf, rfl⟩
  | binaryFuse w f => exact map_eq_ok_iff.mpr ⟨f, Fuse.decode_encode w.bits_whole hf, rfl⟩
  | blockedBloom f => exact map_eq_ok_iff.mpr ⟨f, Bloom.decode_encode hf, rfl⟩
  | cuckoo f =>
    rw [family, decodeAs_cuckoo]
    exact map_eq_ok_iff.mpr ⟨f, Cuckoo.decode_encode hf, rfl⟩
  | vacuum f =>
    rw [family, decodeAs_vacuum]
    exact map_eq_ok_iff.mpr ⟨f, Vacuum.decode_encode hf, rfl⟩
  | ribbon f => exact map_eq_ok_iff.mpr ⟨f, Ribbon.decode_encode hf, rfl⟩

theorem decode_eq_ok_iff {family : Family} {body : List UInt8} {f : Filter} :
    decode family body = .ok f ↔ decodeAs family body = .ok f ∧ f.family = family := by
  simp only [decode, bind_eq_ok_iff, throw_if_eq_ok_iff, pure_eq_ok_iff, not_not]
  constructor
  · rintro ⟨g, hg, hfamily, rfl⟩
    exact ⟨hg, hfamily⟩
  · rintro ⟨hg, hfamily⟩
    exact ⟨f, hg, hfamily, rfl⟩

theorem decode_encode {f : Filter} (hf : f.Stored) : decode f.family f.encode = .ok f :=
  decode_eq_ok_iff.mpr ⟨decodeAs_encode hf, rfl⟩

theorem stored_of_decode {family : Family} {body : List UInt8} {f : Filter}
    (h : decode family body = .ok f) : f.Stored ∧ f.encode = body ∧ f.family = family := by
  obtain ⟨h, hfamily⟩ := decode_eq_ok_iff.mp h
  suffices hs : f.Stored ∧ f.encode = body from ⟨hs.1, hs.2, hfamily⟩
  cases family with
  | xor w =>
    obtain ⟨g, hg, rfl⟩ := map_eq_ok_iff.mp h
    exact Xor.stored_of_decode w.bits_whole hg
  | xorPlus w =>
    obtain ⟨g, hg, rfl⟩ := map_eq_ok_iff.mp h
    exact XorPlus.stored_of_decode w.bits_whole hg
  | binaryFuse w =>
    obtain ⟨g, hg, rfl⟩ := map_eq_ok_iff.mp h
    exact Fuse.stored_of_decode w.bits_whole hg
  | blockedBloom =>
    obtain ⟨g, hg, rfl⟩ := map_eq_ok_iff.mp h
    exact Bloom.stored_of_decode hg
  | cuckoo w =>
    obtain ⟨g, hg, rfl⟩ := map_eq_ok_iff.mp h
    exact Cuckoo.stored_of_decode hg
  | vacuum w packed =>
    obtain ⟨g, hg, rfl⟩ := map_eq_ok_iff.mp h
    exact Vacuum.stored_of_decode hg
  | ribbon =>
    obtain ⟨g, hg, rfl⟩ := map_eq_ok_iff.mp h
    exact Ribbon.stored_of_decode hg
  | ribbonWithFallback => cases h

theorem length_encode (f : Filter) : f.encode.length = f.size := by
  cases f with
  | xor w f => exact f.length_encode
  | xorPlus w f => exact f.length_encode
  | binaryFuse w f => exact f.length_encode
  | blockedBloom f => exact f.length_encode
  | cuckoo f => exact f.length_encode
  | vacuum f => exact f.length_encode
  | ribbon f => exact f.length_encode

end Filter

end ApproxSet
