import ApproxSet.Build
import ApproxSet.Proofs.Bloom
import ApproxSet.Proofs.KeySet

/-!
# Builds over the same keys

Before anything else a build sorts its hashes and drops repetitions, so lists with the same members
give the same filter, failures included. Only a Bloom filter counts repetitions: they size it, while
the words it is filled with depend on the members alone.
-/
namespace ApproxSet

/-- The lists that a family makes no difference between. -/
def Family.SameKeys (family : Family) (hashes others : List UInt64) : Prop :=
  match family with
  | .blockedBloom => hashes.Perm others
  | _ => ∀ k, k ∈ hashes ↔ k ∈ others

variable {hashes others : List UInt64} {family : Family} {o : Options} {seed : UInt64}

theorem Family.SameKeys.mem_iff (h : family.SameKeys hashes others) (k : UInt64) :
    k ∈ hashes ↔ k ∈ others := by
  cases family with
  | blockedBloom => exact h.mem_iff
  | _ => exact h k

theorem Family.SameKeys.isEmpty_eq (h : family.SameKeys hashes others) :
    hashes.isEmpty = others.isEmpty := by
  rw [Bool.eq_iff_iff, List.isEmpty_iff, List.isEmpty_iff, List.eq_nil_iff_forall_not_mem,
    List.eq_nil_iff_forall_not_mem]
  exact forall_congr' fun k => not_congr (h.mem_iff k)

theorem Filter.build_congr (h : family.SameKeys hashes others) (o : Options) (seed : UInt64) :
    build family hashes o seed = build family others o seed := by
  have hkeys : distinct hashes = distinct others := distinct_eq_distinct_iff.mpr h.mem_iff
  cases family with
  | blockedBloom =>
    have hperm : hashes.Perm others := h
    exact congrArg (Except.map _) (Bloom.build_congr hperm.length_eq h.mem_iff ..)
  | _ =>
    simp only [build, Xor.build, XorPlus.build, Fuse.build, Cuckoo.build, Vacuum.build,
      Ribbon.build, hkeys]

namespace Options

/-- Up to eight bits per key the fallback has eight bits, and sixteen above. -/
theorem exists_fallbackFamily (o : Options) :
    ∃ w, o.fallbackFamily = .binaryFuse w ∧ (w = .eight ↔ o.milliBits ≤ 8000) := by
  unfold fallbackFamily
  split
  · rename_i h
    exact ⟨.eight, rfl, iff_of_true rfl h⟩
  · rename_i h
    exact ⟨.sixteen, rfl, iff_of_false (by decide) h⟩

theorem buildBlobWith_congr (h : o.family.SameKeys hashes others) (seed : UInt64) :
    o.buildBlobWith hashes seed = o.buildBlobWith others seed := by
  obtain ⟨w, hw, -⟩ := o.exists_fallbackFamily
  have hfallback : o.fallbackFamily.SameKeys hashes others := by
    rw [hw]
    exact h.mem_iff
  simp only [buildBlobWith, h.isEmpty_eq, Filter.build_congr h, Filter.build_congr hfallback]

/-- The result of a seeded build, down to the bytes, depends on the set of keys only. -/
theorem buildBlob_eq_of_sameKeys (o : Options) {seed : UInt64} (hseed : o.seed = some seed)
    (hkeys : o.family.SameKeys hashes others) (fresh fresh' : UInt64) :
    o.buildBlob hashes fresh = o.buildBlob others fresh' ∧
      ∀ buffer, o.buildInto buffer hashes fresh = o.buildInto buffer others fresh' := by
  have hblob : o.buildBlob hashes fresh = o.buildBlob others fresh' := by
    rw [buildBlob, buildBlob, hseed]
    exact buildBlobWith_congr hkeys seed
  refine ⟨hblob, fun buffer => ?_⟩
  rw [buildInto, buildInto, hblob]

/-- A peeled family over keys in another order and number, and a Bloom filter over a permutation. -/
theorem buildBlob_eq_of_sameKeys_three :
    (ofSettings [.family (.xor .eight), .seed 7]).buildBlob [9, 3, 5, 3] 0 =
        (ofSettings [.family (.xor .eight), .seed 7]).buildBlob [3, 5, 9] 1 ∧
      (ofSettings [.family .blockedBloom, .seed 7]).buildBlob [9, 3, 5, 3] 0 =
        (ofSettings [.family .blockedBloom, .seed 7]).buildBlob [3, 3, 5, 9] 1 := by
  have hset : Family.SameKeys (.xor .eight) [9, 3, 5, 3] [3, 5, 9] := by
    intro k
    simp only [List.mem_cons, List.not_mem_nil, or_false]
    tauto
  have hperm : Family.SameKeys .blockedBloom [9, 3, 5, 3] [3, 3, 5, 9] := by
    change List.Perm _ _
    decide
  constructor
  · exact (buildBlob_eq_of_sameKeys (ofSettings [.family (.xor .eight), .seed 7]) rfl hset 0 1).1
  · exact (buildBlob_eq_of_sameKeys (ofSettings [.family .blockedBloom, .seed 7]) rfl hperm 0 1).1

end Options

end ApproxSet
