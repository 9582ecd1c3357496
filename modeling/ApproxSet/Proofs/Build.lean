import ApproxSet.Proofs.Dispatch

/-!
# Built blobs

Whatever way a build takes, the blob it gives is read back and contains every hash.
-/
namespace ApproxSet

/-- The blob is stored and contains the given hashes. -/
def Blob.Covers (b : Blob) (hashes : List UInt64) : Prop :=
  b.Stored ∧ ∀ q ∈ hashes, b.mayContain q = true

namespace Options

variable {o : Options} {hashes : List UInt64} {seed : UInt64} {b : Blob} {r : Outcome}

theorem covers_of_build (hcap : o.capacity.getD (distinct hashes).length ≤ 2 ^ 32)
    {family : Family} {f : Filter} (h : Filter.build family hashes o seed = .ok f) :
    (Blob.primary f).Covers hashes ∧ (Blob.fallback f).Covers hashes := by
  have hstored := Filter.stored_of_build hcap h
  have hmem (q : UInt64) (hq : q ∈ hashes) := Filter.mayContain_of_mem hcap h hq
  constructor
  · exact ⟨fun g hg => Option.some.inj hg ▸ hstored, hmem⟩
  · exact ⟨fun g hg => Option.some.inj hg ▸ hstored, hmem⟩

/-- One case for each way a build takes. -/
theorem covers_of_buildBlobWith (hcap : o.capacity.getD (distinct hashes).length ≤ 2 ^ 32)
    (h : o.buildBlobWith hashes seed = .ok (b, r)) : b.Covers hashes := by
  by_cases hne : hashes = []
  · subst hne
    cases h
    exact ⟨fun g hg => (by cases hg), fun q _ => rfl⟩
  · have hway : Dispatched o hashes seed (o.buildBlobWith hashes seed) := dispatched hne
    rw [h] at hway
    cases hway with
    | built hf => exact (covers_of_build hcap hf).1
    | replaced _ hf => exact (covers_of_build hcap hf).2
    | exhausted => exact ⟨fun g hg => (by cases hg), fun q _ => rfl⟩

end Options

/-- No false negatives: the blob is read back as a view that contains every hash of the list. -/
theorem decode_build_contains (hashes : List UInt64) (settings : List Setting) (fresh : UInt64)
    (hlen : hashes.length < 2 ^ 31)
    (hcap : ∀ c ∈ (Options.ofSettings settings).capacity, c ≤ 2 ^ 32) {bytes : List UInt8}
    {r : Outcome} (h : build hashes settings fresh = .ok (bytes, r)) :
    ∃ b, Blob.decode bytes = .ok b ∧ ∀ q ∈ hashes, b.mayContain q = true := by
  have hcap' : (Options.ofSettings settings).capacity.getD (distinct hashes).length ≤ 2 ^ 32 := by
    cases hc : (Options.ofSettings settings).capacity with
    | none =>
      have hle := length_distinct_le hashes
      rw [Option.getD_none]
      omega
    | some c => exact hcap c hc
  obtain ⟨⟨b, r'⟩, hbuild, heq⟩ := map_eq_ok_iff.mp h
  cases heq
  obtain ⟨hstored, hmem⟩ := Options.covers_of_buildBlobWith hcap' hbuild
  exact ⟨b, Blob.decode_encode hstored, hmem⟩

/-- A filter of a chosen family over three hashes. -/
theorem decode_build_contains_three :
    ∃ bytes r b, build [3, 5, 9] [.family (.xor .eight), .seed 7] 0 = .ok (bytes, r) ∧
      Blob.decode bytes = .ok b ∧ ∀ q ∈ [3, 5, 9], b.mayContain q = true := by
  have hkeys : distinct [3, 5, 9] = [3, 5, 9] := distinct_of_ascending (by decide)
  have hok : (Xor.build 8 [3, 5, 9] 7 100).isOk = true := by
    rw [Xor.build, hkeys]
    decide +kernel
  cases hf : Xor.build 8 [3, 5, 9] 7 100 with
  | error e =>
    rw [hf] at hok
    cases hok
  | ok f =>
    have hbuild : build [3, 5, 9] [.family (.xor .eight), .seed 7] 0 =
        .ok ((Blob.primary (.xor .eight f)).encode, .ok) := by
      simp [build, Options.buildInto, Options.buildBlob, Options.buildBlobWith, Options.ofSettings,
        Options.apply, Options.family, Filter.build, PeeledWidth.bits, hf, settle, Except.map]
    obtain ⟨b, hdecode, hmem⟩ := decode_build_contains [3, 5, 9]
      [.family (.xor .eight), .seed 7] 0 (by decide) (by decide) hbuild
    exact ⟨_, _, b, hbuild, hdecode, hmem⟩

end ApproxSet
