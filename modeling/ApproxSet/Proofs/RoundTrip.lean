import ApproxSet.Proofs.Build

/-!
# Written and read back

What is read is written as it was, so accepted bytes are the encodings of stored blobs, one for
each. What is built is stored, so its encoding is read back from wherever it was appended.
-/
namespace ApproxSet

/-! ### Accepted bytes -/

namespace Blob

/-- The format is canonical: a view is written as the bytes that it was read from, and there are no
other bytes that it could have been read from. -/
theorem decode_canonical {bytes : List UInt8} {b : Blob} (h : decode bytes = .ok b) :
    b.encode = bytes ∧ b.size = bytes.length ∧
      ∀ other, decode other = .ok b → other = bytes := by
  obtain ⟨-, hencode⟩ := decode_eq_ok_iff.mp h
  refine ⟨hencode, ?_, fun other hother => ?_⟩
  · rw [← hencode, length_encode]
  · obtain ⟨-, hsame⟩ := decode_eq_ok_iff.mp hother
    rw [← hsame, hencode]

/-- Bytes that no build gives: all bits of the only bucket are set. -/
theorem decode_canonical_bloom :
    ∃ b, decode ([0x85, 1, 0, 0, 0, 0, 0, 0, 0, 0, 1, 0, 0, 0] ++ List.replicate 64 0xff) = .ok b ∧
      b.encode = [0x85, 1, 0, 0, 0, 0, 0, 0, 0, 0, 1, 0, 0, 0] ++ List.replicate 64 0xff ∧
      b.size = 78 := by
  obtain ⟨b, h⟩ := exists_ok_of_isOk (by decide +kernel : (decode ([0x85, 1, 0, 0, 0, 0, 0, 0, 0, 0,
    1, 0, 0, 0] ++ List.replicate 64 0xff)).isOk = true)
  obtain ⟨hencode, hsize, -⟩ := decode_canonical h
  exact ⟨b, h, hencode, hsize⟩

end Blob

/-! ### Built filters -/

/-- Appended to any buffer, `written` takes `size` bytes and is read from there as `a`. -/
def RoundTrips {α : Type} (written : List UInt8) (size : Nat)
    (read : List UInt8 → Except Error α) (a : α) : Prop :=
  ∀ buffer : List UInt8, (buffer ++ written).length = buffer.length + size ∧
    read ((buffer ++ written).drop buffer.length) = .ok a

theorem RoundTrips.of_read {α : Type} {written : List UInt8} {size : Nat}
    {read : List UInt8 → Except Error α} {a : α} (hsize : written.length = size)
    (hread : read written = .ok a) : RoundTrips written size read a := by
  intro buffer
  rw [List.length_append, hsize, List.drop_left]
  exact ⟨rfl, hread⟩

theorem Filter.roundTrips {f : Filter} (hf : f.Stored) :
    RoundTrips f.encode f.size (Filter.decode f.family) f :=
  .of_read f.length_encode (Filter.decode_encode hf)

theorem Blob.roundTrips {b : Blob} (hb : b.Stored) : RoundTrips b.encode b.size Blob.decode b :=
  .of_read b.length_encode (Blob.decode_encode hb)

/-- A table is sized for the given capacity or for its distinct hashes. -/
theorem Options.capacity_getD_le {o : Options} {hashes : List UInt64}
    (hlen : hashes.length < 2 ^ 31) (hcap : ∀ c ∈ o.capacity, c ≤ 2 ^ 32) :
    o.capacity.getD (distinct hashes).length ≤ 2 ^ 32 := by
  cases hc : o.capacity with
  | none =>
    have hle := length_distinct_le hashes
    rw [Option.getD_none]
    omega
  | some c => exact hcap c hc

namespace Filter

/-- A built filter is read back as it was built, alone or in a blob of either role. The slots of a
ribbon's shards are not written; they come out as the build had them. -/
theorem roundTrips_of_build (family : Family) (hashes : List UInt64) (o : Options) (seed : UInt64)
    (hlen : hashes.length < 2 ^ 31) (hcap : ∀ c ∈ o.capacity, c ≤ 2 ^ 32) {f : Filter}
    (h : build family hashes o seed = .ok f) :
    RoundTrips f.encode f.size (decode f.family) f ∧
      (∀ b, b = Blob.primary f ∨ b = Blob.fallback f → RoundTrips b.encode b.size Blob.decode b) ∧
      ∀ g, f = .ribbon g → g.slots = Ribbon.shardSlots (distinct hashes).length g.shardBits := by
  have hstored := stored_of_build (Options.capacity_getD_le hlen hcap) h
  refine ⟨roundTrips hstored, ?_, ?_⟩
  · rintro _ (rfl | rfl) <;> exact Blob.roundTrips fun g hg => Option.some.inj hg ▸ hstored
  · rintro g rfl
    cases family with
    | ribbon | ribbonWithFallback =>
      obtain ⟨g', hg, heq⟩ := map_eq_ok_iff.mp h
      cases heq
      exact Ribbon.slots_of_build hg
    | _ =>
      obtain ⟨_, -, heq⟩ := map_eq_ok_iff.mp h
      cases heq

/-- A ribbon of three hashes, one of them given twice. -/
theorem roundTrips_of_build_three :
    ∃ f, build .ribbon [9, 3, 5, 9] { ribbonMinKeys := 1 } 4 = .ok (.ribbon f) ∧
      RoundTrips (encode (.ribbon f)) f.size (decode .ribbon) (.ribbon f) ∧
      RoundTrips (Blob.encode (.primary (.ribbon f))) (2 + f.size) Blob.decode
        (.primary (.ribbon f)) ∧ f.slots = Ribbon.shardSlots 3 f.shardBits := by
  have hmem (k : UInt64) : k ∈ [9, 3, 5, 9] ↔ k ∈ [3, 5, 9] := by
    simp only [List.mem_cons, List.not_mem_nil, or_false]
    tauto
  have hkeys : distinct [9, 3, 5, 9] = [3, 5, 9] :=
    (distinct_eq_distinct_iff.mpr hmem).trans (distinct_of_ascending (by decide))
  have hok : (Ribbon.build [9, 3, 5, 9] 8000 4 1).isOk = true := by
    rw [Ribbon.build, hkeys, Ribbon.basesOf_of_ascending (by decide +kernel)]
    decide +kernel
  obtain ⟨f, hf⟩ := exists_ok_of_isOk hok
  have hbuild : build .ribbon [9, 3, 5, 9] { ribbonMinKeys := 1 } 4 = .ok (.ribbon f) :=
    map_eq_ok_iff.mpr ⟨f, hf, rfl⟩
  obtain ⟨hbody, hblob, hslots⟩ := roundTrips_of_build .ribbon [9, 3, 5, 9] { ribbonMinKeys := 1 } 4
    (by decide) (by decide) hbuild
  refine ⟨f, hbuild, hbody, hblob _ (.inl rfl), ?_⟩
  rw [hslots f rfl, hkeys]
  rfl

end Filter

end ApproxSet
