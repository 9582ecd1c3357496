import ApproxSet.Peel.Xor
import ApproxSet.Proofs.KeySet
import ApproxSet.Proofs.Peel.Assign
import ApproxSet.Proofs.Wire.Cursor

/-!
# Xor filters

A built filter contains its keys, and stored filters are read back.
-/
namespace ApproxSet.Xor
open LittleEndian

variable {w : Nat}

/-- What a stored filter is known to be. -/
structure Stored (f : Xor w) : Prop where
  pos : 0 < f.blockLength
  lt : f.blockLength < 256 ^ 4
  size_slots : f.slots.size = 3 * f.blockLength

theorem blockLength?_eq_ok {n b : Nat} (h : blockLength? n = .ok b) : 0 < b ∧ b < 256 ^ 4 := by
  have hsize : UInt32.size = 256 ^ 4 := by decide
  simp only [blockLength?] at h
  split at h
  · rename_i hlt
    cases h
    exact ⟨by omega, hsize ▸ hlt⟩
  · cases h

theorem blockLength?_eq_error {n : Nat} {e : Error} (h : blockLength? n = .error e) :
    e = .invalidField "xor block_len" := by
  simp only [blockLength?] at h
  split at h
  · cases h
  · cases h
    rfl

/-- Without too many keys, a build fails when no seed it tries is peelable. -/
theorem build_eq_error_iff {hashes : List UInt64} {seed : UInt64} {tries : Nat} {e : Error} :
    build w hashes seed tries = .error e ↔
      blockLength? (distinct hashes).length = .error e ∨
        ∃ b, blockLength? (distinct hashes).length = .ok b ∧ e = .peelExhausted tries ∧
          ∀ j < tries, ¬ (Layout.blocks b).Peelable (distinct hashes) (seedStream seed j) := by
  simp only [build, ofDistinct, bind_eq_error_iff]
  refine or_congr_right (exists_congr fun b => and_congr_right fun hb => ?_)
  have hproper := Layout.blocks_proper (blockLength?_eq_ok hb).1
  rw [← Layout.solve_eq_error_iff hproper (nodup_distinct hashes)]
  apply or_iff_left
  rintro ⟨_, -, h⟩
  cases h

theorem build_eq_ok {hashes : List UInt64} {seed : UInt64} {tries : Nat} {f : Xor w}
    (h : build w hashes seed tries = .ok f) :
    0 < f.blockLength ∧ f.blockLength < 256 ^ 4 ∧
      (Layout.blocks f.blockLength).solve w (distinct hashes) seed tries =
        .ok (f.seed, f.slots) := by
  simp only [build, ofDistinct, bind_eq_ok_iff, pure_eq_ok_iff] at h
  rcases h with ⟨b, hb, ⟨s, slots⟩, hsolve, rfl⟩
  obtain ⟨hpos, hlt⟩ := blockLength?_eq_ok hb
  exact ⟨hpos, hlt, hsolve⟩

theorem stored_of_build {hashes : List UInt64} {seed : UInt64} {tries : Nat} {f : Xor w}
    (h : build w hashes seed tries = .ok f) : f.Stored := by
  obtain ⟨hpos, hlt, hsolve⟩ := build_eq_ok h
  exact ⟨hpos, hlt, (Layout.solve_sound (Layout.blocks_proper hpos) hsolve).1⟩

theorem mayContain_of_mem {hashes : List UInt64} {seed : UInt64} {tries : Nat} {f : Xor w}
    (h : build w hashes seed tries = .ok f) {q : UInt64} (hq : q ∈ hashes) :
    f.mayContain q = true := by
  obtain ⟨hpos, -, hsolve⟩ := build_eq_ok h
  have hsum := (Layout.solve_sound (Layout.blocks_proper hpos) hsolve).2 q (mem_distinct.mpr hq)
  simp [mayContain, hsum]

/-! ### The stored form -/

theorem decode_eq_ok_iff {body : List UInt8} {f : Xor w} : decode w body = .ok f ↔
    ∃ head data, body = head ++ data ∧ head.length = headerSize ∧ fieldAt 8 4 head ≠ 0 ∧
      data.length = 3 * fieldAt 8 4 head * (w / 8) ∧
      ⟨(fieldAt 0 8 head).toUInt64, fieldAt 8 4 head,
        unpack (w / 8) (BitVec.ofNat w) (3 * fieldAt 8 4 head) data⟩ = f := by
  simp only [decode, Cursor.header_bind_eq_ok_iff, Cursor.bulk_bind_eq_ok_iff,
    Cursor.finish_bind_eq_ok_iff, throw_if_eq_ok_iff, pure_eq_ok_iff, Cursor.ofBytes_rest]
  constructor
  · rintro ⟨head, _, hbody, hlen, hn, data, rest, rfl, hdata, rfl, hf⟩
    exact ⟨head, data, by rw [hbody, List.append_nil], hlen, hn, hdata, hf⟩
  · rintro ⟨head, data, hbody, hlen, hn, hdata, hf⟩
    exact ⟨head, data, hbody, hlen, hn, data, [], (List.append_nil _).symm, hdata, rfl, hf⟩

theorem stored_of_decode (hw : 8 * (w / 8) = w) {body : List UInt8} {f : Xor w}
    (h : decode w body = .ok f) : f.Stored ∧ f.encode = body := by
  obtain ⟨head, data, rfl, hlen, hn, hdata, rfl⟩ := decode_eq_ok_iff.mp h
  refine ⟨⟨Nat.pos_of_ne_zero hn, fieldAt_lt .., size_unpack ..⟩, ?_⟩
  have hhead := fieldsFrom_zero [8, 4] hlen
  rw [encode, toNat_toUInt64_of_lt (fieldAt_lt ..), pack_unpack (toNat_ofNat_of_lt hw) hdata]
  simp only [fieldsFrom, Nat.zero_add, List.append_nil] at hhead
  exact congrArg (· ++ data) hhead

theorem decode_encode (hw : 8 * (w / 8) = w) {f : Xor w} (hf : f.Stored) :
    decode w f.encode = .ok f := by
  refine decode_eq_ok_iff.mpr ⟨_, _, rfl, by simp; rfl, ?_, ?_, ?_⟩ <;>
    simp only [fieldAt_zero_bytes_append, fieldAt_bytes_append, Nat.le_refl, Nat.sub_self,
      fieldAt_bytes, Nat.mod_eq_of_lt hf.lt]
  · exact Nat.pos_iff_ne_zero.mp hf.pos
  · rw [length_pack, hf.size_slots]
  · rw [← hf.size_slots, unpack_pack (ofNat_toNat_mod hw), toUInt64_toNat_mod]

theorem length_encode (f : Xor w) : f.encode.length = f.size := by
  simp only [encode, List.length_append, length_bytes, length_pack, size, headerSize]

end ApproxSet.Xor
