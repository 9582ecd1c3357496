import ApproxSet.Peel.Fuse
import ApproxSet.Proofs.KeySet
import ApproxSet.Proofs.Peel.Assign
import ApproxSet.Proofs.Wire.Cursor

/-!
# Binary fuse filters

The segments for any number of keys are valid, and so are the segments of any header that is read.
-/
namespace ApproxSet

namespace Segments

/-- Segments that a stored filter can have. -/
structure Fits (g : Segments) : Prop where
  valid : g.Valid
  length_le : g.length ≤ maxLength
  size_lt : g.size < 256 ^ 4

theorem exists_lengthFor (n : Nat) : ∃ e, lengthFor n = 2 ^ e ∧ lengthFor n ≤ maxLength := by
  have hmax : maxLength = 2 ^ 18 := by decide
  unfold lengthFor
  split
  · exact ⟨2, rfl, by decide⟩
  · simp only [Nat.one_shiftLeft, hmax]
    generalize UInt32.toNat _ % 64 = e
    by_cases he : e ≤ 18
    · have hle : 2 ^ e ≤ 2 ^ 18 := Nat.pow_le_pow_right (by decide) he
      exact ⟨e, Nat.min_eq_left hle, Nat.min_le_right ..⟩
    · have hle : 2 ^ 18 ≤ 2 ^ e := Nat.pow_le_pow_right (by decide) (by omega)
      exact ⟨18, Nat.min_eq_right hle, Nat.min_le_right ..⟩

theorem fits_of_ofKeyCount {n : Nat} {g : Segments} (h : ofKeyCount n = .ok g) : g.Fits := by
  obtain ⟨e, he, hle⟩ := exists_lengthFor n
  have hpos : 0 < lengthFor n := he ▸ Nat.two_pow_pos e
  have hsize32 : UInt32.size = 256 ^ 4 := by decide
  simp only [ofKeyCount] at h
  split at h
  · rename_i hlt
    cases h
    have hfirst := Nat.le_max_left 1 ((slotsFor n + lengthFor n - 1) / lengthFor n - 2)
    refine ⟨⟨⟨e, he⟩, Nat.dvd_mul_left .., Nat.mul_pos hfirst hpos⟩, hle, ?_⟩
    rwa [size, ← Nat.add_mul, ← hsize32]
  · cases h

theorem ofKeyCount_eq_error {n : Nat} {e : Error} (h : ofKeyCount n = .error e) :
    e = .invalidField "fuse segment_count_length" := by
  simp only [ofKeyCount] at h
  split at h
  · cases h
  · cases h
    rfl

end Segments

namespace Fuse
open LittleEndian

variable {w : Nat}

/-- What a stored filter is known to be. -/
structure Stored (f : Fuse w) : Prop where
  segments : f.segments.Fits
  size_slots : f.slots.size = f.segments.size

/-- Without too many keys, a build fails when no seed it tries is peelable. -/
theorem build_eq_error_iff {hashes : List UInt64} {seed : UInt64} {tries : Nat} {e : Error} :
    build w hashes seed tries = .error e ↔
      Segments.ofKeyCount (distinct hashes).length = .error e ∨
        ∃ g, Segments.ofKeyCount (distinct hashes).length = .ok g ∧ e = .peelExhausted tries ∧
          ∀ j < tries, ¬ g.layout.Peelable (distinct hashes) (seedStream seed j) := by
  simp only [build, bind_eq_error_iff]
  refine or_congr_right (exists_congr fun g => and_congr_right fun hg => ?_)
  have hproper := (Segments.fits_of_ofKeyCount hg).valid.proper
  rw [← Layout.solve_eq_error_iff hproper (nodup_distinct hashes)]
  apply or_iff_left
  rintro ⟨_, -, h⟩
  cases h

theorem build_eq_ok {hashes : List UInt64} {seed : UInt64} {tries : Nat} {f : Fuse w}
    (h : build w hashes seed tries = .ok f) :
    f.segments.Fits ∧
      f.segments.layout.solve w (distinct hashes) seed tries = .ok (f.seed, f.slots) := by
  simp only [build, bind_eq_ok_iff, pure_eq_ok_iff] at h
  rcases h with ⟨g, hg, ⟨s, slots⟩, hsolve, rfl⟩
  exact ⟨Segments.fits_of_ofKeyCount hg, hsolve⟩

theorem stored_of_build {hashes : List UInt64} {seed : UInt64} {tries : Nat} {f : Fuse w}
    (h : build w hashes seed tries = .ok f) : f.Stored := by
  obtain ⟨hg, hsolve⟩ := build_eq_ok h
  exact ⟨hg, (Layout.solve_sound hg.valid.proper hsolve).1⟩

theorem mayContain_of_mem {hashes : List UInt64} {seed : UInt64} {tries : Nat} {f : Fuse w}
    (h : build w hashes seed tries = .ok f) {q : UInt64} (hq : q ∈ hashes) :
    f.mayContain q = true := by
  obtain ⟨hg, hsolve⟩ := build_eq_ok h
  have hsum := (Layout.solve_sound hg.valid.proper hsolve).2 q (mem_distinct.mpr hq)
  simp [mayContain, hsum]

/-! ### The stored form -/

theorem isPowerOfTwo_iff {n : Nat} : 1 <<< n.log2 = n ↔ ∃ e, n = 2 ^ e := by
  rw [Nat.one_shiftLeft]
  constructor
  · exact fun h => ⟨_, h.symm⟩
  · rintro ⟨e, rfl⟩
    rw [Nat.log2_two_pow]

theorem readSegments_eq_ok_iff {length spread slots : Nat} {g : Segments} :
    readSegments length spread slots = .ok g ↔
      g = ⟨length, spread⟩ ∧ g.Valid ∧ g.length ≤ Segments.maxLength ∧ slots = g.size := by
  simp only [readSegments, throw_if_eq_ok_iff, pure_eq_ok_iff, not_or, not_not, gt_iff_lt, not_lt,
    isPowerOfTwo_iff]
  constructor
  · rintro ⟨⟨hpow, hle⟩, ⟨hpos, hdvd⟩, hslots, rfl⟩
    exact ⟨rfl, ⟨hpow, Nat.dvd_of_mod_eq_zero hdvd, Nat.pos_of_ne_zero hpos⟩, hle, hslots⟩
  · rintro ⟨rfl, ⟨hpow, hdvd, hpos⟩, hle, hslots⟩
    exact ⟨⟨hpow, hle⟩, ⟨Nat.pos_iff_ne_zero.mp hpos, Nat.mod_eq_zero_of_dvd hdvd⟩, hslots, rfl⟩

theorem decode_eq_ok_iff {body : List UInt8} {f : Fuse w} : decode w body = .ok f ↔
    ∃ head data, body = head ++ data ∧ head.length = headerSize ∧
      (Segments.mk (fieldAt 8 4 head) (fieldAt 12 4 head)).Valid ∧
      fieldAt 8 4 head ≤ Segments.maxLength ∧
      fieldAt 16 4 head = (Segments.mk (fieldAt 8 4 head) (fieldAt 12 4 head)).size ∧
      data.length = fieldAt 16 4 head * (w / 8) ∧
      ⟨(fieldAt 0 8 head).toUInt64, ⟨fieldAt 8 4 head, fieldAt 12 4 head⟩,
        unpack (w / 8) (BitVec.ofNat w) (fieldAt 16 4 head) data⟩ = f := by
  simp only [decode, Cursor.header_bind_eq_ok_iff, bind_eq_ok_iff (x := readSegments ..),
    Cursor.bulk_bind_eq_ok_iff, Cursor.finish_bind_eq_ok_iff, readSegments_eq_ok_iff,
    pure_eq_ok_iff, Cursor.ofBytes_rest]
  constructor
  · rintro ⟨head, _, hbody, hlen, g, ⟨rfl, hg, hle, hslots⟩, data, rest, rfl, hdata, rfl, hf⟩
    rw [← hslots] at hdata hf
    exact ⟨head, data, by rw [hbody, List.append_nil], hlen, hg, hle, hslots, hdata, hf⟩
  · rintro ⟨head, data, hbody, hlen, hg, hle, hslots, hdata, hf⟩
    rw [hslots] at hdata hf
    exact ⟨head, data, hbody, hlen, _, ⟨rfl, hg, hle, hslots⟩, data, [],
      (List.append_nil _).symm, hdata, rfl, hf⟩

theorem stored_of_decode (hw : 8 * (w / 8) = w) {body : List UInt8} {f : Fuse w}
    (h : decode w body = .ok f) : f.Stored ∧ f.encode = body := by
  obtain ⟨head, data, rfl, hlen, hg, hle, hslots, hdata, rfl⟩ := decode_eq_ok_iff.mp h
  have hlt := fieldAt_lt 16 4 head
  refine ⟨⟨⟨hg, hle, hslots ▸ hlt⟩, (size_unpack ..).trans hslots⟩, ?_⟩
  have hhead := fieldsFrom_zero [8, 4, 4, 4] hlen
  rw [encode, toNat_toUInt64_of_lt (fieldAt_lt ..), pack_unpack (toNat_ofNat_of_lt hw) hdata,
    ← hslots]
  simp only [fieldsFrom, Nat.zero_add, List.append_nil, Nat.reduceAdd] at hhead
  simp only [← List.append_assoc] at hhead
  exact congrArg (· ++ data) hhead

theorem decode_encode (hw : 8 * (w / 8) = w) {f : Fuse w} (hf : f.Stored) :
    decode w f.encode = .ok f := by
  have hsize := hf.segments.size_lt
  have hlength : f.segments.length < 256 ^ 4 := by
    simp only [Segments.size] at hsize
    omega
  have hspread : f.segments.spread < 256 ^ 4 := by
    simp only [Segments.size] at hsize
    omega
  refine decode_eq_ok_iff.mpr ⟨_, _, rfl, by simp; rfl, ?_, ?_, ?_, ?_, ?_⟩ <;>
    simp only [List.append_assoc, fieldAt_zero_bytes_append, fieldAt_bytes_append, Nat.reduceLeDiff,
      Nat.reduceSub, Nat.le_refl, Nat.sub_self, fieldAt_bytes, Nat.mod_eq_of_lt hlength,
      Nat.mod_eq_of_lt hspread, Nat.mod_eq_of_lt hsize]
  · exact hf.segments.valid
  · exact hf.segments.length_le
  · rw [length_pack, hf.size_slots]
  · rw [← hf.size_slots, unpack_pack (ofNat_toNat_mod hw), toUInt64_toNat_mod]

theorem length_encode (f : Fuse w) : f.encode.length = f.size := by
  simp only [encode, List.length_append, length_bytes, length_pack, size, headerSize]

end Fuse

end ApproxSet
