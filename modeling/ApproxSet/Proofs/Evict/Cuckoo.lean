import ApproxSet.Evict.Cuckoo
import ApproxSet.Family
import ApproxSet.Proofs.Evict.Dense
import ApproxSet.Proofs.Wire.Cursor
import ApproxSet.Proofs.Word.Digits

/-!
# Cuckoo filters

A built filter answers by the fingerprints and buckets of its hashes. The table is sized in 64-bit
arithmetic, which is exact up to `2 ^ 58` keys.
-/
namespace ApproxSet.Cuckoo
open LittleEndian

theorem scheme_valid {width : Nat} (h₁ : 1 ≤ width) (h₂ : width ≤ 16) (e : Nat) :
    (scheme width e).Valid (1 <<< e) where
  width_pos := h₁
  width_le := by
    change width ≤ 64
    omega
  home_lt h := Nat.mod_lt _ (by rw [Nat.one_shiftLeft]; exact Nat.two_pow_pos e)
  dvd _ := by
    rw [Nat.one_shiftLeft]
    exact Nat.dvd_refl _

theorem indexBitsFor_le {capacity k : Nat} (h : capacity ≤ 2 ^ (k + 2)) :
    indexBitsFor capacity ≤ k + 1 := by
  have hpow : 2 ^ (k + 2) = 4 * 2 ^ k := by
    rw [Nat.pow_add, Nat.mul_comm]
  have hceil : ceilLog2 ((capacity + 3) / 4) ≤ k := ceilLog2_le (by omega)
  simp only [indexBitsFor]
  split <;> omega

/-- The number of buckets is the least power of two that so many keys load to 0.96 at most. Up to
`2 ^ 50` buckets no number on the way is rounded. -/
theorem indexBitsFor_le_iff {capacity k : Nat} (hk : k ≤ 50) :
    indexBitsFor capacity ≤ k ↔ capacity * 2 ^ 53 ≤ loadLimit * 2 ^ (k + 2) := by
  have hslots : 2 ^ (k + 2) = 4 * 2 ^ k := by
    rw [Nat.pow_add, Nat.mul_comm]
  have hceil := le_two_pow_ceilLog2 ((capacity + 3) / 4)
  simp only [indexBitsFor]
  rcases Nat.lt_trichotomy (ceilLog2 ((capacity + 3) / 4)) k with hlt | heq | hgt
  · -- a table of half the slots already has one for each key
    have hhalf : 2 ^ ceilLog2 ((capacity + 3) / 4) * 2 ≤ 2 ^ k := by
      rw [← Nat.pow_succ]
      exact Nat.pow_le_pow_right (by decide) hlt
    refine iff_of_true ?_ ?_
    · split <;> omega
    · rw [loadLimit, hslots]
      omega
  · have hwords : 2 ^ (k + 2) ≤ 2 ^ 52 := Nat.pow_le_pow_right (by decide) (by omega)
    have hslots' : (1 <<< (k + 2)) % UInt64.size = 2 ^ (k + 2) := by
      rw [Nat.one_shiftLeft]
      exact Nat.mod_eq_of_lt (hwords.trans_lt (by decide))
    have hcap : significant 53 capacity = capacity := by
      rw [heq] at hceil
      exact significant_of_lt (by omega)
    rw [heq, overloads, hslots', hcap, Nat.shiftLeft_eq]
    by_cases hload : loadLimit * 2 ^ (k + 2) < capacity * 2 ^ 53
    · rw [decide_eq_true hload, if_pos rfl]
      omega
    · rw [decide_eq_false hload, if_neg Bool.false_ne_true]
      omega
  · -- there are more keys than slots
    have hmore : 2 ^ k < (capacity + 3) / 4 := by
      by_contra hle
      have hle' := ceilLog2_le (Nat.not_lt.mp hle)
      omega
    refine iff_of_false ?_ ?_
    · split <;> omega
    · rw [loadLimit, hslots]
      omega

/-- The most keys for which the reader takes a table, at `2 ^ 40` buckets loaded to 0.96. -/
def readableLimit : Nat := 4222124650659

theorem indexBitsFor_le_forty_iff {capacity : Nat} :
    indexBitsFor capacity ≤ 40 ↔ capacity ≤ readableLimit := by
  rw [indexBitsFor_le_iff (by decide), loadLimit, readableLimit]
  omega

/-- The bits of a table for so few buckets fit a word. -/
theorem bits_lt {width e : Nat} (hw : width ≤ 16) (he : e ≤ 57) :
    4 * width * (1 <<< e) < 2 ^ 64 := by
  rw [Nat.one_shiftLeft]
  calc 4 * width * 2 ^ e ≤ 64 * 2 ^ 57 :=
        Nat.mul_le_mul (by omega) (Nat.pow_le_pow_right (by decide) he)
    _ < 2 ^ 64 := by decide

theorem fresh {width e : Nat} (h₁ : 1 ≤ width) (h₂ : width ≤ 16) (he : e ≤ 57) :
    (scheme width e).Fresh (1 <<< e) (Dense.Good width (1 <<< e))
      (Dense.empty width (1 <<< e)) where
  valid := scheme_valid h₁ h₂ e
  acts := Dense.actsAs h₂ _
  good := Dense.good_empty (bits_lt h₂ he)
  get_eq_zero i k _ _ := Dense.get_empty h₂ _ i k

section Build

variable [Draws] {hashes : List UInt64} {width : Nat} {capacity : Option Nat} {seed : UInt64}
  {maxKicks : Nat} {f : Cuckoo}

theorem build_eq_ok (h : build hashes width capacity seed maxKicks = .ok f) :
    f.seed = seed ∧ f.indexBits = indexBitsFor (capacity.getD (distinct hashes).length) ∧
      (scheme width f.indexBits).store maxKicks seed (Dense.empty width (1 <<< f.indexBits))
        (distinct hashes) = .ok f.table := by
  simp only [build, bind_eq_ok_iff, pure_eq_ok_iff] at h
  rcases h with ⟨table, htable, rfl⟩
  dsimp only
  exact ⟨rfl, rfl, htable⟩

theorem build_eq_error {e : Error} (h : build hashes width capacity seed maxKicks = .error e) :
    e = .evictionExceeded maxKicks := by
  simp only [build, bind_eq_error_iff] at h
  rcases h with h | ⟨_, -, h⟩
  · exact Scheme.store_eq_error h
  · cases h

theorem width_of_build (h : build hashes width capacity seed maxKicks = .ok f) :
    f.table.width = width := by
  obtain ⟨-, -, hstore⟩ := build_eq_ok h
  refine Scheme.store_keeps (P := fun t => t.width = width) (fun t i k fp ht => ?_) rfl hstore
  rw [Dense.bucketTable_put, Dense.width_put, ht]

/-- Relocation keeps the size that the table was made with. -/
theorem size_of_build (h : build hashes width capacity seed maxKicks = .ok f) :
    f.table.bytes.size = Dense.byteSize width (1 <<< f.indexBits) := by
  obtain ⟨-, -, hstore⟩ := build_eq_ok h
  refine Scheme.store_keeps
    (P := fun t => t.bytes.size = Dense.byteSize width (1 <<< f.indexBits))
    (fun t i k fp ht => ?_) ?_ hstore
  · rw [Dense.bucketTable_put, Dense.size_put, ht]
  · rw [Dense.empty, Array.size_replicate]

theorem indexBits_le (h : build hashes width capacity seed maxKicks = .ok f) {k : Nat}
    (hcap : capacity.getD (distinct hashes).length ≤ 2 ^ (k + 2)) : f.indexBits ≤ k + 1 := by
  obtain ⟨-, hbits, -⟩ := build_eq_ok h
  rw [hbits]
  exact indexBitsFor_le hcap

theorem good_of_build (h₁ : 1 ≤ width) (h₂ : width ≤ 16)
    (hcap : capacity.getD (distinct hashes).length ≤ 2 ^ 58)
    (h : build hashes width capacity seed maxKicks = .ok f) :
    f.table.Good width (1 <<< f.indexBits) := by
  obtain ⟨-, -, hstore⟩ := build_eq_ok h
  exact ((fresh h₁ h₂ (indexBits_le h hcap)).content_store hstore).1

/-- A hash may be contained when a built hash has its fingerprint and its buckets. -/
theorem mayContain_build_iff (h₁ : 1 ≤ width) (h₂ : width ≤ 16)
    (hcap : capacity.getD (distinct hashes).length ≤ 2 ^ 58)
    (h : build hashes width capacity seed maxKicks = .ok f) (q : UInt64) :
    f.mayContain q = true ↔
      (scheme width (indexBitsFor (capacity.getD (distinct hashes).length))).Holds
        (hashes.map (mix · seed)) (mix q seed) := by
  obtain ⟨hseed, hbits, hstore⟩ := build_eq_ok h
  have hfresh := fresh h₁ h₂ (indexBits_le h hcap)
  obtain ⟨rfl, -⟩ := good_of_build h₁ h₂ hcap h
  rw [mayContain, hseed, ← hbits, ← Scheme.holds_distinct]
  exact hfresh.mayHold_store_iff hstore (fun _ i fp _ _ _ => Dense.contains_iff f.table h₂ i fp) _

theorem mayContain_of_mem (h₁ : 1 ≤ width) (h₂ : width ≤ 16)
    (hcap : capacity.getD (distinct hashes).length ≤ 2 ^ 58)
    (h : build hashes width capacity seed maxKicks = .ok f) {q : UInt64} (hq : q ∈ hashes) :
    f.mayContain q = true :=
  (mayContain_build_iff h₁ h₂ hcap h q).mpr
    ⟨_, List.mem_map_of_mem hq, rfl, Or.inl rfl⟩

end Build

/-! ### The stored form -/

/-- What a stored filter is known to be. -/
structure Stored (f : Cuckoo) : Prop where
  width_mem : f.table.width = 8 ∨ f.table.width = 12 ∨ f.table.width = 16
  indexBits_le : f.indexBits ≤ 40
  size_bytes : f.table.bytes.size = Dense.byteSize f.table.width (1 <<< f.indexBits)

theorem Stored.good {f : Cuckoo} (hf : f.Stored) :
    f.table.Good f.table.width (1 <<< f.indexBits) := by
  have hw := hf.width_mem
  have he := hf.indexBits_le
  have hlt := bits_lt (by omega : f.table.width ≤ 16) (by omega : f.indexBits ≤ 57)
  exact ⟨rfl, hf.size_bytes.trans (Dense.byteSize_eq hlt)⟩

theorem stored_of_build [Draws] {hashes : List UInt64} {w : BucketWidth} {capacity : Option Nat}
    {seed : UInt64} {maxKicks : Nat} {f : Cuckoo}
    (hcap : capacity.getD (distinct hashes).length ≤ readableLimit)
    (h : build hashes w.bits capacity seed maxKicks = .ok f) : f.Stored := by
  have hwidth := width_of_build h
  obtain ⟨-, hbits, -⟩ := build_eq_ok h
  refine ⟨?_, ?_, ?_⟩
  · rw [hwidth]
    exact BucketWidth.exists_eq_bits_iff.mp ⟨w, rfl⟩
  · rw [hbits]
    exact indexBitsFor_le_forty_iff.mpr hcap
  · rw [hwidth]
    exact size_of_build h

theorem decode_eq_ok_iff {body : List UInt8} {f : Cuckoo} : decode body = .ok f ↔
    ∃ head data, body = head ++ data ∧ head.length = headerSize ∧ fieldAt 9 1 head ≤ 40 ∧
      data.length = Dense.byteSize (fieldAt 8 1 head) (1 <<< fieldAt 9 1 head) ∧
      (fieldAt 8 1 head = 8 ∨ fieldAt 8 1 head = 12 ∨ fieldAt 8 1 head = 16) ∧
      ⟨(fieldAt 0 8 head).toUInt64, fieldAt 9 1 head, ⟨fieldAt 8 1 head, data.toArray⟩⟩ = f := by
  have hwidth (n : Nat) : (¬ (n ≠ 8 ∧ n ≠ 12 ∧ n ≠ 16)) ↔ n = 8 ∨ n = 12 ∨ n = 16 := by omega
  simp only [decode, Cursor.header_bind_eq_ok_iff, Cursor.bulk_bind_eq_ok_iff,
    Cursor.finish_bind_eq_ok_iff, throw_if_eq_ok_iff, pure_eq_ok_iff, Cursor.ofBytes_rest,
    gt_iff_lt, not_lt, hwidth]
  constructor
  · rintro ⟨head, _, hbody, hlen, he, data, rest, rfl, hdata, rfl, hw, hf⟩
    exact ⟨head, data, by rw [hbody, List.append_nil], hlen, he, hdata, hw, hf⟩
  · rintro ⟨head, data, hbody, hlen, he, hdata, hw, hf⟩
    exact ⟨head, data, hbody, hlen, he, data, [], (List.append_nil _).symm, hdata, rfl, hw, hf⟩

/-- More than `2 ^ 40` buckets are refused before the table is read. -/
theorem decode_eq_error {head : List UInt8} (hlen : head.length = headerSize)
    (he : 40 < fieldAt 9 1 head) (data : List UInt8) :
    decode (head ++ data) = .error (.invalidField "cuckoo idx_bits") := by
  have hhead : (Cursor.ofBytes (head ++ data)).header headerSize =
      .ok (head, ⟨headerSize, data⟩) := by
    have htake : (Cursor.ofBytes (head ++ data)).take? headerSize =
        some (head, ⟨headerSize, data⟩) :=
      Cursor.take?_eq_some_iff.mpr ⟨hlen, rfl, (Nat.zero_add _).symm⟩
    rw [Cursor.header, htake]
  rw [decode, hhead]
  exact if_pos he

theorem stored_of_decode {body : List UInt8} {f : Cuckoo} (h : decode body = .ok f) :
    f.Stored ∧ f.encode = body := by
  obtain ⟨head, data, rfl, hlen, he, hdata, hw, rfl⟩ := decode_eq_ok_iff.mp h
  refine ⟨⟨hw, he, hdata⟩, ?_⟩
  have hhead := fieldsFrom_zero [8, 1, 1] hlen
  rw [encode, toNat_toUInt64_of_lt (fieldAt_lt ..)]
  simp only [fieldsFrom, Nat.zero_add, List.append_nil, Nat.reduceAdd,
    ← List.append_assoc] at hhead
  exact congrArg (· ++ data) hhead

theorem decode_encode {f : Cuckoo} (hf : f.Stored) : decode f.encode = .ok f := by
  have hw := hf.width_mem
  have he := hf.indexBits_le
  have hw' : f.table.width < 256 ^ 1 := by omega
  have he' : f.indexBits < 256 ^ 1 := by omega
  refine decode_eq_ok_iff.mpr ⟨_, _, rfl, by simp; rfl, ?_, ?_, ?_, ?_⟩ <;>
    simp only [List.append_assoc, fieldAt_zero_bytes_append, fieldAt_bytes_append, Nat.reduceLeDiff,
      Nat.reduceSub, Nat.le_refl, Nat.sub_self, fieldAt_bytes, Nat.mod_eq_of_lt hw',
      Nat.mod_eq_of_lt he', toUInt64_toNat_mod]
  · exact he
  · exact hf.size_bytes
  · exact hw

theorem decode_encode_eq_error {f : Cuckoo} (he : 40 < f.indexBits) (he' : f.indexBits < 256) :
    decode f.encode = .error (.invalidField "cuckoo idx_bits") := by
  refine decode_eq_error (by simp; rfl) ?_ _
  simp only [List.append_assoc, fieldAt_bytes_append, Nat.reduceLeDiff, Nat.reduceSub, Nat.le_refl,
    Nat.sub_self, fieldAt_bytes]
  omega

theorem length_encode (f : Cuckoo) : f.encode.length = f.size := by
  simp only [encode, List.length_append, length_bytes, Array.length_toList, size, headerSize]

end ApproxSet.Cuckoo
