import ApproxSet.Proofs.Evict.Cuckoo

/-!
# Tables that are made too large

A cuckoo table is made for any capacity. The reader takes it up to `readableLimit` keys and refuses
it beyond. The size in bits is taken modulo `2 ^ 64`, so far beyond that limit the table comes out
too short; when nothing is left of it, the build still succeeds and every hash is lost.
-/
namespace ApproxSet.Cuckoo

/-- The number of keys that a table is made for: the capacity, or else that of distinct hashes. -/
def wanted (hashes : List UInt64) (capacity : Option UInt64) : Nat :=
  (capacity.map UInt64.toNat).getD (distinct hashes).length

theorem wanted_le (hashes : List UInt64) (capacity : Option UInt64) :
    wanted hashes capacity ≤ 2 ^ 64 := by
  cases capacity with
  | none => exact (length_distinct_le_size hashes).trans (by decide)
  | some c => exact c.toNat_lt.le

/-- A filter without bytes contains nothing. -/
theorem mayContain_of_size_eq_zero {f : Cuckoo} (hw : f.table.width ≤ 16)
    (h : f.table.bytes.size = 0) (q : UInt64) : f.mayContain q = false := by
  have hempty (i : Nat) {fp : UInt64} (hfp : fp ≠ 0) : f.table.contains i fp = false := by
    rw [← Bool.not_eq_true, Dense.contains_iff _ hw]
    rintro ⟨k, -, hget⟩
    rw [Dense.get_of_size_eq_zero _ hw h] at hget
    exact hfp hget.symm
  have hne := Scheme.fingerprint_ne_zero (scheme f.table.width f.indexBits) (mix q f.seed)
  rw [mayContain, Scheme.mayHold, hempty _ hne, hempty _ hne, Bool.or_false]

/-- Without hashes there is a table for every capacity. -/
theorem build_nil [Draws] (width : Nat) (capacity : Option Nat) (seed : UInt64) (maxKicks : Nat) :
    build [] width capacity seed maxKicks =
      .ok ⟨seed, indexBitsFor (capacity.getD 0),
        Dense.empty width (1 <<< indexBitsFor (capacity.getD 0))⟩ := by
  rw [build, distinct_of_ascending List.Pairwise.nil]
  rfl

/-- What a built table is worth. Up to `readableLimit` keys it has the bytes of its buckets and is
read back as it was; beyond, the reader refuses it. Its size is right just when its bits can be
counted in a word, and when their number is a multiple of `2 ^ 64` all hashes are lost. -/
theorem readable_up_to_limit [Draws] (w : BucketWidth) (hashes : List UInt64)
    (capacity : Option UInt64) (seed : UInt64) (maxKicks : Nat) (f : Cuckoo)
    (h : build hashes w.bits (capacity.map UInt64.toNat) seed maxKicks = .ok f) :
    (wanted hashes capacity ≤ readableLimit →
        f.table.bytes.size = (1 <<< indexBitsFor (wanted hashes capacity)) * 4 * w.bits / 8 ∧
          decode f.encode = .ok f) ∧
      (readableLimit < wanted hashes capacity →
        decode f.encode = .error (.invalidField "cuckoo idx_bits")) ∧
      (f.table.bytes.size = (1 <<< indexBitsFor (wanted hashes capacity)) * 4 * w.bits / 8 ↔
        (1 <<< indexBitsFor (wanted hashes capacity)) * 4 * w.bits < 2 ^ 64) ∧
      (2 ^ 64 ∣ (1 <<< indexBitsFor (wanted hashes capacity)) * 4 * w.bits →
        ∀ q, f.mayContain q = false) := by
  have hw := BucketWidth.exists_eq_bits_iff.mp ⟨w, rfl⟩
  have hwidth := width_of_build h
  have hsize := size_of_build h
  obtain ⟨-, hbits, -⟩ := build_eq_ok h
  rw [← wanted] at hbits
  have hcount : (1 <<< indexBitsFor (wanted hashes capacity)) * 4 * w.bits =
      4 * w.bits * (1 <<< f.indexBits) := by
    rw [hbits]
    ring
  have hdvd : 8 ∣ 4 * w.bits * (1 <<< f.indexBits) := Dvd.dvd.mul_right (by omega) _
  rw [hcount, hsize, Dense.byteSize_eq_iff hdvd]
  refine ⟨?_, ?_, Iff.rfl, ?_⟩
  · intro hle
    have he := indexBitsFor_le_forty_iff.mpr hle
    exact ⟨bits_lt (by omega) (by omega), decode_encode (stored_of_build hle h)⟩
  · intro hlt
    have he : ¬ f.indexBits ≤ 40 := by
      rw [hbits, indexBitsFor_le_forty_iff]
      omega
    -- no more than `2 ^ 64` keys are wanted, so the header holds the logarithm as it is
    have htop := indexBitsFor_le (k := 62) (wanted_le hashes capacity)
    exact decode_encode_eq_error (by omega) (by omega)
  · intro hall q
    exact mayContain_of_size_eq_zero (by omega)
      (hsize.trans ((Dense.byteSize_eq_zero_iff hdvd).mpr hall)) q

/-- Seven hashes in two buckets, and the capacities on both sides of the limit. -/
theorem readable_up_to_limit_seven :
    (∃ f, build [1, 2, 3, 4, 5, 6, 7] 12 (some 7) 0 100 = .ok f ∧
      f.table.bytes.size = 12 ∧ decode f.encode = .ok f) ∧
    (∃ f, build [] 12 (some 4222124650659) 0 100 = .ok f ∧ decode f.encode = .ok f) ∧
    ∃ f, build [] 12 (some 4222124650660) 0 100 = .ok f ∧
      decode f.encode = .error (.invalidField "cuckoo idx_bits") := by
  have hseven : (build [1, 2, 3, 4, 5, 6, 7] 12 (some 7) 0 100).isOk = true := by
    rw [build, distinct_of_ascending (by decide)]
    decide +kernel
  obtain ⟨f, hf⟩ := exists_ok_of_isOk hseven
  obtain ⟨hsize, hread⟩ := (readable_up_to_limit .twelve _ (some 7) 0 100 f hf).1 (by decide)
  have hbytes : (1 <<< indexBitsFor (wanted [1, 2, 3, 4, 5, 6, 7] (some 7))) * 4 *
      BucketWidth.twelve.bits / 8 = 12 := by
    decide +kernel
  have hlast := build_nil 12 (some 4222124650659) 0 100
  have hnext := build_nil 12 (some 4222124650660) 0 100
  exact ⟨⟨f, hf, hsize.trans hbytes, hread⟩,
    ⟨_, hlast, ((readable_up_to_limit .twelve [] (some 4222124650659) 0 100 _ hlast).1
      (by decide)).2⟩,
    ⟨_, hnext, (readable_up_to_limit .twelve [] (some 4222124650660) 0 100 _ hnext).2.1
      (by decide)⟩⟩

/-- At the greatest capacity `2 ^ 63` buckets are made of no bytes: three hashes are stored without
an error, the reader refuses what is written, and the hashes are gone. -/
theorem empty_table_of_greatest_capacity :
    ∃ f, build [1, 2, 3] 8 (some (2 ^ 64 - 1)) 0 100 = .ok f ∧
      f.table.bytes.size ≠ (1 <<< indexBitsFor (2 ^ 64 - 1)) * 4 * 8 / 8 ∧
      decode f.encode = .error (.invalidField "cuckoo idx_bits") ∧
      f.mayContain 1 = false := by
  have hthree : (build [1, 2, 3] 8 (some (2 ^ 64 - 1)) 0 100).isOk = true := by
    rw [build, distinct_of_ascending (by decide)]
    decide +kernel
  obtain ⟨f, hf⟩ := exists_ok_of_isOk hthree
  have hwidth := width_of_build hf
  have hsize := size_of_build hf
  obtain ⟨-, hbits, -⟩ := build_eq_ok hf
  have htop : f.indexBits = 63 := hbits.trans (by decide +kernel)
  have hnone : f.table.bytes.size = 0 := by
    rw [hsize, htop]
    decide +kernel
  refine ⟨f, hf, ?_, decode_encode_eq_error (by omega) (by omega),
    mayContain_of_size_eq_zero (by omega) hnone 1⟩
  rw [hnone]
  decide +kernel

end ApproxSet.Cuckoo
