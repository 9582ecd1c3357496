import ApproxSet.Evict.Vacuum
import ApproxSet.Family
import ApproxSet.Proofs.Evict.Dense
import ApproxSet.Proofs.Evict.Loose
import ApproxSet.Proofs.Evict.Quad
import ApproxSet.Proofs.Wire.Cursor
import ApproxSet.Proofs.Word.Digits

/-!
# Vacuum filters

Every range length divides the number of buckets, so the alternate bucket exists. Packing the
buckets keeps their fingerprints, and a built filter of either form answers by the fingerprints and
buckets of its hashes.
-/
namespace ApproxSet.Vacuum
open LittleEndian

/-- Every range is a power of two that divides the number of buckets. -/
def RangesDivide (n : Nat) (ranges : Vector Nat 4) : Prop := ∀ r ∈ ranges, r ≤ 31 ∧ 2 ^ r ∣ n

theorem rangesDivide_iff {n : Nat} {ranges : Vector Nat 4} :
    RangesDivide n ranges ↔ ¬ (ranges.any fun r => r > 31 || n % (1 <<< r) != 0) = true := by
  rw [Bool.not_eq_true, Vector.any_eq_false']
  refine forall_congr' fun r => forall_congr' fun _ => ?_
  rw [Nat.one_shiftLeft, Bool.or_eq_true, not_or, decide_eq_true_iff, bne_iff_ne, not_not,
    Nat.not_lt, Nat.dvd_iff_mod_eq_zero]

theorem scheme_valid {width n : Nat} (h₁ : 1 ≤ width) (h₂ : width ≤ 64) (hn : 0 < n)
    {ranges : Vector Nat 4} (hr : RangesDivide n ranges) : (scheme width n ranges).Valid n where
  width_pos := h₁
  width_le := h₂
  home_lt _ := scale32_lt _ hn
  dvd _ := (hr _ (Vector.getElem_mem _)).2

theorem mem_ranges {a b c d r : Nat} : r ∈ #v[a, b, c, d] ↔ r = a ∨ r = b ∨ r = c ∨ r = d := by
  simp

/-- What the sizing gives for any number of keys. -/
theorem sizingFor_eq_ok {capacity : Nat} {z : Sizing} (h : sizingFor capacity = .ok z) :
    0 < z.buckets ∧ z.buckets < 256 ^ 4 ∧ RangesDivide z.buckets z.ranges := by
  have hsize32 : UInt32.size = 256 ^ 4 := by decide
  obtain ⟨needed, hneeded⟩ : ∃ m, m = max 1 ((5 * capacity + 17) / 18) := ⟨_, rfl⟩
  simp only [sizingFor, ← hneeded] at h
  split at h
  · rename_i hle
    cases h
    have he : ceilLog2 needed ≤ 10 := ceilLog2_le hle
    dsimp only
    rw [Nat.one_shiftLeft]
    refine ⟨Nat.two_pow_pos _, ?_, fun r hr => ?_⟩
    · calc 2 ^ ceilLog2 needed ≤ 2 ^ 10 := Nat.pow_le_pow_right (by decide) he
        _ < 256 ^ 4 := by decide
    · have hr : r = ceilLog2 needed := by simpa using hr
      rw [hr]
      exact ⟨by omega, Nat.dvd_refl _⟩
  · rename_i hgt
    obtain ⟨r, hr⟩ : ∃ r, r = max 10 (min 12 (needed / 8).log2) := ⟨_, rfl⟩
    simp only [← hr] at h
    split at h
    · rename_i hlt
      cases h
      have hpos : 0 < 1 <<< r := Nat.shiftLeft_pos_iff.mpr Nat.one_pos
      have hle := le_roundUpTo hpos needed
      have hdvd : 2 ^ r ∣ roundUpTo (1 <<< r) needed := by
        rw [Nat.one_shiftLeft]
        exact dvd_roundUpTo ..
      refine ⟨by dsimp only; omega, hsize32 ▸ hlt, fun s hs => ?_⟩
      have hsr : s ≤ r := by
        rcases mem_ranges.mp hs with rfl | rfl | rfl | rfl <;> omega
      exact ⟨by omega, (Nat.pow_dvd_pow 2 hsr).trans hdvd⟩
    · cases h

/-- Up to `2 ^ 32` keys the number of buckets fits its field. -/
theorem exists_sizingFor {capacity : Nat} (h : capacity ≤ 2 ^ 32) :
    ∃ z, sizingFor capacity = .ok z := by
  obtain ⟨needed, hneeded⟩ : ∃ m, m = max 1 ((5 * capacity + 17) / 18) := ⟨_, rfl⟩
  simp only [sizingFor, ← hneeded]
  split
  · exact ⟨_, rfl⟩
  · obtain ⟨r, hr⟩ : ∃ r, r = max 10 (min 12 (needed / 8).log2) := ⟨_, rfl⟩
    have hrange : 1 <<< r ≤ 2 ^ 12 := by
      rw [Nat.one_shiftLeft]
      exact Nat.pow_le_pow_right (by decide) (by omega)
    have hround := roundUpTo_lt (Nat.shiftLeft_pos_iff.mpr Nat.one_pos : 0 < 1 <<< r) needed
    have hsize32 : UInt32.size = 2 ^ 32 := rfl
    simp only [← hr]
    rw [if_pos (by omega)]
    exact ⟨_, rfl⟩

theorem sizingFor_eq_error {capacity : Nat} {e : Error} (h : sizingFor capacity = .error e) :
    e = .invalidField "vacuum num_buckets" := by
  simp only [sizingFor] at h
  split at h
  · cases h
  · split at h
    · cases h
    · cases h
      rfl

/-! ### Packed tables -/

theorem packedBits_eq {width : Nat} (h : 1 ≤ width) : packedBits width = 4 * (width - 1) := by
  rw [packedBits]
  omega

/-- The word of bucket `i`. -/
def packedWord (width : Nat) (t : Loose) (i : Nat) : UInt64 :=
  Quad.pack width ⟨t.slot i 0, t.slot i 1, t.slot i 2, t.slot i 3⟩

/-- The packing of the first `m` buckets into a given array. -/
def packFirst (width m : Nat) (t : Loose) (bytes : Array UInt8) : Array UInt8 :=
  (List.range m).foldl
    (fun bytes i => BitField.set bytes (packedBits width * i)
      (BitField.lowMask (packedBits width)) (packedWord width t i)) bytes

theorem packFirst_succ (width m : Nat) (t : Loose) (bytes : Array UInt8) :
    packFirst width (m + 1) t bytes =
      BitField.set (packFirst width m t bytes) (packedBits width * m)
        (BitField.lowMask (packedBits width)) (packedWord width t m) := by
  rw [packFirst, List.range_succ, List.foldl_append, List.foldl_cons, List.foldl_nil, packFirst]

theorem size_packFirst (width m : Nat) (t : Loose) (bytes : Array UInt8) :
    (packFirst width m t bytes).size = bytes.size := by
  induction m with
  | zero => rfl
  | succ m ih => rw [packFirst_succ, BitField.size_set, ih]

theorem packTable_eq (width n : Nat) (t : Loose) :
    packTable width n t = packFirst width n t (Array.replicate (packedSize width n) 0) := rfl

theorem size_packTable (width n : Nat) (t : Loose) :
    (packTable width n t).size = packedSize width n := by
  rw [packTable_eq, size_packFirst, Array.size_replicate]

theorem packedWord_slots_lt {width n : Nat} {t : Loose} (hg : t.Good width n) (i : Nat) :
    ∀ fp ∈ (⟨t.slot i 0, t.slot i 1, t.slot i 2, t.slot i 3⟩ : Quad UInt32).toList,
      fp.toNat < 2 ^ width := by
  intro fp hfp
  simp only [Quad.toList, List.mem_cons, List.not_mem_nil, or_false] at hfp
  rcases hfp with rfl | rfl | rfl | rfl <;> exact hg.slot_lt i _

section

variable {width : Nat} (h₁ : 5 ≤ width) (h₂ : width ≤ 17)
include h₁ h₂

theorem packed_in_window (i : Nat) : packedBits width * i % 8 + packedBits width ≤ 64 := by
  rw [packedBits_eq (by omega)]
  exact Dense.bucket_in_window (by omega) i

theorem bitAt_packedMask (j : Nat) :
    bitAt (BitField.lowMask (packedBits width)) j = decide (j < packedBits width) :=
  bitAt_lowMask (by rw [packedBits]; omega) j

/-- Packing bucket after bucket keeps the words of the buckets before. -/
theorem get_packFirst {n : Nat} {t : Loose} (hg : t.Good width n) (bytes : Array UInt8) {m i : Nat}
    (hi : i < m) (hroom : packedBits width * m ≤ 8 * bytes.size) :
    BitField.get (packFirst width m t bytes) (packedBits width * i)
      (BitField.lowMask (packedBits width)) = packedWord width t i := by
  induction m with
  | zero => omega
  | succ m ih =>
    rw [Nat.mul_add, Nat.mul_one] at hroom
    rw [packFirst_succ]
    by_cases hlast : i = m
    · subst hlast
      apply BitField.get_set_self (bitAt_packedMask h₁ h₂) (packed_in_window h₁ h₂ i)
      · rwa [size_packFirst]
      · exact Quad.pack_lt h₁ h₂ (packedWord_slots_lt hg i)
    · rw [BitField.get_set_of_disjoint _ (bitAt_packedMask h₁ h₂) (packed_in_window h₁ h₂ m)
        (bitAt_packedMask h₁ h₂) (packed_in_window h₁ h₂ i) (fields_apart hlast)]
      exact ih (by omega) (by omega)

theorem get_packTable {n : Nat} {t : Loose} (hg : t.Good width n) {i : Nat} (hi : i < n) :
    BitField.get (packTable width n t) (packedBits width * i)
      (BitField.lowMask (packedBits width)) = packedWord width t i := by
  rw [packTable_eq]
  apply get_packFirst h₁ h₂ hg _ hi
  rw [Array.size_replicate, packedSize]
  omega

/-- A packed bucket reads as the slots it was packed from, in ascending order. -/
theorem unpack?_packTable {n : Nat} {t : Loose} (hg : t.Good width n) {i : Nat} (hi : i < n) :
    Quad.unpack? width (BitField.get (packTable width n t) (packedBits width * i)
      (BitField.lowMask (packedBits width))) =
        some (Quad.sort ⟨t.slot i 0, t.slot i 1, t.slot i 2, t.slot i 3⟩) := by
  rw [get_packTable h₁ h₂ hg hi]
  exact Quad.unpack?_pack h₁ h₂ (packedWord_slots_lt hg i)

/-- A packed bucket holds a number when one of the slots it was packed from does. -/
theorem packed_contains_iff {f : Vacuum} (hp : f.packed = true) (hwidth : f.width = width) {n : Nat}
    {t : Loose} (hg : t.Good width n) (hbytes : f.bytes = packTable width n t) {i : Nat}
    (hi : i < n)
    (fp : UInt64) : f.contains i fp = true ↔ ∃ k, k < 4 ∧ t.get i k = fp := by
  simp only [contains, hp, if_true, hwidth, hbytes, unpack?_packTable h₁ h₂ hg hi, List.any_eq_true,
    beq_iff_eq, Quad.mem_sort]
  simp only [Quad.toList, List.mem_cons, List.not_mem_nil, or_false]
  constructor
  · rintro ⟨s, rfl | rfl | rfl | rfl, rfl⟩
    · exact ⟨0, by decide, rfl⟩
    · exact ⟨1, by decide, rfl⟩
    · exact ⟨2, by decide, rfl⟩
    · exact ⟨3, by decide, rfl⟩
  · rintro ⟨k, hk, rfl⟩
    obtain rfl | rfl | rfl | rfl : k = 0 ∨ k = 1 ∨ k = 2 ∨ k = 3 := by omega
    · exact ⟨_, Or.inl rfl, rfl⟩
    · exact ⟨_, Or.inr (Or.inl rfl), rfl⟩
    · exact ⟨_, Or.inr (Or.inr (Or.inl rfl)), rfl⟩
    · exact ⟨_, Or.inr (Or.inr (Or.inr rfl)), rfl⟩

end

/-- A plain bucket holds a number when a slot of the table behind it does. -/
theorem plain_contains_iff {f : Vacuum} (hp : f.packed = false) {width n : Nat}
    (hwidth : f.width = width) (hw : width ≤ 16) {t : Dense} (hg : t.Good width n)
    (hbytes : f.bytes = t.bytes) (i : Nat) (fp : UInt64) :
    f.contains i fp = true ↔ ∃ k, k < 4 ∧ t.get i k = fp := by
  have htable : (⟨f.width, f.bytes⟩ : Dense) = t := by
    cases t
    rw [hwidth, hbytes, ← hg.width_eq]
  simp only [contains, hp, Bool.false_eq_true, if_false, htable]
  exact Dense.contains_iff t (hg.width_eq ▸ hw) i fp

/-! ### Built filters -/

/-- Width of a stored fingerprint. -/
def storedWidth (width : Nat) (packed : Bool) : Nat := if packed then width + 1 else width

/-- The bits of a table of dense buckets fit a word. -/
theorem bits_lt {width n : Nat} (hw : width ≤ 16) (hn : n < 256 ^ 4) : 4 * width * n < 2 ^ 64 := by
  calc 4 * width * n ≤ 64 * 256 ^ 4 := Nat.mul_le_mul (by omega) hn.le
    _ < 2 ^ 64 := by decide

section Fresh

variable {capacity width : Nat} (h₁ : 4 ≤ width) (h₂ : width ≤ 16) {z : Sizing}
  (hz : sizingFor capacity = .ok z)
include h₁ h₂ hz

theorem fresh_packed : (scheme (width + 1) z.buckets z.ranges).Fresh z.buckets
    (Loose.Good (width + 1) z.buckets) (Loose.empty z.buckets) := by
  obtain ⟨hpos, -, hr⟩ := sizingFor_eq_ok hz
  have hword : width + 1 ≤ 32 := by omega
  exact ⟨scheme_valid (by omega) (by omega) hpos hr, Loose.actsAs hword _, Loose.good_empty ..,
    fun i k _ _ => Loose.get_empty _ i k⟩

theorem fresh_plain : (scheme width z.buckets z.ranges).Fresh z.buckets
    (Dense.Good width z.buckets) (Dense.empty width z.buckets) := by
  obtain ⟨hpos, hlt, hr⟩ := sizingFor_eq_ok hz
  exact ⟨scheme_valid (by omega) (by omega) hpos hr, Dense.actsAs h₂ _,
    Dense.good_empty (bits_lt h₂ hlt), fun i k _ _ => Dense.get_empty h₂ _ i k⟩

end Fresh

section Build

variable [Draws] {hashes : List UInt64} {width : Nat} {packed : Bool} {capacity : Option Nat}
  {seed : UInt64} {maxKicks : Nat} {f : Vacuum} {z : Sizing}

theorem build_packed_eq (hz : sizingFor (capacity.getD (distinct hashes).length) = .ok z) :
    build hashes width true capacity seed maxKicks =
      ((scheme (width + 1) z.buckets z.ranges).store maxKicks seed (Loose.empty z.buckets)
        (distinct hashes)).map fun t =>
          ⟨seed, width + 1, true, z.buckets, z.ranges, packTable (width + 1) z.buckets t⟩ := by
  simp only [build, hz, if_true]
  rfl

theorem build_plain_eq (hz : sizingFor (capacity.getD (distinct hashes).length) = .ok z) :
    build hashes width false capacity seed maxKicks =
      ((scheme width z.buckets z.ranges).store maxKicks seed (Dense.empty width z.buckets)
        (distinct hashes)).map fun t => ⟨seed, width, false, z.buckets, z.ranges, t.bytes⟩ := by
  simp only [build, hz, Bool.false_eq_true, if_false]
  rfl

theorem build_eq_error_of_sizing {e : Error}
    (hz : sizingFor (capacity.getD (distinct hashes).length) = .error e) :
    build hashes width packed capacity seed maxKicks = .error e := by
  simp only [build, hz]
  rfl

theorem build_eq_error {e : Error}
    (h : build hashes width packed capacity seed maxKicks = .error e) :
    e = .invalidField "vacuum num_buckets" ∨ e = .evictionExceeded maxKicks := by
  cases hz : sizingFor (capacity.getD (distinct hashes).length) with
  | error e' =>
    rw [build_eq_error_of_sizing hz] at h
    cases h
    exact Or.inl (sizingFor_eq_error hz)
  | ok z =>
    cases packed with
    | true =>
      rw [build_packed_eq hz, map_eq_error_iff] at h
      exact Or.inr (Scheme.store_eq_error h)
    | false =>
      rw [build_plain_eq hz, map_eq_error_iff] at h
      exact Or.inr (Scheme.store_eq_error h)

theorem build_packed_eq_ok (h : build hashes width true capacity seed maxKicks = .ok f) :
    ∃ z t, sizingFor (capacity.getD (distinct hashes).length) = .ok z ∧
      (scheme (width + 1) z.buckets z.ranges).store maxKicks seed (Loose.empty z.buckets)
        (distinct hashes) = .ok t ∧
      f = ⟨seed, width + 1, true, z.buckets, z.ranges, packTable (width + 1) z.buckets t⟩ := by
  simp only [build, bind_eq_ok_iff, pure_eq_ok_iff, if_true] at h
  rcases h with ⟨z, hz, t, ht, hf⟩
  exact ⟨z, t, hz, ht, hf.symm⟩

theorem build_plain_eq_ok (h : build hashes width false capacity seed maxKicks = .ok f) :
    ∃ z t, sizingFor (capacity.getD (distinct hashes).length) = .ok z ∧
      (scheme width z.buckets z.ranges).store maxKicks seed (Dense.empty width z.buckets)
        (distinct hashes) = .ok t ∧
      f = ⟨seed, width, false, z.buckets, z.ranges, t.bytes⟩ := by
  simp only [build, bind_eq_ok_iff, pure_eq_ok_iff, Bool.false_eq_true, if_false] at h
  rcases h with ⟨z, hz, t, ht, hf⟩
  exact ⟨z, t, hz, ht, hf.symm⟩

theorem width_of_build (h : build hashes width packed capacity seed maxKicks = .ok f) :
    f.width = storedWidth width packed := by
  cases packed with
  | true =>
    obtain ⟨z, t, -, -, rfl⟩ := build_packed_eq_ok h
    rfl
  | false =>
    obtain ⟨z, t, -, -, rfl⟩ := build_plain_eq_ok h
    rfl

/-- A hash may be contained when a built hash has its fingerprint and its buckets. -/
theorem mayContain_build_iff (h₁ : 4 ≤ width) (h₂ : width ≤ 16)
    (h : build hashes width packed capacity seed maxKicks = .ok f) :
    ∃ z, sizingFor (capacity.getD (distinct hashes).length) = .ok z ∧ ∀ q,
      f.mayContain q = true ↔ (scheme (storedWidth width packed) z.buckets z.ranges).Holds
        (hashes.map (mix · seed)) (mix q seed) := by
  cases packed with
  | true =>
    obtain ⟨z, t, hz, hstore, rfl⟩ := build_packed_eq_ok h
    have hlow : 5 ≤ width + 1 := by omega
    have hhigh : width + 1 ≤ 17 := by omega
    refine ⟨z, hz, fun q => ?_⟩
    rw [← Scheme.holds_distinct]
    exact (fresh_packed h₁ h₂ hz).mayHold_store_iff hstore
      (fun hg i fp hi _ _ => packed_contains_iff hlow hhigh rfl rfl hg rfl hi fp) _
  | false =>
    obtain ⟨z, t, hz, hstore, rfl⟩ := build_plain_eq_ok h
    refine ⟨z, hz, fun q => ?_⟩
    rw [← Scheme.holds_distinct]
    exact (fresh_plain h₁ h₂ hz).mayHold_store_iff hstore
      (fun hg i fp _ _ _ => plain_contains_iff rfl rfl h₂ hg rfl i fp) _

theorem mayContain_of_mem (h₁ : 4 ≤ width) (h₂ : width ≤ 16)
    (h : build hashes width packed capacity seed maxKicks = .ok f) {q : UInt64}
    (hq : q ∈ hashes) : f.mayContain q = true := by
  obtain ⟨z, -, hiff⟩ := mayContain_build_iff h₁ h₂ h
  exact (hiff q).mpr ⟨_, List.mem_map_of_mem hq, rfl, Or.inl rfl⟩

end Build

/-! ### The stored form -/

/-- Bytes of the buckets of a filter. -/
def tableSize (f : Vacuum) : Nat :=
  if f.packed then packedSize f.width f.buckets else Dense.byteSize f.width f.buckets

/-- What a stored filter is known to be. -/
structure Stored (f : Vacuum) : Prop where
  width_fits : widthFits f.width f.packed = true
  pos : 0 < f.buckets
  lt : f.buckets < 256 ^ 4
  ranges : RangesDivide f.buckets f.ranges
  size_bytes : f.bytes.size = f.tableSize

theorem widthFits_iff {width : Nat} {packed : Bool} : widthFits width packed = true ↔
    ∃ w : BucketWidth, width = storedWidth w.bits packed := by
  cases packed with
  | true =>
    have hsucc : (∃ w : BucketWidth, width = w.bits + 1) ↔
        ∃ w : BucketWidth, width - 1 = w.bits := by
      apply exists_congr
      intro w
      cases w <;> simp only [BucketWidth.bits] <;> omega
    simp only [storedWidth, if_true, hsucc, BucketWidth.exists_eq_bits_iff]
    simp [widthFits, or_assoc]
  | false =>
    simp only [storedWidth, Bool.false_eq_true, if_false, BucketWidth.exists_eq_bits_iff]
    simp [widthFits, or_assoc]

theorem Stored.width_bounds {f : Vacuum} (hf : f.Stored) :
    4 ≤ f.width ∧ f.width ≤ 17 ∧ (f.packed = false → f.width ≤ 16) := by
  obtain ⟨w, hw⟩ := widthFits_iff.mp hf.width_fits
  rw [hw, storedWidth]
  cases w <;> cases f.packed <;> decide

theorem stored_of_build [Draws] {hashes : List UInt64} {w : BucketWidth} {packed : Bool}
    {capacity : Option Nat} {seed : UInt64} {maxKicks : Nat} {f : Vacuum}
    (h : build hashes w.bits packed capacity seed maxKicks = .ok f) : f.Stored := by
  obtain ⟨h₁, h₂⟩ := w.bits_bounds
  cases packed with
  | true =>
    obtain ⟨z, t, hz, hstore, rfl⟩ := build_packed_eq_ok h
    obtain ⟨hpos, hlt, hr⟩ := sizingFor_eq_ok hz
    exact ⟨widthFits_iff.mpr ⟨w, rfl⟩, hpos, hlt, hr, size_packTable ..⟩
  | false =>
    obtain ⟨z, t, hz, hstore, rfl⟩ := build_plain_eq_ok h
    obtain ⟨hpos, hlt, hr⟩ := sizingFor_eq_ok hz
    obtain ⟨hg, -⟩ := (fresh_plain h₁ h₂ hz).content_store hstore
    exact ⟨widthFits_iff.mpr ⟨w, rfl⟩, hpos, hlt, hr,
      hg.size_eq.trans (Dense.byteSize_eq (bits_lt h₂ hlt)).symm⟩

theorem exists_ranges (ranges : Vector Nat 4) : ∃ a b c d, ranges = #v[a, b, c, d] := by
  refine ⟨ranges[0], ranges[1], ranges[2], ranges[3], ?_⟩
  ext i hi
  obtain rfl | rfl | rfl | rfl : i = 0 ∨ i = 1 ∨ i = 2 ∨ i = 3 := by omega
  all_goals rfl

theorem pack_ranges (a b c d : Nat) : pack 1 id (#v[a, b, c, d] : Vector Nat 4).toArray =
    LittleEndian.bytes 1 a ++ (LittleEndian.bytes 1 b ++
      (LittleEndian.bytes 1 c ++ LittleEndian.bytes 1 d)) := by
  simp [pack]

/-- The filter that a header and a table describe. -/
def ofHeader (head data : List UInt8) : Vacuum :=
  ⟨(fieldAt 0 8 head).toUInt64, fieldAt 8 1 head, fieldAt 9 1 head == 1, fieldAt 10 4 head,
    #v[fieldAt 14 1 head, fieldAt 15 1 head, fieldAt 16 1 head, fieldAt 17 1 head], data.toArray⟩

theorem decode_eq_ok_iff {body : List UInt8} {f : Vacuum} : decode body = .ok f ↔
    ∃ head data, body = head ++ data ∧ head.length = headerSize ∧ fieldAt 9 1 head ≤ 1 ∧
      (ofHeader head data).Stored ∧ ofHeader head data = f := by
  simp only [decode, Cursor.header_bind_eq_ok_iff, Cursor.bulk_bind_eq_ok_iff,
    Cursor.finish_bind_eq_ok_iff, throw_if_eq_ok_iff, pure_eq_ok_iff, Cursor.ofBytes_rest,
    gt_iff_lt, not_lt, ← rangesDivide_iff, Bool.not_eq_true', Bool.not_eq_false]
  constructor
  · rintro ⟨head, _, hbody, hlen, hform, hwidth, hn, hr, data, rest, rfl, hdata, rfl, hf⟩
    exact ⟨head, data, by rw [hbody, List.append_nil], hlen, hform,
      ⟨hwidth, Nat.pos_of_ne_zero hn, fieldAt_lt .., hr, hdata⟩, hf⟩
  · rintro ⟨head, data, hbody, hlen, hform, ⟨hwidth, hpos, -, hr, hdata⟩, hf⟩
    exact ⟨head, data, hbody, hlen, hform, hwidth, Nat.pos_iff_ne_zero.mp hpos, hr, data, [],
      (List.append_nil _).symm, hdata, rfl, hf⟩

theorem stored_of_decode {body : List UInt8} {f : Vacuum} (h : decode body = .ok f) :
    f.Stored ∧ f.encode = body := by
  obtain ⟨head, data, rfl, hlen, hform, hstored, rfl⟩ := decode_eq_ok_iff.mp h
  refine ⟨hstored, ?_⟩
  have hhead := fieldsFrom_zero [8, 1, 1, 4, 1, 1, 1, 1] hlen
  have hpacked : (fieldAt 9 1 head == 1).toNat = fieldAt 9 1 head := by
    obtain h | h : fieldAt 9 1 head = 0 ∨ fieldAt 9 1 head = 1 := by omega
    all_goals rw [h]; rfl
  rw [encode, ofHeader, pack_ranges, toNat_toUInt64_of_lt (fieldAt_lt ..), hpacked]
  simp only [fieldsFrom, Nat.zero_add, List.append_nil, Nat.reduceAdd] at hhead
  simp only [← List.append_assoc] at hhead ⊢
  exact congrArg (· ++ data) hhead

theorem decode_encode {f : Vacuum} (hf : f.Stored) : decode f.encode = .ok f := by
  rcases f with ⟨seed, width, packed, n, ranges, table⟩
  obtain ⟨a, b, c, d, rfl⟩ := exists_ranges ranges
  have hwidth : width < 256 ^ 1 := hf.width_bounds.2.1.trans_lt (by decide)
  have hpacked : packed.toNat < 256 ^ 1 := by cases packed <;> decide
  have hform : (packed.toNat == 1) = packed := by cases packed <;> rfl
  have hrange {r : Nat} (hr : r ∈ #v[a, b, c, d]) : r < 256 ^ 1 := by
    have h := (hf.ranges r hr).1
    omega
  have ha := hrange (r := a) (by simp)
  have hb := hrange (r := b) (by simp)
  have hc := hrange (r := c) (by simp)
  have hd := hrange (r := d) (by simp)
  have hn : n < 256 ^ 4 := hf.lt
  have hheader : ofHeader (LittleEndian.bytes 8 seed.toNat ++ LittleEndian.bytes 1 width ++
      LittleEndian.bytes 1 packed.toNat ++ LittleEndian.bytes 4 n ++ (LittleEndian.bytes 1 a ++
        (LittleEndian.bytes 1 b ++ (LittleEndian.bytes 1 c ++ LittleEndian.bytes 1 d))))
      table.toList =
        ⟨seed, width, packed, n, #v[a, b, c, d], table⟩ := by
    simp only [ofHeader, List.append_assoc, fieldAt_zero_bytes_append, fieldAt_bytes_append,
      Nat.reduceLeDiff, Nat.reduceSub, Nat.le_refl, Nat.sub_self, fieldAt_bytes,
      Nat.mod_eq_of_lt hwidth, Nat.mod_eq_of_lt hpacked, Nat.mod_eq_of_lt hn, Nat.mod_eq_of_lt ha,
      Nat.mod_eq_of_lt hb, Nat.mod_eq_of_lt hc, Nat.mod_eq_of_lt hd, hform, toUInt64_toNat_mod,
      Array.toArray_toList]
  refine decode_eq_ok_iff.mpr ⟨_, table.toList, ?_, ?_, ?_, ?_, hheader⟩
  · rw [encode, pack_ranges]
  · simp only [List.length_append, length_bytes, headerSize]
  · simp only [List.append_assoc, fieldAt_bytes_append, Nat.reduceLeDiff, Nat.reduceSub,
      fieldAt_zero_bytes_append, Nat.mod_eq_of_lt hpacked]
    cases packed <;> decide
  · rw [hheader]
    exact hf

theorem length_encode (f : Vacuum) : f.encode.length = f.size := by
  simp only [encode, List.length_append, length_bytes, length_pack, Array.length_toList, size,
    headerSize, Vector.size_toArray]

end ApproxSet.Vacuum
