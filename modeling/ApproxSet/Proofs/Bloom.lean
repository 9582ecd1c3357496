import ApproxSet.Bloom
import ApproxSet.Proofs.Wire.Cursor
import ApproxSet.Proofs.Word.Bits

/-!
# Blocked Bloom filters

The words hold the bits of the marked hashes and no others, so a filter contains every hash it was
built over. A stored filter has eight words for each of its buckets, and at least one bucket.
-/
namespace ApproxSet.Bloom
open LittleEndian

/-- The place of the bit that a hash has in word `i` of its bucket. -/
def bitIndex (h : UInt32) (i : Fin 8) : Nat := ((h * salts.get i) >>> 26).toNat

theorem bitIndex_lt (h : UInt32) (i : Fin 8) : bitIndex h i < 64 := by
  rw [bitIndex, UInt32.toNat_shiftRight]
  have hlt := (h * salts.get i).toNat_lt
  change (h * salts.get i).toNat >>> 26 < 64
  rw [Nat.shiftRight_eq_div_pow]
  exact Nat.div_lt_of_lt_mul hlt

theorem bit_eq (h : UInt32) (i : Fin 8) : bit h i = 1 <<< (bitIndex h i).toUInt64 := by
  rw [bit, bitIndex, Nat.toUInt64_eq, UInt64.ofNat_uInt32ToNat]
  rfl

theorem bitAt_bit (h : UInt32) (i : Fin 8) (j : Nat) :
    bitAt (bit h i) j = decide (bitIndex h i = j) := by
  rw [bit_eq, bitAt_one_shiftLeft (bitIndex_lt h i)]

/-- Equal bits of a word stand in the same place. -/
theorem bit_eq_bit_iff {h h' : UInt32} {i : Fin 8} :
    bit h i = bit h' i ↔ bitIndex h i = bitIndex h' i := by
  constructor
  · intro heq
    have hself := bitAt_bit h i (bitIndex h i)
    rw [heq, bitAt_bit, decide_eq_decide] at hself
    exact (hself.mpr rfl).symm
  · intro heq
    rw [bit_eq, bit_eq, heq]

theorem and_bit_ne_zero (w : UInt64) (h : UInt32) (i : Fin 8) :
    (w &&& bit h i != 0) = bitAt w (bitIndex h i) := by
  have hself := bitAt_bit h i (bitIndex h i)
  cases hw : bitAt w (bitIndex h i)
  · have hz : w &&& bit h i = 0 := by
      apply eq_of_bitAt
      intro j _
      rw [bitAt_and, bitAt_bit, bitAt_zero]
      by_cases hj : bitIndex h i = j
      · rw [← hj, hw, Bool.false_and]
      · simp [hj]
    simp [hz]
  · have hne : w &&& bit h i ≠ 0 := by
      intro hz
      have hb := congrArg (bitAt · (bitIndex h i)) hz
      simp [hw, hself] at hb
    simpa using hne

theorem getD_modify {ws : Array UInt64} {s : Nat} (hs : s < ws.size) (f : UInt64 → UInt64)
    (i : Nat) : (ws.modify s f).getD i 0 = if i = s then f (ws.getD s 0) else ws.getD i 0 := by
  simp only [Array.getD_eq_getD_getElem?, Array.getElem?_modify]
  by_cases hi : i = s
  · subst hi
    simp [hs]
  · simp [hi, Ne.symm hi]

/-- Sets the bits of a hash in some of the words from `base` on. -/
def markWords (h : UInt32) (base : Nat) (is : List (Fin 8)) (ws : Array UInt64) : Array UInt64 :=
  is.foldl (fun ws (i : Fin 8) => ws.modify (base + i.val) (· ||| bit h i)) ws

@[simp] theorem size_markWords (h : UInt32) (base : Nat) (is : List (Fin 8)) (ws : Array UInt64) :
    (markWords h base is ws).size = ws.size := by
  induction is generalizing ws with
  | nil => rfl
  | cons i is ih => exact (ih _).trans (Array.size_modify ..)

theorem getD_markWords_of_ne (h : UInt32) {base b : Nat} {is : List (Fin 8)}
    (hb : ∀ i ∈ is, b ≠ base + i.val) (ws : Array UInt64) (hs : base + 8 ≤ ws.size) :
    (markWords h base is ws).getD b 0 = ws.getD b 0 := by
  induction is generalizing ws with
  | nil => rfl
  | cons i is ih =>
    obtain ⟨hi, hb⟩ := List.forall_mem_cons.mp hb
    change (markWords h base is (ws.modify (base + i.val) (· ||| bit h i))).getD b 0 = _
    rw [ih hb _ (by simpa using hs), getD_modify (by omega), if_neg hi]

theorem getD_markWords (h : UInt32) (base : Nat) {i : Fin 8} {is : List (Fin 8)} (hi : i ∈ is)
    (hd : is.Nodup) (ws : Array UInt64) (hs : base + 8 ≤ ws.size) :
    (markWords h base is ws).getD (base + i.val) 0 = ws.getD (base + i.val) 0 ||| bit h i := by
  induction is generalizing ws with
  | nil => cases hi
  | cons j is ih =>
    obtain ⟨hnot, hd⟩ := List.nodup_cons.mp hd
    have hne (k : Fin 8) (hk : k ≠ j) : base + k.val ≠ base + j.val := fun e =>
      hk (Fin.ext (by omega))
    change (markWords h base is (ws.modify (base + j.val) (· ||| bit h j))).getD _ 0 = _
    rcases List.mem_cons.mp hi with rfl | hi
    · -- the other places are not the one that was set first
      rw [getD_markWords_of_ne h (fun k hk => (hne k fun e => hnot (e ▸ hk)).symm) _
        (by simpa using hs), getD_modify (by omega), if_pos rfl]
    · rw [ih hi hd _ (by simpa using hs), getD_modify (by omega),
        if_neg (hne i fun e => hnot (e ▸ hi))]

theorem bucketOf_lt (h : UInt64) {n : Nat} (hn : 0 < n) : bucketOf h n < n := scale32_lt _ hn

@[simp] theorem size_mark (n : Nat) (ws : Array UInt64) (h : UInt64) :
    (mark n ws h).size = ws.size :=
  size_markWords ..

theorem size_foldl_mark (n : Nat) (hs : List UInt64) (ws : Array UInt64) :
    (hs.foldl (mark n) ws).size = ws.size := by
  induction hs generalizing ws with
  | nil => rfl
  | cons h hs ih => rw [List.foldl_cons, ih, size_mark]

/-- A marked hash adds its bit to word `i` of its own bucket. -/
theorem getD_mark {n : Nat} (hn : 0 < n) {ws : Array UInt64} (hs : ws.size = 8 * n) (h : UInt64)
    (b : Nat) (i : Fin 8) : (mark n ws h).getD (8 * b + i.val) 0 =
      if b = bucketOf h n then ws.getD (8 * b + i.val) 0 ||| bit h.toUInt32 i
      else ws.getD (8 * b + i.val) 0 := by
  have hlt := bucketOf_lt h hn
  change (markWords h.toUInt32 (8 * bucketOf h n) (List.finRange 8) ws).getD _ 0 = _
  by_cases hb : b = bucketOf h n
  · rw [hb, getD_markWords _ _ (List.mem_finRange i) (List.nodup_finRange 8) _ (by omega),
      if_pos rfl]
  · rw [getD_markWords_of_ne _ (fun j _ => by omega) _ (by omega), if_neg hb]

/-- The bits of the words are those of the marked hashes. -/
theorem bitAt_foldl_mark {n : Nat} (hn : 0 < n) (hs : List UInt64) (ws : Array UInt64)
    (hsize : ws.size = 8 * n) (b : Nat) (i : Fin 8) (j : Nat) :
    bitAt ((hs.foldl (mark n) ws).getD (8 * b + i.val) 0) j = true ↔
      bitAt (ws.getD (8 * b + i.val) 0) j = true ∨
        ∃ h ∈ hs, bucketOf h n = b ∧ bitIndex h.toUInt32 i = j := by
  induction hs generalizing ws with
  | nil => simp
  | cons h hs ih =>
    rw [List.foldl_cons, ih _ (by simpa using hsize), getD_mark hn hsize]
    by_cases hb : b = bucketOf h n
    · simp [hb, bitAt_bit, or_assoc]
    · simp [hb, Ne.symm hb]

/-- The words depend on which hashes were marked, not on their order or number. -/
theorem foldl_mark_congr {n : Nat} (hn : 0 < n) {hs hs' : List UInt64}
    (h : ∀ k, k ∈ hs ↔ k ∈ hs') (ws : Array UInt64) (hsize : ws.size = 8 * n) :
    hs.foldl (mark n) ws = hs'.foldl (mark n) ws := by
  apply Array.ext
  · rw [size_foldl_mark, size_foldl_mark]
  · intro s hs₁ hs₂
    apply eq_of_bitAt
    intro j _
    have hplace : 8 * (s / 8) + s % 8 = s := Nat.div_add_mod s 8
    have hbits (ks : List UInt64) :=
      bitAt_foldl_mark hn ks ws hsize (s / 8) ⟨s % 8, Nat.mod_lt s (by decide)⟩ j
    simp only [hplace] at hbits
    have hmem := (hbits hs).trans ((or_congr_right (exists_congr fun k =>
      and_congr_left fun _ => h k)).trans (hbits hs').symm)
    simpa only [Array.getD_eq_getD_getElem?, Array.getElem?_eq_getElem, hs₁, hs₂, Option.getD_some,
      ← Bool.eq_iff_iff] using hmem

/-- What a stored filter is known to be. -/
structure Stored (f : Bloom) : Prop where
  pos : 0 < f.buckets
  lt : f.buckets < 256 ^ 4
  size_words : f.words.size = 8 * f.buckets

theorem bucketCount_pos (keys bitsPerKey : Nat) : 0 < bucketCount keys bitsPerKey :=
  Nat.le_max_left 1 _

theorem build_eq_ok {hashes : List UInt64} {bitsPerKey : Nat} {seed : UInt64} {f : Bloom}
    (h : build hashes bitsPerKey seed = .ok f) :
    f.seed = seed ∧ f.Stored ∧
      f.words = (hashes.map (mix · seed)).foldl (mark f.buckets)
        (Array.replicate (8 * f.buckets) 0) := by
  simp only [build] at h
  split at h
  · rename_i hlt
    cases h
    have hsize32 : UInt32.size = 256 ^ 4 := by decide
    have hmap : ∀ ws, hashes.foldl (fun ws k => mark (bucketCount hashes.length bitsPerKey) ws
        (mix k seed)) ws = (hashes.map (mix · seed)).foldl
          (mark (bucketCount hashes.length bitsPerKey)) ws := fun ws => List.foldl_map.symm
    refine ⟨rfl, ⟨bucketCount_pos .., hsize32 ▸ hlt, ?_⟩, hmap _⟩
    simp only [hmap, size_foldl_mark, Array.size_replicate]
  · cases h

theorem build_eq_error {hashes : List UInt64} {bitsPerKey : Nat} {seed : UInt64} {e : Error}
    (h : build hashes bitsPerKey seed = .error e) : e = .invalidField "bloom num_buckets" := by
  simp only [build] at h
  split at h
  · cases h
  · cases h
    rfl

/-- The number of hashes sizes a filter, and their set fills it. -/
theorem build_congr {hashes others : List UInt64} (hlength : hashes.length = others.length)
    (hmem : ∀ k, k ∈ hashes ↔ k ∈ others) (bitsPerKey : Nat) (seed : UInt64) :
    build hashes bitsPerKey seed = build others bitsPerKey seed := by
  have hmap (k : UInt64) : k ∈ hashes.map (mix · seed) ↔ k ∈ others.map (mix · seed) := by
    rw [List.mem_map, List.mem_map]
    exact exists_congr fun h => and_congr_left fun _ => hmem h
  have hwords := foldl_mark_congr (bucketCount_pos others.length bitsPerKey) hmap
    (Array.replicate (8 * bucketCount others.length bitsPerKey) 0) Array.size_replicate
  simp only [List.foldl_map] at hwords
  simp only [build, hlength, hwords]

/-- The bits of a built filter are those of its hashes, each in its bucket. -/
theorem bitAt_words_of_build {hashes : List UInt64} {bitsPerKey : Nat} {seed : UInt64} {f : Bloom}
    (h : build hashes bitsPerKey seed = .ok f) (b : Nat) (i : Fin 8) (j : Nat) :
    bitAt (f.words.getD (8 * b + i.val) 0) j = true ↔ ∃ k ∈ hashes,
      bucketOf (mix k seed) f.buckets = b ∧ bitIndex (mix k seed).toUInt32 i = j := by
  obtain ⟨-, hst, hwords⟩ := build_eq_ok h
  have hzero (i : Nat) : (Array.replicate (8 * f.buckets) (0 : UInt64)).getD i 0 = 0 := by
    by_cases hi : i < 8 * f.buckets <;> simp [hi]
  rw [hwords, bitAt_foldl_mark hst.pos _ _ (Array.size_replicate ..), hzero]
  simp [List.mem_map]

/-- A hash may be contained when each of its bits is a bit of some hash of the same bucket. -/
theorem mayContain_build_iff {hashes : List UInt64} {bitsPerKey : Nat} {seed : UInt64} {f : Bloom}
    (h : build hashes bitsPerKey seed = .ok f) (q : UInt64) :
    f.mayContain q = true ↔ ∀ i : Fin 8, ∃ k ∈ hashes,
      bucketOf (mix k seed) f.buckets = bucketOf (mix q seed) f.buckets ∧
        bitIndex (mix k seed).toUInt32 i = bitIndex (mix q seed).toUInt32 i := by
  obtain ⟨hseed, -, -⟩ := build_eq_ok h
  simp only [mayContain, hseed, List.all_eq_true, List.mem_finRange, true_imp_iff,
    and_bit_ne_zero, bitAt_words_of_build h]

theorem mayContain_of_mem {hashes : List UInt64} {bitsPerKey : Nat} {seed : UInt64} {f : Bloom}
    (h : build hashes bitsPerKey seed = .ok f) {q : UInt64} (hq : q ∈ hashes) :
    f.mayContain q = true :=
  (mayContain_build_iff h q).mpr fun _ => ⟨q, hq, rfl, rfl⟩

/-! ### The stored form -/

theorem decode_eq_ok_iff {body : List UInt8} {f : Bloom} : decode body = .ok f ↔
    ∃ head data, body = head ++ data ∧ head.length = headerSize ∧ fieldAt 8 4 head ≠ 0 ∧
      data.length = 8 * (8 * fieldAt 8 4 head) ∧
      ⟨(fieldAt 0 8 head).toUInt64, fieldAt 8 4 head,
        unpack 8 Nat.toUInt64 (8 * fieldAt 8 4 head) data⟩ = f := by
  simp only [decode, Cursor.header_bind_eq_ok_iff, Cursor.bulk_bind_eq_ok_iff,
    Cursor.finish_bind_eq_ok_iff, throw_if_eq_ok_iff, pure_eq_ok_iff, Cursor.ofBytes_rest]
  constructor
  · rintro ⟨head, _, hbody, hlen, hn, data, rest, rfl, hdata, rfl, hf⟩
    exact ⟨head, data, by rw [hbody, List.append_nil], hlen, hn, hdata, hf⟩
  · rintro ⟨head, data, hbody, hlen, hn, hdata, hf⟩
    exact ⟨head, data, hbody, hlen, hn, data, [], (List.append_nil _).symm, hdata, rfl, hf⟩

theorem stored_of_decode {body : List UInt8} {f : Bloom} (h : decode body = .ok f) :
    f.Stored ∧ f.encode = body := by
  obtain ⟨head, data, rfl, hlen, hn, hdata, rfl⟩ := decode_eq_ok_iff.mp h
  refine ⟨⟨Nat.pos_of_ne_zero hn, fieldAt_lt .., size_unpack ..⟩, ?_⟩
  have hhead := fieldsFrom_zero [8, 4] hlen
  rw [encode, toNat_toUInt64_of_lt (fieldAt_lt ..),
    pack_unpack (fun _ => toNat_toUInt64_of_lt) (by rw [hdata, Nat.mul_comm])]
  simp only [fieldsFrom, Nat.zero_add, List.append_nil] at hhead
  exact congrArg (· ++ data) hhead

theorem decode_encode {f : Bloom} (hf : f.Stored) : decode f.encode = .ok f := by
  refine decode_eq_ok_iff.mpr ⟨_, _, rfl, by simp; rfl, ?_, ?_, ?_⟩ <;>
    simp only [fieldAt_zero_bytes_append, fieldAt_bytes_append, Nat.le_refl, Nat.sub_self,
      fieldAt_bytes, Nat.mod_eq_of_lt hf.lt]
  · exact Nat.pos_iff_ne_zero.mp hf.pos
  · rw [length_pack, hf.size_words, Nat.mul_comm]
  · rw [← hf.size_words, unpack_pack toUInt64_toNat_mod, toUInt64_toNat_mod]

theorem length_encode (f : Bloom) : f.encode.length = f.size := by
  simp only [encode, List.length_append, length_bytes, length_pack, size, headerSize,
    Nat.mul_comm 8]

/-! ### Exactness -/

/-- Each bit of a hash is a bit of some given hash of the same bucket. -/
def Covered (hashes : List UInt64) (seed : UInt64) (n : Nat) (q : UInt64) : Prop :=
  ∀ i : Fin 8, ∃ k ∈ hashes, bucketOf (mix k seed) n = bucketOf (mix q seed) n ∧
    bit (mix k seed).toUInt32 i = bit (mix q seed).toUInt32 i

/-- The bits that are set are those of the hashes, each in its bucket. A hash may be contained when
all of its bits are set, in the built filter and in the one that is read back. -/
theorem build_sets_exactly {hashes : List UInt64} {bitsPerKey : Nat} {seed : UInt64} {f : Bloom}
    (h : build hashes bitsPerKey seed = .ok f) :
    (∀ (b : Nat) (i : Fin 8) (j : Nat), bitAt (f.words.getD (8 * b + i.val) 0) j = true ↔
      ∃ k ∈ hashes, bucketOf (mix k seed) f.buckets = b ∧
        bitAt (bit (mix k seed).toUInt32 i) j = true) ∧
      ∃ g, decode f.encode = .ok g ∧ ∀ q,
        (f.mayContain q = true ↔ Covered hashes seed f.buckets q) ∧
          (g.mayContain q = true ↔ Covered hashes seed f.buckets q) := by
  obtain ⟨-, hst, -⟩ := build_eq_ok h
  have hanswer (q : UInt64) : f.mayContain q = true ↔ Covered hashes seed f.buckets q := by
    simp only [mayContain_build_iff h q, Covered, bit_eq_bit_iff]
  constructor
  · intro b i j
    rw [bitAt_words_of_build h]
    simp only [bitAt_bit, decide_eq_true_eq]
  · exact ⟨f, decode_encode hst, fun q => ⟨hanswer q, hanswer q⟩⟩

/-- Nine hashes in two buckets. -/
theorem build_sets_exactly_nine :
    ∃ f g, build [1, 2, 3, 4, 5, 6, 7, 8, 9] 64 0 = .ok f ∧ decode f.encode = .ok g ∧ ∀ q,
      (f.mayContain q = true ↔ Covered [1, 2, 3, 4, 5, 6, 7, 8, 9] 0 2 q) ∧
        (g.mayContain q = true ↔ Covered [1, 2, 3, 4, 5, 6, 7, 8, 9] 0 2 q) := by
  have hok : build [1, 2, 3, 4, 5, 6, 7, 8, 9] 64 0 = .ok ⟨0, 2, _⟩ := rfl
  obtain ⟨-, g, hg, hanswer⟩ := build_sets_exactly hok
  exact ⟨_, g, hok, hg, hanswer⟩

end ApproxSet.Bloom
