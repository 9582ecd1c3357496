import ApproxSet.Peel.XorPlus
import ApproxSet.Proofs.Bits.Rank
import ApproxSet.Proofs.Peel.Xor

/-!
# Compressed xor filters

Leaving out the zero slots of the third block changes no answer: a kept slot stands at its rank
among the kept ones.
-/
namespace ApproxSet.XorPlus
open LittleEndian

variable {w : Nat}

theorem length_filter_map_range {α : Type} (g : Nat → α) (p : α → Bool) (n : Nat) :
    (((List.range n).map g).filter p).length = Nat.count (fun j => p (g j) = true) n := by
  induction n with
  | zero => simp
  | succ n ih =>
    rw [List.range_succ, List.map_append, List.filter_append, List.length_append, ih,
      Nat.count_succ]
    cases hp : p (g n) <;> simp [hp]

/-- A member that passes a filter is found there after those that pass before it. -/
theorem getElem?_filter_map_range {α : Type} {g : Nat → α} {p : α → Bool} {n i : Nat}
    (hi : i < n) (hp : p (g i) = true) :
    (((List.range n).map g).filter p)[Nat.count (fun j => p (g j) = true) i]? = some (g i) := by
  induction n with
  | zero => omega
  | succ n ih =>
    have hlen := length_filter_map_range g p n
    rw [List.range_succ, List.map_append, List.filter_append]
    by_cases hlast : i = n
    · subst hlast
      rw [List.getElem?_append_right hlen.le, hlen, Nat.sub_self]
      simp [hp]
    · have hlt : i < n := by omega
      have hbefore := Nat.count_strict_mono (p := fun j => p (g j) = true) hp hlt
      rw [List.getElem?_append_left (hlen ▸ hbefore), ih hlt]

/-- The slots of the third block. -/
def third (f : Xor w) : List (BitVec w) :=
  (List.range f.blockLength).map fun i => f.slots.getD (2 * f.blockLength + i) 0

theorem toList_extract_third {f : Xor w} (hf : f.Stored) :
    (f.slots.extract (2 * f.blockLength) (3 * f.blockLength)).toList = third f := by
  have hsize := hf.size_slots
  apply List.ext_getElem
  · simp only [Array.length_toList, Array.size_extract, third, List.length_map, List.length_range]
    omega
  · intro i hi _
    simp only [Array.length_toList, Array.size_extract] at hi
    have hlt : 2 * f.blockLength + i < f.slots.size := by omega
    simp [third, hlt]

theorem size_extract_low {f : Xor w} (hf : f.Stored) :
    (f.slots.extract 0 (2 * f.blockLength)).size = 2 * f.blockLength := by
  rw [Array.size_extract, hf.size_slots]
  omega

/-- A slot that is not zero is kept at its rank. -/
theorem getElem?_ofXor_rank {f : Xor w} (hf : f.Stored) {i : Nat} (hi : i < f.blockLength)
    (hne : f.slots.getD (2 * f.blockLength + i) 0 ≠ 0) :
    (ofXor f).slots[2 * f.blockLength + (ofXor f).kept.rank i]? =
      some (f.slots.getD (2 * f.blockLength + i) 0) := by
  have hn := hf.lt
  have hlow := size_extract_low hf
  have hskip : 2 * f.blockLength + (ofXor f).kept.rank i -
      (f.slots.extract 0 (2 * f.blockLength)).size = (ofXor f).kept.rank i := by
    omega
  have hrank := RankedBits.rank_ofBits f.blockLength
    (fun i => f.slots.getD (2 * f.blockLength + i) 0 != 0) (by omega) hi
  have hfound := getElem?_filter_map_range (p := (· != 0))
    (g := fun i => f.slots.getD (2 * f.blockLength + i) 0) hi (by simpa using hne)
  simp only [ofXor] at hskip ⊢
  rw [Array.getElem?_append_right (by omega), hskip, ← Array.getElem?_toList, Array.toList_filter,
    toList_extract_third hf, hrank]
  exact hfound

theorem getD_ofXor_low {f : Xor w} (hf : f.Stored) {s : Nat} (hs : s < 2 * f.blockLength) :
    (ofXor f).slots.getD s 0 = f.slots.getD s 0 := by
  have hsize := hf.size_slots
  have hlt : s < (f.slots.extract 0 (2 * f.blockLength)).size := by
    rwa [size_extract_low hf]
  have hslots : s < f.slots.size := by omega
  simp only [ofXor, Array.getD_eq_getD_getElem?, Array.getElem?_append_left hlt,
    Array.getElem?_eq_getElem hlt, Array.getElem?_eq_getElem hslots, Option.getD_some,
    Array.getElem_extract, Nat.zero_add]

theorem mayContain_ofXor {f : Xor w} (hf : f.Stored) (q : UInt64) :
    (ofXor f).mayContain q = f.mayContain q := by
  have hseed : (ofXor f).seed = f.seed := rfl
  have hlength : (ofXor f).blockLength = f.blockLength := rfl
  have ht := Layout.blocks_slots hf.pos (mix q f.seed)
  simp only [mayContain, Xor.mayContain, Layout.sum, hseed, hlength]
  generalize (Layout.blocks f.blockLength).slots (mix q f.seed) = t at *
  rcases ht with ⟨ha, ⟨-, hb⟩, hc, hc'⟩
  have hi : t.c - 2 * f.blockLength < f.blockLength := by omega
  have hback : 2 * f.blockLength + (t.c - 2 * f.blockLength) = t.c := by omega
  have hkept : (ofXor f).kept.get (t.c - 2 * f.blockLength) = (f.slots.getD t.c 0 != 0) := by
    rw [ofXor, RankedBits.get_ofBits, hback]
    simp [hi]
  have hfound := getElem?_ofXor_rank hf hi
  rw [hback] at hfound
  rw [hkept, getD_ofXor_low hf hb, getD_ofXor_low hf (by omega)]
  generalize f.slots.getD t.c 0 = z at *
  by_cases hz : z = 0
  · subst hz
    simp
  · have hne : (z != 0) = true := by simpa using hz
    rw [if_pos hne, hfound hz]

theorem mayContain_of_mem {hashes : List UInt64} {seed : UInt64} {tries : Nat} {f : XorPlus w}
    (h : build w hashes seed tries = .ok f) {q : UInt64} (hq : q ∈ hashes) :
    f.mayContain q = true := by
  obtain ⟨g, hg, rfl⟩ := map_eq_ok_iff.mp h
  rw [mayContain_ofXor (Xor.stored_of_build hg), Xor.mayContain_of_mem hg hq]

/-- The compressed build fails exactly as the plain one does; where both are made, they lie over the
same blocks and give the same answers, false positives included. -/
theorem build_agrees (w : Nat) (hashes : List UInt64) (seed : UInt64) (tries : Nat) :
    (∃ e, build w hashes seed tries = .error e ∧ Xor.build w hashes seed tries = .error e) ∨
      ∃ f g, build w hashes seed tries = .ok f ∧ Xor.build w hashes seed tries = .ok g ∧
        f.seed = g.seed ∧ f.blockLength = g.blockLength ∧
          ∀ q, f.mayContain q = g.mayContain q := by
  rw [build]
  cases hplain : Xor.build w hashes seed tries with
  | error e => exact Or.inl ⟨e, rfl, rfl⟩
  | ok g =>
    have hanswer := mayContain_ofXor (Xor.stored_of_build hplain)
    exact Or.inr ⟨ofXor g, g, rfl, rfl, rfl, rfl, hanswer⟩

/-! ### The stored form -/

/-- What a stored filter is known to be. -/
structure Stored (f : XorPlus w) : Prop where
  pos : 0 < f.blockLength
  lt : f.blockLength < 256 ^ 4
  size_slots : f.slots.size = 2 * f.blockLength + f.thirdLength
  thirdLength_le : f.thirdLength ≤ f.blockLength
  size_words : f.kept.words.size = RankedBits.wordsFor f.blockLength
  size_counts : f.kept.counts.size = RankedBits.countsFor f.blockLength

theorem stored_ofXor {f : Xor w} (hf : f.Stored) : (ofXor f).Stored := by
  have hlow := size_extract_low hf
  have hle : ((f.slots.extract (2 * f.blockLength) (3 * f.blockLength)).filter (· != 0)).size ≤
      f.blockLength := by
    rw [← Array.length_toList, Array.toList_filter, toList_extract_third hf]
    refine (List.length_filter_le ..).trans ?_
    simp [third]
  have hsize : (ofXor f).slots.size = 2 * f.blockLength +
      ((f.slots.extract (2 * f.blockLength) (3 * f.blockLength)).filter (· != 0)).size := by
    rw [ofXor, Array.size_append, hlow]
  have hlength : (ofXor f).blockLength = f.blockLength := rfl
  have hthird : (ofXor f).thirdLength =
      ((f.slots.extract (2 * f.blockLength) (3 * f.blockLength)).filter (· != 0)).size := by
    rw [thirdLength, hlength, hsize, Nat.add_sub_cancel_left]
  constructor
  · exact hf.pos
  · exact hf.lt
  · rw [hthird, hlength, hsize]
  · rw [hthird, hlength]
    exact hle
  · rw [hlength, ofXor, RankedBits.size_words_ofBits]
  · rw [hlength, ofXor, RankedBits.size_counts_ofBits]

theorem stored_of_build {hashes : List UInt64} {seed : UInt64} {tries : Nat} {f : XorPlus w}
    (h : build w hashes seed tries = .ok f) : f.Stored := by
  obtain ⟨g, hg, rfl⟩ := map_eq_ok_iff.mp h
  exact stored_ofXor (Xor.stored_of_build hg)

theorem decode_eq_ok_iff {body : List UInt8} {f : XorPlus w} : decode w body = .ok f ↔
    ∃ head data words counts, body = head ++ (data ++ (words ++ counts)) ∧
      head.length = headerSize ∧ fieldAt 8 4 head ≠ 0 ∧ fieldAt 12 4 head ≤ fieldAt 8 4 head ∧
      data.length = (2 * fieldAt 8 4 head + fieldAt 12 4 head) * (w / 8) ∧
      words.length = 8 * RankedBits.wordsFor (fieldAt 8 4 head) ∧
      counts.length = 8 * RankedBits.countsFor (fieldAt 8 4 head) ∧
      ⟨(fieldAt 0 8 head).toUInt64, fieldAt 8 4 head,
        unpack (w / 8) (BitVec.ofNat w) (2 * fieldAt 8 4 head + fieldAt 12 4 head) data,
        RankedBits.view (fieldAt 8 4 head) words counts⟩ = f := by
  simp only [decode, RankedBits.view, Cursor.header_bind_eq_ok_iff, Cursor.bulk_bind_eq_ok_iff,
    Cursor.finish_bind_eq_ok_iff, throw_if_eq_ok_iff, pure_eq_ok_iff, Cursor.ofBytes_rest,
    gt_iff_lt, not_lt]
  constructor
  · rintro ⟨head, _, hbody, hlen, hn, hle, data, _, rfl, hdata, words, _, rfl, hwords, counts, _,
      rfl, hcounts, rfl, hf⟩
    exact ⟨head, data, words, counts, by rw [hbody, List.append_nil], hlen, hn, hle, hdata, hwords,
      hcounts, hf⟩
  · rintro ⟨head, data, words, counts, hbody, hlen, hn, hle, hdata, hwords, hcounts, hf⟩
    exact ⟨head, _, hbody, hlen, hn, hle, data, _, rfl, hdata, words, _, rfl, hwords, counts, [],
      (List.append_nil _).symm, hcounts, rfl, hf⟩

theorem stored_of_decode (hw : 8 * (w / 8) = w) {body : List UInt8} {f : XorPlus w}
    (h : decode w body = .ok f) : f.Stored ∧ f.encode = body := by
  obtain ⟨head, data, words, counts, rfl, hlen, hn, hle, hdata, hwords, hcounts, rfl⟩ :=
    decode_eq_ok_iff.mp h
  have hthird : 2 * fieldAt 8 4 head + fieldAt 12 4 head - 2 * fieldAt 8 4 head =
      fieldAt 12 4 head := Nat.add_sub_cancel_left ..
  refine ⟨⟨Nat.pos_of_ne_zero hn, fieldAt_lt .., ?_, ?_, size_unpack .., size_unpack ..⟩, ?_⟩
  · simp only [thirdLength, size_unpack, hthird]
  · simpa only [thirdLength, size_unpack, hthird] using hle
  · have hhead := fieldsFrom_zero [8, 4, 4] hlen
    obtain ⟨hpackw, hpackc⟩ := RankedBits.pack_view hwords hcounts
    rw [encode, toNat_toUInt64_of_lt (fieldAt_lt ..), pack_unpack (toNat_ofNat_of_lt hw) hdata,
      hpackw, hpackc]
    simp only [fieldsFrom, Nat.zero_add, List.append_nil, Nat.reduceAdd] at hhead
    simp only [thirdLength, size_unpack, hthird, List.append_assoc] at hhead ⊢
    conv_rhs => rw [← hhead]
    simp only [List.append_assoc]

theorem decode_encode (hw : 8 * (w / 8) = w) {f : XorPlus w} (hf : f.Stored) :
    decode w f.encode = .ok f := by
  have hlt := hf.lt
  have hthird : f.thirdLength < 256 ^ 4 := Nat.lt_of_le_of_lt hf.thirdLength_le hlt
  refine decode_eq_ok_iff.mpr ⟨bytes 8 f.seed.toNat ++ bytes 4 f.blockLength ++
    bytes 4 f.thirdLength, pack (w / 8) BitVec.toNat f.slots, pack 8 UInt64.toNat f.kept.words,
    pack 8 UInt64.toNat f.kept.counts, ?_, by simp; rfl, ?_, ?_, ?_, ?_, ?_, ?_⟩
  · simp only [encode, List.append_assoc]
  all_goals
    simp only [List.append_assoc, fieldAt_zero_bytes_append, fieldAt_bytes_append, Nat.reduceLeDiff,
      Nat.reduceSub, Nat.le_refl, Nat.sub_self, fieldAt_bytes, Nat.mod_eq_of_lt hlt,
      Nat.mod_eq_of_lt hthird, length_pack]
  · exact Nat.pos_iff_ne_zero.mp hf.pos
  · exact hf.thirdLength_le
  · rw [hf.size_slots]
  · rw [hf.size_words, Nat.mul_comm]
  · rw [hf.size_counts, Nat.mul_comm]
  · rw [← hf.size_slots, unpack_pack (ofNat_toNat_mod hw), toUInt64_toNat_mod,
      RankedBits.view_pack hf.size_words hf.size_counts]

theorem length_encode (f : XorPlus w) : f.encode.length = f.size := by
  simp only [encode, List.length_append, length_bytes, length_pack, size, headerSize]
  omega

end ApproxSet.XorPlus
