import ApproxSet.Bits.Rank
import ApproxSet.Proofs.Wire.LittleEndian
import ApproxSet.Proofs.Word.Bits
import Mathlib.Data.Nat.Count

/-!
# Ranks are prefix counts

`rank_ofWords` says that the count words tell how many ones come before a position. A stretch has
512 bits, so the counts inside it stay below `2 ^ 9` and keep to their fields. Seen as one list of
bits, the words are told bit by bit, and prefix by prefix (`ranks_count_ones`).
-/
namespace ApproxSet

theorem ones_eq_count (w : UInt64) (n : Nat) : ones w n = Nat.count (bitAt w · = true) n := by
  induction n with
  | zero => simp [ones]
  | succ n ih =>
    rw [ones, Nat.count_succ, ih]
    cases bitAt w n <;> simp

theorem count_congr {p q : Nat → Prop} [DecidablePred p] [DecidablePred q] {n : Nat}
    (h : ∀ k, k < n → (p k ↔ q k)) : Nat.count p n = Nat.count q n := by
  apply Nat.le_antisymm
  · exact Nat.count_mono_left fun k hk => (h k hk).mp
  · exact Nat.count_mono_left fun k hk => (h k hk).mpr

namespace RankedBits
open LittleEndian

/-- Bit `i` of a list of words. -/
def bitOf (words : Array UInt64) (i : Nat) : Bool := bitAt (words.getD (i / 64) 0) (i % 64)

theorem get_eq_bitOf (r : RankedBits) (i : Nat) : r.get i = bitOf r.words i := rfl

/-- Ones before position `i`. -/
def onesBefore (words : Array UInt64) (i : Nat) : Nat := Nat.count (bitOf words · = true) i

theorem onesBefore_le (words : Array UInt64) (i : Nat) : onesBefore words i ≤ i := Nat.count_le _

/-- Within one word, the ones before a position are counted from the word's start. -/
theorem onesBefore_add (words : Array UInt64) (j : Nat) {n : Nat} (hn : n ≤ 64) :
    onesBefore words (64 * j + n) = onesBefore words (64 * j) + ones (words.getD j 0) n := by
  rw [onesBefore, Nat.count_add, onesBefore, ones_eq_count]
  congr 1
  have hbit {k : Nat} (hk : k < n) : bitOf words (64 * j + k) = bitAt (words.getD j 0) k := by
    have hdiv : (64 * j + k) / 64 = j := by omega
    have hmod : (64 * j + k) % 64 = k := by omega
    rw [bitOf, hdiv, hmod]
  exact count_congr fun k hk => by rw [hbit hk]

theorem onesInStretch_add (words : Array UInt64) (b k : Nat) :
    onesBefore words (512 * b) + onesInStretch words b k = onesBefore words (512 * b + 64 * k) := by
  induction k with
  | zero => rfl
  | succ k ih =>
    have hword : 512 * b + 64 * k = 64 * (8 * b + k) := by omega
    have hnext : 512 * b + 64 * (k + 1) = 64 * (8 * b + k) + 64 := by omega
    rw [onesInStretch, ← Nat.add_assoc, ih, hnext, onesBefore_add _ _ (Nat.le_refl 64), hword]

theorem ones_le (w : UInt64) (n : Nat) : ones w n ≤ n := by
  rw [ones_eq_count]
  exact Nat.count_le _

theorem onesInStretch_le (words : Array UInt64) (b k : Nat) :
    onesInStretch words b k ≤ 64 * k := by
  induction k with
  | zero => exact Nat.le_refl _
  | succ k ih =>
    have h := ones_le (words.getD (8 * b + k) 0) 64
    rw [onesInStretch]
    omega

/-- Field `i / 9` holds the count before word `i / 9 + 1` of the stretch. -/
theorem bitAt_relativeCounts (words : Array UInt64) (b : Nat) {k : Nat} (hk : k ≤ 7) (i : Nat) :
    bitAt (relativeCounts words b k) i =
      (decide (i < 9 * k) && (onesInStretch words b (i / 9 + 1)).testBit (i % 9)) := by
  induction k with
  | zero => simp [relativeCounts]
  | succ k ih =>
    have hle := onesInStretch_le words b (k + 1)
    have hlt : onesInStretch words b (k + 1) < 2 ^ 9 := by omega
    rw [relativeCounts, bitAt_or, ih (by omega), bitAt_shiftLeft _ (by omega),
      bitAt_toUInt64 (by omega)]
    by_cases hi : i < 9 * k
    · have h₁ : i < 9 * (k + 1) := by omega
      have h₂ : ¬ 9 * k ≤ i := by omega
      simp [hi, h₁, h₂]
    · by_cases hi' : i < 9 * (k + 1)
      · have hdiv : i / 9 = k := by omega
        have hmod : i % 9 = i - 9 * k := by omega
        have h64 : i < 64 := by omega
        have hge : 9 * k ≤ i := by omega
        simp [hi, hi', h64, hge, hdiv, hmod]
      · have hge : 9 ≤ i - 9 * k := by omega
        have hz : (onesInStretch words b (k + 1)).testBit (i - 9 * k) = false :=
          Nat.testBit_lt_two_pow
            (Nat.lt_of_lt_of_le hlt (Nat.pow_le_pow_right (by decide) hge))
        simp [hi, hi', hz]

theorem relativeCounts_field (words : Array UInt64) (b : Nat) {k : Nat} (hk : k < 7) :
    ((relativeCounts words b 7 >>> (9 * k).toUInt64) &&& 0x1ff).toNat =
      onesInStretch words b (k + 1) := by
  have hle := onesInStretch_le words b (k + 1)
  have hlt : onesInStretch words b (k + 1) < 2 ^ 9 := by omega
  have hmask (i : Nat) : bitAt 0x1ff i = decide (i < 9) := bitAt_ones (k := 9) (by decide) i
  apply Nat.eq_of_testBit_eq
  intro i
  rw [← bitAt_eq_testBit, bitAt_and, bitAt_shiftRight _ (by omega), hmask,
    bitAt_relativeCounts _ _ (Nat.le_refl 7)]
  by_cases hi : i < 9
  · have hdiv : (9 * k + i) / 9 = k := by omega
    have hmod : (9 * k + i) % 9 = i := by omega
    have hin : 9 * k + i < 9 * 7 := by omega
    simp [hi, hdiv, hmod, hin]
  · have hz : (onesInStretch words b (k + 1)).testBit i = false :=
      Nat.testBit_lt_two_pow (Nat.lt_of_lt_of_le hlt (Nat.pow_le_pow_right (by decide) (by omega)))
    simp [hi, hz]

theorem getD_push (xs : Array UInt64) (x : UInt64) (i : Nat) :
    (xs.push x).getD i 0 = if i = xs.size then x else xs.getD i 0 := by
  simp only [Array.getD_eq_getD_getElem?, Array.getElem?_push]
  by_cases hi : i = xs.size <;> simp [hi]

@[simp] theorem size_countsFrom (words : Array UInt64) (left b total : Nat) (acc : Array UInt64) :
    (countsFrom words left b total acc).size = acc.size + 2 * left := by
  induction left generalizing b total acc with
  | zero => rfl
  | succ left ih =>
    rw [countsFrom, ih, Array.size_push, Array.size_push]
    omega

/-- Two count words follow those already there for each stretch from `b` on. -/
theorem getD_countsFrom (words : Array UInt64) (left : Nat) {b total : Nat} {acc : Array UInt64}
    (hsize : acc.size = 2 * b) (htotal : total = onesBefore words (512 * b)) :
    (∀ i, i < 2 * b → (countsFrom words left b total acc).getD i 0 = acc.getD i 0) ∧
      ∀ s, b ≤ s → s < b + left →
        (countsFrom words left b total acc).getD (2 * s) 0 =
            (onesBefore words (512 * s)).toUInt64 ∧
          (countsFrom words left b total acc).getD (2 * s + 1) 0 = relativeCounts words s 7 := by
  induction left generalizing b total acc with
  | zero =>
    refine ⟨fun _ _ => rfl, fun s hs hlt => ?_⟩
    omega
  | succ left ih =>
    have hnext : total + onesInStretch words b 8 = onesBefore words (512 * (b + 1)) := by
      have hend : 512 * (b + 1) = 512 * b + 64 * 8 := by omega
      rw [htotal, onesInStretch_add, hend]
    have hsize' : ((acc.push total.toUInt64).push (relativeCounts words b 7)).size =
        2 * (b + 1) := by
      rw [Array.size_push, Array.size_push, hsize]
      omega
    obtain ⟨hkeep, hnew⟩ := ih hsize' hnext
    constructor
    · intro i hi
      have h₁ : i ≠ acc.size + 1 := by omega
      have h₂ : i ≠ acc.size := by omega
      rw [countsFrom, hkeep i (by omega), getD_push, getD_push, Array.size_push, if_neg h₁,
        if_neg h₂]
    · intro s hs hlt
      by_cases hb : s = b
      · subst hb
        have h₁ : 2 * s ≠ acc.size + 1 := by omega
        rw [countsFrom, hkeep _ (by omega), hkeep _ (by omega), getD_push, getD_push, getD_push,
          Array.size_push, if_neg h₁, if_pos hsize.symm, hsize, if_pos rfl, htotal]
        exact ⟨rfl, rfl⟩
      · exact hnew s (by omega) (by omega)

/-- The rank of a position is the number of ones before it. Positions are 64-bit words, so the
counts before them do not wrap. -/
theorem rank_ofWords {words : Array UInt64} {pos : Nat} (hword : pos < 2 ^ 64)
    (hpos : pos < 64 * words.size) : (ofWords words).rank pos = onesBefore words pos := by
  have hstart : 0 = onesBefore words (512 * 0) := rfl
  obtain ⟨-, hcounts⟩ := getD_countsFrom words ((words.size + 7) / 8) (b := 0) Array.size_empty
    hstart
  obtain ⟨htotal, hrel⟩ := hcounts (pos / 64 / 8) (by omega) (by omega)
  have hle := onesBefore_le words (512 * (pos / 64 / 8))
  have hsplit : pos = 64 * (pos / 64) + pos % 64 := by omega
  have hstretch := onesInStretch_add words (pos / 64 / 8) (pos / 64 % 8)
  have hplace : 512 * (pos / 64 / 8) + 64 * (pos / 64 % 8) = 64 * (pos / 64) := by omega
  have hbefore := onesBefore_add words (pos / 64) (n := pos % 64) (by omega)
  rw [hplace] at hstretch
  rw [← hsplit, ← hstretch] at hbefore
  simp only [rank, ofWords]
  rw [htotal, hrel, hbefore, Nat.toUInt64_eq, UInt64.toNat_ofNat', Nat.mod_eq_of_lt (by omega)]
  by_cases hk : pos / 64 % 8 = 0
  · rw [if_pos hk, hk]
    rfl
  · have hsucc : pos / 64 % 8 - 1 + 1 = pos / 64 % 8 := by omega
    rw [if_neg hk, relativeCounts_field _ _ (by omega), hsucc]

theorem size_counts_ofWords (words : Array UInt64) :
    (ofWords words).counts.size = 2 * ((words.size + 7) / 8) := by
  simp [ofWords]

/-! ### The bits as a list -/

/-- The bits of a word, the lowest first. -/
def wordBits (w : UInt64) : List Bool := (List.range 64).map (bitAt w)

/-- The bits of a list of words, word after word. -/
def bitList (words : Array UInt64) : List Bool := words.toList.flatMap wordBits

@[simp] theorem length_wordBits (w : UInt64) : (wordBits w).length = 64 := by
  simp [wordBits]

@[simp] theorem length_bitList (words : Array UInt64) :
    (bitList words).length = 64 * words.size := by
  simp [bitList, List.length_flatMap, List.map_const', Nat.mul_comm]

theorem getElem?_flatMap_wordBits (words : List UInt64) (i : Nat) :
    (words.flatMap wordBits)[i]? = (words[i / 64]?).map (bitAt · (i % 64)) := by
  induction words generalizing i with
  | nil => rfl
  | cons w words ih =>
    rw [List.flatMap_cons]
    by_cases hi : i < 64
    · have hdiv : i / 64 = 0 := by omega
      have hmod : i % 64 = i := by omega
      rw [List.getElem?_append_left (by simpa using hi), hdiv, hmod]
      simp [wordBits, hi]
    · have hdiv : i / 64 = (i - 64) / 64 + 1 := by omega
      have hmod : i % 64 = (i - 64) % 64 := by omega
      rw [List.getElem?_append_right (by simpa using hi), length_wordBits, ih, hdiv, hmod,
        List.getElem?_cons_succ]

theorem getElem?_bitList {words : Array UInt64} {i : Nat} (hi : i < 64 * words.size) :
    (bitList words)[i]? = some (bitOf words i) := by
  have hword : i / 64 < words.size := by omega
  rw [bitList, getElem?_flatMap_wordBits, bitOf]
  simp [hword]

theorem count_take_bitList {words : Array UInt64} {pos : Nat} (hpos : pos ≤ 64 * words.size) :
    ((bitList words).take pos).count true = onesBefore words pos := by
  induction pos with
  | zero => rfl
  | succ pos ih =>
    rw [List.take_add_one, getElem?_bitList hpos, List.count_append, ih (Nat.le_of_succ_le hpos),
      onesBefore, onesBefore, Nat.count_succ]
    cases bitOf words pos <;> rfl

/-- `r` tells each of the given bits, and how many ones come before it. -/
structure Tells (r : RankedBits) (bits : List Bool) : Prop where
  get_eq : ∀ pos, pos < bits.length → bits[pos]? = some (r.get pos)
  /-- Positions are 64-bit words. -/
  rank_eq : ∀ pos, pos < bits.length → pos < 2 ^ 64 → r.rank pos = (bits.take pos).count true

theorem tells_ofWords (words : Array UInt64) : (ofWords words).Tells (bitList words) := by
  constructor
  · intro pos hpos
    rw [length_bitList] at hpos
    exact getElem?_bitList hpos
  · intro pos hpos hword
    rw [length_bitList] at hpos
    rw [rank_ofWords hword hpos, count_take_bitList hpos.le]

/-- The ranked list of `n` bits whose words and counts have the given bytes. -/
def view (n : Nat) (words counts : List UInt8) : RankedBits :=
  ⟨unpack 8 Nat.toUInt64 (wordsFor n) words, unpack 8 Nat.toUInt64 (countsFor n) counts⟩

theorem view_pack {r : RankedBits} {n : Nat} (hwords : r.words.size = wordsFor n)
    (hcounts : r.counts.size = countsFor n) :
    view n (pack 8 UInt64.toNat r.words) (pack 8 UInt64.toNat r.counts) = r := by
  rw [view, ← hwords, ← hcounts, unpack_pack toUInt64_toNat_mod, unpack_pack toUInt64_toNat_mod]

/-- Bytes of the right length are the bytes of their view. -/
theorem pack_view {n : Nat} {words counts : List UInt8} (hwords : words.length = 8 * wordsFor n)
    (hcounts : counts.length = 8 * countsFor n) :
    pack 8 UInt64.toNat (view n words counts).words = words ∧
      pack 8 UInt64.toNat (view n words counts).counts = counts :=
  ⟨pack_unpack (fun _ => toNat_toUInt64_of_lt) (by rw [hwords, Nat.mul_comm]),
    pack_unpack (fun _ => toNat_toUInt64_of_lt) (by rw [hcounts, Nat.mul_comm])⟩

/-- The counts over a list of words tell how many ones come before each position, and do so also
when words and counts are read back from their bytes. -/
theorem ranks_count_ones (words : Array UInt64) :
    (ofWords words).Tells (bitList words) ∧
      (ofWords words).counts.size = countsFor (64 * words.size) ∧
      (view (64 * words.size) (pack 8 UInt64.toNat (ofWords words).words)
        (pack 8 UInt64.toNat (ofWords words).counts)).Tells (bitList words) := by
  have hwords : words.size = wordsFor (64 * words.size) := by
    rw [wordsFor]
    omega
  have hcounts : (ofWords words).counts.size = countsFor (64 * words.size) := by
    rw [size_counts_ofWords, countsFor, ← hwords]
  refine ⟨tells_ofWords words, hcounts, ?_⟩
  rw [view_pack hwords hcounts]
  exact tells_ofWords words

/-- A position in the second stretch, behind a full word in the first. -/
theorem ranks_count_ones_nine :
    515 < (bitList #[~~~0, 0, 0, 0, 0, 0, 0, 0, 0b1011]).length ∧
      (ofWords #[~~~0, 0, 0, 0, 0, 0, 0, 0, 0b1011]).rank 515 = 66 ∧
      (ofWords #[~~~0, 0, 0, 0, 0, 0, 0, 0, 0b1011]).get 515 = true := by
  obtain ⟨htells, -, -⟩ := ranks_count_ones #[~~~0, 0, 0, 0, 0, 0, 0, 0, 0b1011]
  have hpos : 515 < (bitList #[~~~0, 0, 0, 0, 0, 0, 0, 0, 0b1011]).length := by
    rw [length_bitList]
    decide
  refine ⟨hpos, ?_, ?_⟩
  · rw [htells.rank_eq 515 hpos (by decide)]
    decide +kernel
  · have hget := htells.get_eq 515 hpos
    rw [← Option.some_inj, ← hget]
    decide +kernel

/-! ### Bits given by a predicate -/

variable (n : Nat) (p : Nat → Bool)

theorem size_words_ofBits : (ofBits n p).words.size = wordsFor n := by
  simp [ofBits, ofWords]

theorem size_counts_ofBits : (ofBits n p).counts.size = countsFor n := by
  simp [ofBits, size_counts_ofWords, countsFor]

theorem get_ofBits (i : Nat) : (ofBits n p).get i = (decide (i < n) && p i) := by
  have hi : 64 * (i / 64) + i % 64 = i := by omega
  have hlt : i % 64 < 64 := Nat.mod_lt _ (by decide)
  simp only [get, ofBits, ofWords, Array.getD_eq_getD_getElem?, Array.getElem?_map]
  by_cases hw : i / 64 < wordsFor n
  · simp [hw, bitAt_wordOf, hi, hlt]
  · have hn : ¬ i < n := by
      simp only [wordsFor] at hw
      omega
    simp [hw, hn]

theorem rank_ofBits {i : Nat} (hn : n < 2 ^ 63) (hi : i < n) :
    (ofBits n p).rank i = Nat.count (p · = true) i := by
  have hsize := size_words_ofBits n p
  simp only [wordsFor] at hsize
  change (ofWords (ofBits n p).words).rank i = _
  rw [rank_ofWords (by omega) (by omega), onesBefore]
  have hbit {j : Nat} (hj : j < i) : bitOf (ofBits n p).words j = p j := by
    rw [← get_eq_bitOf, get_ofBits]
    have hjn : j < n := by omega
    simp [hjn]
  exact count_congr fun j hj => by rw [hbit hj]

end RankedBits

end ApproxSet
