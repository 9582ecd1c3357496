import ApproxSet.Proofs.Checked.Machine
import ApproxSet.Proofs.Peel.Fuse
import ApproxSet.Proofs.Peel.XorPlus

/-!
# Peeled filters, every step checked

The slots of a hash lie in the array whose length the header gives. The count words of compressed
filters are not checked when they are read, so a rank may point anywhere; but it is saturated, and
the slot it points to is looked up.
-/
namespace ApproxSet
open Checked Reading LittleEndian

namespace Layout

def checkedBlockSlots (n : Nat) (h : UInt64) : Option Triple := do
  let a ← checkedScale32 h.toUInt32 n
  let b ← add (← checkedScale32 (rotateLeft h 21).toUInt32 n) n
  let c ← add (← checkedScale32 (rotateLeft h 42).toUInt32 n) (← mul 2 n)
  return ⟨a, b, c⟩

theorem checkedBlockSlots_eq {n : Nat} (hpos : 0 < n) (hlt : n < 256 ^ 4) (h : UInt64) :
    checkedBlockSlots n h = some ((blocks n).slots h) := by
  have hb := scale32_lt (rotateLeft h 21).toUInt32 hpos
  have hc := scale32_lt (rotateLeft h 42).toUInt32 hpos
  rw [checkedBlockSlots, bind_eq (checkedScale32_eq _ hlt), bind_eq (checkedScale32_eq _ hlt),
    bind_eq (add_eq (by omega)), bind_eq (checkedScale32_eq _ hlt), bind_eq (mul_eq (by omega)),
    bind_eq (add_eq (by omega)), Option.pure_def]
  rfl

variable {w : Nat} {l : Layout}

def checkedSum (slots : Array (BitVec w)) (t : Triple) : Option (BitVec w) := do
  let x ← fetch slots t.a
  let y ← fetch slots t.b
  let z ← fetch slots t.c
  return x ^^^ y ^^^ z

theorem checkedSum_eq (hl : l.Proper) {slots : Array (BitVec w)} (hsize : slots.size = l.size)
    (h : UInt64) : checkedSum slots (l.slots h) = some (l.sum slots h) := by
  have hlt {s : Nat} (hs : s ∈ (l.slots h).toList) : s < slots.size := by
    rw [hsize]
    exact hl.lt_size h s hs
  have ha := hlt (s := (l.slots h).a) (by simp [Triple.toList])
  have hb := hlt (s := (l.slots h).b) (by simp [Triple.toList])
  have hc := hlt (s := (l.slots h).c) (by simp [Triple.toList])
  rw [checkedSum, bind_eq (fetch_eq ha 0), bind_eq (fetch_eq hb 0), bind_eq (fetch_eq hc 0), sum,
    Option.pure_def]

end Layout

/-! ### Three blocks -/

namespace Xor

variable {w : Nat}

def checkedMayContain (f : Xor w) (hash : UInt64) : Option Bool := do
  let h := mix hash f.seed
  let v ← Layout.checkedSum f.slots (← Layout.checkedBlockSlots f.blockLength h)
  return v == fingerprint w h

theorem checkedMayContain_eq {f : Xor w} (hf : f.Stored) (q : UInt64) :
    f.checkedMayContain q = some (f.mayContain q) := by
  have hsum := Layout.checkedSum_eq (Layout.blocks_proper hf.pos) hf.size_slots (mix q f.seed)
  rw [checkedMayContain, bind_eq (Layout.checkedBlockSlots_eq hf.pos hf.lt _), bind_eq hsum,
    mayContain, Option.pure_def]

/-- With fewer slots than three blocks, the array may be read past its end. -/
example : (Xor.mk 0 5 #[1, 2, 3] : Xor 8).checkedMayContain 7 = none := by decide +kernel

def checkedDecode (w : Nat) (body : List UInt8) : Reading (Xor w) := do
  let (head, c) ← outcome ((Cursor.ofBytes body).header headerSize)
  let n := fieldAt 8 4 head
  if n = 0 then
    throw (.invalidField "xor block_len")
  let slots ← compute (mul 3 n)
  let (data, c) ← outcome (c.bulk (slots * (w / 8)))
  outcome c.finish
  return {
    seed := (fieldAt 0 8 head).toUInt64
    blockLength := n
    slots := unpack (w / 8) (BitVec.ofNat w) slots data }

theorem checkedDecode_eq (w : Nat) (body : List UInt8) :
    checkedDecode w body = outcome (decode w body) := by
  apply outcome_bind
  rintro ⟨head, c⟩ _
  have hn := fieldAt_lt 8 4 head
  apply throw_if
  intro _
  rw [compute_bind (mul_eq (by omega))]
  apply outcome_bind
  rintro ⟨data, c⟩ _
  exact outcome_bind fun _ _ => rfl

end Xor

/-! ### Segments -/

namespace Segments

/-- An offset in a segment is cut out with the length less one, the length being a power of two. -/
def checkedSlots (g : Segments) (h : UInt64) : Option Triple := do
  let low ← sub g.length 1
  let a ← checkedScale64 h g.spread
  let b ← add a g.length
  let c ← add a (← mul 2 g.length)
  return ⟨a, b ^^^ ((h >>> 18).toNat &&& low), c ^^^ (h.toNat &&& low)⟩

theorem checkedSlots_eq {g : Segments} (hg : g.Fits) (h : UInt64) :
    g.checkedSlots h = some (g.slots h) := by
  obtain ⟨e, he⟩ := hg.valid.isPowerOfTwo
  have hpos := hg.valid.length_pos
  have hsize := hg.size_lt
  have ha : scale64 h g.spread < g.spread := hg.valid.slots_a_lt h
  simp only [Segments.size] at hsize
  have hlow (n : Nat) : n &&& (g.length - 1) = n % g.length := by
    rw [he, Nat.and_two_pow_sub_one_eq_mod]
  rw [checkedSlots, bind_eq (sub_eq hpos), bind_eq (checkedScale64_eq h (by omega)),
    bind_eq (add_eq (by omega)), bind_eq (mul_eq (by omega)), bind_eq (add_eq (by omega)), hlow,
    hlow, Option.pure_def]
  rfl

def checkedSize (g : Segments) : Option Nat := do
  add g.spread (← mul 2 g.length)

theorem checkedSize_eq {g : Segments} (hlength : g.length < 256 ^ 4)
    (hspread : g.spread < 256 ^ 4) :
    g.checkedSize = some g.size := by
  rw [checkedSize, bind_eq (mul_eq (by omega)), add_eq (by omega), size]

end Segments

namespace Fuse

variable {w : Nat}

def checkedMayContain (f : Fuse w) (hash : UInt64) : Option Bool := do
  let h := mix hash f.seed
  let v ← Layout.checkedSum f.slots (← f.segments.checkedSlots h)
  return v == fingerprint w h

theorem checkedMayContain_eq {f : Fuse w} (hf : f.Stored) (q : UInt64) :
    f.checkedMayContain q = some (f.mayContain q) := by
  have hsum := Layout.checkedSum_eq hf.segments.valid.proper hf.size_slots (mix q f.seed)
  have hslots : f.segments.layout.slots (mix q f.seed) = f.segments.slots (mix q f.seed) := rfl
  rw [hslots] at hsum
  rw [checkedMayContain, bind_eq (Segments.checkedSlots_eq hf.segments _), bind_eq hsum,
    mayContain, Option.pure_def]

def checkedReadSegments (length spread slots : Nat) : Reading Segments := do
  if 1 <<< length.log2 ≠ length ∨ length > Segments.maxLength then
    throw (.invalidField "fuse segment_length")
  if spread = 0 then
    throw (.invalidField "fuse segment_count_length")
  let rest ← compute (mod spread length)
  if rest ≠ 0 then
    throw (.invalidField "fuse segment_count_length")
  let size ← compute (Segments.mk length spread).checkedSize
  if slots ≠ size then
    throw (.invalidField "fuse array_len")
  return ⟨length, spread⟩

theorem checkedReadSegments_eq {length spread : Nat} (hlength : length < 256 ^ 4)
    (hspread : spread < 256 ^ 4) (slots : Nat) :
    checkedReadSegments length spread slots = outcome (readSegments length spread slots) := by
  apply throw_if
  intro hpow
  have hpos : 0 < length := by
    rw [not_or, not_not, isPowerOfTwo_iff] at hpow
    rcases hpow with ⟨⟨e, rfl⟩, -⟩
    exact Nat.two_pow_pos e
  have hsize := Segments.checkedSize_eq (g := ⟨length, spread⟩) hlength hspread
  rw [compute_bind (mod_eq hpos), compute_bind hsize]
  by_cases hz : spread = 0
  · simp only [hz, true_or, if_true]
    rfl
  · simp only [hz, false_or, if_false]
    exact throw_if fun _ => throw_if fun _ => rfl

def checkedDecode (w : Nat) (body : List UInt8) : Reading (Fuse w) := do
  let (head, c) ← outcome ((Cursor.ofBytes body).header headerSize)
  let g ← checkedReadSegments (fieldAt 8 4 head) (fieldAt 12 4 head) (fieldAt 16 4 head)
  let size ← compute g.checkedSize
  let (data, c) ← outcome (c.bulk (size * (w / 8)))
  outcome c.finish
  return {
    seed := (fieldAt 0 8 head).toUInt64
    segments := g
    slots := unpack (w / 8) (BitVec.ofNat w) size data }

theorem checkedDecode_eq (w : Nat) (body : List UInt8) :
    checkedDecode w body = outcome (decode w body) := by
  apply outcome_bind
  rintro ⟨head, c⟩ _
  have hlength := fieldAt_lt 8 4 head
  have hspread := fieldAt_lt 12 4 head
  dsimp only
  rw [checkedReadSegments_eq hlength hspread]
  apply outcome_bind
  intro g hg
  obtain ⟨rfl, -⟩ := readSegments_eq_ok_iff.mp hg
  rw [compute_bind (Segments.checkedSize_eq hlength hspread)]
  apply outcome_bind
  rintro ⟨data, c⟩ _
  exact outcome_bind fun _ _ => rfl

end Fuse

/-! ### Three blocks, the third compressed -/

/-- The sum that a word can hold. -/
def saturate (n : Nat) : Nat := min n (2 ^ 64 - 1)

theorem saturate_saturate_add (m n : Nat) : saturate (saturate m + n) = saturate (m + n) := by
  unfold saturate
  omega

theorem saturate_add_saturate (m n : Nat) : saturate (m + saturate n) = saturate (m + n) := by
  unfold saturate
  omega

/-- No array is so long that saturation matters. -/
theorem getElem?_saturate {α : Type} {a : Array α} (h : a.size < 2 ^ 64) (i : Nat) :
    a[saturate i]? = a[i]? := by
  by_cases hi : i < 2 ^ 64
  · have hsat : saturate i = i := by
      unfold saturate
      omega
    rw [hsat]
  · have hsat : saturate i = 2 ^ 64 - 1 := by
      unfold saturate
      omega
    rw [hsat, Array.getElem?_eq_none (by omega), Array.getElem?_eq_none (by omega)]

theorem ones_and_mask (w : UInt64) {k : Nat} (hk : k < 64) (n : Nat) :
    ones (w &&& (1 <<< k.toUInt64 - 1)) n = ones w (min n k) := by
  induction n with
  | zero => simp [ones]
  | succ n ih =>
    rw [ones, ih, bitAt_and, bitAt_ones hk]
    by_cases hn : n < k
    · have h₁ : min n k = n := by omega
      have h₂ : min (n + 1) k = n + 1 := by omega
      rw [h₁, h₂, ones]
      simp [hn]
    · have h₁ : min n k = k := by omega
      have h₂ : min (n + 1) k = k := by omega
      simp [h₁, h₂, hn]

namespace RankedBits

def checkedGet (r : RankedBits) (pos : Nat) : Option Bool := do
  let w ← fetch r.words (pos / 64)
  let v ← shiftRight w (pos % 64)
  return v &&& 1 == 1

theorem checkedGet_eq {r : RankedBits} {pos : Nat} (h : pos / 64 < r.words.size) :
    r.checkedGet pos = some (r.get pos) := by
  have hk : pos % 64 < 64 := Nat.mod_lt _ (by decide)
  rw [checkedGet, bind_eq (fetch_eq h 0), bind_eq (shiftRight_eq _ hk), and_one_eq_one,
    bitAt_shiftRight _ hk, Nat.add_zero, get, Option.pure_def]

/-- The ones of a stretch before its `k`-th word. -/
def checkedRelative (r : RankedBits) (stretch k : Nat) : Option Nat :=
  if k = 0 then some 0
  else do
    let i ← add (← mul 2 stretch) 1
    let v ← shiftRight (← fetch r.counts i) (← mul 9 (← sub k 1))
    return (v &&& 0x1ff).toNat

theorem checkedRelative_eq {r : RankedBits} {stretch k : Nat} (hk : k < 8)
    (hs : 2 * stretch + 1 < r.counts.size) (hsize : r.counts.size < 2 ^ 64) :
    r.checkedRelative stretch k = some (if k = 0 then 0
      else ((r.counts.getD (2 * stretch + 1) 0 >>> (9 * (k - 1)).toUInt64) &&& 0x1ff).toNat) := by
  by_cases hz : k = 0
  · rw [checkedRelative, if_pos hz, if_pos hz]
  · rw [checkedRelative, if_neg hz, if_neg hz, bind_eq (mul_eq (by omega)),
      bind_eq (add_eq (by omega)), bind_eq (fetch_eq hs 0), bind_eq (sub_eq (by omega)),
      bind_eq (mul_eq (by omega)), bind_eq (shiftRight_eq _ (by omega)), Option.pure_def]

def checkedRank (r : RankedBits) (pos : Nat) : Option Nat := do
  let word := pos / 64
  let stretch := word / 8
  let base ← fetch r.counts (← mul 2 stretch)
  let relative ← r.checkedRelative stretch (word % 8)
  let low ← mask (pos % 64)
  let w ← fetch r.words word
  return saturate (saturate (base.toNat + relative) + ones (w &&& low) 64)

theorem checkedRank_eq {r : RankedBits} {pos : Nat} (hw : pos / 64 < r.words.size)
    (hc : 2 * (pos / 64 / 8) + 1 < r.counts.size) (hsize : r.counts.size < 2 ^ 64) :
    r.checkedRank pos = some (saturate (r.rank pos)) := by
  have hk : pos % 64 < 64 := Nat.mod_lt _ (by decide)
  have hmin : min 64 (pos % 64) = pos % 64 := by omega
  rw [checkedRank, bind_eq (mul_eq (by omega)), bind_eq (fetch_eq (by omega) 0),
    bind_eq (checkedRelative_eq (Nat.mod_lt _ (by decide)) hc hsize), bind_eq (mask_eq hk),
    bind_eq (fetch_eq hw 0), ones_and_mask _ hk, hmin, saturate_saturate_add, rank,
    Option.pure_def]

end RankedBits

namespace XorPlus

variable {w : Nat}

def checkedMayContain (f : XorPlus w) (hash : UInt64) : Option Bool := do
  let h := mix hash f.seed
  let t ← Layout.checkedBlockSlots f.blockLength h
  let x ← fetch f.slots t.a
  let y ← fetch f.slots t.b
  let start ← mul 2 f.blockLength
  let i ← sub t.c start
  if ← f.kept.checkedGet i then
    let rank ← f.kept.checkedRank i
    match f.slots[saturate (start + rank)]? with
    | some v => return x ^^^ y ^^^ v == fingerprint w h
    | none => return true
  else return x ^^^ y == fingerprint w h

/-- A slot of the third block has its bit and its counts. -/
theorem Stored.kept_sizes {f : XorPlus w} (hf : f.Stored) {i : Nat} (hi : i < f.blockLength) :
    i / 64 < f.kept.words.size ∧ 2 * (i / 64 / 8) + 1 < f.kept.counts.size ∧
      f.kept.counts.size < 2 ^ 64 := by
  have hlt := hf.lt
  rw [hf.size_words, hf.size_counts, RankedBits.countsFor, RankedBits.wordsFor]
  omega

theorem checkedMayContain_eq {f : XorPlus w} (hf : f.Stored) (q : UInt64) :
    f.checkedMayContain q = some (f.mayContain q) := by
  obtain ⟨ha, ⟨-, hb⟩, hc, hc'⟩ := Layout.blocks_slots hf.pos (mix q f.seed)
  have hlt := hf.lt
  have hsize := hf.size_slots
  have hthird := hf.thirdLength_le
  obtain ⟨i, hi⟩ : ∃ i, ((Layout.blocks f.blockLength).slots (mix q f.seed)).c -
      2 * f.blockLength = i := ⟨_, rfl⟩
  obtain ⟨hw, hcount, hcounts⟩ := hf.kept_sizes (by omega : i < f.blockLength)
  rw [checkedMayContain, bind_eq (Layout.checkedBlockSlots_eq hf.pos hlt _),
    bind_eq (fetch_eq (by omega) 0), bind_eq (fetch_eq (by omega) 0), bind_eq (mul_eq (by omega)),
    bind_eq (sub_eq hc), hi, bind_eq (RankedBits.checkedGet_eq hw),
    bind_eq (RankedBits.checkedRank_eq hw hcount hcounts), saturate_add_saturate,
    getElem?_saturate (by omega), mayContain, hi]
  by_cases hget : f.kept.get i = true
  · rw [if_pos hget, if_pos hget]
    cases f.slots[2 * f.blockLength + f.kept.rank i]? with
    | none => rw [Option.pure_def]
    | some v => rw [Option.pure_def]
  · rw [if_neg hget, if_neg hget, Option.pure_def]

def checkedDecode (w : Nat) (body : List UInt8) : Reading (XorPlus w) := do
  let (head, c) ← outcome ((Cursor.ofBytes body).header headerSize)
  let n := fieldAt 8 4 head
  let third := fieldAt 12 4 head
  if n = 0 then
    throw (.invalidField "xor+ block_len")
  if third > n then
    throw (.invalidField "xor+ third_len")
  let slots ← compute (do add (← mul 2 n) third)
  let (data, c) ← outcome (c.bulk (slots * (w / 8)))
  let (words, c) ← outcome (c.bulk (8 * RankedBits.wordsFor n))
  let count ← compute (mul 2 ((RankedBits.wordsFor n + 7) / 8))
  let (counts, c) ← outcome (c.bulk (8 * count))
  outcome c.finish
  return {
    seed := (fieldAt 0 8 head).toUInt64
    blockLength := n
    slots := unpack (w / 8) (BitVec.ofNat w) slots data
    kept :=
      { words := unpack 8 Nat.toUInt64 (RankedBits.wordsFor n) words
        counts := unpack 8 Nat.toUInt64 count counts } }

theorem checkedDecode_eq (w : Nat) (body : List UInt8) :
    checkedDecode w body = outcome (decode w body) := by
  apply outcome_bind
  rintro ⟨head, c⟩ _
  have hn := fieldAt_lt 8 4 head
  refine throw_if fun _ => throw_if fun hthird => ?_
  have hslots : (do add (← mul 2 (fieldAt 8 4 head)) (fieldAt 12 4 head)) =
      some (2 * fieldAt 8 4 head + fieldAt 12 4 head) := by
    rw [bind_eq (mul_eq (by omega)), add_eq (by omega)]
  have hwords : RankedBits.wordsFor (fieldAt 8 4 head) < 256 ^ 4 := by
    rw [RankedBits.wordsFor]
    omega
  rw [compute_bind hslots]
  apply outcome_bind
  rintro ⟨data, c⟩ _
  apply outcome_bind
  rintro ⟨words, c⟩ _
  dsimp only
  rw [compute_bind (mul_eq (by omega))]
  apply outcome_bind
  rintro ⟨counts, c⟩ _
  exact outcome_bind fun _ _ => rfl

end XorPlus

end ApproxSet
