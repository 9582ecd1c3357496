import ApproxSet.Proofs.Checked.Machine
import ApproxSet.Proofs.Evict.Cuckoo
import ApproxSet.Proofs.Evict.Vacuum

/-!
# Tables of buckets, every step checked

Both buckets of a hash lie in the table, and a table of the size that its header gives holds all
bits of each of its buckets. A window may reach past the end of the table and is filled up with
zeros; the bucket in it does not.
-/
namespace ApproxSet
open Checked Reading LittleEndian

/-! ### Fields of a byte array -/

namespace BitField

/-- A word of `n` bytes of the array. -/
def checkedWindowOf (b : Array UInt8) (i : Nat) : Nat → Option UInt64
  | 0 => some 0
  | n + 1 => do
    let x ← fetch b i
    let rest ← checkedWindowOf b (i + 1) n
    return x.toUInt64 ||| (rest <<< 8)

theorem checkedWindowOf_eq {b : Array UInt8} {i n : Nat} (h : i + n ≤ b.size) :
    checkedWindowOf b i n = some (windowOf b i n) := by
  induction n generalizing i with
  | zero => rfl
  | succ n ih =>
    rw [checkedWindowOf, bind_eq (fetch_eq (by omega) 0), bind_eq (ih (by omega)), windowOf,
      Option.pure_def]

/-- Past the end of the array a window is zero. -/
theorem windowOf_eq_windowOf {b : Array UInt8} {i m n : Nat} (hm : m ≤ n) (hn : n ≤ 8)
    (h : b.size ≤ i + m) : windowOf b i n = windowOf b i m := by
  apply eq_of_bitAt
  intro j _
  rw [bitAt_windowOf b i hn, bitAt_windowOf b i (hm.trans hn)]
  by_cases hj : j < 8 * m
  · have hj' : j < 8 * n := by omega
    simp [hj, hj']
  · rw [bitOf_of_ge (by omega)]
    simp

/-- Eight bytes if there are so many, else those that are left, copied to the front of eight. -/
def checkedWindow (b : Array UInt8) (i : Nat) : Option UInt64 := do
  if (← add i 8) ≤ b.size then
    checkedWindowOf b i 8
  else if i < b.size then
    let left ← sub b.size i
    if left ≤ 8 then checkedWindowOf b i left else none
  else some 0

theorem checkedWindow_eq (b : Array UInt8) {i : Nat} (hi : i + 8 < 2 ^ 64) :
    checkedWindow b i = some (window b i) := by
  rw [checkedWindow, bind_eq (add_eq hi), window]
  by_cases hall : i + 8 ≤ b.size
  · rw [if_pos hall, checkedWindowOf_eq hall]
  · rw [if_neg hall]
    by_cases hsome : i < b.size
    · rw [if_pos hsome, bind_eq (sub_eq hsome.le), if_pos (by omega),
        checkedWindowOf_eq (by omega),
        windowOf_eq_windowOf (by omega : b.size - i ≤ 8) (Nat.le_refl 8) (by omega)]
    · rw [if_neg hsome, windowOf_eq_windowOf (Nat.zero_le 8) (Nat.le_refl 8) (by omega), windowOf]

/-- The bits from `pos` on, of which the first `n` must lie in the array. -/
def checkedBitsFrom (b : Array UInt8) (pos n : Nat) : Option UInt64 := do
  let w ← checkedWindow b (pos / 8)
  if pos + n ≤ 8 * b.size then shiftRight w (pos % 8) else none

theorem checkedBitsFrom_eq {b : Array UInt8} {pos n : Nat} (hpos : pos < 2 ^ 64)
    (h : pos + n ≤ 8 * b.size) : checkedBitsFrom b pos n = some (bitsFrom b pos) := by
  rw [checkedBitsFrom, bind_eq (checkedWindow_eq b (by omega)), if_pos h,
    shiftRight_eq _ (by omega), bitsFrom]

end BitField

/-! ### Dense buckets -/

namespace Dense

def checkedContains (t : Dense) (i : Nat) (fp : UInt64) : Option Bool := do
  let bits ← mul 4 t.width
  let pos ← mul bits i
  let w ← BitField.checkedBitsFrom t.bytes pos bits
  let low ← Checked.mask t.width
  let slots ← (List.range 4).mapM fun k => do
    let v ← shiftRight w (← mul t.width k)
    return v &&& low
  return slots.any (· == fp)

theorem checkedContains_eq {t : Dense} {width n : Nat} (hg : t.Good width n) (hw : width ≤ 16)
    (hn : 4 * width * n < 2 ^ 64) {i : Nat} (hi : i < n) (fp : UInt64) :
    t.checkedContains i fp = some (t.contains i fp) := by
  rcases hg with ⟨rfl, hsize⟩
  have hend : 4 * t.width * i + 4 * t.width ≤ 4 * t.width * n :=
    Nat.mul_le_mul_left (4 * t.width) hi
  have hslots : (List.range 4).mapM (fun k => do
      let v ← shiftRight (t.bucket i) (← mul t.width k)
      return v &&& t.mask) = some ((List.range 4).map (t.slotOf (t.bucket i))) := by
    apply mapM_eq
    intro k hk
    have hk' : t.width * k ≤ 16 * 3 :=
      Nat.mul_le_mul hw (Nat.le_of_lt_succ (List.mem_range.mp hk))
    rw [bind_eq (mul_eq (by omega)), bind_eq (shiftRight_eq _ (by omega)), slotOf, Option.pure_def]
  have hbucket : BitField.checkedBitsFrom t.bytes (4 * t.width * i) (4 * t.width) =
      some (t.bucket i) := BitField.checkedBitsFrom_eq (by omega) (by omega)
  have hmask : Checked.mask t.width = some t.mask := mask_eq (by omega)
  rw [checkedContains, bind_eq (mul_eq (by omega)), bind_eq (mul_eq (by omega)), bind_eq hbucket,
    bind_eq hmask, bind_eq hslots, List.any_map, contains, Option.pure_def]
  rfl

def checkedByteSize (width buckets : Nat) : Option Nat := do
  let bits ← mul (← mul 4 width) buckets
  return (bits + 7) / 8

theorem checkedByteSize_eq {width buckets : Nat} (hw : width < 256)
    (h : 4 * width * buckets < 2 ^ 64) :
    checkedByteSize width buckets = some (byteSize width buckets) := by
  rw [checkedByteSize, bind_eq (mul_eq (by omega)), bind_eq (mul_eq h), byteSize_eq h,
    Option.pure_def]

end Dense

/-! ### The two buckets of a hash -/

namespace Scheme

def checkedFingerprint (s : Scheme) (h : UInt64) : Option UInt64 := do
  let f ← shiftRight h (← sub 64 s.width)
  return if f = 0 then 1 else f

theorem Valid.checkedFingerprint_eq {s : Scheme} {n : Nat} (hs : s.Valid n) (h : UInt64) :
    s.checkedFingerprint h = some (s.fingerprint h) := by
  have hpos := hs.width_pos
  have hle := hs.width_le
  have hsub : (64 : UInt64) - s.width.toUInt64 = (64 - s.width).toUInt64 :=
    toUInt64_sub hle (by decide)
  rw [checkedFingerprint, bind_eq (sub_eq hle), bind_eq (shiftRight_eq _ (by omega)), fingerprint,
    hsub, Option.pure_def]

/-- The home bucket is tested, and if the fingerprint is not there, the alternate one. -/
def checkedMayHold (s : Scheme) (home : UInt64 → Option Nat)
    (alternate : Nat → UInt64 → Option Nat) (has : Nat → UInt64 → Option Bool) (h : UInt64) :
    Option Bool := do
  let i ← home h
  let fp ← s.checkedFingerprint h
  if ← has i fp then return true
  has (← alternate i fp) fp

theorem Valid.checkedMayHold_eq {s : Scheme} {n : Nat} (hs : s.Valid n)
    {home : UInt64 → Option Nat} {alternate : Nat → UInt64 → Option Nat}
    {checkedHas : Nat → UInt64 → Option Bool} {has : Nat → UInt64 → Bool}
    (hhome : ∀ h, home h = some (s.home h))
    (halternate : ∀ i fp, i < n → alternate i fp = some (s.alternate i fp))
    (hhas : ∀ i fp, i < n → checkedHas i fp = some (has i fp)) (h : UInt64) :
    s.checkedMayHold home alternate checkedHas h = some (s.mayHold has h) := by
  have hi := hs.home_lt h
  have hj := hs.alternate_lt hi (s.fingerprint h)
  rw [checkedMayHold, bind_eq (hhome h), bind_eq (hs.checkedFingerprint_eq h),
    bind_eq (hhas _ _ hi), bind_eq (halternate _ _ hi), hhas _ _ hj, mayHold]
  cases has (s.home h) (s.fingerprint h)
  · rw [Bool.false_or, if_neg Bool.false_ne_true]
  · rw [Bool.true_or, if_pos rfl, Option.pure_def]

end Scheme

/-! ### Cuckoo tables -/

namespace Cuckoo

def checkedHome (e : Nat) (h : UInt64) : Option Nat := do
  let low ← rangeMask e
  return h.toNat &&& low

def checkedAlternate (e i : Nat) (fp : UInt64) : Option Nat := do
  let low ← rangeMask e
  return (i ^^^ (mix64 fp).toNat) &&& low

theorem checkedHome_eq (width : Nat) {e : Nat} (he : e < 64) (h : UInt64) :
    checkedHome e h = some ((scheme width e).home h) := by
  have hhome : (scheme width e).home h = h.toNat % (1 <<< e) := rfl
  rw [checkedHome, bind_eq (rangeMask_eq he), Nat.and_two_pow_sub_one_eq_mod, hhome,
    Nat.one_shiftLeft, Option.pure_def]

/-- Cutting the whole xor is cutting the second part only, as the first is a bucket already. -/
theorem checkedAlternate_eq (width : Nat) {e i : Nat} (he : e < 64) (hi : i < 1 <<< e)
    (fp : UInt64) : checkedAlternate e i fp = some ((scheme width e).alternate i fp) := by
  have hreach : (scheme width e).reach fp = e := rfl
  rw [Nat.one_shiftLeft] at hi
  rw [checkedAlternate, bind_eq (rangeMask_eq he), Nat.and_two_pow_sub_one_eq_mod,
    Nat.xor_mod_two_pow, Nat.mod_eq_of_lt hi, Scheme.alternate, hreach, Nat.one_shiftLeft,
    Option.pure_def]

def checkedMayContain (f : Cuckoo) (hash : UInt64) : Option Bool :=
  (scheme f.table.width f.indexBits).checkedMayHold (checkedHome f.indexBits)
    (checkedAlternate f.indexBits) f.table.checkedContains (mix hash f.seed)

theorem checkedMayContain_eq {f : Cuckoo} (hf : f.Stored) (q : UInt64) :
    f.checkedMayContain q = some (f.mayContain q) := by
  have hw := hf.width_mem
  have he := hf.indexBits_le
  have hw₂ : f.table.width ≤ 16 := by omega
  have hbits := bits_lt hw₂ (by omega : f.indexBits ≤ 57)
  exact (scheme_valid (by omega) hw₂ f.indexBits).checkedMayHold_eq
    (fun h => checkedHome_eq _ (by omega) h) (fun i fp hi => checkedAlternate_eq _ (by omega) hi fp)
    (fun i fp hi => Dense.checkedContains_eq hf.good hw₂ hbits hi fp) (mix q f.seed)

def checkedDecode (body : List UInt8) : Reading Cuckoo := do
  let (head, c) ← outcome ((Cursor.ofBytes body).header headerSize)
  let width := fieldAt 8 1 head
  let e := fieldAt 9 1 head
  if e > 40 then
    throw (.invalidField "cuckoo idx_bits")
  let buckets ← compute (power 64 e)
  let bytes ← compute (Dense.checkedByteSize width buckets)
  let (data, c) ← outcome (c.bulk bytes)
  outcome c.finish
  if width ≠ 8 ∧ width ≠ 12 ∧ width ≠ 16 then
    throw (.invalidField "bucket fp_bits")
  return ⟨(fieldAt 0 8 head).toUInt64, e, ⟨width, data.toArray⟩⟩

theorem checkedDecode_eq (body : List UInt8) : checkedDecode body = outcome (decode body) := by
  apply outcome_bind
  rintro ⟨head, c⟩ _
  have hwidth := fieldAt_lt 8 1 head
  apply throw_if
  intro he
  have hpow : 2 ^ fieldAt 9 1 head ≤ 2 ^ 40 :=
    Nat.pow_le_pow_right (by decide) (Nat.le_of_not_lt he)
  have hbits : 4 * fieldAt 8 1 head * (1 <<< fieldAt 9 1 head) < 2 ^ 64 := by
    rw [Nat.one_shiftLeft]
    calc 4 * fieldAt 8 1 head * 2 ^ fieldAt 9 1 head ≤ 1024 * 2 ^ 40 :=
          Nat.mul_le_mul (by omega) hpow
      _ < 2 ^ 64 := by decide
  rw [compute_bind (power_eq (by omega)), compute_bind (Dense.checkedByteSize_eq hwidth hbits)]
  refine outcome_bind fun (data, c) _ => outcome_bind fun _ _ => ?_
  exact throw_if fun _ => rfl

end Cuckoo

/-! ### Packed buckets -/

namespace Quad

/-- Fingerprint `i` of a word with low parts of `low` bits, given its high nibble. -/
def checkedJoin (low : Nat) (w : UInt64) (nibble i : Nat) : Option UInt32 := do
  let ones ← Checked.mask low
  let part ← shiftRight w (← add 12 (← mul low i))
  let high ← shiftLeft nibble.toUInt64 low
  return (high ||| (part &&& ones)).toUInt32

theorem checkedJoin_eq {l : Nat} (hl : l ≤ 13) (w : UInt64) (nibble : Nat) {i : Nat} (hi : i < 4) :
    checkedJoin l w nibble i = some ((nibble.toUInt64 <<< l.toUInt64) |||
      ((w >>> (12 + l.toUInt64 * i.toUInt64)) &&& (1 <<< l.toUInt64 - 1))).toUInt32 := by
  have hli : l * i ≤ 13 * 3 := Nat.mul_le_mul hl (Nat.le_of_lt_succ hi)
  rw [checkedJoin, bind_eq (mask_eq (by omega)), bind_eq (mul_eq (by omega)),
    bind_eq (add_eq (by omega)), bind_eq (shiftRight_eq _ (by omega)),
    bind_eq (shiftLeft_eq _ (by omega)), partStart_eq, Option.pure_def]

def checkedUnpack (width : Nat) (w : UInt64) : Option (Option (Quad UInt32)) := do
  let low ← sub width 4
  match Nibbles.unrank? (w &&& 0xfff).toNat with
  | none => return none
  | some n =>
    let a ← checkedJoin low w n.a 0
    let b ← checkedJoin low w n.b 1
    let c ← checkedJoin low w n.c 2
    let d ← checkedJoin low w n.d 3
    return some ⟨a, b, c, d⟩

theorem checkedUnpack_eq {width : Nat} (h₁ : 4 ≤ width) (h₂ : width ≤ 17) (w : UInt64) :
    checkedUnpack width w = some (unpack? width w) := by
  obtain ⟨l, rfl⟩ : ∃ l, width = l + 4 := ⟨width - 4, by omega⟩
  have hl : l ≤ 13 := by omega
  rw [checkedUnpack, bind_eq (sub_eq h₁), Nat.add_sub_cancel, unpack?, lowWidth_eq hl]
  cases Nibbles.unrank? (w &&& 0xfff).toNat with
  | none => rw [Option.map_none, Option.pure_def]
  | some n =>
    dsimp only
    rw [bind_eq (checkedJoin_eq hl w _ (by decide)), bind_eq (checkedJoin_eq hl w _ (by decide)),
      bind_eq (checkedJoin_eq hl w _ (by decide)), bind_eq (checkedJoin_eq hl w _ (by decide)),
      Option.map_some, Option.pure_def]
    rfl

end Quad

/-! ### Vacuum tables -/

namespace Vacuum

def checkedPackedBits (width : Nat) : Option Nat := do
  sub (← mul 4 width) 4

theorem checkedPackedBits_eq {width : Nat} (h₁ : 1 ≤ width) (h₂ : width < 256) :
    checkedPackedBits width = some (packedBits width) := by
  rw [checkedPackedBits, bind_eq (mul_eq (by omega)), sub_eq (by omega), packedBits]

/-- A word of 64 ones is not made by a shift. -/
def checkedLowMask (bits : Nat) : Option UInt64 :=
  if bits < 64 then Checked.mask bits else some (~~~0)

theorem checkedLowMask_eq (bits : Nat) : checkedLowMask bits = some (BitField.lowMask bits) := by
  rw [checkedLowMask, BitField.lowMask]
  split
  · rename_i h
    exact mask_eq h
  · rfl

def checkedContains (f : Vacuum) (i : Nat) (fp : UInt64) : Option Bool :=
  if f.packed then do
    let bits ← checkedPackedBits f.width
    let w ← BitField.checkedBitsFrom f.bytes (← mul bits i) bits
    let low ← checkedLowMask bits
    match ← Quad.checkedUnpack f.width (w &&& low) with
    | some q => return q.toList.any fun s => s.toUInt64 == fp
    | none => return true
  else (Dense.mk f.width f.bytes).checkedContains i fp

/-- The bits of a table of packed buckets fit a word. -/
theorem packedBits_lt {width n : Nat} (hw : width ≤ 17) (hn : n < 256 ^ 4) :
    packedBits width * n < 2 ^ 64 := by
  have hbits : packedBits width ≤ 64 := by
    rw [packedBits]
    omega
  calc packedBits width * n ≤ 64 * 256 ^ 4 := Nat.mul_le_mul hbits hn.le
    _ < 2 ^ 64 := by decide

theorem checkedContains_eq {f : Vacuum} (hf : f.Stored) {i : Nat} (hi : i < f.buckets)
    (fp : UInt64) : f.checkedContains i fp = some (f.contains i fp) := by
  obtain ⟨hw₁, hw₂, hplain⟩ := hf.width_bounds
  have hsize := hf.size_bytes
  rw [tableSize] at hsize
  rw [checkedContains, contains]
  by_cases hp : f.packed = true
  · rw [if_pos hp] at hsize ⊢
    rw [if_pos hp]
    have htotal := packedBits_lt hw₂ hf.lt
    have hend : packedBits f.width * i + packedBits f.width ≤ packedBits f.width * f.buckets :=
      Nat.mul_le_mul_left (packedBits f.width) hi
    rw [packedSize] at hsize
    have hbits : BitField.checkedBitsFrom f.bytes (packedBits f.width * i) (packedBits f.width) =
        some (BitField.bitsFrom f.bytes (packedBits f.width * i)) :=
      BitField.checkedBitsFrom_eq (by omega) (by omega)
    rw [bind_eq (checkedPackedBits_eq (by omega) (by omega)), bind_eq (mul_eq (by omega)),
      bind_eq hbits, bind_eq (checkedLowMask_eq _), bind_eq (Quad.checkedUnpack_eq hw₁ hw₂ _)]
    simp only [BitField.get]
    cases Quad.unpack? f.width (BitField.bitsFrom f.bytes (packedBits f.width * i) &&&
      BitField.lowMask (packedBits f.width)) with
    | none => rw [Option.pure_def]
    | some q => rw [Option.pure_def]
  · rw [if_neg hp] at hsize ⊢
    rw [if_neg hp]
    have hw := hplain (Bool.eq_false_iff.mpr hp)
    have hbits := bits_lt hw hf.lt
    exact Dense.checkedContains_eq ⟨rfl, hsize.trans (Dense.byteSize_eq hbits)⟩ hw hbits hi fp

def checkedHome (n : Nat) (h : UInt64) : Option Nat := checkedScale32 h.toUInt32 n

def checkedAlternate (ranges : Vector Nat 4) (i : Nat) (fp : UInt64) : Option Nat := do
  let low ← rangeMask (← fetch ranges.toArray (fp &&& 3).toNat)
  return i ^^^ ((mix64 fp).toNat &&& low)

theorem checkedAlternate_eq (width : Nat) {n : Nat} {ranges : Vector Nat 4}
    (hr : RangesDivide n ranges) (i : Nat) (fp : UInt64) :
    checkedAlternate ranges i fp = some ((scheme width n ranges).alternate i fp) := by
  have hk : (fp &&& 3).toNat = fp.toNat % 4 := by
    rw [UInt64.toNat_and]
    exact Nat.and_two_pow_sub_one_eq_mod fp.toNat 2
  have hlt : fp.toNat % 4 < 4 := Nat.mod_lt _ (by decide)
  have hreach : (scheme width n ranges).reach fp = ranges.get ⟨fp.toNat % 4, hlt⟩ := rfl
  have hfetch : fetch ranges.toArray (fp &&& 3).toNat =
      some ((scheme width n ranges).reach fp) := by
    rw [hk, fetch, Array.getElem?_eq_getElem (by simpa using hlt)]
    rfl
  have hle : (scheme width n ranges).reach fp ≤ 31 := by
    rw [hreach]
    exact (hr _ (Vector.getElem_mem hlt)).1
  rw [checkedAlternate, bind_eq hfetch, bind_eq (rangeMask_eq (by omega)),
    Nat.and_two_pow_sub_one_eq_mod, Scheme.alternate, Nat.one_shiftLeft, Option.pure_def]

def checkedMayContain (f : Vacuum) (hash : UInt64) : Option Bool :=
  (scheme f.width f.buckets f.ranges).checkedMayHold (checkedHome f.buckets)
    (checkedAlternate f.ranges) f.checkedContains (mix hash f.seed)

theorem checkedMayContain_eq {f : Vacuum} (hf : f.Stored) (q : UInt64) :
    f.checkedMayContain q = some (f.mayContain q) := by
  obtain ⟨hw₁, hw₂, -⟩ := hf.width_bounds
  exact (scheme_valid (by omega) (by omega) hf.pos hf.ranges).checkedMayHold_eq
    (fun h => checkedScale32_eq _ hf.lt) (fun i fp _ => checkedAlternate_eq _ hf.ranges i fp)
    (fun i fp hi => checkedContains_eq hf hi fp) (mix q f.seed)

/-- Whether some range is too long or does not divide the number of buckets. -/
def checkedRangesFail (n : Nat) (ranges : List Nat) : Option Bool :=
  ranges.anyM fun r => do
    if r > 31 then return true
    let rest ← mod n (← power 32 r)
    return rest != 0

theorem checkedRangesFail_eq (n : Nat) (ranges : Vector Nat 4) :
    checkedRangesFail n ranges.toList =
      some (ranges.any fun r => r > 31 || n % (1 <<< r) != 0) := by
  rw [← Vector.any_toList]
  apply anyM_eq
  intro r _
  by_cases hr : r > 31
  · simp [hr]
  · have hpos : 0 < 1 <<< r := Nat.shiftLeft_pos_iff.mpr Nat.one_pos
    rw [if_neg hr, bind_eq (power_eq (by omega)), bind_eq (mod_eq hpos), decide_eq_false hr,
      Bool.false_or, Option.pure_def]

def checkedPackedSize (width buckets : Nat) : Option Nat := do
  let bits ← mul (← checkedPackedBits width) buckets
  return (bits + 7) / 8

/-- Bytes of a table, packed or not. -/
def checkedTableSize (width : Nat) (packed : Bool) (buckets : Nat) : Option Nat :=
  if packed then checkedPackedSize width buckets else Dense.checkedByteSize width buckets

theorem checkedTableSize_eq {width n : Nat} {packed : Bool} (hw : widthFits width packed = true)
    (hn : n < 256 ^ 4) : checkedTableSize width packed n =
      some (if packed then packedSize width n else Dense.byteSize width n) := by
  obtain ⟨w, hw⟩ := widthFits_iff.mp hw
  obtain ⟨h₁, h₂⟩ := w.bits_bounds
  rw [hw]
  cases packed with
  | true =>
    rw [checkedTableSize, if_pos rfl, if_pos rfl, checkedPackedSize, storedWidth, if_pos rfl,
      bind_eq (checkedPackedBits_eq (by omega) (by omega)),
      bind_eq (mul_eq (packedBits_lt (by omega) hn)), packedSize, Option.pure_def]
  | false =>
    rw [checkedTableSize, if_neg Bool.false_ne_true, if_neg Bool.false_ne_true, storedWidth,
      if_neg Bool.false_ne_true, Dense.checkedByteSize_eq (by omega) (bits_lt h₂ hn)]

def checkedDecode (body : List UInt8) : Reading Vacuum := do
  let (head, c) ← outcome ((Cursor.ofBytes body).header headerSize)
  let width := fieldAt 8 1 head
  let form := fieldAt 9 1 head
  if form > 1 then
    throw (.invalidField "vacuum packed")
  let packed := form == 1
  if !widthFits width packed then
    throw (.invalidField "vacuum fp_bits")
  let n := fieldAt 10 4 head
  if n = 0 then
    throw (.invalidField "vacuum num_buckets")
  let ranges := Vector.ofFn fun i : Fin 4 => fieldAt (14 + i.val) 1 head
  let fail ← compute (checkedRangesFail n ranges.toList)
  if fail then
    throw (.invalidField "vacuum ranges")
  let bytes ← compute (checkedTableSize width packed n)
  let (data, c) ← outcome (c.bulk bytes)
  outcome c.finish
  return ⟨(fieldAt 0 8 head).toUInt64, width, packed, n, ranges, data.toArray⟩

theorem checkedDecode_eq (body : List UInt8) : checkedDecode body = outcome (decode body) := by
  apply outcome_bind
  rintro ⟨head, c⟩ _
  have hn := fieldAt_lt 10 4 head
  refine throw_if fun _ => throw_if fun hw => throw_if fun _ => ?_
  rw [Bool.not_eq_true', Bool.not_eq_false] at hw
  dsimp only
  rw [compute_bind (checkedRangesFail_eq _ _), compute_bind (checkedTableSize_eq hw hn)]
  refine throw_if fun _ => outcome_bind fun (data, c) _ => ?_
  exact outcome_bind fun _ _ => rfl

end Vacuum

end ApproxSet
