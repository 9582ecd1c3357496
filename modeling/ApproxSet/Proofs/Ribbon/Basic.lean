import ApproxSet.Proofs.KeySet
import ApproxSet.Proofs.Ribbon.Solution
import ApproxSet.Proofs.Wire.Cursor
import ApproxSet.Proofs.Word.Digits
import ApproxSet.Ribbon.Basic
import Mathlib.Data.List.Forall2
import Mathlib.Data.List.Induction

/-!
# Ribbon filters

The system of all shards is solved when each shard's band is, the slots counted from the shard's
first. So the rows of all keys are satisfied by the stored words.
-/
namespace ApproxSet

namespace Band

/-! ### Bands side by side -/

theorem equation_append (a b : Band) (k : Nat) :
    equation (a ++ b) k = if k < a.size then a.equation k else b.equation (k - a.size) := by
  simp only [equation, Array.getD_eq_getD_getElem?, Array.getElem?_append]
  split <;> rfl

theorem WellFormed.append {a b : Band} (ha : a.WellFormed) (hb : b.WellFormed) :
    WellFormed (a ++ b) := by
  intro k
  rw [equation_append]
  split
  · exact ha k
  · exact hb _

/-- The system of several bands one after the other. -/
def joined (bands : List Band) : Band := bands.foldl (· ++ ·) #[]

theorem joined_append (bands : List Band) (b : Band) :
    joined (bands ++ [b]) = joined bands ++ b := by
  rw [joined, List.foldl_append]
  rfl

theorem wellFormed_joined {bands : List Band} (hwf : ∀ b ∈ bands, b.WellFormed) :
    (joined bands).WellFormed := by
  induction bands using List.reverseRecOn with
  | nil => exact wellFormed_empty 0
  | append_singleton bands b ih =>
    rw [joined_append]
    exact (ih fun a ha => hwf a (List.mem_append_left _ ha)).append (hwf b (by simp))

theorem size_joined {slots : Nat} {bands : List Band} (hsize : ∀ b ∈ bands, b.size = slots) :
    (joined bands).size = bands.length * slots := by
  induction bands using List.reverseRecOn with
  | nil => simp [joined]
  | append_singleton bands b ih =>
    rw [joined_append, Array.size_append, hsize b (by simp),
      ih fun a ha => hsize a (List.mem_append_left _ ha), List.length_append,
      List.length_singleton, Nat.add_mul, Nat.one_mul]

/-- Bands of equal size keep their equations, counted from the first slot of each. -/
theorem equation_joined {slots : Nat} {bands : List Band} (hsize : ∀ b ∈ bands, b.size = slots)
    {s : Nat} {b : Band} (hs : bands[s]? = some b) {i : Nat} (hi : i < slots) :
    (joined bands).equation (s * slots + i) = b.equation i := by
  induction bands using List.reverseRecOn with
  | nil => cases hs
  | append_singleton bands a ih =>
    have hsize' : ∀ b ∈ bands, b.size = slots := fun b hb => hsize b (List.mem_append_left _ hb)
    have hin := (List.getElem?_eq_some_iff.mp hs).1
    rw [List.length_append, List.length_singleton] at hin
    rw [joined_append, equation_append, size_joined hsize']
    by_cases hlt : s < bands.length
    · have hend : (s + 1) * slots ≤ bands.length * slots := Nat.mul_le_mul_right _ hlt
      rw [Nat.add_mul, Nat.one_mul] at hend
      rw [List.getElem?_append_left hlt] at hs
      rw [if_pos (by omega), ih hsize' hs]
    · obtain rfl : s = bands.length := by omega
      rw [List.getElem?_concat_length] at hs
      cases hs
      rw [if_neg (by omega), Nat.add_sub_cancel_left]

/-- A solution of all bands solves each of them at its own place. -/
theorem Solves.part {slots : Nat} {bands : List Band} (hsize : ∀ b ∈ bands, b.size = slots)
    {j : Nat} {x : Nat → Bool} (h : (joined bands).Solves j x) {s : Nat} {b : Band}
    (hs : bands[s]? = some b) : b.Solves j fun i => x (s * slots + i) := by
  intro i
  by_cases hi : i < slots
  · rw [← equation_joined hsize hs hi, ← h (s * slots + i)]
    exact dot_congr _ fun t => by rw [Nat.add_assoc]
  · have hb := hsize b (List.mem_of_getElem? hs)
    rw [equation_of_size_le (by omega), dot_zero, valueBit_zero]

end Band

/-- A row that follows from the equations of one band is satisfied by the words stored for all. -/
theorem Columns.satisfies_joined {c : Columns} {slots : Nat} {bands : List Band}
    (hwf : ∀ b ∈ bands, b.WellFormed) (hsize : ∀ b ∈ bands, b.size = slots)
    (hblocks : 64 * c.blocks = bands.length * slots) {s : Nat} {b : Band}
    (hs : bands[s]? = some b) {r : Row} (hr : r.start + 64 ≤ slots)
    (hrow : ∀ j x, b.Solves j x → dot x r.start r.coeff = valueBit r.value j) :
    c.satisfies ((Band.joined bands).solve c) { r with start := s * slots + r.start } = true := by
  have hin := (List.getElem?_eq_some_iff.mp hs).1
  have hend : (s + 1) * slots ≤ bands.length * slots := Nat.mul_le_mul_right _ hin
  rw [Nat.add_mul, Nat.one_mul] at hend
  have hle : (Band.joined bands).size ≤ 64 * c.blocks := by
    rw [Band.size_joined hsize, hblocks]
  apply satisfies_solve
  · dsimp only
    omega
  · intro j
    have hsol := Band.solution_solves (Band.wellFormed_joined hwf) hle j
    rw [← hrow j _ (hsol.part hsize hs)]
    exact dot_congr _ fun t => by rw [Nat.add_assoc]

namespace Ribbon

/-! ### Shards -/

theorem shardOf_lt (base : UInt64) {shardBits : Nat} (h : shardBits ≤ 64) :
    shardOf base shardBits < 1 <<< shardBits := by
  rw [shardOf, Nat.shiftRight_eq_div_pow, Nat.one_shiftLeft]
  apply Nat.div_lt_of_lt_mul
  rw [← Nat.pow_add, Nat.sub_add_cancel h]
  exact base.toNat_lt

theorem basesOf_of_ascending {keys : List UInt64} {seed : UInt64}
    (h : (keys.map (mix · seed)).Pairwise (· ≤ ·)) : basesOf keys seed = keys.map (mix · seed) :=
  List.mergeSort_of_pairwise (h.imp decide_eq_true)

/-- A row leaves 63 slots of its shard behind its first. -/
theorem rowOf_start_le (base : UInt64) (shardSeed : Nat) {slots : Nat} (h : 64 ≤ slots) :
    (rowOf base shardSeed slots).start + 64 ≤ slots := by
  have hlt := scale64_lt (mix base ((shardSeed + 1).toUInt64 * golden))
    (by omega : 0 < slots - 63)
  change scale64 _ (slots - 63) + 64 ≤ slots
  omega

theorem forall₂_of_mapM {α β : Type} {f : α → Option β} {xs : List α} {ys : List β}
    (h : xs.mapM f = some ys) : List.Forall₂ (fun x y => f x = some y) xs ys := by
  induction xs generalizing ys with
  | nil =>
    cases h
    exact .nil
  | cons x xs ih =>
    rw [List.mapM_cons] at h
    obtain ⟨y, hy, h⟩ := Option.bind_eq_some_iff.mp h
    obtain ⟨ys', hys, h⟩ := Option.bind_eq_some_iff.mp h
    cases h
    exact .cons hy (ih hys)

/-- The band of a shard is solved when the rows of its keys are. -/
theorem solveShard?_spec {bases : List UInt64} {slots : Nat} (hslots : 64 ≤ slots) {b : Nat}
    {band : Band} (h : solveShard? bases slots = some (b, band)) :
    b < 256 ∧ band.WellFormed ∧ band.size = slots ∧ ∀ j x, band.Solves j x →
      ∀ base ∈ bases, dot x (rowOf base b slots).start (rowOf base b slots).coeff =
        valueBit (rowOf base b slots).value j := by
  obtain ⟨hb, hband, -⟩ := firstSuccess_eq_some_iff.mp h
  rw [bandUnder?, ← List.foldlM_map (f := fun base => rowOf base b slots)] at hband
  have hsize : (Band.empty slots).size = slots := Array.size_replicate
  have hrows : ∀ r ∈ bases.map fun base => rowOf base b slots,
      r.start ≤ (Band.empty slots).size := by
    intro r hr
    obtain ⟨base, -, rfl⟩ := List.mem_map.mp hr
    have hstart := rowOf_start_le base b hslots
    omega
  obtain ⟨hwf, hsize', hiff⟩ := Band.solves_foldlM_iff (Band.wellFormed_empty slots) hrows hband
  refine ⟨hb, hwf, hsize'.trans hsize, fun j x hsol base hbase => ?_⟩
  exact ((hiff j x).mp hsol).2 _ (List.mem_map_of_mem hbase)

theorem solveShards?_spec {bases : List UInt64} {shardBits slots : Nat}
    {shards : List (Nat × Band)} (h : solveShards? bases shardBits slots = some shards) :
    shards.length = 1 <<< shardBits ∧ ∀ s, s < 1 <<< shardBits →
      ∃ p, shards[s]? = some p ∧ solveShard? (inShard bases shardBits s) slots = some p := by
  have hall := forall₂_of_mapM h
  have hlen := hall.length_eq
  rw [List.length_range] at hlen
  refine ⟨hlen.symm, fun s hs => ?_⟩
  have hin : s < shards.length := hlen ▸ hs
  have hget := hall.get (by simpa using hs) hin
  refine ⟨shards[s], List.getElem?_eq_getElem hin, ?_⟩
  simpa using hget

/-- The band of each shard, of the size of a shard. Its solutions satisfy the rows of the shard. -/
theorem solveShards?_bands {bases : List UInt64} {shardBits slots : Nat} (hslots : 64 ≤ slots)
    {shards : List (Nat × Band)} (h : solveShards? bases shardBits slots = some shards) :
    (∀ b ∈ shards.map Prod.snd, b.WellFormed ∧ b.size = slots) ∧
      ∀ s, s < 1 <<< shardBits → ∃ p, shards[s]? = some p ∧ p.1 < 256 ∧ ∀ j x,
        p.2.Solves j x → ∀ base ∈ inShard bases shardBits s,
          dot x (rowOf base p.1 slots).start (rowOf base p.1 slots).coeff =
            valueBit (rowOf base p.1 slots).value j := by
  obtain ⟨hlen, hget⟩ := solveShards?_spec h
  constructor
  · intro a ha
    obtain ⟨p, hp, rfl⟩ := List.mem_map.mp ha
    obtain ⟨s, hs, rfl⟩ := List.getElem_of_mem hp
    obtain ⟨p, hp', hsolve⟩ := hget s (hlen ▸ hs)
    rw [List.getElem?_eq_getElem hs] at hp'
    cases hp'
    obtain ⟨-, hwf, hsize, -⟩ := solveShard?_spec hslots hsolve
    exact ⟨hwf, hsize⟩
  · intro s hs
    obtain ⟨⟨b, band⟩, hshard, hsolve⟩ := hget s hs
    obtain ⟨hb, -, -, hrows⟩ := solveShard?_spec hslots hsolve
    exact ⟨_, hshard, hb, hrows⟩

/-! ### Sizes -/

theorem shardSlots_spec (keys shardBits : Nat) :
    64 ∣ shardSlots keys shardBits ∧ 64 ≤ shardSlots keys shardBits := by
  obtain ⟨each, heach⟩ : ∃ e, e = (keys + (1 <<< shardBits) - 1) / (1 <<< shardBits) := ⟨_, rfl⟩
  have h := le_roundUpTo (by decide : 0 < 64) (each + each / 6 + 64)
  rw [shardSlots, ← heach]
  exact ⟨dvd_roundUpTo .., by omega⟩

theorem shardBitsFor_le {keys : Nat} (h : keys ≤ maxKeys) : shardBitsFor keys ≤ 17 := by
  rw [shardBitsFor]
  by_cases hz : keys / 4096 = 0
  · rw [hz]
    decide
  · have hlt : (keys / 4096).log2 < 18 := by
      rw [Nat.log2_lt hz]
      simp only [maxKeys] at h
      omega
    omega

theorem blocks_lt {keys : Nat} (h : keys ≤ maxKeys) :
    (1 <<< shardBitsFor keys) * shardSlots keys (shardBitsFor keys) / 64 < 256 ^ 4 := by
  have hbits := shardBitsFor_le h
  simp only [maxKeys] at h
  rw [Nat.one_shiftLeft]
  have hshards : 2 ^ shardBitsFor keys ≤ 2 ^ 17 := Nat.pow_le_pow_right (by decide) hbits
  have hpos := Nat.two_pow_pos (shardBitsFor keys)
  obtain ⟨each, heach⟩ : ∃ e, e = (keys + 2 ^ shardBitsFor keys - 1) / 2 ^ shardBitsFor keys :=
    ⟨_, rfl⟩
  have hslots := roundUpTo_lt (by decide : 0 < 64) (each + each / 6 + 64)
  have hmul : 2 ^ shardBitsFor keys * each ≤ keys + 2 ^ shardBitsFor keys - 1 := by
    rw [heach]
    exact Nat.mul_div_le ..
  have htotal : 2 ^ shardBitsFor keys * shardSlots keys (shardBitsFor keys) ≤
      2 ^ shardBitsFor keys * (2 * each + 128) := by
    apply Nat.mul_le_mul_left
    rw [shardSlots, Nat.one_shiftLeft, ← heach]
    omega
  have hdist : 2 ^ shardBitsFor keys * (2 * each + 128) =
      2 * (2 ^ shardBitsFor keys * each) + 128 * 2 ^ shardBitsFor keys := by
    ring
  omega

/-- Shards of whole blocks tile the blocks. -/
theorem blocks_spec {slots : Nat} (h : 64 ∣ slots) (shardBits : Nat) :
    64 * ((1 <<< shardBits) * slots / 64) = (1 <<< shardBits) * slots ∧
      (1 <<< shardBits) * slots / 64 % (1 <<< shardBits) = 0 ∧
      (1 <<< shardBits) * slots / 64 / (1 <<< shardBits) * 64 = slots := by
  rcases h with ⟨m, rfl⟩
  have hpos : 0 < 1 <<< shardBits := Nat.shiftLeft_pos_iff.mpr Nat.one_pos
  rw [Nat.mul_left_comm, Nat.mul_div_cancel_left _ (by decide), Nat.mul_mod_right,
    Nat.mul_div_cancel_left _ hpos]
  exact ⟨rfl, rfl, Nat.mul_comm ..⟩

/-! ### Built filters -/

/-- What a stored filter is known to be. -/
structure Stored (f : Ribbon) : Prop where
  shardBits_le : f.shardBits ≤ 32
  columns : f.columns.Valid
  lt : f.columns.blocks < 256 ^ 4
  dvd : f.columns.blocks % (1 <<< f.shardBits) = 0
  size_shardSeeds : f.shardSeeds.size = 1 <<< f.shardBits
  size_words : f.words.size = f.columns.words

/-- The shards tile the blocks, and each has at least one. -/
theorem Stored.slots_spec {f : Ribbon} (hf : f.Stored) :
    64 ≤ f.slots ∧ 64 ∣ f.slots ∧ (1 <<< f.shardBits) * f.slots = 64 * f.columns.blocks := by
  obtain ⟨m, hm⟩ := Nat.dvd_of_mod_eq_zero hf.dvd
  have hpos : 0 < 1 <<< f.shardBits := Nat.shiftLeft_pos_iff.mpr Nat.one_pos
  have hblocks := hf.columns.blocks_pos
  have hslots : f.slots = m * 64 := by
    rw [slots, hm, Nat.mul_div_cancel_left _ hpos]
  have hm₀ : m ≠ 0 := by
    rintro rfl
    omega
  rw [hslots, hm]
  refine ⟨by omega, Nat.dvd_mul_left .., ?_⟩
  ring

/-- The row of a hash, its slots counted from the first of all shards. -/
def placedRow (f : Ribbon) (hash : UInt64) : Row :=
  let base := mix hash f.seed
  let s := shardOf base f.shardBits
  let r := rowOf base (f.shardSeeds.getD s 0).toNat f.slots
  { r with start := s * f.slots + r.start }

theorem mayContain_eq (f : Ribbon) (hash : UInt64) :
    f.mayContain hash = f.columns.satisfies f.words (f.placedRow hash) := rfl

/-- The row of a hash, member or not, lies in the shard of the hash. -/
theorem Stored.placedRow_bounds {f : Ribbon} (hf : f.Stored) (hash : UInt64) {s : Nat}
    (hs : shardOf (mix hash f.seed) f.shardBits = s) :
    s * f.slots ≤ (f.placedRow hash).start ∧
      (f.placedRow hash).start + 64 ≤ (s + 1) * f.slots ∧
      (f.placedRow hash).start + 64 ≤ 64 * f.columns.blocks := by
  obtain ⟨hslots, -, htotal⟩ := hf.slots_spec
  have hbits := hf.shardBits_le
  have hlt := shardOf_lt (mix hash f.seed) (by omega : f.shardBits ≤ 64)
  have hrow := rowOf_start_le (mix hash f.seed) (f.shardSeeds.getD s 0).toNat hslots
  rw [hs] at hlt
  have hend : (s + 1) * f.slots ≤ (1 <<< f.shardBits) * f.slots := Nat.mul_le_mul_right _ hlt
  have hstart : (f.placedRow hash).start = s * f.slots +
      (rowOf (mix hash f.seed) (f.shardSeeds.getD s 0).toNat f.slots).start := by
    simp only [placedRow, hs]
  rw [htotal] at hend
  rw [hstart]
  rw [Nat.add_mul, Nat.one_mul] at hend ⊢
  omega

section Build

variable {hashes : List UInt64} {milliBits : Nat} {seed : UInt64} {minKeys : Nat} {f : Ribbon}

/-- Seed bytes and bands of the shards of a build. The number of columns has no part in them. -/
def solved (hashes : List UInt64) (seed : UInt64) (minKeys : Nat) :
    Except Error (List (Nat × Band)) :=
  let keys := distinct hashes
  let n := keys.length
  if n < minKeys ∨ n > maxKeys then .error (.keyCount n minKeys maxKeys)
  else
    match solveShards? (basesOf keys seed) (shardBitsFor n) (shardSlots n (shardBitsFor n)) with
    | none => .error .unsolvable
    | some shards => .ok shards

/-- The columns of a filter of `n` keys. -/
def columnsFor (n milliBits : Nat) : Columns :=
  let total := (1 <<< shardBitsFor n) * shardSlots n (shardBitsFor n)
  .spread (total / 64) (wordsFor total milliBits)

/-- The filter that is made of the solved shards of `n` keys. -/
def ofShards (n milliBits : Nat) (seed : UInt64) (shards : List (Nat × Band)) : Ribbon where
  seed := seed
  shardBits := shardBitsFor n
  columns := columnsFor n milliBits
  shardSeeds := (shards.map fun s => UInt8.ofNat s.1).toArray
  words := (Band.joined (shards.map Prod.snd)).solve (columnsFor n milliBits)

/-- The number of blocks is never refused, since so few keys do not take so many. -/
theorem build_eq (hashes : List UInt64) (milliBits : Nat) (seed : UInt64) (minKeys : Nat) :
    build hashes milliBits seed minKeys =
      (solved hashes seed minKeys).map (ofShards (distinct hashes).length milliBits seed) := by
  simp only [build, solved]
  split
  · rfl
  · have hblocks : ¬ UInt32.size ≤ _ :=
      Nat.not_le_of_lt (blocks_lt (by omega : (distinct hashes).length ≤ maxKeys))
    rw [if_neg hblocks]
    cases solveShards? (basesOf (distinct hashes) seed) (shardBitsFor (distinct hashes).length)
        (shardSlots (distinct hashes).length (shardBitsFor (distinct hashes).length)) with
    | none => rfl
    | some shards =>
      simp only [Except.map, ofShards, Band.joined, List.foldl_map]
      rfl

theorem solved_eq_ok {shards : List (Nat × Band)} (h : solved hashes seed minKeys = .ok shards) :
    ∃ n, n = (distinct hashes).length ∧ n ≤ maxKeys ∧
      solveShards? (basesOf (distinct hashes) seed) (shardBitsFor n)
        (shardSlots n (shardBitsFor n)) = some shards := by
  simp only [solved] at h
  split at h
  · cases h
  · split at h
    · cases h
    · rename_i hn _ hshards
      cases h
      exact ⟨_, rfl, by omega, hshards⟩

/-- The shards of a built filter and what is made of them. -/
theorem build_eq_ok (h : build hashes milliBits seed minKeys = .ok f) :
    ∃ n shards, n = (distinct hashes).length ∧ n ≤ maxKeys ∧
      solveShards? (basesOf (distinct hashes) seed) (shardBitsFor n)
        (shardSlots n (shardBitsFor n)) = some shards ∧ f = ofShards n milliBits seed shards := by
  rw [build_eq, map_eq_ok_iff] at h
  obtain ⟨shards, hsolved, rfl⟩ := h
  obtain ⟨n, hn, hmax, hshards⟩ := solved_eq_ok hsolved
  exact ⟨n, shards, hn, hmax, hshards, by rw [hn]⟩

/-- A build fails for the number of its keys or for a shard without a seed byte. -/
theorem build_eq_error {e : Error} (h : build hashes milliBits seed minKeys = .error e) :
    (e = .keyCount (distinct hashes).length minKeys maxKeys ∧
        ((distinct hashes).length < minKeys ∨ maxKeys < (distinct hashes).length)) ∨
      e = .unsolvable := by
  rw [build_eq, map_eq_error_iff] at h
  simp only [solved] at h
  split at h
  · rename_i hn
    cases h
    exact Or.inl ⟨rfl, hn⟩
  · split at h
    · cases h
      exact Or.inr rfl
    · cases h

/-- The slots of a shard follow from the blocks and need not be stored. -/
theorem ofShards_sizes (n milliBits : Nat) (seed : UInt64) (shards : List (Nat × Band)) :
    64 * (columnsFor n milliBits).blocks =
        (1 <<< shardBitsFor n) * shardSlots n (shardBitsFor n) ∧
      (columnsFor n milliBits).blocks % (1 <<< shardBitsFor n) = 0 ∧
      (ofShards n milliBits seed shards).slots = shardSlots n (shardBitsFor n) := by
  obtain ⟨hdvd, -⟩ := shardSlots_spec n (shardBitsFor n)
  simp only [slots, ofShards, columnsFor, Columns.blocks_spread]
  exact blocks_spec hdvd (shardBitsFor n)

theorem stored_of_build (h : build hashes milliBits seed minKeys = .ok f) : f.Stored := by
  obtain ⟨n, shards, -, hn, hshards, rfl⟩ := build_eq_ok h
  obtain ⟨hlen, -⟩ := solveShards?_spec hshards
  obtain ⟨-, hslots⟩ := shardSlots_spec n (shardBitsFor n)
  obtain ⟨htotal, hmod, -⟩ := ofShards_sizes n milliBits seed shards
  have hblocks : (columnsFor n milliBits).blocks < 256 ^ 4 := by
    rw [columnsFor, Columns.blocks_spread]
    exact blocks_lt hn
  have hpos : 0 < (1 <<< shardBitsFor n) * shardSlots n (shardBitsFor n) :=
    Nat.mul_pos (Nat.shiftLeft_pos_iff.mpr Nat.one_pos) (by omega)
  exact {
    shardBits_le := (shardBitsFor_le hn).trans (by decide)
    columns := Columns.spread_valid (by omega) _
    lt := hblocks
    dvd := hmod
    size_shardSeeds := by rw [ofShards, List.size_toArray, List.length_map, hlen]
    size_words := Columns.size_solve _ _ }

theorem slots_of_build (h : build hashes milliBits seed minKeys = .ok f) :
    f.slots = shardSlots (distinct hashes).length f.shardBits := by
  obtain ⟨n, shards, rfl, -, -, rfl⟩ := build_eq_ok h
  exact (ofShards_sizes _ milliBits seed shards).2.2

theorem mayContain_of_mem (h : build hashes milliBits seed minKeys = .ok f) {q : UInt64}
    (hq : q ∈ hashes) : f.mayContain q = true := by
  obtain ⟨n, shards, -, hn, hshards, rfl⟩ := build_eq_ok h
  obtain ⟨-, hfit⟩ := shardSlots_spec n (shardBitsFor n)
  obtain ⟨htotal, -, hslots⟩ := ofShards_sizes n milliBits seed shards
  obtain ⟨hlen, -⟩ := solveShards?_spec hshards
  obtain ⟨hbands, hrows⟩ := solveShards?_bands hfit hshards
  have hbits := shardBitsFor_le hn
  -- the shard of the hash and its seed byte
  have hs := shardOf_lt (mix q seed) (by omega : shardBitsFor n ≤ 64)
  obtain ⟨⟨b, band⟩, hshard, hb, hrow⟩ := hrows _ hs
  have hband : (shards.map Prod.snd)[shardOf (mix q seed) (shardBitsFor n)]? = some band := by
    rw [List.getElem?_map, hshard]
    rfl
  have hseed : ((shards.map fun s => UInt8.ofNat s.1).toArray.getD
      (shardOf (mix q seed) (shardBitsFor n)) 0).toNat = b := by
    simp [Array.getD_eq_getD_getElem?, hshard, Nat.mod_eq_of_lt hb]
  have hbase : mix q seed ∈ inShard (basesOf (distinct hashes) seed) (shardBitsFor n)
      (shardOf (mix q seed) (shardBitsFor n)) := by
    refine List.mem_filter.mpr ⟨?_, by simp⟩
    rw [basesOf, List.mem_mergeSort]
    exact List.mem_map_of_mem (mem_distinct.mpr hq)
  simp only [mayContain, hslots]
  simp only [ofShards, hseed]
  refine Columns.satisfies_joined (fun b hb => (hbands b hb).1) (fun b hb => (hbands b hb).2) ?_
    hband (rowOf_start_le _ _ hfit) fun j x hx => hrow j x hx _ hbase
  rw [htotal, List.length_map, hlen]

end Build

/-! ### The stored form -/

open LittleEndian

/-- The column layout that a header describes. -/
def columnsOf (head : List UInt8) : Columns :=
  { upper := fieldAt 9 1 head, blocks := fieldAt 10 4 head, upperStart := fieldAt 14 4 head }

theorem decode_eq_ok_iff {body : List UInt8} {f : Ribbon} : decode body = .ok f ↔
    ∃ head seeds data, body = head ++ (seeds ++ data) ∧ head.length = headerSize ∧
      fieldAt 8 1 head ≤ 32 ∧ (columnsOf head).Valid ∧
      (columnsOf head).blocks % (1 <<< fieldAt 8 1 head) = 0 ∧
      seeds.length = 1 <<< fieldAt 8 1 head ∧ data.length = 8 * (columnsOf head).words ∧
      ⟨(fieldAt 0 8 head).toUInt64, fieldAt 8 1 head, columnsOf head, seeds.toArray,
        unpack 8 Nat.toUInt64 (columnsOf head).words data⟩ = f := by
  simp only [decode, Cursor.header_bind_eq_ok_iff, Cursor.bulk_bind_eq_ok_iff,
    Cursor.finish_bind_eq_ok_iff, throw_if_eq_ok_iff, pure_eq_ok_iff, Cursor.ofBytes_rest,
    gt_iff_lt, not_lt, Bool.not_eq_true', Bool.not_eq_false, Columns.isValid_iff, not_not]
  constructor
  · rintro ⟨head, _, hbody, hlen, hbits, hc, hdvd, seeds, _, rfl, hseeds, data, _, rfl, hdata, rfl,
      hf⟩
    exact ⟨head, seeds, data, by rw [hbody, List.append_nil], hlen, hbits, hc, hdvd, hseeds, hdata,
      hf⟩
  · rintro ⟨head, seeds, data, hbody, hlen, hbits, hc, hdvd, hseeds, hdata, hf⟩
    exact ⟨head, _, hbody, hlen, hbits, hc, hdvd, seeds, _, rfl, hseeds, data, [],
      (List.append_nil _).symm, hdata, rfl, hf⟩

theorem stored_of_decode {body : List UInt8} {f : Ribbon} (h : decode body = .ok f) :
    f.Stored ∧ f.encode = body := by
  obtain ⟨head, seeds, data, rfl, hlen, hbits, hc, hdvd, hseeds, hdata, rfl⟩ :=
    decode_eq_ok_iff.mp h
  refine ⟨⟨hbits, hc, fieldAt_lt .., hdvd, hseeds, size_unpack ..⟩, ?_⟩
  have hhead := fieldsFrom_zero [8, 1, 1, 4, 4] hlen
  rw [encode, toNat_toUInt64_of_lt (fieldAt_lt ..),
    pack_unpack (fun _ => toNat_toUInt64_of_lt) (by rw [hdata, Nat.mul_comm])]
  simp only [fieldsFrom, Nat.zero_add, List.append_nil, Nat.reduceAdd] at hhead
  simp only [← List.append_assoc] at hhead ⊢
  exact congrArg (· ++ seeds ++ data) hhead

theorem decode_encode {f : Ribbon} (hf : f.Stored) : decode f.encode = .ok f := by
  have hlt := hf.lt
  have hupper : f.columns.upper < 256 ^ 1 := Nat.lt_of_le_of_lt hf.columns.upper_le (by decide)
  have hstart : f.columns.upperStart < 256 ^ 4 := Nat.lt_of_le_of_lt hf.columns.start_le hlt
  have hbits : f.shardBits < 256 ^ 1 := Nat.lt_of_le_of_lt hf.shardBits_le (by decide)
  obtain ⟨head, hhead⟩ : ∃ head, head = bytes 8 f.seed.toNat ++ (bytes 1 f.shardBits ++
      (bytes 1 f.columns.upper ++ (bytes 4 f.columns.blocks ++ bytes 4 f.columns.upperStart))) :=
    ⟨_, rfl⟩
  have hcolumns : columnsOf head = f.columns := by
    simp only [hhead, columnsOf, fieldAt_bytes_append, fieldAt_zero_bytes_append, Nat.reduceLeDiff,
      Nat.reduceSub, Nat.le_refl, Nat.sub_self, fieldAt_bytes, Nat.mod_eq_of_lt hupper,
      Nat.mod_eq_of_lt hlt, Nat.mod_eq_of_lt hstart]
  have hfield : fieldAt 8 1 head = f.shardBits := by
    simp only [hhead, fieldAt_bytes_append, Nat.le_refl, Nat.sub_self, fieldAt_zero_bytes_append,
      Nat.mod_eq_of_lt hbits]
  have hseed : (fieldAt 0 8 head).toUInt64 = f.seed := by
    rw [hhead, fieldAt_zero_bytes_append, toUInt64_toNat_mod]
  refine decode_eq_ok_iff.mpr ⟨head, f.shardSeeds.toList, pack 8 UInt64.toNat f.words, ?_⟩
  rw [hcolumns, hfield, hseed]
  refine ⟨?_, ?_, hf.shardBits_le, hf.columns, hf.dvd, hf.size_shardSeeds, ?_, ?_⟩
  · simp only [encode, hhead, List.append_assoc]
  · simp only [hhead, List.length_append, length_bytes, headerSize]
  · rw [length_pack, hf.size_words, Nat.mul_comm]
  · rw [← hf.size_words, unpack_pack toUInt64_toNat_mod, Array.toArray_toList]

theorem length_encode (f : Ribbon) : f.encode.length = f.size := by
  simp only [encode, List.length_append, length_bytes, length_pack, Array.length_toList, size,
    headerSize, Nat.mul_comm 8]

end Ribbon

end ApproxSet
