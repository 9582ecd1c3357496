import ApproxSet.Proofs.Ribbon.Solvable
import ApproxSet.Proofs.Word.Mix
import Mathlib.Data.List.Nodup

/-!
# Shards are isolated

The shards share one array of words, which is solved in one go with 64 bits of state handed from
slot to slot. No equation and no row reaches beyond its shard, though, so a shard is made of its own
keys and is all that their rows read.
-/
namespace ApproxSet

/-! ### What a row reads -/

namespace Columns

variable {c : Columns} {words words' : Array UInt64}

theorem bitsAt_congr {slot j : Nat} (hj : j < c.width (slot / 64))
    (h : ∀ b, slot / 64 ≤ b → 64 * b < slot + 64 → j < c.width b →
      words.getD (c.offset b + j) 0 = words'.getD (c.offset b + j) 0) :
    c.bitsAt words slot j = c.bitsAt words' slot j := by
  simp only [bitsAt]
  rw [h (slot / 64) (Nat.le_refl _) (by omega) hj]
  split
  · rfl
  · have hnext := hj.trans_le (width_le_width c (Nat.le_succ (slot / 64)))
    rw [← offset_succ, h (slot / 64 + 1) (by omega) (by omega) hnext]

/-- A row reads the words of its block and, unless it begins with the block, of the next. -/
theorem satisfies_congr {r : Row}
    (h : ∀ b j, r.start / 64 ≤ b → 64 * b < r.start + 64 → j < c.width b →
      words.getD (c.offset b + j) 0 = words'.getD (c.offset b + j) 0) :
    c.satisfies words r = c.satisfies words' r := by
  rw [Bool.eq_iff_iff]
  simp only [satisfies, List.all_eq_true, List.mem_range]
  refine forall_congr' fun j => forall_congr' fun hj => ?_
  rw [bitsAt_congr hj fun b => h b j]

/-- Words of a range of blocks, compared column by column. -/
theorem extract_eq_iff (hsize : words.size = c.words) (hsize' : words'.size = c.words)
    {first stop : Nat} (hstop : stop ≤ c.blocks) :
    words.extract (c.offset first) (c.offset stop) =
        words'.extract (c.offset first) (c.offset stop) ↔
      ∀ b j, first ≤ b → b < stop → j < c.width b →
        words.getD (c.offset b + j) 0 = words'.getD (c.offset b + j) 0 := by
  have hend : c.offset stop ≤ c.words := offset_mono c hstop
  have hread {ws : Array UInt64} (hws : ws.size = c.words) {i : Nat} (hi : c.offset first ≤ i)
      (hlt : i < c.offset stop) :
      (ws.extract (c.offset first) (c.offset stop))[i - c.offset first]? = some (ws.getD i 0) := by
    have hin : i < ws.size := by omega
    rw [Array.getElem?_extract, if_pos (by omega), Nat.add_sub_cancel' hi]
    simp [hin]
  constructor
  · intro h b j hb hlt hj
    have hlow := offset_mono c hb
    have hhigh := offset_mono c (Nat.succ_le_of_lt hlt)
    rw [offset_succ] at hhigh
    have hi := hread hsize (by omega : c.offset first ≤ c.offset b + j) (by omega)
    rw [h, hread hsize' (by omega) (by omega)] at hi
    exact (Option.some.inj hi).symm
  · intro h
    apply Array.ext_getElem?
    intro k
    by_cases hk : c.offset first + k < c.offset stop
    · obtain ⟨b, j, hb, hlt, hj, hi⟩ :=
        exists_offset_add (Nat.le_add_right (c.offset first) k) hk
      have hword := h b j hb hlt hj
      rw [← hi] at hword
      have hread₁ := hread hsize (Nat.le_add_right (c.offset first) k) hk
      have hread₂ := hread hsize' (Nat.le_add_right (c.offset first) k) hk
      rw [Nat.add_sub_cancel_left] at hread₁ hread₂
      rw [hread₁, hread₂, hword]
    · rw [Array.getElem?_extract, Array.getElem?_extract, if_neg (by omega), if_neg (by omega)]

end Columns

/-! ### What a solution depends on -/

/-- The solution in a range of slots depends on the equations there when none of them reaches beyond
the range. Induction on the slots left, since a bit follows from those after it. -/
theorem Band.solution_congr {sys sys' : Band} {first stop total : Nat} (hstop : stop ≤ total)
    (heq : ∀ i, first ≤ i → i < stop → sys.equation i = sys'.equation i)
    (hin : ∀ i, first ≤ i → i < stop → Within (sys.equation i).coeff (stop - i)) (j : Nat) {i : Nat}
    (hi : first ≤ i) (hlt : i < stop) : solution sys j total i = solution sys' j total i := by
  obtain ⟨d, hd⟩ : ∃ d, stop - i = d := ⟨_, rfl⟩
  induction d using Nat.strongRecOn generalizing i with
  | ind d ih =>
    rw [solution_of_lt sys j (by omega), solution_of_lt sys' j (by omega), ← heq i hi hlt]
    refine congrArg (· != valueBit (sys.equation i).value j) (xorUpTo_congr fun t _ => ?_)
    cases hbit : bitAt (sys.equation i).coeff (t + 1) with
    | false => rw [Bool.and_false, Bool.and_false]
    | true =>
      have hreach := hin i hi hlt (t + 1) hbit
      rw [ih (stop - (i + 1 + t)) (by omega) (by omega) (by omega) rfl]

namespace Ribbon

/-- Blocks of a shard. -/
def shardBlocks (f : Ribbon) : Nat := f.columns.blocks / (1 <<< f.shardBits)

/-- The stored words of shard `s`. -/
def shardWords (f : Ribbon) (s : Nat) : Array UInt64 :=
  f.words.extract (f.columns.offset (s * f.shardBlocks))
    (f.columns.offset ((s + 1) * f.shardBlocks))

/-- The same seed byte and the same words in shard `s`. -/
structure SameShard (f g : Ribbon) (s : Nat) : Prop where
  seed : f.shardSeeds[s]? = g.shardSeeds[s]?
  words : f.shardWords s = g.shardWords s

/-- What the first bytes of the encoding say. -/
structure SameHeader (f g : Ribbon) : Prop where
  seed : f.seed = g.seed
  shardBits : f.shardBits = g.shardBits
  columns : f.columns = g.columns

variable {f g : Ribbon} {s : Nat}

theorem shardBlocks_le (hs : s < 1 <<< f.shardBits) :
    (s + 1) * f.shardBlocks ≤ f.columns.blocks :=
  (Nat.mul_le_mul_right _ hs).trans (Nat.mul_div_le ..)

/-- The slots of the blocks of a shard are those of the shard. -/
theorem slots_eq (f : Ribbon) (s : Nat) : s * f.slots = 64 * (s * f.shardBlocks) := by
  rw [slots, ← shardBlocks]
  ring

theorem sameShard_words_iff (hf : f.Stored) (hg : g.Stored) (h : SameHeader f g)
    (hs : s < 1 <<< f.shardBits) : f.shardWords s = g.shardWords s ↔
      ∀ b j, s * f.shardBlocks ≤ b → b < (s + 1) * f.shardBlocks → j < f.columns.width b →
        f.words.getD (f.columns.offset b + j) 0 = g.words.getD (f.columns.offset b + j) 0 := by
  have hsize := hg.size_words
  have hblocks : g.shardBlocks = f.shardBlocks := by
    rw [shardBlocks, shardBlocks, h.columns, h.shardBits]
  rw [← h.columns] at hsize
  rw [shardWords, shardWords, hblocks, ← h.columns]
  exact Columns.extract_eq_iff hf.size_words hsize (shardBlocks_le hs)

/-- A shard answers from its own seed byte and words. -/
theorem mayContain_congr (hf : f.Stored) (hg : g.Stored) (h : SameHeader f g) (hs : SameShard f g s)
    {q : UInt64} (hq : shardOf (mix q f.seed) f.shardBits = s) :
    f.mayContain q = g.mayContain q := by
  have hlt := shardOf_lt (mix q f.seed) (hf.shardBits_le.trans (by decide : 32 ≤ 64))
  rw [hq] at hlt
  have hwords := (sameShard_words_iff hf hg h hlt).mp hs.words
  obtain ⟨hlow, hhigh, -⟩ := hf.placedRow_bounds q hq
  rw [slots_eq] at hlow hhigh
  have hrow : g.placedRow q = f.placedRow q := by
    have hseed : f.shardSeeds.getD s 0 = g.shardSeeds.getD s 0 := by
      rw [Array.getD_eq_getD_getElem?, Array.getD_eq_getD_getElem?, hs.seed]
    rw [placedRow, placedRow, slots, slots, ← h.seed, ← h.shardBits, ← h.columns, hq, hseed]
  rw [mayContain_eq, mayContain_eq, hrow, ← h.columns]
  exact Columns.satisfies_congr fun b j hb hend hj => hwords b j (by omega) (by omega) hj

theorem sameHeader_of_decode {body body' : List UInt8} (hf : decode body = .ok f)
    (hg : decode body' = .ok g) (h : body.take headerSize = body'.take headerSize) :
    SameHeader f g := by
  obtain ⟨head, seeds, data, rfl, hlen, -, -, -, -, -, rfl⟩ := decode_eq_ok_iff.mp hf
  obtain ⟨head', seeds', data', rfl, hlen', -, -, -, -, -, rfl⟩ := decode_eq_ok_iff.mp hg
  rw [List.take_left' hlen, List.take_left' hlen'] at h
  subst h
  exact ⟨rfl, rfl, rfl⟩

/-! ### What a shard is made of -/

theorem mem_inShard_basesOf {hashes : List UInt64} {seed base : UInt64} {shardBits : Nat} :
    base ∈ inShard (basesOf (distinct hashes) seed) shardBits s ↔
      base ∈ hashes.map (mix · seed) ∧ shardOf base shardBits = s := by
  simp [inShard, basesOf]

theorem nodup_inShard_basesOf (hashes : List UInt64) (seed : UInt64) (shardBits s : Nat) :
    (inShard (basesOf (distinct hashes) seed) shardBits s).Nodup := by
  have hmix := (nodup_distinct hashes).map (mix_injective seed)
  exact ((List.mergeSort_perm ..).nodup_iff.mpr hmix).filter _

theorem inShard_basesOf_ascending (keys : List UInt64) (seed : UInt64) (shardBits s : Nat) :
    (inShard (basesOf keys seed) shardBits s).Pairwise (· ≤ ·) :=
  (mergeSort_ascending _).filter _

/-- The mixed hashes of a shard come in the order of their values, each once. -/
theorem inShard_eq_inShard {hashes hashes' : List UInt64} {seed : UInt64} {shardBits : Nat}
    (h : ∀ base, shardOf base shardBits = s →
      (base ∈ hashes.map (mix · seed) ↔ base ∈ hashes'.map (mix · seed))) :
    inShard (basesOf (distinct hashes) seed) shardBits s =
      inShard (basesOf (distinct hashes') seed) shardBits s := by
  have hperm : (inShard (basesOf (distinct hashes) seed) shardBits s).Perm
      (inShard (basesOf (distinct hashes') seed) shardBits s) := by
    rw [List.perm_ext_iff_of_nodup (nodup_inShard_basesOf ..) (nodup_inShard_basesOf ..)]
    intro base
    rw [mem_inShard_basesOf, mem_inShard_basesOf]
    exact and_congr_left (h base)
  apply hperm.eq_of_pairwise _ (inShard_basesOf_ascending ..) (inShard_basesOf_ascending ..)
  exact fun a b _ _ hab hba => UInt64.le_antisymm hab hba

section Build

variable {bases bases' : List UInt64} {shards shards' : List (Nat × Band)}

/-- Two systems agree on the slots of a shard with the same keys, and no equation leaves it. -/
theorem equation_joined_congr {shardBits slots : Nat} (hslots : 64 ≤ slots)
    (hsolve : solveShards? bases shardBits slots = some shards)
    (hsolve' : solveShards? bases' shardBits slots = some shards') (hs : s < 1 <<< shardBits)
    (hkeys : inShard bases shardBits s = inShard bases' shardBits s) :
    shards[s]? = shards'[s]? ∧ ∀ i, s * slots ≤ i → i < (s + 1) * slots →
      (Band.joined (shards.map Prod.snd)).equation i =
          (Band.joined (shards'.map Prod.snd)).equation i ∧
        Band.Within ((Band.joined (shards.map Prod.snd)).equation i).coeff
          ((s + 1) * slots - i) := by
  obtain ⟨p, hp, hsolved⟩ := (solveShards?_spec hsolve).2 s hs
  obtain ⟨p', hp', hsolved'⟩ := (solveShards?_spec hsolve').2 s hs
  rw [← hkeys, hsolved] at hsolved'
  cases hsolved'
  obtain ⟨hbands, -⟩ := solveShards?_bands hslots hsolve
  obtain ⟨hbands', -⟩ := solveShards?_bands hslots hsolve'
  refine ⟨hp.trans hp'.symm, fun i hi hlt => ?_⟩
  obtain ⟨k, rfl⟩ := Nat.exists_eq_add_of_le hi
  rw [Nat.add_mul, Nat.one_mul] at hlt ⊢
  have hband : (shards.map Prod.snd)[s]? = some p.2 := by rw [List.getElem?_map, hp]; rfl
  have hband' : (shards'.map Prod.snd)[s]? = some p.2 := by rw [List.getElem?_map, hp']; rfl
  have hsize := (hbands p.2 (List.mem_of_getElem? hband)).2
  have hinside := inside_of_solveShard? hslots hsolved k
  have hleft : s * slots + slots - (s * slots + k) = slots - k := by omega
  rw [hsize] at hinside
  rw [Band.equation_joined (fun b hb => (hbands b hb).2) hband (by omega),
    Band.equation_joined (fun b hb => (hbands' b hb).2) hband' (by omega), hleft]
  exact ⟨rfl, hinside⟩

theorem sameShard_ofShards {n milliBits : Nat} {seed : UInt64}
    (hsolve : solveShards? bases (shardBitsFor n) (shardSlots n (shardBitsFor n)) = some shards)
    (hsolve' : solveShards? bases' (shardBitsFor n) (shardSlots n (shardBitsFor n)) = some shards')
    (hf : (ofShards n milliBits seed shards).Stored)
    (hg : (ofShards n milliBits seed shards').Stored) (hs : s < 1 <<< shardBitsFor n)
    (hkeys : inShard bases (shardBitsFor n) s = inShard bases' (shardBitsFor n) s) :
    SameShard (ofShards n milliBits seed shards) (ofShards n milliBits seed shards') s := by
  obtain ⟨-, hfit⟩ := shardSlots_spec n (shardBitsFor n)
  obtain ⟨hseed, hsame⟩ := equation_joined_congr hfit hsolve hsolve' hs hkeys
  constructor
  · simp [ofShards, hseed]
  · rw [sameShard_words_iff hf hg ⟨rfl, rfl, rfl⟩ hs]
    intro b j hb hlt hj
    -- the blocks of the shard hold the slots of the shard
    obtain ⟨-, -, hslots⟩ := ofShards_sizes n milliBits seed shards
    have hlow := slots_eq (ofShards n milliBits seed shards) s
    have hhigh := slots_eq (ofShards n milliBits seed shards) (s + 1)
    have hle := shardBlocks_le (f := ofShards n milliBits seed shards) hs
    have hblock := hlt.trans_le hle
    rw [hslots] at hlow hhigh
    dsimp only [ofShards] at hj hle hblock ⊢
    rw [Columns.getD_solve _ _ hblock hj, Columns.getD_solve _ _ hblock hj]
    apply eq_of_bitAt
    intro t ht
    rw [Band.bitAt_window _ _ _ ht, Band.bitAt_window _ _ _ ht]
    apply Band.solution_congr (hhigh.trans_le (Nat.mul_le_mul_left 64 hle))
      (fun i hi hlt => (hsame i hi hlt).1) (fun i hi hlt => (hsame i hi hlt).2) j
    · omega
    · omega

end Build

/-- Shards do not see one another. Two stored filters with the same header, and with the same seed
byte and words in one shard, give every hash of that shard the same answer. And two builds of the
same number of keys, with the same keys in one shard, make the same seed byte and words of it. -/
theorem shards_isolated :
    (∀ {body body' : List UInt8} {f g : Ribbon} {s : Nat}, decode body = .ok f →
      decode body' = .ok g → body.take headerSize = body'.take headerSize → SameShard f g s →
        ∀ q, shardOf (mix q f.seed) f.shardBits = s → f.mayContain q = g.mayContain q) ∧
      ∀ {hashes hashes' : List UInt64} {milliBits minKeys : Nat} {seed : UInt64} {f g : Ribbon}
        {s : Nat}, build hashes milliBits seed minKeys = .ok f →
        build hashes' milliBits seed minKeys = .ok g →
        (distinct hashes).length = (distinct hashes').length → s < 1 <<< f.shardBits →
        (∀ base, shardOf base f.shardBits = s →
          (base ∈ hashes.map (mix · seed) ↔ base ∈ hashes'.map (mix · seed))) →
        SameShard f g s := by
  constructor
  · intro body body' f g s hf hg hhead hs q hq
    exact mayContain_congr (stored_of_decode hf).1 (stored_of_decode hg).1
      (sameHeader_of_decode hf hg hhead) hs hq
  · intro hashes hashes' milliBits minKeys seed f g s hf hg hlen hs hkeys
    have hf_stored := stored_of_build hf
    have hg_stored := stored_of_build hg
    obtain ⟨n, shards, hn, -, hsolve, rfl⟩ := build_eq_ok hf
    obtain ⟨n', shards', hn', -, hsolve', rfl⟩ := build_eq_ok hg
    obtain rfl : n = n' := by rw [hn, hn', hlen]
    exact sameShard_ofShards hsolve hsolve' hf_stored hg_stored hs (inShard_eq_inShard hkeys)

/-- Two shards of one block each. The filters differ in the second shard, where the hash 6 falls,
and so do their answers; the hash 8 falls in the first. Then three hashes, and the same ones in
another order and with repetitions. -/
theorem shards_isolated_two : ∃ f g : Ribbon, decode f.encode = .ok f ∧ decode g.encode = .ok g ∧
    SameShard f g 0 ∧ f.mayContain 8 = g.mayContain 8 ∧ f.mayContain 6 ≠ g.mayContain 6 ∧
      ∃ f' g' : Ribbon, build [3, 5, 9] 7000 4 1 = .ok f' ∧
        build [9, 3, 5, 9, 3] 7000 4 1 = .ok g' ∧ SameShard f' g' 0 := by
  have hvalid : Columns.Valid ⟨2, 1, 0⟩ := Columns.isValid_iff.mp (by decide)
  have hf : Stored ⟨0, 1, ⟨2, 1, 0⟩, #[3, 7], #[0x1234, 0x5678]⟩ :=
    ⟨by decide, hvalid, by decide, by decide, rfl, by decide⟩
  have hg : Stored ⟨0, 1, ⟨2, 1, 0⟩, #[3, 9], #[0x1234, 0]⟩ :=
    ⟨by decide, hvalid, by decide, by decide, rfl, by decide⟩
  have hsame : SameShard ⟨0, 1, ⟨2, 1, 0⟩, #[3, 7], #[0x1234, 0x5678]⟩
      ⟨0, 1, ⟨2, 1, 0⟩, #[3, 9], #[0x1234, 0]⟩ 0 := ⟨by decide, by decide +kernel⟩
  have hmem (k : UInt64) : k ∈ [3, 5, 9] ↔ k ∈ [9, 3, 5, 9, 3] := by
    simp only [List.mem_cons, List.not_mem_nil, or_false]
    tauto
  have hkeys : distinct [3, 5, 9] = [3, 5, 9] := distinct_of_ascending (by decide)
  have hmixed : distinct [3, 5, 9] = distinct [9, 3, 5, 9, 3] := distinct_eq_distinct_iff.mpr hmem
  have hok : (build [3, 5, 9] 7000 4 1).isOk = true := by
    rw [build, hkeys, basesOf_of_ascending (by decide +kernel)]
    decide +kernel
  obtain ⟨f', hf'⟩ := exists_ok_of_isOk hok
  have hg' : build [9, 3, 5, 9, 3] 7000 4 1 = .ok f' := by rw [← hf', build, build, hmixed]
  refine ⟨_, _, decode_encode hf, decode_encode hg, hsame, ?_, by decide +kernel, f', f', hf', hg',
    ?_⟩
  · exact shards_isolated.1 (decode_encode hf) (decode_encode hg) (by decide +kernel) hsame 8
      (by decide +kernel)
  · apply shards_isolated.2 hf' hg'
    · rw [hmixed]
    · exact Nat.shiftLeft_pos_iff.mpr Nat.one_pos
    · intro base _
      rw [List.mem_map, List.mem_map]
      exact exists_congr fun k => and_congr_left fun _ => hmem k

end Ribbon

end ApproxSet
