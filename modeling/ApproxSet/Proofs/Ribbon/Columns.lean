import ApproxSet.Ribbon.Columns
import Mathlib.Tactic.Ring

/-!
# Column layouts

Blocks tile the stored words without gap or overlap, and no block has fewer columns than one before
it. Spreading gives as many words as asked for, between one and `most` for each block.
-/
namespace ApproxSet.Columns

/-- What `isValid` checks. -/
structure Valid (c : Columns) : Prop where
  blocks_pos : 0 < c.blocks
  upper_pos : 1 ≤ c.upper
  upper_le : c.upper ≤ most
  start_le : c.upperStart ≤ c.blocks
  lower_pos : 1 < c.upper ∨ c.upperStart = 0

theorem isValid_iff {c : Columns} : c.isValid = true ↔ c.Valid := by
  simp only [isValid, Bool.and_eq_true, Bool.or_eq_true, decide_eq_true_eq, beq_iff_eq]
  constructor
  · rintro ⟨⟨⟨⟨h₁, h₂⟩, h₃⟩, h₄⟩, h₅⟩
    exact ⟨h₁, h₂, h₃, h₄, h₅⟩
  · rintro ⟨h₁, h₂, h₃, h₄, h₅⟩
    exact ⟨⟨⟨⟨h₁, h₂⟩, h₃⟩, h₄⟩, h₅⟩

theorem offset_zero (c : Columns) : c.offset 0 = 0 := by
  unfold offset
  split
  · exact Nat.zero_mul _
  · have hz : c.upperStart = 0 := by omega
    simp [hz]

/-- A block begins where the one before it ends. -/
theorem offset_succ (c : Columns) (b : Nat) : c.offset (b + 1) = c.offset b + c.width b := by
  unfold offset width
  by_cases h : b < c.upperStart
  · rw [if_pos h, if_pos h]
    split
    · ring
    · have hstart : c.upperStart = b + 1 := by omega
      rw [hstart, Nat.sub_self]
      ring
  · have hnext : ¬ b + 1 < c.upperStart := by omega
    have hsub : b + 1 - c.upperStart = b - c.upperStart + 1 := by omega
    rw [if_neg h, if_neg hnext, if_neg h, hsub]
    ring

theorem width_le_width (c : Columns) {a b : Nat} (h : a ≤ b) : c.width a ≤ c.width b := by
  unfold width
  by_cases hb : b < c.upperStart
  · rw [if_pos hb, if_pos (by omega)]
  · rw [if_neg hb]
    split
    · exact Nat.sub_le ..
    · exact Nat.le_refl _

theorem width_le_upper (c : Columns) (b : Nat) : c.width b ≤ c.upper := by
  unfold width
  split
  · exact Nat.sub_le ..
  · exact Nat.le_refl _

theorem upper_le_width_add_one (c : Columns) (b : Nat) : c.upper ≤ c.width b + 1 := by
  unfold width
  split <;> omega

theorem Valid.width_pos {c : Columns} (hc : c.Valid) (b : Nat) : 0 < c.width b := by
  have h₁ := hc.upper_pos
  have h₂ := hc.lower_pos
  unfold width
  split <;> omega

theorem offset_mono (c : Columns) {a b : Nat} (h : a ≤ b) : c.offset a ≤ c.offset b := by
  induction h with
  | refl => exact Nat.le_refl _
  | step _ ih =>
    rw [offset_succ]
    exact Nat.le_add_right_of_le ih

/-- Each word between two blocks is one of a column of a block. -/
theorem exists_offset_add {c : Columns} {first stop i : Nat} (hfirst : c.offset first ≤ i)
    (hstop : i < c.offset stop) :
    ∃ b j, first ≤ b ∧ b < stop ∧ j < c.width b ∧ i = c.offset b + j := by
  induction stop with
  | zero =>
    rw [offset_zero] at hstop
    omega
  | succ stop ih =>
    by_cases hlast : i < c.offset stop
    · obtain ⟨b, j, hb, hlt, hj, hi⟩ := ih hlast
      exact ⟨b, j, hb, by omega, hj, hi⟩
    · rw [offset_succ] at hstop
      have hle : first ≤ stop := by
        by_contra hlt
        have hmono := offset_mono c (Nat.succ_le_of_lt (Nat.lt_of_not_le hlt))
        rw [offset_succ] at hmono
        omega
      exact ⟨stop, i - c.offset stop, hle, Nat.lt_succ_self _, by omega, by omega⟩

/-- The columns of a block are stored words. -/
theorem offset_add_lt {c : Columns} {b j : Nat} (hb : b < c.blocks) (hj : j < c.width b) :
    c.offset b + j < c.words := by
  have h := offset_mono c (Nat.succ_le_of_lt hb)
  rw [offset_succ] at h
  rw [words]
  omega

/-- A word is in the range of one block only. -/
theorem existsUnique_block {c : Columns} {i : Nat} :
    i < c.words ↔ ∃! b, b < c.blocks ∧ c.offset b ≤ i ∧ i < c.offset b + c.width b := by
  constructor
  · intro hi
    obtain ⟨b, j, -, hb, hj, rfl⟩ := exists_offset_add (by rw [offset_zero]; omega) hi
    refine ⟨b, ⟨hb, Nat.le_add_right _ _, by omega⟩, ?_⟩
    rintro a ⟨-, hlow, hhigh⟩
    rw [← offset_succ] at hhigh
    -- of two blocks the earlier one ends before the later one begins
    rcases Nat.lt_trichotomy a b with hab | rfl | hba
    · have hmono : c.offset (a + 1) ≤ c.offset b := offset_mono c hab
      omega
    · rfl
    · have hmono : c.offset (b + 1) ≤ c.offset a := offset_mono c hba
      rw [offset_succ] at hmono
      omega
  · rintro ⟨b, ⟨hb, hlow, hhigh⟩, -⟩
    have hlt := offset_add_lt hb (by omega : i - c.offset b < c.width b)
    omega

/-- Spreading deals the words out in rounds over the blocks. It stops after `most` rounds, and if a
round is not full the last blocks get its words. -/
theorem spread_cases {blocks : Nat} (h : 0 < blocks) (words : Nat) :
    (blocks * most ≤ max words blocks ∧ spread blocks words = ⟨blocks, most, 0⟩) ∨
      (∃ rounds, 0 < rounds ∧ rounds < most ∧ max words blocks = blocks * rounds ∧
        spread blocks words = ⟨blocks, rounds, 0⟩) ∨
      ∃ rounds extra, 0 < rounds ∧ rounds < most ∧ 0 < extra ∧ extra < blocks ∧
        max words blocks = blocks * rounds + extra ∧
        spread blocks words = ⟨blocks, rounds + 1, blocks - extra⟩ := by
  obtain ⟨total, htotal⟩ : ∃ t, t = max words blocks := ⟨_, rfl⟩
  have hrounds : 0 < total / blocks := Nat.div_pos (htotal ▸ Nat.le_max_right ..) h
  have hextra := Nat.mod_lt total h
  have hsum := Nat.div_add_mod total blocks
  rw [spread, ← htotal]
  by_cases hmost : total / blocks ≥ most
  · have hle : blocks * most ≤ total := by
      rw [Nat.mul_comm]
      exact (Nat.le_div_iff_mul_le h).mp hmost
    exact Or.inl ⟨hle, if_pos hmost⟩
  · have hlt := Nat.lt_of_not_le hmost
    by_cases hzero : total % blocks = 0
    · rw [hzero, Nat.add_zero] at hsum
      exact Or.inr (Or.inl ⟨_, hrounds, hlt, hsum.symm, (if_neg hmost).trans (if_pos hzero)⟩)
    · exact Or.inr (Or.inr ⟨_, _, hrounds, hlt, Nat.pos_of_ne_zero hzero, hextra, hsum.symm,
        (if_neg hmost).trans (if_neg hzero)⟩)

theorem spread_valid {blocks : Nat} (h : 0 < blocks) (words : Nat) :
    (spread blocks words).Valid := by
  have hmost : most = 32 := rfl
  rcases spread_cases h words with
    ⟨-, hspread⟩ | ⟨rounds, hpos, hlt, -, hspread⟩ | ⟨rounds, extra, hpos, hlt, -, -, -, hspread⟩
  all_goals
    rw [hspread]
    constructor <;> dsimp only <;> omega

theorem blocks_spread (blocks words : Nat) : (spread blocks words).blocks = blocks := by
  simp only [spread]
  split
  · rfl
  · split <;> rfl

/-- The words are dealt out in rounds that end at the last block, up to `most` for each. -/
theorem width_spread {blocks b : Nat} (hb : b < blocks) (words : Nat) :
    (spread blocks words).width b = min most ((max words blocks + b) / blocks) := by
  have hblocks : 0 < blocks := by omega
  rcases spread_cases hblocks words with
    ⟨hle, hspread⟩ | ⟨rounds, -, hlt, htotal, hspread⟩ |
    ⟨rounds, extra, -, hlt, -, hextra, htotal, hspread⟩
  · have hmost : most ≤ (max words blocks + b) / blocks := by
      rw [Nat.le_div_iff_mul_le hblocks, Nat.mul_comm]
      exact hle.trans (Nat.le_add_right ..)
    rw [hspread, Nat.min_eq_left hmost]
    exact if_neg (Nat.not_lt_zero b)
  · have hdeal : (max words blocks + b) / blocks = rounds := by
      rw [htotal, Nat.mul_add_div hblocks, Nat.div_eq_of_lt hb, Nat.add_zero]
    rw [hspread, hdeal, Nat.min_eq_right hlt.le]
    exact if_neg (Nat.not_lt_zero b)
  · -- a block gets a word of the last round when few enough blocks come after it
    have hround : (extra + b) / blocks = if b < blocks - extra then 0 else 1 := by
      split
      · exact Nat.div_eq_of_lt (by omega)
      · exact Nat.div_eq_of_lt_le (by omega) (by omega)
    rw [hspread, htotal, Nat.add_assoc, Nat.mul_add_div hblocks, hround]
    change (if b < blocks - extra then rounds else rounds + 1) = _
    split <;> omega

/-- Of more words no block gets fewer. -/
theorem width_spread_mono {blocks b words words' : Nat} (hb : b < blocks) (h : words ≤ words') :
    (spread blocks words).width b ≤ (spread blocks words').width b := by
  rw [width_spread hb, width_spread hb]
  have hdeal : (max words blocks + b) / blocks ≤ (max words' blocks + b) / blocks :=
    Nat.div_le_div_right (by omega)
  omega

/-- All blocks have `upper` columns, less one for each block before `upperStart`. -/
theorem Valid.words_add {c : Columns} (hc : c.Valid) :
    c.words + c.upperStart = c.blocks * c.upper := by
  have hstart := hc.start_le
  obtain ⟨lower, hlower⟩ := Nat.exists_eq_add_of_le hc.upper_pos
  obtain ⟨rest, hrest⟩ := Nat.exists_eq_add_of_le hc.start_le
  rw [words, offset, if_neg (by omega), hlower, hrest, Nat.add_sub_cancel_left,
    Nat.add_sub_cancel_left]
  ring

/-- As many words as asked for, held between one and `most` for each block. -/
theorem words_spread {blocks : Nat} (h : 0 < blocks) (words : Nat) :
    (spread blocks words).words = max blocks (min words (most * blocks)) := by
  have hwords := (spread_valid h words).words_add
  have hone : blocks ≤ most * blocks := Nat.le_mul_of_pos_left blocks (by decide)
  rcases spread_cases h words with
    ⟨hle, hspread⟩ | ⟨rounds, -, hlt, htotal, hspread⟩ |
    ⟨rounds, extra, -, hlt, -, hextra, htotal, hspread⟩
  · rw [hspread] at hwords ⊢
    dsimp only at hwords
    rw [Nat.mul_comm] at hle hwords
    omega
  · have hle : blocks * rounds ≤ most * blocks := by
      rw [Nat.mul_comm]
      exact Nat.mul_le_mul_right blocks hlt.le
    rw [hspread] at hwords ⊢
    dsimp only at hwords
    omega
  · have hle : blocks * (rounds + 1) ≤ most * blocks := by
      rw [Nat.mul_comm]
      exact Nat.mul_le_mul_right blocks hlt
    rw [hspread] at hwords ⊢
    dsimp only at hwords
    rw [Nat.mul_add, Nat.mul_one] at hwords hle
    omega

end ApproxSet.Columns
