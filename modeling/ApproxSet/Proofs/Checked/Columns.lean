import ApproxSet.Proofs.Checked.Machine
import ApproxSet.Proofs.Ribbon.Columns

/-!
# Column layouts, every step checked

No step on the way to an offset exceeds it, so the offsets of a layout are found in 64 bits as long
as its words can be counted there. A layout that passes the check is tight up to that bound, which
the layouts made by spreading keep.
-/
namespace ApproxSet.Columns
open Checked

variable {c : Columns} {b : Nat}

/-- The numbers are 64-bit words, but for the columns of a block, which are counted in 32 bits. -/
def checkedSpread (blocks words : Nat) : Option Columns := do
  let words := max words blocks
  let lower ← div words blocks
  let extra ← mod words blocks
  if lower ≥ most then return ⟨blocks, most, 0⟩
  else if extra = 0 then return ⟨blocks, lower, 0⟩
  else return ⟨blocks, ← fit 32 (lower + 1), ← sub blocks extra⟩

theorem checkedSpread_eq {blocks : Nat} (h : 0 < blocks) (words : Nat) :
    checkedSpread blocks words = some (spread blocks words) := by
  have hextra := Nat.mod_lt (max words blocks) h
  have hmost : most = 32 := rfl
  rw [checkedSpread, bind_eq (div_eq h), bind_eq (mod_eq h), spread]
  split
  · rfl
  · split
    · rfl
    · rw [bind_eq (fit_eq (by omega)), bind_eq (sub_eq hextra.le), Option.pure_def]

def checkedWidth (c : Columns) (b : Nat) : Option Nat :=
  if b < c.upperStart then sub c.upper 1 else some c.upper

theorem checkedWidth_eq (hc : c.Valid) (b : Nat) : c.checkedWidth b = some (c.width b) := by
  rw [checkedWidth, width]
  split
  · exact sub_eq hc.upper_pos
  · rfl

def checkedOffset (c : Columns) (b : Nat) : Option Nat :=
  if b < c.upperStart then do
    mul b (← sub c.upper 1)
  else do
    let before ← mul c.upperStart (← sub c.upper 1)
    let after ← mul (← sub b c.upperStart) c.upper
    add before after

/-- An offset is found if it fits. -/
theorem checkedOffset_eq_fit (hc : c.Valid) (b : Nat) :
    c.checkedOffset b = fit 64 (c.offset b) := by
  have hupper := sub_eq hc.upper_pos
  rw [checkedOffset, offset]
  split
  · rw [bind_eq hupper, mul]
  · rename_i hstart
    have hafter := sub_eq (Nat.not_lt.mp hstart)
    rw [bind_eq hupper, ← fit_bind_add]
    simp only [hafter, Option.bind_eq_bind, Option.bind_some, mul]

theorem checkedOffset_eq (hc : c.Valid) (h : c.offset b < 2 ^ 64) :
    c.checkedOffset b = some (c.offset b) :=
  (checkedOffset_eq_fit hc b).trans (fit_eq h)

/-- A layout whose blocks follow one another without gap or overlap and share the words evenly,
the later ones having no fewer. All its numbers are found in 64 bits. -/
structure Tight (c : Columns) : Prop where
  width_found : ∀ b, b < c.blocks → c.checkedWidth b = some (c.width b)
  offset_found : ∀ b, b ≤ c.blocks → c.checkedOffset b = some (c.offset b)
  first : c.offset 0 = 0
  next : ∀ b, b < c.blocks → c.offset (b + 1) = c.offset b + c.width b
  last : c.offset c.blocks = c.words
  /-- The words are those of the blocks, and each is of one block only. -/
  tiles : ∀ i, i < c.words ↔ ∃! b, b < c.blocks ∧ c.offset b ≤ i ∧ i < c.offset b + c.width b
  mono : ∀ a b, a ≤ b → b < c.blocks → c.width a ≤ c.width b
  even : ∀ a b, a < c.blocks → b < c.blocks → c.width a ≤ c.width b + 1
  width_pos : ∀ b, b < c.blocks → 0 < c.width b
  width_le : ∀ b, b < c.blocks → c.width b ≤ most

/-- A valid layout is tight when its words can be counted. -/
theorem tight_iff (hc : c.Valid) : c.Tight ↔ c.words < 2 ^ 64 := by
  constructor
  · intro h
    have hlast := h.offset_found c.blocks (Nat.le_refl _)
    rw [checkedOffset_eq_fit hc, fit_eq_some_iff] at hlast
    exact hlast.1
  · intro hlt
    exact {
      width_found := fun b _ => checkedWidth_eq hc b
      offset_found := fun b hb => checkedOffset_eq hc ((offset_mono c hb).trans_lt hlt)
      first := offset_zero c
      next := fun b _ => offset_succ c b
      last := rfl
      tiles := fun _ => existsUnique_block
      mono := fun _ _ hab _ => width_le_width c hab
      even := fun a b _ _ => (width_le_upper c a).trans (upper_le_width_add_one c b)
      width_pos := fun b _ => hc.width_pos b
      width_le := fun b _ => (width_le_upper c b).trans hc.upper_le }

/-- Words are spread over any number of blocks in a tight layout, which has as many as asked for up
to the bounds. Of the layouts that pass the check, those are tight whose words can be counted in
64 bits, as they can in fewer than `2 ^ 59` blocks; and in none of them has a block fewer columns
than one before it. -/
theorem spread_tight :
    (∀ blocks words : UInt64, 0 < blocks.toNat → ∃ c,
      checkedSpread blocks.toNat words.toNat = some c ∧ c = spread blocks.toNat words.toNat ∧
        c.isValid = true ∧ c.blocks = blocks.toNat ∧
        c.words = max blocks.toNat (min words.toNat (32 * blocks.toNat)) ∧
        c.checkedOffset c.blocks = some c.words ∧ c.Tight) ∧
      ∀ c : Columns, c.isValid = true →
        (c.Tight ↔ c.blocks * c.upper - c.upperStart < 2 ^ 64) ∧
          (32 * c.blocks < 2 ^ 64 → c.Tight) ∧ ∀ a b, a ≤ b → c.width a ≤ c.width b := by
  constructor
  · intro blocks words hpos
    have hvalid := spread_valid hpos words.toNat
    have hwords := words_spread hpos words.toNat
    have hmost : most = 32 := rfl
    -- there are no more words than blocks or than asked for
    have hlt : (spread blocks.toNat words.toNat).words < 2 ^ 64 := by
      have hblocks := blocks.toNat_lt
      have hasked := words.toNat_lt
      omega
    have htight := (tight_iff hvalid).mpr hlt
    exact ⟨_, checkedSpread_eq hpos _, rfl, isValid_iff.mpr hvalid, blocks_spread .., hwords,
      htight.offset_found _ (Nat.le_refl _), htight⟩
  · intro c hc
    have hvalid := isValid_iff.mp hc
    have hwords := hvalid.words_add
    have hmul : c.blocks * c.upper ≤ c.blocks * 32 := Nat.mul_le_mul_left _ hvalid.upper_le
    rw [tight_iff hvalid]
    refine ⟨?_, ?_, fun _ _ => width_le_width c⟩
    · omega
    · omega

/-- Five blocks of six columns before five of seven; a layout whose blocks all come before
`upperStart`; and one that passes the check and has too many words. -/
theorem spread_tight_sixty_five :
    0 < (10 : UInt64).toNat ∧ (spread 10 65).words = 65 ∧ (spread 10 65).Tight ∧
      (⟨3, 2, 3⟩ : Columns).isValid = true ∧ (⟨3, 2, 3⟩ : Columns).Tight ∧
      (⟨2 ^ 60, 32, 0⟩ : Columns).isValid = true ∧ ¬ (⟨2 ^ 60, 32, 0⟩ : Columns).Tight := by
  obtain ⟨c, -, rfl, -, -, hwords, -, htight⟩ := spread_tight.1 10 65 (by decide)
  have hlarge := spread_tight.2 ⟨2 ^ 60, 32, 0⟩ (by decide)
  exact ⟨by decide, hwords, htight, by decide,
    (spread_tight.2 ⟨3, 2, 3⟩ (by decide)).2.1 (by decide), by decide,
    fun h => absurd (hlarge.1.mp h) (by decide)⟩

end ApproxSet.Columns
