import ApproxSet.Proofs.Word.Digits
import ApproxSet.Ribbon.Solution

/-!
# What a band says

A solution of a band gives each slot a bit, for one column, so that every equation holds. A row that
is accepted restricts the solutions to those that satisfy it (`solves_addFrom_iff`).
-/
namespace ApproxSet

/-- The sum of the bits of `x` that the coefficients pick, counted from slot `i`. -/
def dot (x : Nat → Bool) (i : Nat) (c : UInt64) : Bool :=
  xorUpTo (fun t => bitAt c t && x (i + t)) 64

theorem dot_zero (x : Nat → Bool) (i : Nat) : dot x i 0 = false :=
  xorUpTo_false fun t _ => by rw [bitAt_zero, Bool.false_and]

theorem dot_xor (x : Nat → Bool) (i : Nat) (c d : UInt64) :
    dot x i (c ^^^ d) = (dot x i c ^^ dot x i d) := by
  rw [dot, dot, dot, ← xorUpTo_xor]
  apply xorUpTo_congr
  intro t _
  rw [bitAt_xor]
  cases bitAt c t <;> cases bitAt d t <;> cases x (i + t) <;> rfl

/-- Coefficients without the first slot count from the next one. -/
theorem dot_shiftRight (x : Nat → Bool) (i : Nat) {c : UInt64} (hc : bitAt c 0 = false) :
    dot x (i + 1) (c >>> 1) = dot x i c := by
  have hshift (t : Nat) : bitAt (c >>> 1) t = bitAt c (1 + t) :=
    bitAt_shiftRight c (k := 1) (by decide) t
  have hlast : bitAt (c >>> 1) 63 = false := by
    rw [hshift]
    exact bitAt_of_ge c (by decide)
  rw [dot, dot, xorUpTo, hlast, xorUpTo_succ_left _ 63, hc, Bool.false_and, Bool.false_and,
    Bool.xor_false, Bool.false_xor]
  apply xorUpTo_congr
  intro t _
  rw [hshift, Nat.add_comm 1 t, Nat.add_assoc, Nat.add_comm 1 t]

theorem dot_congr {x y : Nat → Bool} {i k : Nat} (c : UInt64) (h : ∀ t, x (i + t) = y (k + t)) :
    dot x i c = dot y k c :=
  xorUpTo_congr fun t _ => by rw [h]

@[simp] theorem valueBit_zero (j : Nat) : valueBit 0 j = false := by
  simp [valueBit]

@[simp] theorem valueBit_xor (v w : UInt32) (j : Nat) :
    valueBit (v ^^^ w) j = (valueBit v j ^^ valueBit w j) := by
  simp [valueBit]

namespace Band

/-- An equation begins with a coefficient one, and a slot without an equation demands nothing. -/
def WellFormed (b : Band) : Prop :=
  ∀ i, ((b.equation i).coeff ≠ 0 → bitAt (b.equation i).coeff 0 = true) ∧
    ((b.equation i).coeff = 0 → (b.equation i).value = 0)

/-- Every equation holds in column `j`. -/
def Solves (b : Band) (j : Nat) (x : Nat → Bool) : Prop :=
  ∀ i, dot x i (b.equation i).coeff = valueBit (b.equation i).value j

theorem equation_of_size_le {b : Band} {i : Nat} (h : b.size ≤ i) : b.equation i = {} := by
  simp [equation, Nat.not_lt.mpr h]

theorem equation_empty (slots i : Nat) : (empty slots).equation i = {} := by
  by_cases h : i < slots <;> simp [equation, empty, h]

theorem wellFormed_empty (slots : Nat) : (empty slots).WellFormed := by
  intro i
  rw [equation_empty]
  exact ⟨fun h => absurd rfl h, fun _ => rfl⟩

theorem equation_set (b : Band) {i : Nat} (hi : i < b.size) (e : Equation) (k : Nat) :
    equation (b.setIfInBounds i e) k = if k = i then e else b.equation k := by
  simp only [equation, Array.getD_eq_getD_getElem?, Array.getElem?_setIfInBounds]
  by_cases h : k = i
  · subst h
    simp [hi]
  · simp [h, Ne.symm h]

theorem WellFormed.set {b : Band} (hb : b.WellFormed) {i : Nat} (hi : i < b.size) {c : UInt64}
    (hc : bitAt c 0 = true) (v : UInt32) : WellFormed (b.setIfInBounds i ⟨c, v⟩) := by
  intro k
  rw [equation_set b hi]
  split
  · refine ⟨fun _ => hc, fun hz => ?_⟩
    dsimp only at hz
    rw [hz, bitAt_zero] at hc
    cases hc
  · exact hb k

/-- A slot without an equation takes one that begins there. -/
theorem solves_set_iff {b : Band} (hb : b.WellFormed) {i : Nat} (hi : i < b.size)
    (he : (b.equation i).coeff = 0) (c : UInt64) (v : UInt32) (j : Nat) (x : Nat → Bool) :
    Solves (b.setIfInBounds i ⟨c, v⟩) j x ↔ b.Solves j x ∧ dot x i c = valueBit v j := by
  constructor
  · intro h
    refine ⟨fun k => ?_, ?_⟩
    · by_cases hk : k = i
      · rw [hk, he, (hb i).2 he, dot_zero, valueBit_zero]
      · have hrow := h k
        rwa [equation_set b hi, if_neg hk] at hrow
    · have hrow := h i
      rwa [equation_set b hi, if_pos rfl] at hrow
  · rintro ⟨h, hrow⟩ k
    rw [equation_set b hi]
    split
    · rename_i hk
      subst hk
      exact hrow
    · exact h k

theorem and_one_eq_zero {c : UInt64} : c &&& 1 = 0 ↔ bitAt c 0 = false := by
  have h := and_one_eq_one c
  have hone (i : Nat) : bitAt 1 i = decide (i < 1) := bitAt_ones (k := 1) (by decide) i
  constructor
  · intro hz
    rw [hz] at h
    exact h.symm
  · intro hz
    apply eq_of_bitAt
    intro i _
    rw [bitAt_and, hone, bitAt_zero]
    by_cases hi : i < 1
    · obtain rfl : i = 0 := by omega
      rw [hz, Bool.false_and]
    · simp [hi]

/-- What one slot does with a row: nothing is left of it, or only a value, or it has no room, or it
has no coefficient here, or it takes the slot, or the equation here is added to it. -/
theorem addFrom_cases {b : Band} {left i : Nat} {c : UInt64} {v : UInt32} {o : Option Band}
    (h : b.addFrom left i c v = o) :
    (c = 0 ∧ v = 0 ∧ some b = o) ∨ (c = 0 ∧ v ≠ 0 ∧ none = o) ∨ (c ≠ 0 ∧ left = 0 ∧ none = o) ∨
      ∃ n, left = n + 1 ∧
        ((bitAt c 0 = false ∧ b.addFrom n (i + 1) (c >>> 1) v = o) ∨
          (bitAt c 0 = true ∧ (b.equation i).coeff = 0 ∧ some (b.setIfInBounds i ⟨c, v⟩) = o) ∨
          (bitAt c 0 = true ∧ (b.equation i).coeff ≠ 0 ∧
            b.addFrom n (i + 1) ((c ^^^ (b.equation i).coeff) >>> 1) (v ^^^ (b.equation i).value) =
              o)) := by
  unfold addFrom at h
  by_cases hc : c = 0
  · rw [if_pos hc] at h
    by_cases hv : v = 0
    · rw [if_pos hv] at h
      exact .inl ⟨hc, hv, h⟩
    · rw [if_neg hv] at h
      exact .inr (.inl ⟨hc, hv, h⟩)
  · rw [if_neg hc] at h
    cases left with
    | zero => exact .inr (.inr (.inl ⟨hc, rfl, h⟩))
    | succ n =>
      refine .inr (.inr (.inr ⟨n, rfl, ?_⟩))
      dsimp only at h
      by_cases hbit : c &&& 1 = 0
      · rw [if_pos hbit] at h
        exact .inl ⟨and_one_eq_zero.mp hbit, h⟩
      · rw [if_neg hbit] at h
        have hbit : bitAt c 0 = true := by
          rw [← Bool.not_eq_false]
          exact fun hz => hbit (and_one_eq_zero.mpr hz)
        by_cases he : (b.equation i).coeff = 0
        · rw [if_pos he] at h
          exact .inr (.inl ⟨hbit, he, h⟩)
        · rw [if_neg he] at h
          exact .inr (.inr ⟨hbit, he, h⟩)

theorem size_addFrom {b b' : Band} {left i : Nat} {c : UInt64} {v : UInt32}
    (h : b.addFrom left i c v = some b') : b'.size = b.size := by
  induction left using Nat.strongRecOn generalizing i c v with
  | ind left ih =>
    rcases addFrom_cases h with ⟨-, -, ⟨⟩⟩ | ⟨-, -, ⟨⟩⟩ | ⟨-, -, ⟨⟩⟩ |
      ⟨n, rfl, ⟨-, h⟩ | ⟨-, -, ⟨⟩⟩ | ⟨-, -, h⟩⟩
    · rfl
    · exact ih n n.lt_succ_self h
    · exact Array.size_setIfInBounds ..
    · exact ih n n.lt_succ_self h

/-- A row and its sum with an equation of the band say the same, since the equation is met. -/
theorem dot_sum_iff {b : Band} {j : Nat} {x : Nat → Bool} (h : b.Solves j x) (i : Nat) (c : UInt64)
    (v : UInt32) : dot x i (c ^^^ (b.equation i).coeff) = valueBit (v ^^^ (b.equation i).value) j ↔
      dot x i c = valueBit v j := by
  rw [dot_xor, valueBit_xor, h i, Bool.xor_left_inj]

/-- Adding a row keeps the form of the band, and the solutions left are those of the row. Induction
on the slots left. -/
theorem solves_addFrom_iff {b : Band} (hb : b.WellFormed) {left i : Nat} (hi : i + left = b.size)
    {c : UInt64} {v : UInt32} {b' : Band} (h : b.addFrom left i c v = some b') :
    b'.WellFormed ∧ ∀ j x, b'.Solves j x ↔ b.Solves j x ∧ dot x i c = valueBit v j := by
  induction left using Nat.strongRecOn generalizing i c v with
  | ind left ih =>
    rcases addFrom_cases h with ⟨rfl, rfl, ⟨⟩⟩ | ⟨-, -, ⟨⟩⟩ | ⟨-, -, ⟨⟩⟩ |
      ⟨n, rfl, ⟨hbit, h⟩ | ⟨hbit, he, ⟨⟩⟩ | ⟨hbit, he, h⟩⟩
    · refine ⟨hb, fun j x => ?_⟩
      rw [dot_zero, valueBit_zero, eq_self, and_true]
    · obtain ⟨hb', hiff⟩ := ih n n.lt_succ_self (by omega) h
      refine ⟨hb', fun j x => ?_⟩
      rw [hiff, dot_shiftRight x i hbit]
    · exact ⟨hb.set (by omega) hbit v, solves_set_iff hb (by omega) he c v⟩
    · have hsum : bitAt (c ^^^ (b.equation i).coeff) 0 = false := by
        rw [bitAt_xor, hbit, (hb i).1 he]
        rfl
      obtain ⟨hb', hiff⟩ := ih n n.lt_succ_self (by omega) h
      refine ⟨hb', fun j x => ?_⟩
      rw [hiff, dot_shiftRight x i hsum]
      exact and_congr_right fun hsol => dot_sum_iff hsol i c v

theorem solves_add?_iff {b : Band} (hb : b.WellFormed) {r : Row} (hr : r.start ≤ b.size) {b' : Band}
    (h : b.add? r = some b') : b'.WellFormed ∧ b'.size = b.size ∧
      ∀ j x, b'.Solves j x ↔ b.Solves j x ∧ dot x r.start r.coeff = valueBit r.value j := by
  obtain ⟨hb', hiff⟩ := solves_addFrom_iff hb (by omega) h
  exact ⟨hb', size_addFrom h, hiff⟩

/-- A run of additions leaves the solutions of all rows. -/
theorem solves_foldlM_iff {rows : List Row} {b b' : Band} (hb : b.WellFormed)
    (hrows : ∀ r ∈ rows, r.start ≤ b.size) (h : rows.foldlM add? b = some b') :
    b'.WellFormed ∧ b'.size = b.size ∧ ∀ j x, b'.Solves j x ↔
      b.Solves j x ∧ ∀ r ∈ rows, dot x r.start r.coeff = valueBit r.value j := by
  induction rows generalizing b with
  | nil =>
    cases h
    exact ⟨hb, rfl, fun j x => by simp⟩
  | cons r rows ih =>
    obtain ⟨hr, hrows⟩ := List.forall_mem_cons.mp hrows
    rw [List.foldlM_cons] at h
    obtain ⟨b₁, h₁, h⟩ := Option.bind_eq_some_iff.mp h
    obtain ⟨hb₁, hsize₁, hiff₁⟩ := solves_add?_iff hb hr h₁
    obtain ⟨hb', hsize', hiff⟩ := ih hb₁ (hsize₁ ▸ hrows) h
    refine ⟨hb', hsize'.trans hsize₁, fun j x => ?_⟩
    rw [hiff, hiff₁, List.forall_mem_cons, and_assoc]

end Band

end ApproxSet
