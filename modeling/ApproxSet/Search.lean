/-!
# The first success among numbered attempts

`firstSuccess f n` is the least index below `n` at which `f` gives a value, with that value.
-/
namespace ApproxSet

/-- Attempts `start, start + 1, …`, `left` of them, up to the first that gives a value. -/
def firstSuccessFrom {α : Type} (f : Nat → Option α) : (left start : Nat) → Option (Nat × α)
  | 0, _ => none
  | left + 1, start =>
    match f start with
    | some a => some (start, a)
    | none => firstSuccessFrom f left (start + 1)

def firstSuccess {α : Type} (f : Nat → Option α) (n : Nat) : Option (Nat × α) :=
  firstSuccessFrom f n 0

theorem firstSuccessFrom_eq_some_iff {α : Type} {f : Nat → Option α} {left start j : Nat}
    {a : α} : firstSuccessFrom f left start = some (j, a) ↔
      start ≤ j ∧ j < start + left ∧ f j = some a ∧ ∀ i, start ≤ i → i < j → f i = none := by
  induction left generalizing start with
  | zero => simp only [firstSuccessFrom]; grind
  | succ left ih =>
    simp only [firstSuccessFrom]
    split
    · rename_i b hb
      constructor
      · rintro h
        obtain ⟨rfl, rfl⟩ := Prod.mk.inj (Option.some.inj h)
        exact ⟨Nat.le_refl _, by omega, hb, fun i h₁ h₂ => by omega⟩
      · rintro ⟨h₁, _, h₂, h₃⟩
        have hj : j = start := by
          by_cases hlt : start < j
          · simp [h₃ start (Nat.le_refl _) hlt] at hb
          · omega
        subst hj
        simp_all
    · rename_i hn
      rw [ih]
      constructor
      · rintro ⟨h₁, h₂, h₃, h₄⟩
        refine ⟨by omega, by omega, h₃, fun i hi hij => ?_⟩
        by_cases h : i = start
        · exact h ▸ hn
        · exact h₄ i (by omega) hij
      · rintro ⟨h₁, h₂, h₃, h₄⟩
        have hj : j ≠ start := fun h => by simp [h ▸ h₃] at hn
        exact ⟨by omega, by omega, h₃, fun i hi hij => h₄ i (by omega) hij⟩

theorem firstSuccess_eq_some_iff {α : Type} {f : Nat → Option α} {n j : Nat} {a : α} :
    firstSuccess f n = some (j, a) ↔ j < n ∧ f j = some a ∧ ∀ i, i < j → f i = none := by
  simp [firstSuccess, firstSuccessFrom_eq_some_iff]

/-- More attempts do not change a success. -/
theorem firstSuccess_mono {α : Type} {f : Nat → Option α} {n n' : Nat} {r : Nat × α} (h : n ≤ n')
    (hr : firstSuccess f n = some r) : firstSuccess f n' = some r := by
  obtain ⟨hlt, hfound⟩ := firstSuccess_eq_some_iff.mp hr
  exact firstSuccess_eq_some_iff.mpr ⟨Nat.lt_of_lt_of_le hlt h, hfound⟩

theorem firstSuccess_eq_none_iff {α : Type} {f : Nat → Option α} {n : Nat} :
    firstSuccess f n = none ↔ ∀ i, i < n → f i = none := by
  suffices h : ∀ left start, firstSuccessFrom f left start = none ↔
      ∀ i, start ≤ i → i < start + left → f i = none by
    simpa [firstSuccess] using h n 0
  intro left
  induction left with
  | zero => intro start; simp only [firstSuccessFrom]; grind
  | succ left ih =>
    intro start
    simp only [firstSuccessFrom]
    split
    · rename_i b hb
      constructor
      · intro h; simp at h
      · intro h; simp [h start (Nat.le_refl _) (by omega)] at hb
    · rename_i hn
      rw [ih]
      constructor
      · intro h i hi hlt
        by_cases h' : i = start
        · exact h' ▸ hn
        · exact h i (by omega) (by omega)
      · intro h i hi hlt
        exact h i (by omega) (by omega)

theorem firstSuccessFrom_map {α β : Type} (f : Nat → Option α) (g : Nat → α → β)
    (left start : Nat) : (firstSuccessFrom f left start).map (fun r => g r.1 r.2) =
      (List.range' start left).findSome? fun i => (f i).map (g i) := by
  induction left generalizing start with
  | zero => rfl
  | succ left ih =>
    rw [firstSuccessFrom, List.range'_succ, List.findSome?_cons]
    cases f start with
    | some a => rfl
    | none => exact ih (start + 1)

/-- The attempts as a list of numbers that is searched in order. -/
theorem firstSuccess_map {α β : Type} (f : Nat → Option α) (g : Nat → α → β) (n : Nat) :
    (firstSuccess f n).map (fun r => g r.1 r.2) =
      (List.range n).findSome? fun i => (f i).map (g i) := by
  rw [firstSuccess, firstSuccessFrom_map, List.range_eq_range']

end ApproxSet
