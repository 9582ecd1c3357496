import ApproxSet.Proofs.Wire.LittleEndian
import ApproxSet.Wire.Cursor

/-!
# When a read succeeds

A read in steps succeeds when the bytes can be cut into pieces of the asked lengths and every check
in between passes. Each lemma turns one step at the front of a read into the condition for it.
-/
namespace ApproxSet

variable {α β : Type}

theorem bind_eq_ok_iff {x : Except Error α} {f : α → Except Error β} {b : β} :
    (x >>= f) = .ok b ↔ ∃ a, x = .ok a ∧ f a = .ok b := by
  cases x with
  | error e =>
    constructor
    · intro h
      cases h
    · rintro ⟨_, h, -⟩
      cases h
  | ok a =>
    constructor
    · exact fun h => ⟨a, rfl, h⟩
    · rintro ⟨_, h, hf⟩
      cases h
      exact hf

theorem exists_ok_of_isOk {x : Except Error α} (h : x.isOk = true) : ∃ a, x = .ok a := by
  cases x with
  | error e => cases h
  | ok a => exact ⟨a, rfl⟩

theorem exists_error_of_isOk {x : Except Error α} (h : x.isOk = false) : ∃ e, x = .error e := by
  cases x with
  | error e => exact ⟨e, rfl⟩
  | ok a => cases h

theorem map_eq_ok_iff {x : Except Error α} {f : α → β} {b : β} :
    x.map f = .ok b ↔ ∃ a, x = .ok a ∧ f a = b := by
  cases x with
  | error e =>
    constructor
    · intro h
      cases h
    · rintro ⟨_, h, -⟩
      cases h
  | ok a =>
    constructor
    · intro h
      exact ⟨a, rfl, Except.ok.inj h⟩
    · rintro ⟨_, h, rfl⟩
      cases h
      rfl

theorem bind_eq_error_iff {x : Except Error α} {f : α → Except Error β} {e : Error} :
    (x >>= f) = .error e ↔ x = .error e ∨ ∃ a, x = .ok a ∧ f a = .error e := by
  cases x with
  | error e' =>
    constructor
    · intro h
      cases h
      exact Or.inl rfl
    · rintro (h | ⟨_, h, -⟩)
      · cases h
        rfl
      · cases h
  | ok a =>
    constructor
    · exact fun h => Or.inr ⟨a, rfl, h⟩
    · rintro (h | ⟨_, h, hf⟩)
      · cases h
      · cases h
        exact hf

theorem map_eq_error_iff {x : Except Error α} {f : α → β} {e : Error} :
    x.map f = .error e ↔ x = .error e := by
  cases x with
  | error e' => exact ⟨fun h => by cases h; rfl, fun h => by cases h; rfl⟩
  | ok a =>
    constructor
    · intro h
      cases h
    · intro h
      cases h

theorem pure_eq_ok_iff {a b : α} : (pure a : Except Error α) = .ok b ↔ a = b :=
  ⟨Except.ok.inj, congrArg _⟩

/-- A check that throws lets a read succeed only if it does not apply. -/
theorem throw_if_eq_ok_iff {p : Prop} [Decidable p] {e : Error} {f : α → Except Error β}
    {x : Except Error β} {b : β} :
    (if p then throw e >>= f else x) = .ok b ↔ ¬p ∧ x = .ok b := by
  by_cases hp : p
  · simp only [hp, if_true, not_true_eq_false, false_and, iff_false]
    intro h
    cases h
  · simp [hp]

namespace Cursor

variable {c : Cursor} {k : Nat} {head : List UInt8}

theorem take?_eq_some_iff {c' : Cursor} :
    c.take? k = some (head, c') ↔
      head.length = k ∧ c.rest = head ++ c'.rest ∧ c'.pos = c.pos + k := by
  unfold take?
  split
  · rename_i hk
    constructor
    · intro h
      obtain ⟨rfl, rfl⟩ := Prod.mk.inj (Option.some.inj h)
      exact ⟨List.length_take_of_le hk, (List.take_append_drop ..).symm, rfl⟩
    · rintro ⟨rfl, hrest, hpos⟩
      rw [hrest, List.take_left, List.drop_left, ← hpos]
  · rename_i hk
    constructor
    · intro h
      cases h
    · rintro ⟨rfl, hrest, -⟩
      exact absurd (by rw [hrest, List.length_append]; omega) hk

theorem header_bind_eq_ok_iff {f : List UInt8 × Cursor → Except Error β} {b : β} :
    (c.header k >>= f) = .ok b ↔
      ∃ head rest, c.rest = head ++ rest ∧ head.length = k ∧
        f (head, ⟨c.pos + k, rest⟩) = .ok b := by
  rw [bind_eq_ok_iff, header]
  constructor
  · rintro ⟨⟨head, pos, rest⟩, h, hf⟩
    cases ht : c.take? k with
    | none => rw [ht] at h; cases h
    | some r =>
      rw [ht] at h
      cases h
      obtain ⟨hk, hrest, rfl⟩ := take?_eq_some_iff.mp ht
      exact ⟨head, rest, hrest, hk, hf⟩
  · rintro ⟨head, rest, hrest, hk, hf⟩
    have ht : c.take? k = some (head, ⟨c.pos + k, rest⟩) := take?_eq_some_iff.mpr ⟨hk, hrest, rfl⟩
    exact ⟨_, by rw [ht], hf⟩

theorem bulk_bind_eq_ok_iff {f : List UInt8 × Cursor → Except Error β} {b : β} :
    (c.bulk k >>= f) = .ok b ↔
      ∃ data rest, c.rest = data ++ rest ∧ data.length = k ∧
        f (data, ⟨c.pos + k, rest⟩) = .ok b := by
  rw [bind_eq_ok_iff, bulk]
  constructor
  · rintro ⟨⟨data, pos, rest⟩, h, hf⟩
    cases ht : c.take? k with
    | none => rw [ht] at h; cases h
    | some r =>
      rw [ht] at h
      cases h
      obtain ⟨hk, hrest, rfl⟩ := take?_eq_some_iff.mp ht
      exact ⟨data, rest, hrest, hk, hf⟩
  · rintro ⟨data, rest, hrest, hk, hf⟩
    have ht : c.take? k = some (data, ⟨c.pos + k, rest⟩) := take?_eq_some_iff.mpr ⟨hk, hrest, rfl⟩
    exact ⟨_, by rw [ht], hf⟩

theorem finish_bind_eq_ok_iff {f : Unit → Except Error β} {b : β} :
    (c.finish >>= f) = .ok b ↔ c.rest = [] ∧ f () = .ok b := by
  rw [bind_eq_ok_iff, finish]
  by_cases h : c.rest = []
  · simp only [h, List.isEmpty_nil, if_true, true_and]
    exact ⟨fun ⟨_, h⟩ => h, fun h => ⟨(), h⟩⟩
  · simp [h]

@[simp] theorem ofBytes_rest (bs : List UInt8) : (ofBytes bs).rest = bs := rfl

end Cursor

end ApproxSet
