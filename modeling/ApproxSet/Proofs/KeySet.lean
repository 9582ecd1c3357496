import ApproxSet.Word.Mix
import Mathlib.Data.Finset.Card
import Mathlib.Data.List.Perm.Subperm

/-!
# The distinct hashes

`distinct` has the members of the given list, in strictly ascending order. So it is the same for all
lists with the same members.
-/
namespace ApproxSet

theorem mem_consNew {a b : UInt64} {r : List UInt64} : b ∈ consNew a r ↔ b = a ∨ b ∈ r := by
  unfold consNew
  split
  · rename_i h
    have ha : a ∈ r := List.mem_of_mem_head? h
    constructor
    · exact Or.inr
    · rintro (rfl | hb)
      · exact ha
      · exact hb
  · exact List.mem_cons

theorem mem_foldr_consNew {b : UInt64} {r : List UInt64} : b ∈ r.foldr consNew [] ↔ b ∈ r := by
  induction r with
  | nil => simp
  | cons a r ih => rw [List.foldr_cons, mem_consNew, ih, List.mem_cons]

theorem length_consNew_le (a : UInt64) (r : List UInt64) :
    (consNew a r).length ≤ r.length + 1 := by
  unfold consNew
  split <;> simp

theorem length_foldr_consNew_le (r : List UInt64) : (r.foldr consNew []).length ≤ r.length := by
  induction r with
  | nil => simp
  | cons a r ih =>
    have h := length_consNew_le a (r.foldr consNew [])
    simp only [List.foldr_cons, List.length_cons]
    omega

/-- A new head below an ascending list keeps it strictly ascending. -/
theorem pairwise_consNew {a : UInt64} {r : List UInt64} (hr : r.Pairwise (· < ·))
    (ha : ∀ b ∈ r, a ≤ b) : (consNew a r).Pairwise (· < ·) := by
  unfold consNew
  split
  · exact hr
  · rename_i hne
    refine List.pairwise_cons.mpr ⟨fun b hb => ?_, hr⟩
    have hab : a ≠ b := by
      rintro rfl
      cases r with
      | nil => simp at hb
      | cons c r =>
        have hca : c ≠ a := fun h => hne (by rw [h]; rfl)
        rcases List.mem_cons.mp hb with h | h
        · exact hca h.symm
        · have hlt := (List.pairwise_cons.mp hr).1 a h
          have hle := ha c (List.mem_cons_self ..)
          exact UInt64.lt_irrefl _ (UInt64.lt_of_lt_of_le hlt hle)
    exact UInt64.lt_of_le_of_ne (ha b hb) hab

theorem pairwise_foldr_consNew {r : List UInt64} (hr : r.Pairwise (· ≤ ·)) :
    (r.foldr consNew []).Pairwise (· < ·) := by
  induction r with
  | nil => simp
  | cons a r ih =>
    obtain ⟨ha, hr⟩ := List.pairwise_cons.mp hr
    exact pairwise_consNew (ih hr) fun b hb => ha b (mem_foldr_consNew.mp hb)

@[simp] theorem mem_distinct {k : UInt64} {hashes : List UInt64} :
    k ∈ distinct hashes ↔ k ∈ hashes := by
  rw [distinct, mem_foldr_consNew, List.mem_mergeSort]

theorem length_distinct_le (hashes : List UInt64) : (distinct hashes).length ≤ hashes.length := by
  have h := length_foldr_consNew_le (hashes.mergeSort (· ≤ ·))
  rwa [List.length_mergeSort] at h

theorem mergeSort_ascending (l : List UInt64) : (l.mergeSort (· ≤ ·)).Pairwise (· ≤ ·) := by
  have h : (l.mergeSort (· ≤ ·)).Pairwise fun a b => decide (a ≤ b) := by
    refine List.pairwise_mergeSort (fun a b c hab hbc => ?_) (fun a b => ?_) l
    · simp only [decide_eq_true_eq] at *
      exact UInt64.le_trans hab hbc
    · simpa using UInt64.le_total a b
  simpa using h

theorem distinct_ascending (hashes : List UInt64) : (distinct hashes).Pairwise (· < ·) :=
  pairwise_foldr_consNew (mergeSort_ascending hashes)

theorem nodup_distinct (hashes : List UInt64) : (distinct hashes).Nodup :=
  (distinct_ascending hashes).imp UInt64.ne_of_lt

/-- There are at most `n` distinct words below `n`. -/
theorem length_le_of_toNat_lt {l : List UInt64} (hl : l.Nodup) {n : Nat}
    (h : ∀ k ∈ l, k.toNat < n) : l.length ≤ n := by
  have hnodup : (l.map UInt64.toNat).Nodup :=
    List.Pairwise.map _ (fun _ _ hne heq => hne (UInt64.toNat_inj.mp heq)) hl
  have hrange : l.map UInt64.toNat ⊆ List.range n := by
    intro v hv
    obtain ⟨k, hk, rfl⟩ := List.mem_map.mp hv
    exact List.mem_range.mpr (h k hk)
  have hle := (List.subperm_of_subset hnodup hrange).length_le
  rwa [List.length_map, List.length_range] at hle

theorem length_distinct_le_size (hashes : List UInt64) :
    (distinct hashes).length ≤ UInt64.size :=
  length_le_of_toNat_lt (nodup_distinct hashes) fun k _ => k.toNat_lt_size

/-- Repetitions and order have no part in the distinct hashes. -/
theorem distinct_eq_distinct_iff {hashes others : List UInt64} :
    distinct hashes = distinct others ↔ ∀ k, k ∈ hashes ↔ k ∈ others := by
  constructor
  · intro h k
    rw [← mem_distinct, h, mem_distinct]
  · intro h
    have hperm : (distinct hashes).Perm (distinct others) := by
      rw [List.perm_ext_iff_of_nodup (nodup_distinct hashes) (nodup_distinct others)]
      intro k
      rw [mem_distinct, mem_distinct]
      exact h k
    apply hperm.eq_of_pairwise _ (distinct_ascending hashes) (distinct_ascending others)
    intro a b _ _ hab hba
    exact absurd hba (UInt64.not_lt.mpr (UInt64.le_of_lt hab))

/-- As a multiset they are the set of the given hashes. -/
theorem val_toFinset (hashes : List UInt64) :
    hashes.toFinset.val = (distinct hashes : Multiset UInt64) := by
  have hset : hashes.toFinset = (distinct hashes).toFinset := by
    ext k
    rw [List.mem_toFinset, List.mem_toFinset, mem_distinct]
  rw [hset, List.toFinset_val, (nodup_distinct hashes).dedup]

theorem card_toFinset (hashes : List UInt64) :
    hashes.toFinset.card = (distinct hashes).length := by
  rw [Finset.card_def, val_toFinset, Multiset.coe_card]

theorem foldr_consNew_of_ascending {r : List UInt64} (h : r.Pairwise (· < ·)) :
    r.foldr consNew [] = r := by
  induction h with
  | nil => rfl
  | @cons a r ha _ ih =>
    have hne : ¬ r.head? = some a := fun hr =>
      UInt64.lt_irrefl a (ha a (List.mem_of_mem_head? hr))
    rw [List.foldr_cons, ih, consNew, if_neg hne]

theorem distinct_of_ascending {hashes : List UInt64} (h : hashes.Pairwise (· < ·)) :
    distinct hashes = hashes := by
  have hsort : hashes.mergeSort (· ≤ ·) = hashes :=
    List.mergeSort_of_pairwise (h.imp fun hab => decide_eq_true (UInt64.le_of_lt hab))
  rw [distinct, hsort, foldr_consNew_of_ascending h]

end ApproxSet
