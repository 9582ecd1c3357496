import ApproxSet.Proofs.Evict.Conserved
import Mathlib.Algebra.BigOperators.Fin
import Mathlib.Data.Fintype.Prod

/-!
# A plain table of slots

Relocation works on a table by two accesses: it fills the first empty slot of a bucket, or exchanges
what a chosen slot holds. `Slots` is the plain table for them, with a whole word for each slot. A
table that acts as slots gives the same replies as the plain one to any run of accesses and holds
the same numbers after it. For bit-dense buckets this says that fields which straddle bytes, and
windows which overlap the neighbouring buckets or the end of the array, never show.
-/
namespace ApproxSet

namespace BucketTable

variable {τ : Type} [BucketTable τ]

/-- Puts `fp` into the first empty slot of bucket `i`, if there is one. -/
def tryInsert (t : τ) (i : Nat) (fp : UInt64) : Bool × τ :=
  match free? t i with
  | some k => (true, put t i k fp)
  | none => (false, t)

/-- Puts `fp` into slot `k` of bucket `i` and hands back what was there. -/
def swap (t : τ) (i k : Nat) (fp : UInt64) : UInt64 × τ := (get t i k, put t i k fp)

theorem tryInsert_of_some {t : τ} {i k : Nat} (h : free? t i = some k) (fp : UInt64) :
    tryInsert t i fp = (true, put t i k fp) := by
  rw [tryInsert, h]

theorem tryInsert_of_none {t : τ} {i : Nat} (h : free? t i = none) (fp : UInt64) :
    tryInsert t i fp = (false, t) := by
  rw [tryInsert, h]

end BucketTable

open BucketTable

namespace Scheme

variable [Draws] {τ : Type} [BucketTable τ] (s : Scheme) (budget : Nat) (d : Draws.State) (t : τ)
  (i : Nat) (fp : UInt64)

/-- A step of relocation is a swap, and an attempt to put down what it hands back. -/
theorem relocate_succ_eq_swap : s.relocate (budget + 1) d t i fp =
      let (victim, t) := swap t i d.slot.1 fp
      let j := s.alternate i victim
      match tryInsert t j victim with
      | (true, t) => some (t, d.slot.2)
      | (false, t) => s.relocate budget d.slot.2 t j victim := by
  cases h : free? (put t i d.slot.1 fp) (s.alternate i (get t i d.slot.1)) with
  | some k => simp only [relocate, swap, h, tryInsert_of_some h]
  | none => simp only [relocate, swap, h, tryInsert_of_none h]

/-- An insertion is an attempt in either bucket, and relocation when both are full. -/
theorem insert_eq_tryInsert : s.insert budget d t i fp =
      let j := s.alternate i fp
      match tryInsert t i fp with
      | (true, t) => some (t, d)
      | (false, t) =>
        match tryInsert t j fp with
        | (true, t) => some (t, d)
        | (false, t) => s.relocate budget d.coin.2 t (if d.coin.1 then i else j) fp := by
  cases h : free? t i with
  | some k => simp only [insert, h, tryInsert_of_some h]
  | none =>
    cases h' : free? t (s.alternate i fp) with
    | some k => simp only [insert, h, h', tryInsert_of_none h, tryInsert_of_some h']
    | none => simp only [insert, h, h', tryInsert_of_none h, tryInsert_of_none h']

end Scheme

/-- An access to one of `n` buckets with a fingerprint of `width` bits. -/
inductive Access (width n : Nat)
  | tryInsert (i : Fin n) (fp : UInt64) (h : fp.toNat < 2 ^ width)
  | swap (i : Fin n) (k : Fin 4) (fp : UInt64) (h : fp.toNat < 2 ^ width)

/-- What an access hands back. -/
inductive Reply
  | inserted (done : Bool)
  | replaced (fp : UInt64)
  deriving DecidableEq

/-- The replies to accesses made one after the other, and the table after them. -/
def Access.run {σ : Type} {width n : Nat} (step : σ → Access width n → Reply × σ) :
    σ → List (Access width n) → List Reply × σ
  | s, [] => ([], s)
  | s, a :: as =>
    let (r, s) := step s a
    let (rs, s) := Access.run step s as
    (r :: rs, s)

/-- A plain table: `n` buckets of four words, zero marking an empty slot. -/
abbrev Slots (n : Nat) := Fin n × Fin 4 → UInt64

namespace Slots

variable {width n : Nat}

def empty : Slots n := fun _ => 0

def set (p : Slots n) (i : Fin n) (k : Fin 4) (fp : UInt64) : Slots n :=
  Function.update p (i, k) fp

/-- The first empty slot of a bucket. -/
def free? (p : Slots n) (i : Fin n) : Option (Fin 4) :=
  (List.finRange 4).find? fun k => p (i, k) == 0

/-- The first empty slot is filled, a chosen one replaced. -/
def step (p : Slots n) : Access width n → Reply × Slots n
  | .tryInsert i fp _ =>
    match p.free? i with
    | some k => (.inserted true, p.set i k fp)
    | none => (.inserted false, p)
  | .swap i k fp _ => (.replaced (p (i, k)), p.set i k fp)

def contains (p : Slots n) (i : Fin n) (fp : UInt64) : Bool := decide (∃ k, p (i, k) = fp)

/-- Number of slots in use. -/
def occupied (p : Slots n) : Nat := (Finset.univ.filter fun x => p x ≠ 0).card

/-- The slot that an access writes, if it writes one. -/
def target (p : Slots n) : Access width n → Option (Fin n × Fin 4)
  | .tryInsert i _ _ => (p.free? i).map (i, ·)
  | .swap i k _ _ => some (i, k)

theorem set_of_ne {p : Slots n} {i : Fin n} {k : Fin 4} {x : Fin n × Fin 4} (h : x ≠ (i, k))
    (fp : UInt64) : p.set i k fp x = p x := by
  rw [set, Function.update_of_ne h]

/-- An access writes its target only. -/
theorem step_of_ne_target (p : Slots n) (a : Access width n) {x : Fin n × Fin 4}
    (h : p.target a ≠ some x) : (p.step a).2 x = p x := by
  cases a with
  | tryInsert i fp hfp =>
    cases hfree : p.free? i with
    | some k =>
      rw [target, hfree, Option.map_some] at h
      rw [step, hfree]
      exact set_of_ne (fun hx => h (congrArg some hx.symm)) fp
    | none => rw [step, hfree]
  | swap i k fp hfp => exact set_of_ne (fun hx => h (congrArg some hx.symm)) fp

end Slots

namespace BucketTable

variable {τ : Type} [BucketTable τ] {width n : Nat} {Good : τ → Prop} {t : τ}

def step (t : τ) : Access width n → Reply × τ
  | .tryInsert i fp _ => (tryInsert t i fp).map .inserted id
  | .swap i k fp _ => (swap t i k fp).map .replaced id

/-- What the first `n` buckets hold. -/
def slots (n : Nat) (t : τ) : Slots n := fun x => get t x.1 x.2

theorem slots_put (ht : ActsAs τ width n Good) (hg : Good t) (i : Fin n) (k : Fin 4) {fp : UInt64}
    (hfp : fp.toNat < 2 ^ width) : slots n (put t i k fp) = (slots n t).set i k fp := by
  funext ⟨j, l⟩
  rw [slots, ht.get_put hg i.isLt k.isLt hfp j l j.isLt l.isLt, Slots.set, Function.update_apply]
  simp [slots, Fin.ext_iff]

theorem free?_slots (ht : ActsAs τ width n Good) (hg : Good t) (i : Fin n) :
    free? t i = ((slots n t).free? i).map Fin.val := by
  rw [ht.free?_eq hg i.isLt, Slots.free?, ← List.map_coe_finRange_eq_range, List.find?_map]
  rfl

/-- One access does the same to a table as to its slots. -/
theorem step_slots (ht : ActsAs τ width n Good) (hg : Good t) (a : Access width n) :
    Good (step t a).2 ∧ (slots n t).step a = (step t a).map id (slots n) := by
  cases a with
  | tryInsert i fp hfp =>
    -- both fill the same slot, or both refuse
    have hfree := free?_slots ht hg i
    cases h : (slots n t).free? i with
    | some k =>
      rw [h, Option.map_some] at hfree
      rw [step, tryInsert_of_some hfree, Slots.step, h]
      refine ⟨ht.good_put hg i.isLt k.isLt hfp, ?_⟩
      exact Prod.ext rfl (slots_put ht hg i k hfp).symm
    | none =>
      rw [h, Option.map_none] at hfree
      rw [step, tryInsert_of_none hfree, Slots.step, h]
      exact ⟨hg, rfl⟩
  | swap i k fp hfp =>
    refine ⟨ht.good_put hg i.isLt k.isLt hfp, ?_⟩
    exact Prod.ext rfl (slots_put ht hg i k hfp).symm

/-- So does any run of accesses, by induction on them: each leaves a good table for the next. -/
theorem run_slots (ht : ActsAs τ width n Good) (hg : Good t) (as : List (Access width n)) :
    Good (Access.run step t as).2 ∧
      Access.run Slots.step (slots n t) as = (Access.run step t as).map id (slots n) := by
  induction as generalizing t with
  | nil => exact ⟨hg, rfl⟩
  | cons a as ih =>
    obtain ⟨hg', hstep⟩ := step_slots ht hg a
    obtain ⟨hgood, hrun⟩ := ih hg'
    refine ⟨hgood, ?_⟩
    simp only [Access.run, hstep, Prod.map_snd, hrun]
    rfl

end BucketTable

namespace Dense

variable {width n : Nat} {t : Dense}

theorem slots_empty (hw : width ≤ 16) (n : Nat) : slots n (empty width n) = Slots.empty := by
  funext x
  exact get_empty hw n x.1 x.2

theorem contains_slots (hw : t.width ≤ 16) (i : Fin n) (fp : UInt64) :
    t.contains i fp = (slots n t).contains i fp := by
  rw [Bool.eq_iff_iff, contains_iff t hw, Slots.contains, decide_eq_true_iff, Fin.exists_iff]
  simp [slots, bucketTable_get]

theorem occupied_slots (hw : t.width ≤ 16) (n : Nat) :
    t.occupied n = (slots n t).occupied := by
  have hbucket (i : Nat) : (slotsOf t i).countP (· ≠ 0) =
      ∑ k ∈ Finset.range 4, if BucketTable.get t i k ≠ 0 then 1 else 0 := by
    simp only [slotsOf, List.range_succ, List.range_zero, List.nil_append, List.cons_append,
      List.map_cons, List.map_nil, List.countP_cons, List.countP_nil, decide_eq_true_eq,
      Finset.sum_range_succ, Finset.sum_range_zero]
    ac_rfl
  rw [occupied_eq t hw, card_fingerprintsIn, Slots.occupied, Finset.card_filter,
    Fintype.sum_prod_type, Finset.sum_range]
  apply Finset.sum_congr rfl
  intro i _
  rw [hbucket, Finset.sum_range]
  rfl

/-- Bit-dense buckets of any width up to sixteen, as many as a table of `2 ^ 64` bits has, behave as
the plain table. From empty tables, every run of accesses gets the same replies from both; after it
both hold the same number in each slot, tell alike which bucket contains what and how many slots are
in use; and one access more leaves every slot as it is but the one it writes. -/
theorem behaves_as_slots {width n : Nat} (hw : width ≤ 16) (hlt : 4 * width * n < 2 ^ 64)
    (as : List (Access width n)) :
    ∃ rs t p, Access.run step (empty width n) as = (rs, t) ∧
      Access.run Slots.step Slots.empty as = (rs, p) ∧
      (∀ (i : Fin n) (k : Fin 4), t.get i k = p (i, k)) ∧
      (∀ (i : Fin n) (fp : UInt64), t.contains i fp = p.contains i fp) ∧
      t.occupied n = p.occupied ∧
      ∀ (a : Access width n) (i : Fin n) (k : Fin 4), p.target a ≠ some (i, k) →
        (step t a).2.get i k = t.get i k := by
  have ht := actsAs hw n
  obtain ⟨hg, hrun⟩ := run_slots ht (good_empty hlt) as
  have htw : (Access.run step (empty width n) as).2.width ≤ 16 := hg.width_eq.trans_le hw
  rw [slots_empty hw] at hrun
  refine ⟨_, _, _, rfl, hrun, fun _ _ => rfl, contains_slots htw, occupied_slots htw n, ?_⟩
  intro a i k hother
  have hkeep := Slots.step_of_ne_target _ a hother
  rw [(step_slots ht hg a).2] at hkeep
  exact hkeep

/-- Five fingerprints for one bucket and one for its neighbour, then an exchange in each. -/
def fiveBitAccesses : List (Access 5 3) :=
  [.tryInsert 1 31 (by decide), .tryInsert 1 7 (by decide), .tryInsert 1 1 (by decide),
    .tryInsert 1 30 (by decide), .tryInsert 1 16 (by decide), .tryInsert 2 31 (by decide),
    .swap 1 2 17 (by decide), .swap 2 0 9 (by decide)]

/-- In buckets of five-bit slots, of which the second starts in the middle of a byte, four
fingerprints find a slot and the fifth does not. -/
theorem behaves_as_slots_five :
    ∃ t, Access.run step (empty 5 3) fiveBitAccesses =
        ([.inserted true, .inserted true, .inserted true, .inserted true, .inserted false,
          .inserted true, .replaced 1, .replaced 31], t) ∧
      t.contains 1 17 = true ∧ t.contains 1 1 = false ∧ t.get 1 3 = 30 ∧ t.occupied 3 = 5 := by
  obtain ⟨rs, t, p, ht, hp, hget, hcontains, hoccupied, -⟩ :=
    behaves_as_slots (by decide) (by decide) fiveBitAccesses
  obtain ⟨rfl, rfl⟩ := Prod.ext_iff.mp hp
  refine ⟨t, ht.trans ?_, ?_, ?_, ?_, ?_⟩
  · exact Prod.ext rfl rfl
  · exact (hcontains 1 17).trans (by decide)
  · exact (hcontains 1 1).trans (by decide)
  · exact (hget 1 3).trans (by decide)
  · exact hoccupied.trans (by decide)

end Dense

end ApproxSet
