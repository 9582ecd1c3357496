import ApproxSet.Proofs.Peel.XorPlus
import Mathlib.Algebra.Order.Group.Multiset

/-!
# Lower lanes first

The stacks of waiting slots keep to their lanes, and every slot of degree one waits, so the slot
that is served next has the lowest lane that any of them has. This holds at every pick of a run
(`Layout.lowestFirst_peel`). In three blocks a hash is therefore picked in the third only when the
other two have no slot of degree one, and what no pick takes of the third block stays zero.
-/
namespace ApproxSet

namespace Waiting

/-- Every stack holds slots of its own lane. -/
structure Laned (l : Layout) (w : Waiting) : Prop where
  low : ∀ s ∈ w.low, l.lane s = 0
  middle : ∀ s ∈ w.middle, l.lane s = 1
  high : ∀ s ∈ w.high, l.lane s = 2

variable {l : Layout} {w w' : Waiting} {s : Nat}

theorem laned_empty (l : Layout) : Laned l {} := by
  constructor <;> simp

theorem Laned.push (h : w.Laned l) (hs : l.lane s ≤ 2) : (w.push (l.lane s) s).Laned l := by
  obtain hs | hs | hs : l.lane s = 0 ∨ l.lane s = 1 ∨ l.lane s = 2 := by omega
  · rw [hs]
    exact { h with low := List.forall_mem_cons.mpr ⟨hs, h.low⟩ }
  · rw [hs]
    exact { h with middle := List.forall_mem_cons.mpr ⟨hs, h.middle⟩ }
  · rw [hs]
    exact { h with high := List.forall_mem_cons.mpr ⟨hs, h.high⟩ }

theorem pop?_subset (hpop : w.pop? = some (s, w')) :
    w'.low ⊆ w.low ∧ w'.middle ⊆ w.middle ∧ w'.high ⊆ w.high := by
  rcases w with ⟨_ | ⟨a, low⟩, _ | ⟨b, middle⟩, _ | ⟨c, high⟩⟩ <;>
    simp only [pop?, Option.some.injEq, Prod.mk.injEq, reduceCtorEq] at hpop <;>
    obtain ⟨rfl, rfl⟩ := hpop <;> simp

theorem Laned.of_pop (h : w.Laned l) (hpop : w.pop? = some (s, w')) : w'.Laned l := by
  obtain ⟨hlow, hmiddle, hhigh⟩ := pop?_subset hpop
  exact ⟨fun i hi => h.low i (hlow hi), fun i hi => h.middle i (hmiddle hi),
    fun i hi => h.high i (hhigh hi)⟩

theorem Laned.pairwise (h : w.Laned l) :
    w.toList.Pairwise fun s i => l.lane s ≤ l.lane i := by
  have hlow : w.low.Pairwise fun s i => l.lane s ≤ l.lane i :=
    List.pairwise_of_forall_mem_list fun s hs i hi => by rw [h.low s hs, h.low i hi]
  have hmiddle : w.middle.Pairwise fun s i => l.lane s ≤ l.lane i :=
    List.pairwise_of_forall_mem_list fun s hs i hi => by rw [h.middle s hs, h.middle i hi]
  have hhigh : w.high.Pairwise fun s i => l.lane s ≤ l.lane i :=
    List.pairwise_of_forall_mem_list fun s hs i hi => by rw [h.high s hs, h.high i hi]
  rw [toList, List.pairwise_append, List.pairwise_append]
  refine ⟨⟨hlow, hmiddle, fun s hs i _ => ?_⟩, hhigh, fun s hs i hi => ?_⟩
  · rw [h.low s hs]
    exact Nat.zero_le _
  · rw [h.high i hi]
    rcases List.mem_append.mp hs with hs | hs
    · rw [h.low s hs]
      decide
    · rw [h.middle s hs]
      decide

/-- No slot that waits has a lower lane than the one that is served. -/
theorem Laned.lane_le (h : w.Laned l) (hpop : w.pop? = some (s, w')) :
    ∀ i ∈ w.toList, l.lane s ≤ l.lane i := by
  have hp := h.pairwise
  rw [pop?_eq_some hpop] at hp ⊢
  exact List.forall_mem_cons.mpr ⟨Nat.le_refl _, (List.pairwise_cons.mp hp).1⟩

end Waiting

namespace Layout

/-- How many hashes touch a slot once the given picks are made. -/
def degreeAfter (l : Layout) (hs : List UInt64) (made : List Pick) (s : Nat) : Nat :=
  (hs.diff (made.map Pick.hash)).countP (l.touches s)

/-- Every pick, the latest first, takes a slot of degree one when no slot of a lower lane has
degree one. -/
def LowestFirst (l : Layout) (hs : List UInt64) (picks : List Pick) : Prop :=
  ∀ later p earlier, picks = later ++ p :: earlier →
    l.degreeAfter hs earlier p.slot = 1 ∧
      ∀ s, l.lane s < l.lane p.slot → l.degreeAfter hs earlier s ≠ 1

variable {l : Layout} {hs : List UInt64} {picks : List Pick}

/-- The hashes left are those given less those picked. -/
theorem degreeAfter_eq {left : List UInt64} (hperm : hs.Perm (left ++ picks.map Pick.hash))
    (s : Nat) : l.degreeAfter hs picks s = left.countP (l.touches s) := by
  have hleft : (hs.diff (picks.map Pick.hash)).Perm left := by
    rw [← Multiset.coe_eq_coe, ← Multiset.coe_sub, Multiset.coe_eq_coe.mpr hperm,
      ← Multiset.coe_add, add_tsub_cancel_right]
  exact hleft.countP_eq _

theorem lowestFirst_nil (l : Layout) (hs : List UInt64) : l.LowestFirst hs [] := by
  intro later p earlier hsplit
  simp at hsplit

theorem LowestFirst.cons (h : l.LowestFirst hs picks) {p : Pick}
    (hone : l.degreeAfter hs picks p.slot = 1)
    (hlower : ∀ s, l.lane s < l.lane p.slot → l.degreeAfter hs picks s ≠ 1) :
    l.LowestFirst hs (p :: picks) := by
  intro later q earlier hsplit
  cases later with
  | nil =>
    obtain ⟨rfl, rfl⟩ := List.cons.inj hsplit
    exact ⟨hone, hlower⟩
  | cons _ later => exact h later q earlier (List.cons.inj hsplit).2

end Layout

namespace Peeling

variable {l : Layout} {p : Peeling} {given : List UInt64}

theorem laned_leave (h : p.waiting.Laned l) (k : UInt64) {s : Nat} (hs : l.lane s ≤ 2) :
    (leave l k p s).waiting.Laned l := by
  rcases p with ⟨t, w, picks⟩
  change (if (t.remove k s).isSingle s then w.push (l.lane s) s else w).Laned l
  split
  · exact h.push hs
  · exact h

theorem laned_leaveAll (k : UInt64) {ss : List Nat} (hss : ∀ s ∈ ss, l.lane s ≤ 2)
    (h : p.waiting.Laned l) : (leaveAll l k p ss).waiting.Laned l := by
  induction ss generalizing p with
  | nil => exact h
  | cons s ss ih =>
    obtain ⟨hs, hss⟩ := List.forall_mem_cons.mp hss
    exact ih hss (laned_leave h k hs)

theorem laned_start (hlane : ∀ s < l.size, l.lane s ≤ 2) (given : List UInt64) :
    (start l given).waiting.Laned l := by
  refine List.foldlRecOn _ _ (Waiting.laned_empty l) fun w hw s hs => ?_
  split
  · exact hw.push (hlane s (List.mem_range.mp hs))
  · exact hw

/-- What serving keeps besides the sound counts: stacks that keep to their lanes, and picks that
took the lowest lane there was. -/
structure Orderly (l : Layout) (given : List UInt64) (p : Peeling) : Prop where
  sound : ∃ left, Sound l given left p
  laned : p.waiting.Laned l
  lowest : l.LowestFirst given p.picks

theorem start_orderly (hl : l.Proper) (hlane : ∀ s < l.size, l.lane s ≤ 2)
    (given : List UInt64) : Orderly l given (start l given) where
  sound := ⟨given, start_sound hl given⟩
  laned := laned_start hlane given
  lowest := l.lowestFirst_nil given

theorem Orderly.of_step (hl : l.Proper) (hlane : ∀ s < l.size, l.lane s ≤ 2)
    (h : Orderly l given p) {s : Nat} {w : Waiting} (hpop : p.waiting.pop? = some (s, w)) :
    Orderly l given (pick l ⟨p.tally, w, p.picks⟩ s) := by
  obtain ⟨left, hsound⟩ := h.sound
  have hw := Waiting.pop?_eq_some hpop
  have hstep := (hsound.of_step hl hw).1
  by_cases hone : p.tally.degreeAt s = 1
  · rw [pick_eq_picked hone] at hstep ⊢
    have hs := (hsound.of_top hw).1
    refine ⟨hstep, laned_leaveAll _ (fun i hi => hlane i (hl.lt_size _ i hi))
      (h.laned.of_pop hpop), ?_⟩
    rw [picks_picked hl hsound.tally.size_mask]
    refine h.lowest.cons ?_ fun i hlower hi => ?_
    · rw [Layout.degreeAfter_eq hsound.split, ← hsound.tally.degree s hs, hone]
    · -- a slot of degree one waits, and so in no lane below the one served
      rw [Layout.degreeAfter_eq hsound.split] at hi
      exact Nat.not_lt.mpr (h.laned.lane_le hpop i (hsound.mem_waiting hl hi)) hlower
  · rw [pick_eq_self hone] at hstep ⊢
    exact ⟨hstep, h.laned.of_pop hpop, h.lowest⟩

theorem Orderly.of_run (hl : l.Proper) (hlane : ∀ s < l.size, l.lane s ≤ 2)
    (h : Orderly l given p) (n : Nat) : Orderly l given (run l n p) := by
  induction n generalizing p with
  | zero => exact h
  | succ n ih =>
    rcases p with ⟨t, w, picks⟩
    rw [run]
    split
    · exact h
    · rename_i s w' hpop
      exact ih (h.of_step hl hlane hpop)

end Peeling

namespace Layout

variable {l : Layout}

theorem lowestFirst_peel (hl : l.Proper) (hlane : ∀ s < l.size, l.lane s ≤ 2)
    (hs : List UInt64) : l.LowestFirst hs (l.peel hs) :=
  ((Peeling.start_orderly hl hlane hs).of_run hl hlane l.size).lowest

/-- Peeling goes on while a slot has degree one. -/
theorem degreeAfter_peel (hl : l.Proper) (hs : List UInt64) (s : Nat) :
    l.degreeAfter hs (l.peel hs) s ≠ 1 := by
  obtain ⟨left, hperm, hfree, -⟩ := exists_left hl hs
  rw [degreeAfter_eq hperm]
  exact hfree s

/-- A slot that no pick of the winning seed takes is zero. -/
theorem getD_of_solve (hl : l.Proper) {w : Nat} {keys : List UInt64} {seed s : UInt64}
    {tries : Nat} {fps : Array (BitVec w)} (h : l.solve w keys seed tries = .ok (s, fps)) {t : Nat}
    (ht : ∀ p ∈ l.peel (keys.map (mix · s)), p.slot ≠ t) : fps.getD t 0 = 0 := by
  obtain ⟨picks, hpicks, rfl⟩ := solve_eq_ok h
  obtain ⟨-, -, -, hown, -, hord⟩ := exists_left hl (keys.map (mix · s))
  simp only [peelAll?, Option.ite_none_right_eq_some, Option.some.injEq] at hpicks
  obtain ⟨-, rfl⟩ := hpicks
  exact (assign_placed hl hown hord).unused t fun p hp => ht p (List.mem_reverse.mp hp)

theorem lane_blocks_le {n s : Nat} (hn : 0 < n) (hs : s < (blocks n).size) :
    (blocks n).lane s ≤ 2 := by
  have hlt : s / n < 3 := (Nat.div_lt_iff_lt_mul hn).mpr hs
  exact Nat.le_of_lt_succ hlt

/-- The first two blocks have lower lanes than the third. -/
theorem lane_blocks_lt {n i s : Nat} (hn : 0 < n) (hi : i < 2 * n) (hs : 2 * n ≤ s) :
    (blocks n).lane i < (blocks n).lane s :=
  Nat.lt_of_lt_of_le ((Nat.div_lt_iff_lt_mul hn).mpr hi) ((Nat.le_div_iff_mul_le hn).mpr hs)

/-- Under every seed, each pick takes a slot that one hash not yet picked has to itself, in the
lowest block with such a slot, and picking goes on while there is such a slot. In particular a pick
takes one of the third block only if the first two have none. What no pick takes of the third block
is zero in the solution and left out when it is compressed. -/
theorem peel_lowest_lane {n : Nat} (hn : 0 < n) (keys : List UInt64) :
    (∀ seed later p earlier,
      (blocks n).peel (keys.map (mix · seed)) = later ++ p :: earlier →
        (blocks n).degreeAfter (keys.map (mix · seed)) earlier p.slot = 1 ∧
        (∀ i, (blocks n).lane i < (blocks n).lane p.slot →
          (blocks n).degreeAfter (keys.map (mix · seed)) earlier i ≠ 1) ∧
        (2 * n ≤ p.slot → ∀ i < 2 * n,
          (blocks n).degreeAfter (keys.map (mix · seed)) earlier i ≠ 1)) ∧
      (∀ seed i, (blocks n).degreeAfter (keys.map (mix · seed))
        ((blocks n).peel (keys.map (mix · seed))) i ≠ 1) ∧
      ∀ w seed tries s (fps : Array (BitVec w)),
        (blocks n).solve w keys seed tries = .ok (s, fps) →
          ∀ i < n, (∀ p ∈ (blocks n).peel (keys.map (mix · s)), p.slot ≠ 2 * n + i) →
            fps.getD (2 * n + i) 0 = 0 ∧ (XorPlus.ofXor ⟨s, n, fps⟩).kept.get i = false := by
  have hl := blocks_proper hn
  refine ⟨?_, fun seed => degreeAfter_peel hl _, ?_⟩
  · intro seed later p earlier hsplit
    obtain ⟨hone, hlower⟩ :=
      lowestFirst_peel hl (fun _ => lane_blocks_le hn) _ later p earlier hsplit
    exact ⟨hone, hlower, fun hp i hi => hlower i (lane_blocks_lt hn hi hp)⟩
  · intro w seed tries s fps hsolve i hi hfree
    have hz := getD_of_solve hl hsolve hfree
    refine ⟨hz, ?_⟩
    rw [XorPlus.ofXor, RankedBits.get_ofBits, hz]
    simp

/-- Once the third key has the slot 1 in the first block, only the third block has a slot of degree
one; the other slot there stays empty. -/
theorem peel_lowest_lane_two :
    0 < 2 ∧
    (blocks 2).peel ([1, 2, 3].map (mix · 1)) =
      [⟨4233148493373801447, 0⟩] ++ ⟨815575690806614222, 4⟩ :: [⟨5156626420896634997, 1⟩] ∧
    (blocks 2).degreeAfter ([1, 2, 3].map (mix · 1)) [⟨5156626420896634997, 1⟩] 4 = 1 ∧
    (∀ i < 4, (blocks 2).degreeAfter ([1, 2, 3].map (mix · 1)) [⟨5156626420896634997, 1⟩] i ≠ 1) ∧
    ∃ fps, (blocks 2).solve 8 [1, 2, 3] 1 1 = .ok (1, fps) ∧
      (∀ p ∈ (blocks 2).peel ([1, 2, 3].map (mix · 1)), p.slot ≠ 5) ∧
        fps.getD 5 0 = 0 ∧ (XorPlus.ofXor ⟨1, 2, fps⟩).kept.get 1 = false := by
  have hpeel : (blocks 2).peel ([1, 2, 3].map (mix · 1)) =
      [⟨4233148493373801447, 0⟩] ++ ⟨815575690806614222, 4⟩ :: [⟨5156626420896634997, 1⟩] := by
    decide +kernel
  have hsolve : (blocks 2).solve 8 [1, 2, 3] 1 1 = .ok (1, #[199, 209, 0, 0, 204, 0]) := by
    decide +kernel
  have hfree : ∀ p ∈ (blocks 2).peel ([1, 2, 3].map (mix · 1)), p.slot ≠ 2 * 2 + 1 := by
    rw [hpeel]
    decide
  obtain ⟨hpicks, -, hzero⟩ := peel_lowest_lane (by decide : 0 < 2) [1, 2, 3]
  obtain ⟨hone, -, hthird⟩ := hpicks 1 _ _ _ hpeel
  exact ⟨by decide, hpeel, hone, hthird (by decide), _, hsolve, hfree,
    hzero 8 1 1 1 _ hsolve 1 (by decide) hfree⟩

end Layout

end ApproxSet
