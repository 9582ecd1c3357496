import ApproxSet.Proofs.Peel.Tally
import Mathlib.Data.Finset.Card

/-!
# Peeling to the end

`Peeling.Sound` is what every step of peeling keeps: the picked hashes and those left make up the
given ones, the tally describes those left, and every slot of degree one waits. A run serves every
waiting slot, so afterwards no slot is touched by exactly one of the hashes left
(`Layout.exists_left`).
-/
namespace ApproxSet

namespace Waiting

def toList (w : Waiting) : List Nat := w.low ++ w.middle ++ w.high

theorem push_perm (w : Waiting) (lane s : Nat) : (w.push lane s).toList.Perm (s :: w.toList) := by
  match lane with
  | 0 => exact List.Perm.refl _
  | 1 =>
    change (w.low ++ s :: w.middle ++ w.high).Perm (s :: (w.low ++ w.middle ++ w.high))
    simp
  | n + 2 =>
    change (w.low ++ w.middle ++ s :: w.high).Perm (s :: (w.low ++ w.middle ++ w.high))
    exact List.perm_middle

theorem pop?_eq_some {w w' : Waiting} {s : Nat} (h : w.pop? = some (s, w')) :
    w.toList = s :: w'.toList := by
  rcases w with ⟨_ | ⟨a, low⟩, _ | ⟨b, middle⟩, _ | ⟨c, high⟩⟩ <;>
    simp [pop?] at h <;> obtain ⟨rfl, rfl⟩ := h <;> rfl

theorem pop?_eq_none {w : Waiting} (h : w.pop? = none) : w.toList = [] := by
  rcases w with ⟨_ | ⟨a, low⟩, _ | ⟨b, middle⟩, _ | ⟨c, high⟩⟩ <;> simp [pop?] at h
  rfl

end Waiting

namespace Peeling

variable {l : Layout} {p : Peeling} {given left : List UInt64}

/-- Hash `h` leaves the given slots one by one. -/
def leaveAll (l : Layout) (h : UInt64) (p : Peeling) (ss : List Nat) : Peeling :=
  ss.foldl (leave l h) p

/-- One slot is left: its degree falls, and it waits from now on if the degree falls to one. -/
theorem leave_spec {n : Nat} (l : Layout) (h : UInt64) {s : Nat} (hs : s < n) (p : Peeling)
    (hm : p.tally.mask.size = n) :
    (leave l h p s).picks = p.picks ∧
      (leave l h p s).tally.degree.size = p.tally.degree.size ∧
      (leave l h p s).tally.mask.size = n ∧
      (∀ i, (leave l h p s).tally.degreeAt i = p.tally.degreeAt i - if i = s then 1 else 0) ∧
      (∀ i, (leave l h p s).tally.maskAt i = p.tally.maskAt i ^^^ if i = s then h else 0) ∧
      (leave l h p s).waiting.toList.Perm
        (if p.tally.degreeAt s = 2 then s :: p.waiting.toList else p.waiting.toList) := by
  rcases p with ⟨t, w, picks⟩
  refine ⟨rfl, Tally.size_degree_remove .., (Tally.size_mask_remove ..).trans hm,
    Tally.degreeAt_remove t h s, Tally.maskAt_remove (hm ▸ hs) h, ?_⟩
  have hsingle : (t.remove h s).isSingle s = true ↔ t.degreeAt s = 2 := by
    rw [Tally.isSingle_iff, Tally.degreeAt_remove, if_pos rfl]
    omega
  change (if (t.remove h s).isSingle s then w.push (l.lane s) s else w).toList.Perm _
  by_cases htwo : t.degreeAt s = 2
  · rw [if_pos (hsingle.mpr htwo), if_pos htwo]
    exact w.push_perm _ s
  · rw [if_neg (fun hc => htwo (hsingle.mp hc)), if_neg htwo]

/-- Leaving distinct slots: each of them is counted down once, and those of degree two come to
wait. -/
theorem leaveAll_spec {n : Nat} (l : Layout) (h : UInt64) (ss : List Nat) (hss : ∀ s ∈ ss, s < n)
    (hd : ss.Nodup) (p : Peeling) (hm : p.tally.mask.size = n) :
    (leaveAll l h p ss).picks = p.picks ∧
      (leaveAll l h p ss).tally.degree.size = p.tally.degree.size ∧
      (leaveAll l h p ss).tally.mask.size = n ∧
      (∀ i, (leaveAll l h p ss).tally.degreeAt i =
        p.tally.degreeAt i - if i ∈ ss then 1 else 0) ∧
      (∀ i, (leaveAll l h p ss).tally.maskAt i = p.tally.maskAt i ^^^ if i ∈ ss then h else 0) ∧
      (leaveAll l h p ss).waiting.toList.Perm
        (ss.filter (fun s => p.tally.degreeAt s = 2) ++ p.waiting.toList) := by
  induction ss generalizing p with
  | nil => simp [leaveAll, hm]
  | cons s ss ih =>
    obtain ⟨hs, hss⟩ := List.forall_mem_cons.mp hss
    obtain ⟨hnot, hd⟩ := List.nodup_cons.mp hd
    obtain ⟨a₁, a₂, a₃, a₄, a₅, a₆⟩ := leave_spec l h hs p hm
    obtain ⟨b₁, b₂, b₃, b₄, b₅, b₆⟩ := ih hss hd (leave l h p s) a₃
    change (leaveAll l h (leave l h p s) ss).picks = _ ∧ _
    have hin (i : Nat) (hi : i ∈ ss) : i ≠ s := fun e => hnot (e ▸ hi)
    refine ⟨b₁.trans a₁, b₂.trans a₂, b₃, fun i => ?_, fun i => ?_, ?_⟩
    · change (leaveAll l h (leave l h p s) ss).tally.degreeAt i = _
      rw [b₄, a₄]
      by_cases hi : i = s
      · simp [hi, hnot]
      · simp [hi]
    · change (leaveAll l h (leave l h p s) ss).tally.maskAt i = _
      rw [b₅, a₅]
      by_cases hi : i = s
      · simp [hi, hnot]
      · simp [hi]
    · change (leaveAll l h (leave l h p s) ss).waiting.toList.Perm _
      have hfilter : ss.filter (fun i => (leave l h p s).tally.degreeAt i = 2) =
          ss.filter (fun i => p.tally.degreeAt i = 2) := by
        apply List.filter_congr
        intro i hi
        rw [a₄, if_neg (hin i hi), Nat.sub_zero]
      rw [hfilter] at b₆
      refine b₆.trans ((a₆.append_left _).trans ?_)
      by_cases htwo : p.tally.degreeAt s = 2
      · rw [if_pos htwo, List.filter_cons_of_pos (by simpa using htwo)]
        exact List.perm_middle
      · rw [if_neg htwo, List.filter_cons_of_neg (by simpa using htwo)]

/-- What every step of peeling keeps, `left` being the hashes not yet picked. -/
structure Sound (l : Layout) (given left : List UInt64) (p : Peeling) : Prop where
  /-- The given hashes are those left and those picked. -/
  split : given.Perm (left ++ p.picks.map Pick.hash)
  tally : p.tally.Describes l left
  waits : ∀ s, s < l.size → p.tally.degreeAt s = 1 → s ∈ p.waiting.toList
  waiting_nodup : p.waiting.toList.Nodup
  waiting_le : ∀ s ∈ p.waiting.toList, s < l.size ∧ p.tally.degreeAt s ≤ 1
  own : ∀ q ∈ p.picks, q.slot ∈ (l.slots q.hash).toList
  /-- No hash left touches a slot that was picked. -/
  free : ∀ q ∈ p.picks, ∀ h ∈ left, q.slot ∉ (l.slots h).toList
  /-- No hash touches a slot that was picked before it. -/
  ordered : p.picks.Pairwise fun later earlier => earlier.slot ∉ (l.slots later.hash).toList

/-- A slot that one of the hashes left has to itself waits. -/
theorem Sound.mem_waiting (hl : l.Proper) (h : Sound l given left p) {s : Nat}
    (hone : left.countP (l.touches s) = 1) : s ∈ p.waiting.toList := by
  by_cases hs : s < l.size
  · exact h.waits s hs ((h.tally.degree s hs).trans hone)
  · have hz : left.countP (l.touches s) = 0 :=
      List.countP_eq_zero.mpr fun k _ hk => hs (hl.lt_size k s (Layout.touches_iff.mp hk))
    omega

theorem foldl_push (l : Layout) (t : Tally) (ss : List Nat) (w : Waiting) :
    (ss.foldl (fun w s => if t.isSingle s then w.push (l.lane s) s else w) w).toList.Perm
      ((ss.filter (fun s => t.isSingle s)).reverse ++ w.toList) := by
  induction ss generalizing w with
  | nil => exact List.Perm.refl _
  | cons s ss ih =>
    rw [List.foldl_cons]
    refine (ih _).trans ?_
    by_cases h : t.isSingle s = true
    · rw [if_pos h, List.filter_cons_of_pos h, List.reverse_cons, List.append_assoc]
      exact (w.push_perm _ s).append_left _
    · rw [if_neg h, List.filter_cons_of_neg h]

theorem start_sound (hl : l.Proper) (given : List UInt64) :
    Sound l given given (start l given) := by
  have ht := Tally.ofHashes_describes hl given
  have hw : (start l given).waiting.toList.Perm
      ((List.range l.size).filter fun s => (Tally.ofHashes l given).isSingle s).reverse := by
    have h := foldl_push l (Tally.ofHashes l given) (List.range l.size) {}
    rwa [show ({} : Waiting).toList = [] from rfl, List.append_nil] at h
  have hmem (s : Nat) : s ∈ (start l given).waiting.toList ↔
      s < l.size ∧ (Tally.ofHashes l given).degreeAt s = 1 := by
    rw [hw.mem_iff, List.mem_reverse, List.mem_filter, List.mem_range, Tally.isSingle_iff]
  constructor
  · simp [start]
  · exact ht
  · exact fun s hs h => (hmem s).mpr ⟨hs, h⟩
  · exact hw.nodup_iff.mpr (List.nodup_reverse.mpr (List.nodup_range.filter _))
  · exact fun s hs => ⟨((hmem s).mp hs).1, le_of_eq ((hmem s).mp hs).2⟩
  · simp [start]
  · simp [start]
  · simp [start]

/-- The top of the waiting slots waits once, and has at most one hash like the slots below it. -/
theorem Sound.of_top (h : Sound l given left p) {s : Nat} {w : Waiting}
    (hw : p.waiting.toList = s :: w.toList) :
    s < l.size ∧ p.tally.degreeAt s ≤ 1 ∧ s ∉ w.toList ∧ w.toList.Nodup ∧
      ∀ i ∈ w.toList, i < l.size ∧ p.tally.degreeAt i ≤ 1 := by
  have hd := h.waiting_nodup
  have hle := h.waiting_le
  rw [hw] at hd hle
  obtain ⟨hnot, hd⟩ := List.nodup_cons.mp hd
  obtain ⟨⟨hs, hdeg⟩, hle⟩ := List.forall_mem_cons.mp hle
  exact ⟨hs, hdeg, hnot, hd, hle⟩

/-- Another slot of degree one waits below the top. -/
theorem Sound.mem_below_top (h : Sound l given left p) {s i : Nat} {w : Waiting}
    (hw : p.waiting.toList = s :: w.toList) (hi : i < l.size) (hone : p.tally.degreeAt i = 1)
    (hne : i ≠ s) : i ∈ w.toList := by
  have hmem := h.waits i hi hone
  rw [hw] at hmem
  exact List.mem_of_ne_of_mem hne hmem

/-- Taking the top of the waiting slots away loses nothing if its degree is not one. -/
theorem Sound.of_skip (h : Sound l given left p) {s : Nat} {w : Waiting}
    (hw : p.waiting.toList = s :: w.toList) (hs : p.tally.degreeAt s ≠ 1) :
    Sound l given left ⟨p.tally, w, p.picks⟩ := by
  obtain ⟨-, -, -, hd, hle⟩ := h.of_top hw
  refine { h with
    waits := fun i hi hone => h.mem_below_top hw hi hone ?_
    waiting_nodup := hd
    waiting_le := hle }
  rintro rfl
  exact hs hone

/-- The state after slot `s` is picked with the hash `h`. -/
def picked (l : Layout) (p : Peeling) (w : Waiting) (s : Nat) (h : UInt64) : Peeling :=
  leaveAll l h ⟨p.tally, w, ⟨h, s⟩ :: p.picks⟩ (l.slots h).toList

theorem pick_eq_picked {w : Waiting} {s : Nat} (hs : p.tally.degreeAt s = 1) :
    pick l ⟨p.tally, w, p.picks⟩ s = picked l p w s (p.tally.maskAt s) := by
  unfold pick
  rw [if_pos (Tally.isSingle_iff.mpr hs)]
  rfl

theorem pick_eq_self {w : Waiting} {s : Nat} (hs : p.tally.degreeAt s ≠ 1) :
    pick l ⟨p.tally, w, p.picks⟩ s = ⟨p.tally, w, p.picks⟩ := by
  unfold pick
  exact if_neg fun hc => hs (Tally.isSingle_iff.mp hc)

theorem picks_picked (hl : l.Proper) (hm : p.tally.mask.size = l.size) (w : Waiting) (s : Nat)
    (k : UInt64) : (picked l p w s k).picks = ⟨k, s⟩ :: p.picks :=
  (leaveAll_spec l k (l.slots k).toList (hl.lt_size k) (hl.nodup k)
    ⟨p.tally, w, ⟨k, s⟩ :: p.picks⟩ hm).1

/-- A picked hash is counted out of its slots, and those with one other hash come to wait. -/
theorem picked_spec (hl : l.Proper) (hm : p.tally.mask.size = l.size) (w : Waiting) (s : Nat)
    (k : UInt64) :
    (∀ i, (picked l p w s k).tally.degreeAt i =
      p.tally.degreeAt i - if i ∈ (l.slots k).toList then 1 else 0) ∧
      ∀ i, i ∈ (picked l p w s k).waiting.toList ↔
        (i ∈ (l.slots k).toList ∧ p.tally.degreeAt i = 2) ∨ i ∈ w.toList := by
  obtain ⟨-, -, -, hdegree, -, hwaiting⟩ := leaveAll_spec l k (l.slots k).toList (hl.lt_size k)
    (hl.nodup k) ⟨p.tally, w, ⟨k, s⟩ :: p.picks⟩ hm
  refine ⟨hdegree, fun i => ?_⟩
  rw [picked, hwaiting.mem_iff, List.mem_append, List.mem_filter, decide_eq_true_iff]

/-- Then the tally describes the other hashes. -/
theorem picked_describes (hl : l.Proper) (ht : p.tally.Describes l left) (w : Waiting) (s : Nat)
    {k : UInt64} (hin : k ∈ left) : (picked l p w s k).tally.Describes l (left.erase k) := by
  obtain ⟨-, hdegrees, hmasks, hdegree, hmask, -⟩ := leaveAll_spec l k (l.slots k).toList
    (hl.lt_size k) (hl.nodup k) ⟨p.tally, w, ⟨k, s⟩ :: p.picks⟩ ht.size_mask
  have hp := List.perm_cons_erase hin
  refine ⟨hdegrees.trans ht.size_degree, hmasks, fun i hi => ?_, fun i hi => ?_⟩
  · rw [picked, hdegree]
    change p.tally.degreeAt i - _ = _
    rw [ht.degree i hi, hp.countP_eq, List.countP_cons]
    simp [Layout.touches_iff]
  · have hxor := ht.mask i hi
    rw [xorAll_perm (hp.filter _), List.filter_cons] at hxor
    rw [picked, hmask]
    change p.tally.maskAt i ^^^ _ = _
    rw [hxor]
    by_cases hik : i ∈ (l.slots k).toList
    · rw [if_pos (Layout.touches_iff.mpr hik), if_pos hik, xorAll_cons, UInt64.xor_comm k,
        UInt64.xor_assoc, UInt64.xor_self, UInt64.xor_zero]
    · rw [if_neg (fun hc => hik (Layout.touches_iff.mp hc)), if_neg hik, UInt64.xor_zero]

/-- After the top of the waiting slots was picked, each slot that has one hash waits once, and no
slot that has more. -/
theorem Sound.waiting_picked (hl : l.Proper) (h : Sound l given left p) {s : Nat} {w : Waiting}
    (hw : p.waiting.toList = s :: w.toList) {k : UInt64} (htouch : s ∈ (l.slots k).toList) :
    (∀ i, i < l.size → (picked l p w s k).tally.degreeAt i = 1 →
      i ∈ (picked l p w s k).waiting.toList) ∧
      (picked l p w s k).waiting.toList.Nodup ∧
      ∀ i ∈ (picked l p w s k).waiting.toList,
        i < l.size ∧ (picked l p w s k).tally.degreeAt i ≤ 1 := by
  obtain ⟨-, -, -, hd, hle⟩ := h.of_top hw
  obtain ⟨-, -, -, -, -, hperm⟩ := leaveAll_spec l k (l.slots k).toList (hl.lt_size k)
    (hl.nodup k) ⟨p.tally, w, ⟨k, s⟩ :: p.picks⟩ h.tally.size_mask
  obtain ⟨hdeg, hwait⟩ := picked_spec hl h.tally.size_mask w s k
  refine ⟨fun i hi hone => ?_, ?_, fun i hi => ?_⟩
  · rw [hwait]
    rw [hdeg] at hone
    by_cases hik : i ∈ (l.slots k).toList
    · rw [if_pos hik] at hone
      exact .inl ⟨hik, by omega⟩
    · rw [if_neg hik, Nat.sub_zero] at hone
      exact .inr (h.mem_below_top hw hi hone fun his => hik (his ▸ htouch))
  · refine hperm.nodup_iff.mpr (List.nodup_append.mpr ⟨(hl.nodup k).filter _, hd, ?_⟩)
    rintro i hi j hj rfl
    have htwo := (List.mem_filter.mp hi).2
    have hone := (hle i hj).2
    simp only [decide_eq_true_eq] at htwo
    omega
  · rw [hdeg]
    rcases (hwait i).mp hi with ⟨hik, htwo⟩ | hi
    · exact ⟨hl.lt_size k i hik, by rw [if_pos hik, htwo]⟩
    · obtain ⟨hi, hone⟩ := hle i hi
      exact ⟨hi, by omega⟩

/-- Picking the top of the waiting slots, whose only hash is `h`. -/
theorem Sound.of_pick (hl : l.Proper) (h : Sound l given left p) {s : Nat} {w : Waiting}
    (hw : p.waiting.toList = s :: w.toList) (hone : p.tally.degreeAt s = 1) :
    Sound l given (left.erase (p.tally.maskAt s)) (picked l p w s (p.tally.maskAt s)) := by
  obtain ⟨hs, -⟩ := h.of_top hw
  obtain ⟨hin, htouch, hothers⟩ := h.tally.single hs hone
  generalize p.tally.maskAt s = k at hin htouch hothers ⊢
  obtain ⟨hwaits, hnodup, hle⟩ := h.waiting_picked hl hw htouch
  have hsub : ∀ i ∈ left.erase k, i ∈ left := fun i hi => List.mem_of_mem_erase hi
  have hpicks := picks_picked hl h.tally.size_mask w s k
  refine ⟨?_, picked_describes hl h.tally w s hin, hwaits, hnodup, hle, ?_, ?_, ?_⟩
  · rw [hpicks, List.map_cons]
    exact h.split.trans (((List.perm_cons_erase hin).append_right _).trans
      List.perm_middle.symm)
  · rw [hpicks]
    exact List.forall_mem_cons.mpr ⟨htouch, h.own⟩
  · rw [hpicks]
    exact List.forall_mem_cons.mpr ⟨hothers, fun q hq i hi => h.free q hq i (hsub i hi)⟩
  · rw [hpicks]
    exact List.pairwise_cons.mpr ⟨fun q hq => h.free q hq k hin, h.ordered⟩

/-- The slots that wait now or may come to wait. -/
def pending (l : Layout) (p : Peeling) : Finset Nat :=
  (Finset.range l.size).filter fun s => s ∈ p.waiting.toList ∨ 2 ≤ p.tally.degreeAt s

theorem mem_pending {s : Nat} :
    s ∈ pending l p ↔ s < l.size ∧ (s ∈ p.waiting.toList ∨ 2 ≤ p.tally.degreeAt s) := by
  simp [pending]

/-- Fewer slots are pending when none came to be and one no longer is. -/
theorem card_pending_lt {p' : Peeling} {s : Nat} (hin : s ∈ pending l p)
    (hwait : ∀ i ∈ p'.waiting.toList, i ∈ p.waiting.toList ∨ 2 ≤ p.tally.degreeAt i)
    (hdegree : ∀ i, p'.tally.degreeAt i ≤ p.tally.degreeAt i) (hs : s ∉ p'.waiting.toList)
    (hone : p'.tally.degreeAt s ≤ 1) : (pending l p').card < (pending l p).card := by
  apply Finset.card_lt_card
  refine (Finset.ssubset_iff_of_subset fun i hi => ?_).mpr ⟨s, hin, fun hs' => ?_⟩
  · obtain ⟨hi, hpend⟩ := mem_pending.mp hi
    rcases hpend with hpend | htwo
    · exact mem_pending.mpr ⟨hi, hwait i hpend⟩
    · exact mem_pending.mpr ⟨hi, .inr (htwo.trans (hdegree i))⟩
  · rcases (mem_pending.mp hs').2 with hpend | htwo
    · exact hs hpend
    · omega

/-- A served slot never waits again. -/
theorem Sound.of_step (hl : l.Proper) (h : Sound l given left p) {s : Nat} {w : Waiting}
    (hw : p.waiting.toList = s :: w.toList) :
    (∃ left', Sound l given left' (pick l ⟨p.tally, w, p.picks⟩ s)) ∧
      (pending l (pick l ⟨p.tally, w, p.picks⟩ s)).card < (pending l p).card := by
  obtain ⟨hs, hdeg, hsw, -⟩ := h.of_top hw
  have hin : s ∈ pending l p := mem_pending.mpr ⟨hs, .inl (hw ▸ List.mem_cons_self ..)⟩
  have hrest (i : Nat) (hi : i ∈ w.toList) : i ∈ p.waiting.toList :=
    hw ▸ List.mem_cons_of_mem _ hi
  by_cases hone : p.tally.degreeAt s = 1
  · obtain ⟨hdegree, hwait⟩ := picked_spec hl h.tally.size_mask w s (p.tally.maskAt s)
    rw [pick_eq_picked hone]
    refine ⟨⟨_, h.of_pick hl hw hone⟩, card_pending_lt hin (fun i hi => ?_) (fun i => ?_) ?_ ?_⟩
    · rcases (hwait i).mp hi with ⟨-, htwo⟩ | hi
      · exact .inr htwo.ge
      · exact .inl (hrest i hi)
    · rw [hdegree]
      exact Nat.sub_le ..
    · rw [hwait]
      rintro (⟨-, htwo⟩ | hi)
      · omega
      · exact hsw hi
    · rw [hdegree]
      omega
  · rw [pick_eq_self hone]
    exact ⟨⟨_, h.of_skip hw hone⟩, card_pending_lt hin (fun i hi => .inl (hrest i hi))
      (fun i => Nat.le_refl _) hsw hdeg⟩

/-- Serving as many slots as are pending leaves none waiting. -/
theorem Sound.of_run (hl : l.Proper) {n : Nat} (h : Sound l given left p)
    (hn : (pending l p).card ≤ n) :
    ∃ left', Sound l given left' (run l n p) ∧ (run l n p).waiting.toList = [] := by
  induction n generalizing p left with
  | zero =>
    refine ⟨left, h, List.eq_nil_iff_forall_not_mem.mpr fun s hs => ?_⟩
    have hin : s ∈ pending l p := mem_pending.mpr ⟨(h.waiting_le s hs).1, .inl hs⟩
    rw [Finset.card_eq_zero.mp (Nat.le_zero.mp hn)] at hin
    exact absurd hin (Finset.notMem_empty s)
  | succ n ih =>
    rcases p with ⟨t, w, picks⟩
    rw [run]
    split
    · rename_i hpop
      exact ⟨left, h, Waiting.pop?_eq_none hpop⟩
    · rename_i s w' hpop
      obtain ⟨⟨left', h'⟩, hlt⟩ := h.of_step hl (Waiting.pop?_eq_some hpop)
      exact ih h' (Nat.le_of_lt_succ (lt_of_lt_of_le hlt hn))

end Peeling

namespace Layout

variable {l : Layout}

/-- What peeling leaves: no slot is touched by exactly one of the hashes left. -/
theorem exists_left (hl : l.Proper) (hs : List UInt64) :
    ∃ left, hs.Perm (left ++ (l.peel hs).map Pick.hash) ∧
      (∀ s, left.countP (l.touches s) ≠ 1) ∧
      (∀ q ∈ l.peel hs, q.slot ∈ (l.slots q.hash).toList) ∧
      (∀ q ∈ l.peel hs, ∀ h ∈ left, q.slot ∉ (l.slots h).toList) ∧
      (l.peel hs).Pairwise fun later earlier => earlier.slot ∉ (l.slots later.hash).toList := by
  have hn : (Peeling.pending l (Peeling.start l hs)).card ≤ l.size :=
    (Finset.card_filter_le _ _).trans_eq (Finset.card_range _)
  obtain ⟨left, h, hw⟩ := (Peeling.start_sound hl hs).of_run hl hn
  refine ⟨left, h.split, fun s hone => ?_, h.own, h.free, h.ordered⟩
  have hmem := h.mem_waiting hl hone
  rw [hw] at hmem
  exact absurd hmem (List.not_mem_nil)

end Layout

end ApproxSet
