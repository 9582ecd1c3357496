import ApproxSet.Peel.Assign
import ApproxSet.Proofs.Peel.Order
import ApproxSet.Proofs.Word.Mix
import Mathlib.Data.Finset.Image

/-!
# Solvable seeds

A set of keys is peelable under a seed when each of its non-empty parts has a slot touched by
exactly one key. Peeling picks every key of a peelable set and of no other, and walking the picks
backwards satisfies all of them, so the search for a seed is exact.
-/
namespace ApproxSet

theorem getD_setIfInBounds {α : Type} (xs : Array α) (s i : Nat) (v d : α) :
    (xs.setIfInBounds s v).getD i d = if i = s ∧ s < xs.size then v else xs.getD i d := by
  simp only [Array.getD_eq_getD_getElem?, Array.getElem?_setIfInBounds]
  by_cases hi : i = s
  · subst hi
    by_cases hs : i < xs.size <;> simp [hs]
  · simp [hi, Ne.symm hi]

namespace Layout

variable {w : Nat} {l : Layout} {keys : List UInt64} {seed : UInt64}

theorem sum_set_of_notMem {slots : Array (BitVec w)} {h : UInt64} {s : Nat}
    (hs : s ∉ (l.slots h).toList) (v : BitVec w) :
    l.sum (slots.setIfInBounds s v) h = l.sum slots h := by
  simp only [Triple.toList, List.mem_cons, List.not_mem_nil, or_false, not_or] at hs
  rcases hs with ⟨ha, hb, hc⟩
  simp only [sum, getD_setIfInBounds, Ne.symm ha, Ne.symm hb, Ne.symm hc, false_and, if_false]

/-- An empty slot of a hash can be set so that the hash gets any sum. -/
theorem sum_set_of_mem (hl : l.Proper) {slots : Array (BitVec w)} (hsize : slots.size = l.size)
    {h : UInt64} {s : Nat} (hs : s ∈ (l.slots h).toList) (hz : slots.getD s 0 = 0)
    (v : BitVec w) : l.sum (slots.setIfInBounds s (v ^^^ l.sum slots h)) h = v := by
  have hlt : s < slots.size := hsize ▸ hl.lt_size h s hs
  have hz : slots.getD s 0#w = 0#w := hz
  have hd := hl.nodup h
  simp only [Triple.toList, List.nodup_cons, List.mem_cons, List.not_mem_nil, or_false, not_or,
    not_false_eq_true, List.nodup_nil, and_true] at hs hd
  rcases hd with ⟨⟨hab, hac⟩, hbc⟩
  have hcancel (x y : BitVec w) : v ^^^ (x ^^^ y) ^^^ x ^^^ y = v := by
    rw [BitVec.xor_assoc, BitVec.xor_assoc, BitVec.xor_self, BitVec.xor_zero]
  rcases hs with rfl | rfl | rfl
  · simp only [sum, getD_setIfInBounds, hlt, and_true, Ne.symm hab, Ne.symm hac, if_false, if_true,
      hz, BitVec.ofNat_eq_ofNat, BitVec.zero_xor]
    exact hcancel _ _
  · simp only [sum, getD_setIfInBounds, hlt, and_true, hab, Ne.symm hbc, if_false, if_true, hz,
      BitVec.ofNat_eq_ofNat, BitVec.xor_zero]
    rw [BitVec.xor_comm (slots.getD (l.slots h).a 0#w)]
    exact hcancel _ _
  · simp only [sum, getD_setIfInBounds, hlt, and_true, hac, hbc, if_false, if_true, hz,
      BitVec.ofNat_eq_ofNat, BitVec.xor_zero]
    rw [BitVec.xor_comm, ← BitVec.xor_assoc]
    exact hcancel _ _

/-- One pick more is satisfied. -/
def place (w : Nat) (l : Layout) (slots : Array (BitVec w)) (p : Pick) : Array (BitVec w) :=
  slots.setIfInBounds p.slot (fingerprint w p.hash ^^^ l.sum slots p.hash)

/-- The picks in `done` are satisfied and only their slots are in use. -/
structure Placed (l : Layout) (slots : Array (BitVec w)) (done : List Pick) : Prop where
  size : slots.size = l.size
  sum : ∀ q ∈ done, l.sum slots q.hash = fingerprint w q.hash
  unused : ∀ s, (∀ q ∈ done, q.slot ≠ s) → slots.getD s 0 = 0

theorem Placed.place (hl : l.Proper) {slots : Array (BitVec w)} {done : List Pick}
    (h : Placed l slots done) (hown : ∀ q ∈ done, q.slot ∈ (l.slots q.hash).toList) {p : Pick}
    (hp : p.slot ∈ (l.slots p.hash).toList)
    (hlater : ∀ q ∈ done, p.slot ∉ (l.slots q.hash).toList) :
    Placed l (place w l slots p) (p :: done) := by
  have hz : slots.getD p.slot 0 = 0 :=
    h.unused _ fun q hq e => hlater q hq (e ▸ hown q hq)
  refine ⟨?_, ?_, fun s hs => ?_⟩
  · rw [Layout.place, Array.size_setIfInBounds, h.size]
  · refine List.forall_mem_cons.mpr ⟨sum_set_of_mem hl h.size hp hz _, fun q hq => ?_⟩
    rw [Layout.place, sum_set_of_notMem (hlater q hq)]
    exact h.sum q hq
  · obtain ⟨hps, hs⟩ := List.forall_mem_cons.mp hs
    rw [Layout.place, getD_setIfInBounds, if_neg fun hc => hps hc.1.symm]
    exact h.unused s hs

theorem Placed.foldl (hl : l.Proper) {picks done : List Pick} {slots : Array (BitVec w)}
    (h : Placed l slots done) (hown : ∀ q ∈ done ++ picks, q.slot ∈ (l.slots q.hash).toList)
    (hlater : ∀ q ∈ done, ∀ p ∈ picks, p.slot ∉ (l.slots q.hash).toList)
    (hord : picks.Pairwise fun later earlier => earlier.slot ∉ (l.slots later.hash).toList) :
    Placed l (picks.foldl (Layout.place w l) slots) (picks.reverse ++ done) := by
  induction picks generalizing done slots with
  | nil => exact h
  | cons p picks ih =>
    obtain ⟨hfirst, hord⟩ := List.pairwise_cons.mp hord
    have hp := h.place hl (fun q hq => hown q (List.mem_append_left _ hq))
      (hown p (by simp)) (fun q hq => hlater q hq p (List.mem_cons_self ..))
    rw [List.foldl_cons, List.reverse_cons, List.append_assoc]
    refine ih hp (fun q hq => hown q ?_) (fun q hq r hr => ?_) hord
    · simp only [List.mem_append, List.mem_cons] at hq ⊢
      tauto
    · rcases List.mem_cons.mp hq with rfl | hq
      · exact hfirst r hr
      · exact hlater q hq r (List.mem_cons_of_mem _ hr)

/-- Slots assigned from an ordered list of picks satisfy every one of them. -/
theorem assign_placed (hl : l.Proper) {picks : List Pick}
    (hown : ∀ q ∈ picks, q.slot ∈ (l.slots q.hash).toList)
    (hord : picks.Pairwise fun later earlier => earlier.slot ∉ (l.slots later.hash).toList) :
    Placed l (l.assign w picks) picks.reverse := by
  have h : Placed l (Array.replicate l.size (0 : BitVec w)) [] := by
    refine ⟨Array.size_replicate, by simp, fun s _ => ?_⟩
    by_cases hs : s < l.size <;> simp [hs]
  have h' := h.foldl hl (by simpa using hown) (by simp) hord
  rwa [List.append_nil] at h'

theorem size_assign (w : Nat) (l : Layout) (picks : List Pick) :
    (l.assign w picks).size = l.size := by
  have h : ∀ (picks : List Pick) (slots : Array (BitVec w)),
      (picks.foldl (place w l) slots).size = slots.size := by
    intro picks
    induction picks with
    | nil => exact fun _ => rfl
    | cons p picks ih => exact fun slots => (ih _).trans (Array.size_setIfInBounds ..)
  exact (h picks _).trans (Array.size_replicate ..)

/-- Every non-empty set of the keys has a slot that exactly one of its keys touches. -/
def Peelable (l : Layout) (keys : List UInt64) (seed : UInt64) : Prop :=
  ∀ S : Finset UInt64, S ⊆ keys.toFinset → S.Nonempty →
    ∃ s, (S.filter fun k => s ∈ (l.slots (mix k seed)).toList).card = 1

/-- The first pick of a hash in `T` has its slot to itself among the picked hashes in `T`. -/
theorem exists_first_pick {T : UInt64 → Prop} {picks : List Pick} (hT : ∃ q ∈ picks, T q.hash)
    (hord : picks.Pairwise fun later earlier => earlier.slot ∉ (l.slots later.hash).toList) :
    ∃ q ∈ picks, T q.hash ∧ ∀ r ∈ picks, T r.hash → r.hash ≠ q.hash →
      q.slot ∉ (l.slots r.hash).toList := by
  induction picks with
  | nil => simp at hT
  | cons p older ih =>
    obtain ⟨hp, hord⟩ := List.pairwise_cons.mp hord
    by_cases hex : ∃ q ∈ older, T q.hash
    · obtain ⟨q, hq, hTq, hothers⟩ := ih hex hord
      refine ⟨q, List.mem_cons_of_mem _ hq, hTq, fun r hr hTr hne => ?_⟩
      rcases List.mem_cons.mp hr with rfl | hr
      · exact hp q hq
      · exact hothers r hr hTr hne
    · rcases hT with ⟨q, hq, hTq⟩
      rcases List.mem_cons.mp hq with rfl | hq
      · refine ⟨q, List.mem_cons_self .., hTq, fun r hr hTr hne => ?_⟩
        rcases List.mem_cons.mp hr with rfl | hr
        · exact absurd rfl hne
        · exact absurd ⟨r, hr, hTr⟩ hex
      · exact absurd ⟨q, hq, hTq⟩ hex

theorem peelable_of_perm {picks : List Pick}
    (hperm : (keys.map (mix · seed)).Perm (picks.map Pick.hash))
    (hown : ∀ q ∈ picks, q.slot ∈ (l.slots q.hash).toList)
    (hord : picks.Pairwise fun later earlier => earlier.slot ∉ (l.slots later.hash).toList) :
    l.Peelable keys seed := by
  intro S hS ⟨k₀, hk₀⟩
  have hpick {k : UInt64} (hk : k ∈ S) : ∃ q ∈ picks, q.hash = mix k seed := by
    have hmem : mix k seed ∈ picks.map Pick.hash :=
      hperm.mem_iff.mp (List.mem_map_of_mem (List.mem_toFinset.mp (hS hk)))
    exact List.mem_map.mp hmem
  obtain ⟨q₀, hq₀, he₀⟩ := hpick hk₀
  obtain ⟨q, hq, ⟨k, hk, he⟩, hothers⟩ := exists_first_pick (l := l)
    (T := fun h => ∃ k ∈ S, mix k seed = h) ⟨q₀, hq₀, k₀, hk₀, he₀.symm⟩ hord
  refine ⟨q.slot, Finset.card_eq_one.mpr ⟨k, ?_⟩⟩
  ext k'
  rw [Finset.mem_filter, Finset.mem_singleton]
  constructor
  · rintro ⟨hk', htouch⟩
    obtain ⟨r, hr, her⟩ := hpick hk'
    by_contra hne
    refine hothers r hr ⟨k', hk', her.symm⟩ (fun hc => hne ?_) (her ▸ htouch)
    exact mix_injective seed (her.symm.trans (hc.trans he.symm))
  · rintro rfl
    exact ⟨hk, he ▸ hown q hq⟩

theorem left_eq_nil_of_peelable (hk : keys.Nodup) (hp : l.Peelable keys seed) {left : List UInt64}
    {picked : List UInt64} (hperm : (keys.map (mix · seed)).Perm (left ++ picked))
    (hfree : ∀ s, left.countP (l.touches s) ≠ 1) : left = [] := by
  by_contra hne
  have hnd : left.Nodup := by
    have h := hperm.nodup_iff.mp (hk.map (mix_injective seed))
    exact (List.nodup_append.mp h).1
  have hkey {h : UInt64} (hh : h ∈ left) : ∃ k ∈ keys, mix k seed = h :=
    List.mem_map.mp (hperm.mem_iff.mpr (List.mem_append_left _ hh))
  -- the keys behind the hashes left would have a slot of their own
  let S := keys.toFinset.filter fun k => mix k seed ∈ left
  have himage : S.image (mix · seed) = left.toFinset := by
    ext h
    simp only [S, Finset.mem_image, Finset.mem_filter, List.mem_toFinset]
    constructor
    · rintro ⟨k, ⟨-, hk⟩, rfl⟩
      exact hk
    · intro hh
      obtain ⟨k, hk, rfl⟩ := hkey hh
      exact ⟨k, ⟨hk, hh⟩, rfl⟩
  have hS : S.Nonempty := by
    rw [← Finset.image_nonempty (f := (mix · seed)), himage, List.toFinset_nonempty_iff]
    exact hne
  obtain ⟨s, hs⟩ := hp S (Finset.filter_subset _ _) hS
  apply hfree s
  rw [List.countP_eq_length_filter, ← List.toFinset_card_of_nodup (hnd.filter _),
    List.toFinset_filter, ← himage, Finset.filter_image, ← hs,
    Finset.card_image_of_injective _ (mix_injective seed)]
  simp only [touches_iff]

/-- Peeling picks all keys exactly under the seeds that are peelable. -/
theorem peelAll?_eq_none_iff (hl : l.Proper) (hk : keys.Nodup) :
    l.peelAll? keys seed = none ↔ ¬ l.Peelable keys seed := by
  obtain ⟨left, hperm, hfree, hown, -, hord⟩ := exists_left hl (keys.map (mix · seed))
  have hlen := hperm.length_eq
  simp only [List.length_map, List.length_append] at hlen
  unfold peelAll?
  by_cases hnil : left = []
  · subst hnil
    rw [List.nil_append] at hperm
    have h := peelable_of_perm hperm hown hord
    have hlen : (l.peel (keys.map (mix · seed))).length = keys.length := by simpa using hlen.symm
    simp [h, hlen]
  · have h : ¬ l.Peelable keys seed := fun hp =>
      hnil (left_eq_nil_of_peelable hk hp hperm hfree)
    have hlen : (l.peel (keys.map (mix · seed))).length ≠ keys.length := by
      have hpos := List.length_pos_iff.mpr hnil
      omega
    simp [h, hlen]

/-- Picks of all keys are turned into slots that hold every key's fingerprint. -/
theorem sum_assign_of_peelAll? (hl : l.Proper) {picks : List Pick}
    (h : l.peelAll? keys seed = some picks) {k : UInt64} (hk : k ∈ keys) :
    l.sum (l.assign w picks) (mix k seed) = fingerprint w (mix k seed) := by
  obtain ⟨left, hperm, -, hown, -, hord⟩ := exists_left hl (keys.map (mix · seed))
  have hlen := hperm.length_eq
  simp only [peelAll?] at h
  split at h
  · rename_i hall
    cases h
    simp only [List.length_map, List.length_append] at hlen
    have hnil : left = [] := List.length_eq_zero_iff.mp (by omega)
    rw [hnil, List.nil_append] at hperm
    obtain ⟨q, hq, he⟩ := List.mem_map.mp (hperm.mem_iff.mp (List.mem_map_of_mem hk))
    rw [← he]
    exact (assign_placed hl hown hord).sum q (List.mem_reverse.mpr hq)
  · cases h

theorem solve_eq_ok {tries : Nat} {s : UInt64} {fps : Array (BitVec w)}
    (h : l.solve w keys seed tries = .ok (s, fps)) :
    ∃ picks, l.peelAll? keys s = some picks ∧ fps = l.assign w picks := by
  unfold solve at h
  split at h
  · rename_i j picks hfirst
    cases h
    exact ⟨picks, (firstSuccess_eq_some_iff.mp hfirst).2.1, rfl⟩
  · cases h

/-- A solution has a slot for each of the layout, and every key has its fingerprint as its sum. -/
theorem solve_sound (hl : l.Proper) {tries : Nat} {s : UInt64} {fps : Array (BitVec w)}
    (h : l.solve w keys seed tries = .ok (s, fps)) :
    fps.size = l.size ∧ ∀ k ∈ keys, l.sum fps (mix k s) = fingerprint w (mix k s) := by
  obtain ⟨picks, hpicks, rfl⟩ := solve_eq_ok h
  exact ⟨size_assign w l picks, fun k hk => sum_assign_of_peelAll? hl hpicks hk⟩

/-- The search fails when it has been through all its seeds and none is peelable. -/
theorem solve_eq_error_iff (hl : l.Proper) (hk : keys.Nodup) {tries : Nat} {e : Error} :
    l.solve w keys seed tries = .error e ↔
      e = .peelExhausted tries ∧ ∀ j < tries, ¬ l.Peelable keys (seedStream seed j) := by
  have hnone : l.firstPeel? keys seed tries = none ↔
      ∀ j < tries, ¬ l.Peelable keys (seedStream seed j) := by
    rw [firstPeel?, firstSuccess_eq_none_iff]
    refine forall_congr' fun j => imp_congr_right fun _ => ?_
    rw [trySeed_eq_seedStream]
    exact peelAll?_eq_none_iff hl hk
  rw [← hnone, solve]
  cases l.firstPeel? keys seed tries with
  | some r => simp
  | none => simp [eq_comm]

/-- The two layouts in use. -/
theorem proper_of_blocks_or_segments
    (h : (∃ n, 0 < n ∧ l = blocks n) ∨ ∃ g : Segments, g.Valid ∧ l = g.layout) : l.Proper := by
  rcases h with ⟨n, hn, rfl⟩ | ⟨g, hg, rfl⟩
  · exact blocks_proper hn
  · exact hg.proper

/-- The search for a seed ends at the first peelable one with slots in which every key has its
fingerprint, and fails only if no seed that may be tried is peelable. -/
theorem solve_first_peelable (w : Nat) {l : Layout}
    (hl : (∃ n, 0 < n ∧ l = blocks n) ∨ ∃ g : Segments, g.Valid ∧ l = g.layout)
    {keys : List UInt64} (hk : keys.Nodup) (seed : UInt64) (tries : Nat) :
    (∀ j, j < tries → l.Peelable keys (seedStream seed j) →
      (∀ i, i < j → ¬ l.Peelable keys (seedStream seed i)) →
      ∃ fps, l.solve w keys seed tries = .ok (seedStream seed j, fps) ∧ fps.size = l.size ∧
        ∀ k ∈ keys, l.sum fps (mix k (seedStream seed j)) =
          fingerprint w (mix k (seedStream seed j))) ∧
      ((∀ j, j < tries → ¬ l.Peelable keys (seedStream seed j)) →
        l.solve w keys seed tries = .error (.peelExhausted tries)) := by
  have hproper := proper_of_blocks_or_segments hl
  have hnone (j : Nat) : l.peelAll? keys (trySeed seed j) = none ↔
      ¬ l.Peelable keys (seedStream seed j) := by
    rw [trySeed_eq_seedStream]
    exact peelAll?_eq_none_iff hproper hk
  constructor
  · intro j hj hpeel hleast
    obtain ⟨picks, hpicks⟩ := Option.ne_none_iff_exists'.mp
      (fun h => (hnone j).mp h hpeel)
    have hfirst : l.firstPeel? keys seed tries = some (j, picks) :=
      firstSuccess_eq_some_iff.mpr ⟨hj, hpicks, fun i hi => (hnone i).mpr (hleast i hi)⟩
    have hsolve : l.solve w keys seed tries = .ok (seedStream seed j, l.assign w picks) := by
      rw [solve, hfirst, ← trySeed_eq_seedStream]
    exact ⟨_, hsolve, solve_sound hproper hsolve⟩
  · intro hall
    have hfirst : l.firstPeel? keys seed tries = none :=
      firstSuccess_eq_none_iff.mpr fun j hj => (hnone j).mpr (hall j hj)
    rw [solve, hfirst]

/-- Two keys have the same slots under the first seed and not under the second. -/
theorem solve_first_peelable_second_seed :
    (∃ fps, (blocks 2).solve 8 [1, 2] 4 2 = .ok (seedStream 4 1, fps) ∧
      fps.size = (blocks 2).size ∧
      ∀ k ∈ [1, 2], (blocks 2).sum fps (mix k (seedStream 4 1)) =
        fingerprint 8 (mix k (seedStream 4 1))) ∧
      (blocks 2).solve 8 [1, 2] 4 1 = .error (.peelExhausted 1) := by
  have hl : (∃ n, 0 < n ∧ blocks 2 = blocks n) ∨ ∃ g : Segments, g.Valid ∧ blocks 2 = g.layout :=
    Or.inl ⟨2, by decide, rfl⟩
  have hk : ([1, 2] : List UInt64).Nodup := by decide
  have hfirst : ¬ (blocks 2).Peelable [1, 2] (seedStream 4 0) :=
    (peelAll?_eq_none_iff (blocks_proper (by decide)) hk).mp (by decide +kernel)
  have hsecond : (blocks 2).Peelable [1, 2] (seedStream 4 1) := by
    by_contra h
    rw [← peelAll?_eq_none_iff (blocks_proper (by decide)) hk] at h
    revert h
    decide +kernel
  have hbefore (j : Nat) (hj : j < 1) : ¬ (blocks 2).Peelable [1, 2] (seedStream 4 j) := by
    obtain rfl : j = 0 := by omega
    exact hfirst
  exact ⟨(solve_first_peelable 8 hl hk 4 2).1 1 (by decide) hsecond hbefore,
    (solve_first_peelable 8 hl hk 4 1).2 hbefore⟩

end Layout

end ApproxSet
