import ApproxSet.Peel.Order
import ApproxSet.Proofs.Peel.Layout

/-!
# What a tally says about the remaining hashes

A tally describes a list of hashes when every slot has as its degree the number of those that touch
it and as its mask their xor. Adding and removing a hash keep this; in particular the mask of a slot
of degree one is the only hash there.
-/
namespace ApproxSet

/-- Whether a slot is one of the three of a hash. -/
def Layout.touches (l : Layout) (s : Nat) (h : UInt64) : Bool := decide (s ∈ (l.slots h).toList)

theorem Layout.touches_iff {l : Layout} {s : Nat} {h : UInt64} :
    l.touches s h = true ↔ s ∈ (l.slots h).toList := by
  simp [touches]

def xorAll (hs : List UInt64) : UInt64 := hs.foldr (· ^^^ ·) 0

@[simp] theorem xorAll_nil : xorAll [] = 0 := rfl

@[simp] theorem xorAll_cons (h : UInt64) (hs : List UInt64) :
    xorAll (h :: hs) = h ^^^ xorAll hs := rfl

theorem xorAll_perm {hs hs' : List UInt64} (h : hs.Perm hs') : xorAll hs = xorAll hs' := by
  induction h with
  | nil => rfl
  | cons a _ ih => simp [ih]
  | swap a b r => simp [← UInt64.xor_assoc, UInt64.xor_comm a b]
  | trans _ _ ih₁ ih₂ => exact ih₁.trans ih₂

namespace Tally

/-- The degree of a slot; the mask beside it is the xor of the hashes it counts. -/
def degreeAt (t : Tally) (s : Nat) : Nat := t.degree.getD s 0

def maskAt (t : Tally) (s : Nat) : UInt64 := t.mask.getD s 0

theorem isSingle_iff {t : Tally} {s : Nat} : t.isSingle s = true ↔ t.degreeAt s = 1 := by
  simp [isSingle, degreeAt]

@[simp] theorem size_degree_add (t : Tally) (h : UInt64) (s : Nat) :
    (t.add h s).degree.size = t.degree.size := by
  simp [add]

@[simp] theorem size_mask_add (t : Tally) (h : UInt64) (s : Nat) :
    (t.add h s).mask.size = t.mask.size := by
  simp [add]

@[simp] theorem size_degree_remove (t : Tally) (h : UInt64) (s : Nat) :
    (t.remove h s).degree.size = t.degree.size := by
  simp [remove]

@[simp] theorem size_mask_remove (t : Tally) (h : UInt64) (s : Nat) :
    (t.remove h s).mask.size = t.mask.size := by
  simp [remove]

theorem degreeAt_add {t : Tally} {s : Nat} (hs : s < t.degree.size) (h : UInt64) (i : Nat) :
    (t.add h s).degreeAt i = t.degreeAt i + if i = s then 1 else 0 := by
  simp only [degreeAt, add, Array.getD_eq_getD_getElem?, Array.getElem?_modify]
  by_cases hi : i = s
  · subst hi
    simp [hs]
  · simp [hi, Ne.symm hi]

theorem degreeAt_remove (t : Tally) (h : UInt64) (s i : Nat) :
    (t.remove h s).degreeAt i = t.degreeAt i - if i = s then 1 else 0 := by
  simp only [degreeAt, remove, Array.getD_eq_getD_getElem?, Array.getElem?_modify]
  by_cases hi : i = s
  · subst hi
    cases t.degree[i]? <;> simp
  · simp [hi, Ne.symm hi]

theorem maskAt_add {t : Tally} {s : Nat} (hs : s < t.mask.size) (h : UInt64) (i : Nat) :
    (t.add h s).maskAt i = t.maskAt i ^^^ if i = s then h else 0 := by
  simp only [maskAt, add, Array.getD_eq_getD_getElem?, Array.getElem?_modify]
  by_cases hi : i = s
  · subst hi
    simp [hs]
  · simp [hi, Ne.symm hi]

theorem maskAt_remove {t : Tally} {s : Nat} (hs : s < t.mask.size) (h : UInt64) (i : Nat) :
    (t.remove h s).maskAt i = t.maskAt i ^^^ if i = s then h else 0 := by
  simp only [maskAt, remove, Array.getD_eq_getD_getElem?, Array.getElem?_modify]
  by_cases hi : i = s
  · subst hi
    simp [hs]
  · simp [hi, Ne.symm hi]

/-- The degrees and masks are those of the hashes in `left`. -/
structure Describes (t : Tally) (l : Layout) (left : List UInt64) : Prop where
  size_degree : t.degree.size = l.size
  size_mask : t.mask.size = l.size
  degree : ∀ s, s < l.size → t.degreeAt s = left.countP (l.touches s)
  mask : ∀ s, s < l.size → t.maskAt s = xorAll (left.filter (l.touches s))

variable {l : Layout} {t : Tally} {left : List UInt64}

theorem Describes.perm (ht : t.Describes l left) {left' : List UInt64} (h : left.Perm left') :
    t.Describes l left' :=
  { ht with
    degree := fun s hs => (ht.degree s hs).trans (h.countP_eq _)
    mask := fun s hs => (ht.mask s hs).trans (xorAll_perm (h.filter _)) }

theorem empty_describes (l : Layout) : (empty l.size).Describes l [] where
  size_degree := by simp [empty]
  size_mask := by simp [empty]
  degree s hs := by simp [degreeAt, empty, hs]
  mask s hs := by simp [maskAt, empty, hs]

/-- A hash enters its slots one by one. -/
def enter (h : UInt64) (t : Tally) (ss : List Nat) : Tally := ss.foldl (fun t s => t.add h s) t

theorem enter_spec {n : Nat} (h : UInt64) (ss : List Nat) (hss : ∀ s ∈ ss, s < n) (hd : ss.Nodup)
    (t : Tally) (hn : t.degree.size = n) (hm : t.mask.size = n) :
    (enter h t ss).degree.size = n ∧ (enter h t ss).mask.size = n ∧
      ∀ i, (enter h t ss).degreeAt i = t.degreeAt i + (if i ∈ ss then 1 else 0) ∧
        (enter h t ss).maskAt i = t.maskAt i ^^^ (if i ∈ ss then h else 0) := by
  induction ss generalizing t with
  | nil => simpa [enter] using ⟨hn, hm⟩
  | cons s ss ih =>
    obtain ⟨hs, hss⟩ := List.forall_mem_cons.mp hss
    obtain ⟨hnot, hd⟩ := List.nodup_cons.mp hd
    obtain ⟨h₁, h₂, h₃⟩ := ih hss hd (t.add h s) (by simpa) (by simpa)
    refine ⟨h₁, h₂, fun i => ?_⟩
    obtain ⟨hdeg, hmask⟩ := h₃ i
    change (enter h (t.add h s) ss).degreeAt i = _ ∧ (enter h (t.add h s) ss).maskAt i = _
    rw [hdeg, hmask, degreeAt_add (hn ▸ hs), maskAt_add (hm ▸ hs)]
    by_cases hi : i = s
    · subst hi
      simp [hnot]
    · simp [hi]

theorem Describes.enter (ht : t.Describes l left) (hl : l.Proper) (h : UInt64) :
    (enter h t (l.slots h).toList).Describes l (h :: left) := by
  obtain ⟨h₁, h₂, h₃⟩ :=
    enter_spec h _ (hl.lt_size h) (hl.nodup h) t ht.size_degree ht.size_mask
  refine ⟨h₁, h₂, fun s hs => ?_, fun s hs => ?_⟩
  · rw [(h₃ s).1, ht.degree s hs, List.countP_cons]
    simp [Layout.touches_iff]
  · rw [(h₃ s).2, ht.mask s hs, List.filter_cons]
    by_cases hi : s ∈ (l.slots h).toList
    · simp [Layout.touches_iff.mpr hi, hi, UInt64.xor_comm]
    · have hf : l.touches s h = false := by simpa [Layout.touches] using hi
      simp [hf, hi]

theorem ofHashes_describes (hl : l.Proper) (hs : List UInt64) : (ofHashes l hs).Describes l hs := by
  have hfold : ∀ (hs left : List UInt64) (t : Tally), t.Describes l left →
      (hs.foldl (fun t h => Tally.enter h t (l.slots h).toList) t).Describes l
        (hs.reverse ++ left) := by
    intro hs
    induction hs with
    | nil => exact fun left t ht => ht
    | cons h hs ih =>
      intro left t ht
      simpa using ih (h :: left) _ (ht.enter hl h)
  have h := hfold hs [] _ (empty_describes l)
  rw [List.append_nil] at h
  exact h.perm hs.reverse_perm

/-- A slot of degree one has its only hash as its mask. -/
theorem Describes.single (ht : t.Describes l left) {s : Nat} (hs : s < l.size)
    (hone : t.degreeAt s = 1) : t.maskAt s ∈ left ∧ s ∈ (l.slots (t.maskAt s)).toList ∧
      ∀ h ∈ left.erase (t.maskAt s), s ∉ (l.slots h).toList := by
  rw [ht.degree s hs, List.countP_eq_length_filter] at hone
  obtain ⟨h, hf⟩ := List.length_eq_one_iff.mp hone
  have hmask : t.maskAt s = h := by
    rw [ht.mask s hs, hf]
    exact UInt64.xor_zero
  have hmem : h ∈ left.filter (l.touches s) := by rw [hf]; exact List.mem_cons_self ..
  obtain ⟨hin, ht⟩ := List.mem_filter.mp hmem
  rw [hmask]
  refine ⟨hin, Layout.touches_iff.mp ht, fun k hk hsk => ?_⟩
  -- a second hash in the slot would make the filtered list longer
  have hp := (List.perm_cons_erase hin).countP_eq (l.touches s)
  rw [List.countP_eq_length_filter, hone, List.countP_cons_of_pos ht] at hp
  have hz : (left.erase h).countP (l.touches s) = 0 := by omega
  exact List.countP_eq_zero.mp hz k hk (Layout.touches_iff.mpr hsk)

end Tally

end ApproxSet
