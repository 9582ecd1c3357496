import ApproxSet.Proofs.Peel.Fuse
import ApproxSet.Proofs.Peel.XorPlus

/-!
# Narrower slots

Peeling does not look at fingerprints, and every slot is a xor of fingerprints. So a filter with
narrow slots is one with wide slots cut to their low bits: it is made or fails for the same hashes,
under the same seed, and contains what the wide one contains.
-/
namespace ApproxSet

variable {v w : Nat}

theorem setWidth_fingerprint (hvw : v ≤ w) (h : UInt64) :
    (fingerprint w h).setWidth v = fingerprint v h :=
  BitVec.setWidth_setWidth_of_le _ hvw

/-- Slots cut to their low bits. -/
def cut (v : Nat) (slots : Array (BitVec w)) : Array (BitVec v) := slots.map (BitVec.setWidth v)

@[simp] theorem size_cut (v : Nat) (slots : Array (BitVec w)) : (cut v slots).size = slots.size :=
  Array.size_map

theorem getD_cut (slots : Array (BitVec w)) (s : Nat) :
    (cut v slots).getD s 0 = (slots.getD s 0).setWidth v := by
  simp only [cut, Array.getD_eq_getD_getElem?, Array.getElem?_map]
  cases slots[s]? <;> simp

namespace Layout

theorem sum_cut (l : Layout) (slots : Array (BitVec w)) (h : UInt64) :
    l.sum (cut v slots) h = (l.sum slots h).setWidth v := by
  simp only [sum, getD_cut, BitVec.setWidth_xor]

theorem place_cut (hvw : v ≤ w) (l : Layout) (slots : Array (BitVec w)) (p : Pick) :
    place v l (cut v slots) p = cut v (place w l slots p) := by
  rw [place, place, sum_cut, ← setWidth_fingerprint hvw, ← BitVec.setWidth_xor, cut, cut,
    Array.map_setIfInBounds]

/-- Walking the picks back at the smaller width gives the cut slots. -/
theorem assign_cut (hvw : v ≤ w) (l : Layout) (picks : List Pick) :
    l.assign v picks = cut v (l.assign w picks) := by
  have hzero : cut v (Array.replicate l.size (0 : BitVec w)) = Array.replicate l.size 0 := by
    simp [cut]
  change picks.foldl (place v l) (Array.replicate l.size 0) =
    cut v (picks.foldl (place w l) (Array.replicate l.size 0))
  rw [← hzero]
  exact List.foldl_hom (cut v) fun slots p => place_cut hvw l slots p

/-- The seed is found among the same seeds, whatever the width. -/
theorem solve_cut (hvw : v ≤ w) (l : Layout) (keys : List UInt64) (seed : UInt64) (tries : Nat) :
    l.solve v keys seed tries =
      (l.solve w keys seed tries).map fun r => (r.1, cut v r.2) := by
  rw [solve, solve]
  cases l.firstPeel? keys seed tries with
  | none => rfl
  | some r => exact congrArg (fun slots => Except.ok (_, slots)) (assign_cut hvw l r.2)

/-- A hash that passes with wide slots passes with cut ones. -/
theorem sum_cut_eq_fingerprint (hvw : v ≤ w) {l : Layout} {slots : Array (BitVec w)} {h : UInt64}
    (hsum : l.sum slots h = fingerprint w h) : l.sum (cut v slots) h = fingerprint v h := by
  rw [sum_cut, hsum, setWidth_fingerprint hvw]

end Layout

namespace Xor

/-- The same filter with slots of `v` bits. -/
def cut (v : Nat) (f : Xor w) : Xor v := ⟨f.seed, f.blockLength, ApproxSet.cut v f.slots⟩

theorem build_cut (hvw : v ≤ w) (hashes : List UInt64) (seed : UInt64) (tries : Nat) :
    build v hashes seed tries = (build w hashes seed tries).map (cut v) := by
  simp only [build, ofDistinct, Layout.solve_cut hvw]
  cases blockLength? (distinct hashes).length with
  | error e => rfl
  | ok b =>
    change ((Layout.blocks b).solve w (distinct hashes) seed tries).map _ >>= _ =
      Except.map _ ((Layout.blocks b).solve w (distinct hashes) seed tries >>= _)
    cases (Layout.blocks b).solve w (distinct hashes) seed tries <;> rfl

theorem Stored.cut {f : Xor w} (hf : f.Stored) (v : Nat) : (f.cut v).Stored :=
  ⟨hf.pos, hf.lt, (size_cut v f.slots).trans hf.size_slots⟩

theorem mayContain_cut (hvw : v ≤ w) {f : Xor w} {q : UInt64} (h : f.mayContain q = true) :
    (f.cut v).mayContain q = true := by
  rw [mayContain, beq_iff_eq] at h ⊢
  exact Layout.sum_cut_eq_fingerprint hvw h

end Xor

namespace Fuse

/-- The same filter with slots of `v` bits. -/
def cut (v : Nat) (f : Fuse w) : Fuse v := ⟨f.seed, f.segments, ApproxSet.cut v f.slots⟩

theorem build_cut (hvw : v ≤ w) (hashes : List UInt64) (seed : UInt64) (tries : Nat) :
    build v hashes seed tries = (build w hashes seed tries).map (cut v) := by
  simp only [build, Layout.solve_cut hvw]
  cases Segments.ofKeyCount (distinct hashes).length with
  | error e => rfl
  | ok g =>
    change (g.layout.solve w (distinct hashes) seed tries).map _ >>= _ =
      Except.map _ (g.layout.solve w (distinct hashes) seed tries >>= _)
    cases g.layout.solve w (distinct hashes) seed tries <;> rfl

theorem mayContain_cut (hvw : v ≤ w) {f : Fuse w} {q : UInt64} (h : f.mayContain q = true) :
    (f.cut v).mayContain q = true := by
  rw [mayContain, beq_iff_eq] at h ⊢
  exact Layout.sum_cut_eq_fingerprint hvw h

end Fuse

theorem XorPlus.build_cut (hvw : v ≤ w) (hashes : List UInt64) (seed : UInt64) (tries : Nat) :
    build v hashes seed tries = (Xor.build w hashes seed tries).map fun f => ofXor (f.cut v) := by
  rw [build, Xor.build_cut hvw]
  cases Xor.build w hashes seed tries <;> rfl

/-! ### Both widths -/

/-- Two builds that fail with the same error or give filters in a relation. -/
def Alike {α β : Type} (R : α → β → Prop) (x : Except Error α) (y : Except Error β) : Prop :=
  (∃ e, x = .error e ∧ y = .error e) ∨ ∃ a b, x = .ok a ∧ y = .ok b ∧ R a b

theorem alike_map {α β γ : Type} {R : α → β → Prop} {x : Except Error γ} {f : γ → α} {g : γ → β}
    (h : ∀ c, x = .ok c → R (f c) (g c)) : Alike R (x.map f) (x.map g) := by
  cases x with
  | error e => exact Or.inl ⟨e, rfl, rfl⟩
  | ok c => exact Or.inr ⟨f c, g c, rfl, rfl, h c rfl⟩

theorem alike_map_self {α γ : Type} {R : α → γ → Prop} {x : Except Error γ} {f : γ → α}
    (h : ∀ c, x = .ok c → R (f c) c) : Alike R (x.map f) x := by
  have hid := alike_map (g := id) h
  rwa [Except.map_id] at hid

theorem Alike.exists_ok {α β : Type} {R : α → β → Prop} {x : Except Error α} {y : Except Error β}
    (h : Alike R x y) (hok : x.isOk = true) : ∃ a b, x = .ok a ∧ y = .ok b ∧ R a b := by
  rcases h with ⟨e, rfl, -⟩ | h
  · cases hok
  · exact h

/-- Filters with slots of two widths are made under the same seed over the same blocks or segments,
or fail alike, and the narrower one contains what the wider one contains. Its slots are the low bits
of the wider slots; compressed, the two need not keep the same slots. -/
theorem narrow_build_refined (hvw : v ≤ w) (hashes : List UInt64) (seed : UInt64) (tries : Nat) :
    Alike (fun (f : Xor v) (g : Xor w) => f.seed = g.seed ∧ f.blockLength = g.blockLength ∧
        f.slots = g.slots.map (BitVec.setWidth v) ∧
          ∀ q, g.mayContain q = true → f.mayContain q = true)
      (Xor.build v hashes seed tries) (Xor.build w hashes seed tries) ∧
    Alike (fun (f : XorPlus v) (g : XorPlus w) => f.seed = g.seed ∧ f.blockLength = g.blockLength ∧
        ∀ q, g.mayContain q = true → f.mayContain q = true)
      (XorPlus.build v hashes seed tries) (XorPlus.build w hashes seed tries) ∧
    Alike (fun (f : Fuse v) (g : Fuse w) => f.seed = g.seed ∧ f.segments = g.segments ∧
        f.slots = g.slots.map (BitVec.setWidth v) ∧
          ∀ q, g.mayContain q = true → f.mayContain q = true)
      (Fuse.build v hashes seed tries) (Fuse.build w hashes seed tries) := by
  refine ⟨?_, ?_, ?_⟩
  · rw [Xor.build_cut hvw]
    apply alike_map_self
    intro f _
    exact ⟨rfl, rfl, rfl, fun q => Xor.mayContain_cut hvw⟩
  · rw [XorPlus.build_cut hvw, XorPlus.build]
    apply alike_map
    intro f hf
    have hstored := Xor.stored_of_build hf
    refine ⟨rfl, rfl, fun q hq => ?_⟩
    rw [XorPlus.mayContain_ofXor hstored] at hq
    rw [XorPlus.mayContain_ofXor (hstored.cut v)]
    exact Xor.mayContain_cut hvw hq
  · rw [Fuse.build_cut hvw]
    apply alike_map_self
    intro f _
    exact ⟨rfl, rfl, rfl, fun q => Fuse.mayContain_cut hvw⟩

/-- Filters of three hashes with slots of eight and sixteen bits, and the segments of none. -/
theorem narrow_build_refined_three :
    8 ≤ 16 ∧
    (∃ f g, Xor.build 8 [1, 2, 3] 0 9 = .ok f ∧ Xor.build 16 [1, 2, 3] 0 9 = .ok g ∧
      f.slots = g.slots.map (BitVec.setWidth 8) ∧
        ∀ q, g.mayContain q = true → f.mayContain q = true) ∧
    (∃ f g, XorPlus.build 8 [1, 2, 3] 0 9 = .ok f ∧ XorPlus.build 16 [1, 2, 3] 0 9 = .ok g ∧
      ∀ q, g.mayContain q = true → f.mayContain q = true) ∧
    ∃ f g, Fuse.build 8 [] 0 9 = .ok f ∧ Fuse.build 16 [] 0 9 = .ok g ∧
      f.slots = g.slots.map (BitVec.setWidth 8) ∧
        ∀ q, g.mayContain q = true → f.mayContain q = true := by
  have hkeys : distinct [1, 2, 3] = [1, 2, 3] := distinct_of_ascending (by decide)
  have hnone : distinct [] = [] := distinct_of_ascending (by decide)
  have hxor : (Xor.build 8 [1, 2, 3] 0 9).isOk = true := by
    rw [Xor.build, hkeys]
    decide +kernel
  have hplus : (XorPlus.build 8 [1, 2, 3] 0 9).isOk = true := by
    rw [XorPlus.build, Xor.build, hkeys]
    decide +kernel
  have hfuse : (Fuse.build 8 [] 0 9).isOk = true := by
    rw [Fuse.build, hnone]
    decide +kernel
  obtain ⟨hthree, hthree', -⟩ := narrow_build_refined (by decide : 8 ≤ 16) [1, 2, 3] 0 9
  obtain ⟨-, -, hempty⟩ := narrow_build_refined (by decide : 8 ≤ 16) [] 0 9
  obtain ⟨f, g, hf, hg, -, -, hslots, hanswer⟩ := hthree.exists_ok hxor
  obtain ⟨f', g', hf', hg', -, -, hanswer'⟩ := hthree'.exists_ok hplus
  obtain ⟨e, d, he, hd, -, -, hcut, hmore⟩ := hempty.exists_ok hfuse
  exact ⟨by decide, ⟨f, g, hf, hg, hslots, hanswer⟩, ⟨f', g', hf', hg', hanswer'⟩,
    e, d, he, hd, hcut, hmore⟩

end ApproxSet
