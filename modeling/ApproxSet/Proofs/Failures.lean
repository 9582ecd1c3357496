import ApproxSet.Proofs.Filter

/-!
# How a construction fails

Each family has its own ways to fail: too many keys for the size fields of its form, peeling that
runs out of seeds, relocation that runs out of steps, a number of keys outside the range of a ribbon
or rows without a solution. Peeling runs out of seeds exactly when no seed it may try is peelable.
-/
namespace ApproxSet

namespace Family

/-- The size that may not fit its field, as the failure names it. -/
def sizeField? : Family → Option String
  | .xor _ | .xorPlus _ => some "xor block_len"
  | .binaryFuse _ => some "fuse segment_count_length"
  | .blockedBloom => some "bloom num_buckets"
  | .vacuum .. => some "vacuum num_buckets"
  | .cuckoo _ | .ribbon | .ribbonWithFallback => none

/-- The family is a peeled one, and it lays out these slots for a number of keys. -/
def LaysOut (family : Family) (keys : Nat) (l : Layout) : Prop :=
  match family with
  | .xor _ | .xorPlus _ => ∃ b, Xor.blockLength? keys = .ok b ∧ l = .blocks b
  | .binaryFuse _ => ∃ g, Segments.ofKeyCount keys = .ok g ∧ l = g.layout
  | _ => False

/-- Whether the family relocates fingerprints. -/
def Relocates (family : Family) : Prop :=
  (∃ w, family = .cuckoo w) ∨ ∃ w packed, family = .vacuum w packed

/-- Whether the family is first built as a ribbon. -/
def IsRibbon (family : Family) : Prop := family = .ribbon ∨ family = .ribbonWithFallback

end Family

namespace Filter

variable {family : Family} {hashes : List UInt64} {o : Options} {seed : UInt64} {e : Error}

/-- Among the seeds that may be tried, none is peelable. -/
def Exhausts (family : Family) (hashes : List UInt64) (o : Options) (seed : UInt64) : Prop :=
  ∃ l, family.LaysOut (distinct hashes).length l ∧
    ∀ j < o.peelTries, ¬ l.Peelable (distinct hashes) (seedStream seed j)

/-- The ways in which a construction can end without a filter. -/
inductive Fails (family : Family) (hashes : List UInt64) (o : Options) (seed : UInt64) :
    Error → Prop
  | size {field : String} (h : family.sizeField? = some field) :
      Fails family hashes o seed (.invalidField field)
  | peeling (h : Exhausts family hashes o seed) :
      Fails family hashes o seed (.peelExhausted o.peelTries)
  | relocation (h : family.Relocates) : Fails family hashes o seed (.evictionExceeded o.maxKicks)
  | keyCount (h : family.IsRibbon) (hn : (distinct hashes).length < o.ribbonMinKeys ∨
      Ribbon.maxKeys < (distinct hashes).length) :
      Fails family hashes o seed
        (.keyCount (distinct hashes).length o.ribbonMinKeys Ribbon.maxKeys)
  | unsolvable (h : family.IsRibbon) : Fails family hashes o seed .unsolvable

/-- The two families over three blocks fail alike. -/
theorem fails_of_blocks {w : Nat} (hsize : family.sizeField? = some "xor block_len")
    (hlayout : ∀ n b, Xor.blockLength? n = .ok b → family.LaysOut n (.blocks b))
    (h : Xor.build w hashes seed o.peelTries = .error e) : Fails family hashes o seed e := by
  rcases Xor.build_eq_error_iff.mp h with h | ⟨b, hb, rfl, hnone⟩
  · cases Xor.blockLength?_eq_error h
    exact .size hsize
  · exact .peeling ⟨.blocks b, hlayout _ b hb, hnone⟩

theorem fails_of_build (h : build family hashes o seed = .error e) :
    Fails family hashes o seed e := by
  cases family with
  | xor w => exact fails_of_blocks rfl (fun _ b hb => ⟨b, hb, rfl⟩) (map_eq_error_iff.mp h)
  | xorPlus w =>
    have hplain := map_eq_error_iff.mp (map_eq_error_iff.mp h)
    exact fails_of_blocks rfl (fun _ b hb => ⟨b, hb, rfl⟩) hplain
  | binaryFuse w =>
    rcases Fuse.build_eq_error_iff.mp (map_eq_error_iff.mp h) with h | ⟨g, hg, rfl, hnone⟩
    · cases Segments.ofKeyCount_eq_error h
      exact .size rfl
    · exact .peeling ⟨g.layout, ⟨g, hg, rfl⟩, hnone⟩
  | blockedBloom =>
    cases Bloom.build_eq_error (map_eq_error_iff.mp h)
    exact .size rfl
  | cuckoo w =>
    cases Cuckoo.build_eq_error (map_eq_error_iff.mp h)
    exact .relocation (Or.inl ⟨w, rfl⟩)
  | vacuum w packed =>
    rcases Vacuum.build_eq_error (map_eq_error_iff.mp h) with rfl | rfl
    · exact .size rfl
    · exact .relocation (Or.inr ⟨w, packed, rfl⟩)
  | ribbon =>
    rcases Ribbon.build_eq_error (map_eq_error_iff.mp h) with ⟨rfl, hn⟩ | rfl
    · exact .keyCount (Or.inl rfl) hn
    · exact .unsolvable (Or.inl rfl)
  | ribbonWithFallback =>
    rcases Ribbon.build_eq_error (map_eq_error_iff.mp h) with ⟨rfl, hn⟩ | rfl
    · exact .keyCount (Or.inr rfl) hn
    · exact .unsolvable (Or.inr rfl)

/-- Running out of seeds is always reported. -/
theorem Exhausts.build_eq (h : Exhausts family hashes o seed) :
    build family hashes o seed = .error (.peelExhausted o.peelTries) := by
  obtain ⟨l, hl, hnone⟩ := h
  cases family with
  | xor w =>
    obtain ⟨b, hb, rfl⟩ := hl
    have hplain : Xor.build w.bits hashes seed o.peelTries = .error (.peelExhausted o.peelTries) :=
      Xor.build_eq_error_iff.mpr (Or.inr ⟨b, hb, rfl, hnone⟩)
    exact map_eq_error_iff.mpr hplain
  | xorPlus w =>
    obtain ⟨b, hb, rfl⟩ := hl
    have hplain : Xor.build w.bits hashes seed o.peelTries = .error (.peelExhausted o.peelTries) :=
      Xor.build_eq_error_iff.mpr (Or.inr ⟨b, hb, rfl, hnone⟩)
    exact map_eq_error_iff.mpr (map_eq_error_iff.mpr hplain)
  | binaryFuse w =>
    obtain ⟨g, hg, rfl⟩ := hl
    have hfuse : Fuse.build w.bits hashes seed o.peelTries = .error (.peelExhausted o.peelTries) :=
      Fuse.build_eq_error_iff.mpr (Or.inr ⟨g, hg, rfl, hnone⟩)
    exact map_eq_error_iff.mpr hfuse
  | _ => cases hl

end Filter

end ApproxSet
