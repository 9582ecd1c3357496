import ApproxSet.Proofs.Evict.Cuckoo
import ApproxSet.Proofs.Evict.Vacuum
import Mathlib.Algebra.BigOperators.Group.Finset.Sigma
import Mathlib.Algebra.Order.BigOperators.Group.Finset

/-!
# Nothing is lost or stored twice

A chain of relocations carries one fingerprint at a time and puts it down in a free slot, so a built
table holds the fingerprints of its hashes, each as often as it occurs among them. More hashes than
slots must end in an error, since no table could hold them all.
-/
namespace ApproxSet
open BucketTable

/-- The fingerprints in `n` buckets with the given slots. -/
def fingerprintsIn (n : Nat) (slots : Nat → List UInt64) : Multiset UInt64 :=
  ∑ i ∈ Finset.range n, ((slots i).filter (· ≠ 0) : List UInt64)

theorem card_fingerprintsIn (n : Nat) (slots : Nat → List UInt64) :
    (fingerprintsIn n slots).card = ∑ i ∈ Finset.range n, (slots i).countP (· ≠ 0) := by
  rw [fingerprintsIn, Multiset.card_sum]
  apply Finset.sum_congr rfl
  intro i _
  rw [Multiset.coe_card, List.countP_eq_length_filter]

/-- Four slots in each bucket hold four fingerprints at most. -/
theorem card_fingerprintsIn_le {n : Nat} {slots : Nat → List UInt64}
    (h : ∀ i, (slots i).length = 4) : (fingerprintsIn n slots).card ≤ 4 * n := by
  have hbucket : ∀ i ∈ Finset.range n, (slots i).countP (· ≠ 0) ≤ 4 := by
    intro i _
    rw [← h i]
    exact List.countP_le_length
  have hsum := Finset.sum_le_card_nsmul _ _ _ hbucket
  rw [Finset.card_range, smul_eq_mul, Nat.mul_comm] at hsum
  rwa [card_fingerprintsIn]

/-- The order of the slots has no part in it. -/
theorem fingerprintsIn_congr {n : Nat} {slots slots' : Nat → List UInt64}
    (h : ∀ i, i < n → (slots i).Perm (slots' i)) :
    fingerprintsIn n slots = fingerprintsIn n slots' := by
  apply Finset.sum_congr rfl
  intro i hi
  exact Multiset.coe_eq_coe.mpr ((h i (Finset.mem_range.mp hi)).filter _)

/-- The slots of a bucket. -/
def slotsOf {τ : Type} [BucketTable τ] (t : τ) (i : Nat) : List UInt64 :=
  (List.range 4).map (get t i)

namespace Scheme

variable {s : Scheme} {n : Nat} {τ : Type} [BucketTable τ] {Good : τ → Prop}

theorem map_fst_token (s : Scheme) (i : Nat) (fp : UInt64) :
    (s.token i fp).map Prod.fst = (([fp].filter (· ≠ 0) : List UInt64) : Multiset UInt64) := by
  by_cases h : fp = 0
  · rw [h]
    rfl
  · rw [token_of_ne_zero s i h, Multiset.map_singleton]
    simp [h]

/-- What the slots count as, without the buckets. -/
theorem map_fst_content (s : Scheme) (n : Nat) (t : τ) :
    (s.content n t).map Prod.fst = fingerprintsIn n (slotsOf t) := by
  have hbucket (i m : Nat) : (∑ k ∈ Finset.range m, s.token i (get t i k)).map Prod.fst =
      ((((List.range m).map (get t i)).filter (· ≠ 0) : List UInt64) : Multiset UInt64) := by
    induction m with
    | zero => rfl
    | succ m ih =>
      rw [Finset.sum_range_succ, Multiset.map_add, ih, map_fst_token, List.range_succ,
        List.map_append, List.filter_append, Multiset.coe_add]
      rfl
  rw [content, Finset.sum_product, fingerprintsIn, ← Multiset.coe_mapAddMonoidHom, map_sum]
  apply Finset.sum_congr rfl
  intro i _
  exact hbucket i 4

/-- A table filled from empty holds the fingerprints of its keys. -/
theorem Fresh.fingerprints_store [Draws] {t₀ t : τ} (h₀ : s.Fresh n Good t₀) {budget : Nat}
    {seed : UInt64} {keys : List UInt64} (h : s.store budget seed t₀ keys = .ok t) :
    Good t ∧ fingerprintsIn n (slotsOf t) =
      (keys.map fun k => s.fingerprint (mix k seed) : List UInt64) := by
  obtain ⟨hg, hc⟩ := h₀.content_store h
  refine ⟨hg, ?_⟩
  have hfst : Prod.fst ∘ s.tokenOf = s.fingerprint := rfl
  rw [← map_fst_content s, hc, Multiset.map_coe, List.map_map, hfst, List.map_map]
  rfl

/-- More keys than slots spend the budget. -/
theorem Fresh.store_eq_error_of_lt [Draws] {t₀ : τ} (h₀ : s.Fresh n Good t₀) (budget : Nat)
    (seed : UInt64) {keys : List UInt64} (hlt : 4 * n < keys.length) :
    s.store budget seed t₀ keys = .error (.evictionExceeded budget) := by
  cases h : s.store budget seed t₀ keys with
  | error e => rw [store_eq_error h]
  | ok t =>
    obtain ⟨-, hheld⟩ := h₀.fingerprints_store h
    have hcard : (fingerprintsIn n (slotsOf t)).card ≤ 4 * n :=
      card_fingerprintsIn_le fun i => by simp [slotsOf]
    rw [hheld, Multiset.coe_card, List.length_map] at hcard
    omega

end Scheme

/-- Counting the slots in use counts the fingerprints. -/
theorem Dense.occupied_eq (t : Dense) (hw : t.width ≤ 16) (n : Nat) :
    t.occupied n = (fingerprintsIn n (slotsOf t)).card := by
  have hbucket (i : Nat) : t.usedIn i = (slotsOf t i).countP (· ≠ 0) := by
    rw [usedIn, slotsOf, List.countP_map]
    apply List.countP_congr
    intro k hk
    rw [slotOf_bucket t hw i (List.mem_range.mp hk)]
    simp [bucketTable_get]
  rw [card_fingerprintsIn]
  induction n with
  | zero => rfl
  | succ n ih =>
    rw [occupied, List.range_succ, List.foldl_append, ← occupied, ih, Finset.sum_range_succ,
      ← hbucket n]
    rfl

namespace Cuckoo

/-- The fingerprints that a filter stores. -/
def fingerprints (f : Cuckoo) : Multiset UInt64 :=
  fingerprintsIn (1 <<< f.indexBits) (slotsOf f.table)

section Build

variable [Draws] {hashes : List UInt64} {width : Nat} {capacity : Option Nat} {seed : UInt64}
  {maxKicks : Nat} (h₁ : 1 ≤ width) (h₂ : width ≤ 16)
  (hcap : capacity.getD (distinct hashes).length ≤ 2 ^ 58)
include h₁ h₂ hcap

theorem fingerprints_of_build {f : Cuckoo} (h : build hashes width capacity seed maxKicks = .ok f) :
    f.table.occupied (1 <<< f.indexBits) = (distinct hashes).length ∧
      f.fingerprints = ((distinct hashes).map fun k =>
        (scheme width f.indexBits).fingerprint (mix k seed) : List UInt64) := by
  obtain ⟨-, -, hstore⟩ := build_eq_ok h
  obtain ⟨hg, hheld⟩ := (fresh h₁ h₂ (indexBits_le h hcap)).fingerprints_store hstore
  refine ⟨?_, hheld⟩
  rw [Dense.occupied_eq f.table (hg.width_eq ▸ h₂), hheld, Multiset.coe_card, List.length_map]

theorem build_eq_error_of_lt
    (hlt : 4 * (1 <<< indexBitsFor (capacity.getD (distinct hashes).length)) <
      (distinct hashes).length) :
    build hashes width capacity seed maxKicks = .error (.evictionExceeded maxKicks) := by
  have hfresh := fresh h₁ h₂ (indexBitsFor_le (k := 56) hcap)
  simp only [build]
  rw [hfresh.store_eq_error_of_lt maxKicks seed hlt]
  rfl

end Build

end Cuckoo

namespace Vacuum

/-- The slots of bucket `i` as they are read; none for a packed word that no bucket packs to. -/
def slotsAt (f : Vacuum) (i : Nat) : List UInt64 :=
  if f.packed then
    let bits := packedBits f.width
    match Quad.unpack? f.width (BitField.get f.bytes (bits * i) (BitField.lowMask bits)) with
    | some q => q.toList.map UInt32.toUInt64
    | none => []
  else slotsOf (Dense.mk f.width f.bytes) i

/-- The fingerprints that a filter stores. -/
def fingerprints (f : Vacuum) : Multiset UInt64 := fingerprintsIn f.buckets f.slotsAt

/-- A packed bucket has the fingerprints of the table behind it, in ascending order. -/
theorem slotsAt_packed {seed : UInt64} {width n : Nat} (h₁ : 5 ≤ width) (h₂ : width ≤ 17)
    {ranges : Vector Nat 4} {t : Loose} (hg : t.Good width n) {i : Nat} (hi : i < n) :
    (slotsAt ⟨seed, width, true, n, ranges, packTable width n t⟩ i).Perm (slotsOf t i) := by
  simp only [slotsAt, if_true, unpack?_packTable h₁ h₂ hg hi]
  exact (Quad.sort_perm _).map _

theorem fingerprints_packed {seed : UInt64} {width n : Nat} (h₁ : 5 ≤ width) (h₂ : width ≤ 17)
    {ranges : Vector Nat 4} {t : Loose} (hg : t.Good width n) :
    fingerprints ⟨seed, width, true, n, ranges, packTable width n t⟩ =
      fingerprintsIn n (slotsOf t) :=
  fingerprintsIn_congr fun _ hi => slotsAt_packed h₁ h₂ hg hi

theorem fingerprints_plain {seed : UInt64} {width n : Nat} {ranges : Vector Nat 4} {t : Dense}
    (hg : t.Good width n) :
    fingerprints ⟨seed, width, false, n, ranges, t.bytes⟩ = fingerprintsIn n (slotsOf t) := by
  rcases hg with ⟨rfl, -⟩
  rfl

section Build

variable [Draws] {hashes : List UInt64} {width : Nat} {packed : Bool} {capacity : Option Nat}
  {seed : UInt64} {maxKicks : Nat} (h₁ : 4 ≤ width) (h₂ : width ≤ 16)
include h₁ h₂

theorem fingerprints_of_build {f : Vacuum}
    (h : build hashes width packed capacity seed maxKicks = .ok f) :
    f.fingerprints = ((distinct hashes).map fun k =>
      (scheme f.width f.buckets f.ranges).fingerprint (mix k seed) : List UInt64) := by
  cases packed with
  | true =>
    obtain ⟨z, t, hz, hstore, rfl⟩ := build_packed_eq_ok h
    obtain ⟨hg, hheld⟩ := (fresh_packed h₁ h₂ hz).fingerprints_store hstore
    rw [fingerprints_packed (by omega) (by omega) hg, hheld]
  | false =>
    obtain ⟨z, t, hz, hstore, rfl⟩ := build_plain_eq_ok h
    obtain ⟨hg, hheld⟩ := (fresh_plain h₁ h₂ hz).fingerprints_store hstore
    rw [fingerprints_plain hg, hheld]

theorem build_eq_error_of_lt {z : Sizing}
    (hz : sizingFor (capacity.getD (distinct hashes).length) = .ok z)
    (hlt : 4 * z.buckets < (distinct hashes).length) :
    build hashes width packed capacity seed maxKicks = .error (.evictionExceeded maxKicks) := by
  cases packed with
  | true =>
    rw [build_packed_eq hz, (fresh_packed h₁ h₂ hz).store_eq_error_of_lt maxKicks seed hlt]
    rfl
  | false =>
    rw [build_plain_eq hz, (fresh_plain h₁ h₂ hz).store_eq_error_of_lt maxKicks seed hlt]
    rfl

end Build

end Vacuum

namespace Scheme

/-- A built table has a slot in use for each distinct hash, and holds the fingerprints of the
distinct hashes, each as often as it occurs. When there are more of them than slots, the build ends
with the error that the budget for relocation is spent. Cuckoo tables are sized in 64-bit words,
which is exact for up to `2 ^ 58` keys; that many hashes take `2 ^ 61` bytes. Vacuum tables of up to
`2 ^ 32` keys always have a size. -/
theorem build_conserves [Draws] :
    (∀ (w : BucketWidth) (hashes : List UInt64) (capacity : Option Nat) (seed : UInt64)
      (maxKicks : Nat), capacity.getD hashes.toFinset.card ≤ 2 ^ 58 →
      (∀ f, Cuckoo.build hashes w.bits capacity seed maxKicks = .ok f →
        f.table.occupied (1 <<< f.indexBits) = hashes.toFinset.card ∧
          f.fingerprints = hashes.toFinset.val.map fun k =>
            (Cuckoo.scheme w.bits f.indexBits).fingerprint (mix k seed)) ∧
      (4 * (1 <<< Cuckoo.indexBitsFor (capacity.getD hashes.toFinset.card)) <
          hashes.toFinset.card →
        Cuckoo.build hashes w.bits capacity seed maxKicks = .error (.evictionExceeded maxKicks))) ∧
    ∀ (w : BucketWidth) (packed : Bool) (hashes : List UInt64) (capacity : Option Nat)
      (seed : UInt64) (maxKicks : Nat),
      (∀ f, Vacuum.build hashes w.bits packed capacity seed maxKicks = .ok f →
        ∑ i ∈ Finset.range f.buckets, (f.slotsAt i).countP (· ≠ 0) = hashes.toFinset.card ∧
          f.fingerprints = hashes.toFinset.val.map fun k =>
            (Vacuum.scheme f.width f.buckets f.ranges).fingerprint (mix k seed)) ∧
      (∀ z, Vacuum.sizingFor (capacity.getD hashes.toFinset.card) = .ok z →
        4 * z.buckets < hashes.toFinset.card →
          Vacuum.build hashes w.bits packed capacity seed maxKicks =
            .error (.evictionExceeded maxKicks)) ∧
      (capacity.getD hashes.toFinset.card ≤ 2 ^ 32 →
        ∃ z, Vacuum.sizingFor (capacity.getD hashes.toFinset.card) = .ok z) := by
  constructor
  · intro w hashes capacity seed maxKicks hcap
    obtain ⟨h₁, h₂⟩ := w.bits_bounds
    rw [card_toFinset] at hcap ⊢
    constructor
    · intro f h
      rw [val_toFinset, Multiset.map_coe]
      exact Cuckoo.fingerprints_of_build (by omega) h₂ hcap h
    · intro hlt
      exact Cuckoo.build_eq_error_of_lt (by omega) h₂ hcap hlt
  · intro w packed hashes capacity seed maxKicks
    obtain ⟨h₁, h₂⟩ := w.bits_bounds
    rw [card_toFinset]
    refine ⟨?_, ?_, Vacuum.exists_sizingFor⟩
    · intro f h
      have hheld := Vacuum.fingerprints_of_build h₁ h₂ h
      rw [val_toFinset, Multiset.map_coe]
      refine ⟨?_, hheld⟩
      rw [← card_fingerprintsIn, ← Vacuum.fingerprints, hheld, Multiset.coe_card, List.length_map]
    · intro z hz hlt
      exact Vacuum.build_eq_error_of_lt h₁ h₂ hz hlt

/-- Seven hashes in eight slots, of which a cuckoo table places the last by a chain of two kicks and
a packed vacuum table by one of three; and five hashes in the four slots that one key gets. -/
theorem build_conserves_seven :
    (∃ f, Cuckoo.build [1, 2, 3, 4, 5, 6, 7] 8 none 18 2 = .ok f ∧
      f.table.occupied (1 <<< f.indexBits) = 7) ∧
    (∃ f, Vacuum.build [1, 2, 3, 4, 5, 6, 7] 8 true none 18 3 = .ok f ∧
      ∑ i ∈ Finset.range f.buckets, (f.slotsAt i).countP (· ≠ 0) = 7) ∧
    Cuckoo.build [1, 2, 3, 4, 5] 8 (some 1) 0 100 = .error (.evictionExceeded 100) ∧
    Vacuum.build [1, 2, 3, 4, 5] 8 true (some 1) 0 100 = .error (.evictionExceeded 100) := by
  have hkeys : distinct [1, 2, 3, 4, 5, 6, 7] = [1, 2, 3, 4, 5, 6, 7] :=
    distinct_of_ascending (by decide)
  have hcuckoo : (Cuckoo.build [1, 2, 3, 4, 5, 6, 7] 8 none 18 2).isOk = true := by
    rw [Cuckoo.build, hkeys]
    decide +kernel
  have hvacuum : (Vacuum.build [1, 2, 3, 4, 5, 6, 7] 8 true none 18 3).isOk = true := by
    rw [Vacuum.build, hkeys]
    decide +kernel
  obtain ⟨f, hf⟩ := exists_ok_of_isOk hcuckoo
  obtain ⟨g, hg⟩ := exists_ok_of_isOk hvacuum
  obtain ⟨hstored, -⟩ := (build_conserves.1 .eight _ none 18 2 (by decide)).1 f hf
  obtain ⟨hstored', -⟩ := (build_conserves.2 .eight true _ none 18 3).1 g hg
  refine ⟨⟨f, hf, hstored⟩, ⟨g, hg, hstored'⟩, ?_, ?_⟩
  · exact (build_conserves.1 .eight _ (some 1) 0 100 (by decide)).2 (by decide)
  · exact (build_conserves.2 .eight true _ (some 1) 0 100).2.1 _ rfl (by decide)

end Scheme

end ApproxSet
