import ApproxSet.Evict.Table
import ApproxSet.Proofs.KeySet
import ApproxSet.Proofs.Word.Bits
import Mathlib.Algebra.BigOperators.Group.Finset.Basic
import Mathlib.Algebra.Order.Group.Multiset
import Mathlib.Data.Sym.Sym2

/-!
# What relocation keeps

A stored fingerprint counts as itself together with the two buckets it may live in, whichever of the
two it is in. Relocation moves fingerprints between their buckets, so the multiset of these counts
grows by exactly the inserted fingerprint, whatever the choices were.
-/
namespace ApproxSet
open BucketTable

/-- A table that acts as `n` buckets of four slots, a slot holding a number below `2 ^ width`. -/
structure ActsAs (τ : Type) [BucketTable τ] (width n : Nat) (Good : τ → Prop) : Prop where
  get_lt {t : τ} {i k : Nat} : Good t → i < n → k < 4 → (get t i k).toNat < 2 ^ width
  free?_eq {t : τ} {i : Nat} : Good t → i < n →
    free? t i = (List.range 4).find? fun k => get t i k == 0
  good_put {t : τ} {i k : Nat} {fp : UInt64} : Good t → i < n → k < 4 → fp.toNat < 2 ^ width →
    Good (put t i k fp)
  get_put {t : τ} {i k : Nat} {fp : UInt64} : Good t → i < n → k < 4 → fp.toNat < 2 ^ width →
    ∀ j l, j < n → l < 4 → get (put t i k fp) j l = if j = i ∧ l = k then fp else get t j l

theorem ActsAs.free?_eq_some {τ : Type} [BucketTable τ] {width n : Nat} {Good : τ → Prop}
    (ht : ActsAs τ width n Good) {t : τ} (hg : Good t) {i k : Nat} (hi : i < n)
    (h : free? t i = some k) : k < 4 ∧ get t i k = 0 := by
  rw [ht.free?_eq hg hi] at h
  have hmem := List.mem_of_find?_eq_some h
  have hz := List.find?_some h
  exact ⟨List.mem_range.mp hmem, by simpa using hz⟩

namespace Scheme

/-- A scheme for tables of `n` buckets. -/
structure Valid (s : Scheme) (n : Nat) : Prop where
  width_pos : 0 < s.width
  width_le : s.width ≤ 64
  home_lt : ∀ h, s.home h < n
  dvd : ∀ fp, 2 ^ s.reach fp ∣ n

variable {s : Scheme} {n : Nat}

theorem fingerprint_ne_zero (s : Scheme) (h : UInt64) : s.fingerprint h ≠ 0 := by
  simp only [fingerprint]
  split
  · decide
  · assumption

theorem Valid.fingerprint_lt (hs : s.Valid n) (h : UInt64) :
    (s.fingerprint h).toNat < 2 ^ s.width := by
  have hw := hs.width_pos
  have hle := hs.width_le
  have hone : 1 < 2 ^ s.width := Nat.one_lt_two_pow hw.ne'
  have hshift : (64 : UInt64) - s.width.toUInt64 = (64 - s.width).toUInt64 :=
    toUInt64_sub hle (by decide)
  simp only [fingerprint, hshift]
  split
  · exact hone
  · rw [toNat_shiftRight h (by omega)]
    apply Nat.div_lt_of_lt_mul
    rw [← Nat.pow_add, Nat.sub_add_cancel hle]
    exact h.toNat_lt

/-- Going to the alternate bucket twice leads back. -/
theorem alternate_alternate (s : Scheme) (i : Nat) (fp : UInt64) :
    s.alternate (s.alternate i fp) fp = i := by
  rw [alternate, alternate, Nat.xor_assoc, Nat.xor_self, Nat.xor_zero]

theorem Valid.alternate_lt (hs : s.Valid n) {i : Nat} (hi : i < n) (fp : UInt64) :
    s.alternate i fp < n := by
  rw [alternate, Nat.one_shiftLeft]
  exact xor_lt_of_dvd (Nat.mod_lt _ (Nat.two_pow_pos _)) (hs.dvd fp) hi

/-- A fingerprint in bucket `i` counts as itself with the pair of its buckets, an empty slot as
nothing. -/
def token (s : Scheme) (i : Nat) (fp : UInt64) : Multiset (UInt64 × Sym2 Nat) :=
  if fp = 0 then 0 else {(fp, s(i, s.alternate i fp))}

@[simp] theorem token_zero (s : Scheme) (i : Nat) : s.token i 0 = 0 := rfl

theorem token_of_ne_zero (s : Scheme) (i : Nat) {fp : UInt64} (h : fp ≠ 0) :
    s.token i fp = {(fp, s(i, s.alternate i fp))} :=
  if_neg h

/-- A fingerprint counts the same in both of its buckets. -/
theorem token_alternate (s : Scheme) (i : Nat) (fp : UInt64) :
    s.token (s.alternate i fp) fp = s.token i fp := by
  rw [token, token, alternate_alternate, Sym2.eq_swap]

/-- What a mixed hash counts as. -/
def tokenOf (s : Scheme) (h : UInt64) : UInt64 × Sym2 Nat :=
  (s.fingerprint h, s(s.home h, s.alternate (s.home h) (s.fingerprint h)))

theorem token_home (s : Scheme) (h : UInt64) :
    s.token (s.home h) (s.fingerprint h) = {s.tokenOf h} :=
  token_of_ne_zero s _ (fingerprint_ne_zero s h)

variable {τ : Type} [BucketTable τ] {Good : τ → Prop}

/-- What the slots of the first `n` buckets count as together. -/
def content (s : Scheme) (n : Nat) (t : τ) : Multiset (UInt64 × Sym2 Nat) :=
  ∑ x ∈ Finset.range n ×ˢ Finset.range 4, s.token x.1 (get t x.1 x.2)

theorem mem_content {s : Scheme} {n : Nat} {t : τ} {c : UInt64 × Sym2 Nat} :
    c ∈ s.content n t ↔ ∃ i k, i < n ∧ k < 4 ∧ get t i k ≠ 0 ∧
      c = (get t i k, s(i, s.alternate i (get t i k))) := by
  rw [content, Multiset.mem_sum]
  constructor
  · rintro ⟨⟨i, k⟩, hx, hc⟩
    obtain ⟨hi, hk⟩ := Finset.mem_product.mp hx
    by_cases hz : get t i k = 0
    · rw [hz, token_zero] at hc
      exact absurd hc (Multiset.notMem_zero c)
    · rw [token_of_ne_zero s i hz, Multiset.mem_singleton] at hc
      exact ⟨i, k, Finset.mem_range.mp hi, Finset.mem_range.mp hk, hz, hc⟩
  · rintro ⟨i, k, hi, hk, hz, rfl⟩
    refine ⟨(i, k), Finset.mem_product.mpr ⟨Finset.mem_range.mpr hi, Finset.mem_range.mpr hk⟩, ?_⟩
    rw [token_of_ne_zero s i hz]
    exact Multiset.mem_singleton_self _

/-- Writing a slot exchanges what it counted as for what is written. -/
theorem content_put (ht : ActsAs τ s.width n Good) {t : τ} (hg : Good t) {i k : Nat} (hi : i < n)
    (hk : k < 4) {fp : UInt64} (hfp : fp.toNat < 2 ^ s.width) :
    s.content n (put t i k fp) + s.token i (get t i k) = s.content n t + s.token i fp := by
  have hput := ht.get_put hg hi hk hfp
  have hmem : (i, k) ∈ Finset.range n ×ˢ Finset.range 4 := by simp [hi, hk]
  have hself : get (put t i k fp) i k = fp := by simp [hput i k hi hk]
  rw [content, content, ← Finset.add_sum_erase _ _ hmem, ← Finset.add_sum_erase _ _ hmem, hself]
  have hrest : ∑ x ∈ (Finset.range n ×ˢ Finset.range 4).erase (i, k),
      s.token x.1 (get (put t i k fp) x.1 x.2) =
        ∑ x ∈ (Finset.range n ×ˢ Finset.range 4).erase (i, k), s.token x.1 (get t x.1 x.2) := by
    apply Finset.sum_congr rfl
    intro x hx
    obtain ⟨hne, hx⟩ := Finset.mem_erase.mp hx
    obtain ⟨h₁, h₂⟩ := Finset.mem_product.mp hx
    rw [hput _ _ (Finset.mem_range.mp h₁) (Finset.mem_range.mp h₂),
      if_neg fun h => hne (Prod.ext h.1 h.2)]
  rw [hrest]
  change s.token i fp + _ + _ = s.token i (get t i k) + _ + _
  ac_rfl

/-- Filling a free slot adds a fingerprint. -/
theorem content_put_free (ht : ActsAs τ s.width n Good) {t : τ} (hg : Good t) {i k : Nat}
    (hi : i < n) (h : free? t i = some k) {fp : UInt64} (hfp : fp.toNat < 2 ^ s.width) :
    Good (put t i k fp) ∧ s.content n (put t i k fp) = s.content n t + s.token i fp := by
  obtain ⟨hk, hz⟩ := ht.free?_eq_some hg hi h
  have hput := content_put ht hg hi hk hfp
  rw [hz, token_zero, add_zero] at hput
  exact ⟨ht.good_put hg hi hk hfp, hput⟩

section Run

variable [Draws]

theorem slot_lt (d : Draws.State) : d.slot.1 < 4 := by
  have hlt := (Draws.next d).1.toNat_lt
  have htop : ((Draws.next d).1 >>> 62).toNat = (Draws.next d).1.toNat / 2 ^ 62 :=
    toNat_shiftRight (Draws.next d).1 (k := 62) (by decide)
  change ((Draws.next d).1 >>> 62).toNat < 4
  rw [htop]
  omega

/-- Induction on the budget: the fingerprint thrown out is carried to its other bucket, where it
counts the same. -/
theorem content_relocate (hs : s.Valid n) (ht : ActsAs τ s.width n Good) {budget : Nat}
    {d : Draws.State} {t : τ} (hg : Good t) {i : Nat} (hi : i < n) {fp : UInt64}
    (hfp : fp.toNat < 2 ^ s.width) {t' : τ} {d' : Draws.State}
    (h : s.relocate budget d t i fp = some (t', d')) :
    Good t' ∧ s.content n t' = s.content n t + s.token i fp := by
  induction budget generalizing d t i fp with
  | zero => cases h
  | succ budget ih =>
    have hk := slot_lt d
    have hv := ht.get_lt hg hi hk
    have hput := content_put ht hg hi hk hfp
    have hg' := ht.good_put hg hi hk hfp
    have hj := hs.alternate_lt hi (get t i d.slot.1)
    -- what the later steps add is what this step takes away
    have hcarry {c : Multiset (UInt64 × Sym2 Nat)}
        (hc : c = s.content n (put t i d.slot.1 fp) +
          s.token (s.alternate i (get t i d.slot.1)) (get t i d.slot.1)) :
        c = s.content n t + s.token i fp := by
      rw [hc, token_alternate, hput]
    simp only [relocate] at h
    split at h
    · rename_i k hfree
      cases h
      obtain ⟨hg'', hc⟩ := content_put_free ht hg' hj hfree hv
      exact ⟨hg'', hcarry hc⟩
    · obtain ⟨hg'', hc⟩ := ih hg' hj hv h
      exact ⟨hg'', hcarry hc⟩

theorem content_insert (hs : s.Valid n) (ht : ActsAs τ s.width n Good) {budget : Nat}
    {d : Draws.State} {t : τ} (hg : Good t) {i : Nat} (hi : i < n) {fp : UInt64}
    (hfp : fp.toNat < 2 ^ s.width) {t' : τ} {d' : Draws.State}
    (h : s.insert budget d t i fp = some (t', d')) :
    Good t' ∧ s.content n t' = s.content n t + s.token i fp := by
  have hj := hs.alternate_lt hi fp
  simp only [insert] at h
  split at h
  · rename_i k hfree
    cases h
    exact content_put_free ht hg hi hfree hfp
  · split at h
    · rename_i k hfree
      cases h
      rw [← token_alternate]
      exact content_put_free ht hg hj hfree hfp
    · by_cases hc : d.coin.1 = true
      · rw [hc, if_pos rfl] at h
        exact content_relocate hs ht hg hi hfp h
      · rw [if_neg hc] at h
        rw [← token_alternate]
        exact content_relocate hs ht hg hj hfp h

/-- A run stores the fingerprints of the given hashes, each once, and nothing else. -/
theorem content_fill (hs : s.Valid n) (ht : ActsAs τ s.width n Good) {budget : Nat}
    {d : Draws.State} {t : τ} (hg : Good t) {hashes : List UInt64} {t' : τ}
    (h : s.fill budget d t hashes = some t') :
    Good t' ∧ s.content n t' = s.content n t + (hashes.map s.tokenOf : Multiset _) := by
  induction hashes generalizing d t with
  | nil =>
    cases h
    exact ⟨hg, by simp⟩
  | cons k ks ih =>
    simp only [fill] at h
    split at h
    · rename_i t₁ d₁ hins
      obtain ⟨hg₁, hc₁⟩ := content_insert hs ht hg (hs.home_lt k) (hs.fingerprint_lt k) hins
      obtain ⟨hg', hc⟩ := ih hg₁ h
      refine ⟨hg', ?_⟩
      rw [hc, hc₁, token_home, List.map_cons, ← Multiset.cons_coe, ← Multiset.singleton_add,
        add_assoc]
    · cases h

theorem store_eq_ok {budget : Nat} {seed : UInt64} {t t' : τ} {keys : List UInt64}
    (h : s.store budget seed t keys = .ok t') :
    s.fill budget (Draws.start seed) t (keys.map (mix · seed)) = some t' := by
  simp only [store] at h
  split at h
  · rename_i t₁ hfill
    cases h
    exact hfill
  · cases h

theorem store_eq_error {budget : Nat} {seed : UInt64} {t : τ} {keys : List UInt64} {e : Error}
    (h : s.store budget seed t keys = .error e) : e = .evictionExceeded budget := by
  simp only [store] at h
  split at h
  · cases h
  · cases h
    rfl

section Keeps

variable {P : τ → Prop}

/-- What no write changes, relocation does not change. -/
theorem relocate_keeps (hput : ∀ t i k fp, P t → P (put t i k fp)) {budget : Nat} {d : Draws.State}
    {t : τ} (ht : P t) {i : Nat} {fp : UInt64} {t' : τ} {d' : Draws.State}
    (h : s.relocate budget d t i fp = some (t', d')) : P t' := by
  induction budget generalizing d t i fp with
  | zero => cases h
  | succ budget ih =>
    have hput' := hput t i d.slot.1 fp ht
    simp only [relocate] at h
    split at h
    · cases h
      exact hput _ _ _ _ hput'
    · exact ih hput' h

theorem insert_keeps (hput : ∀ t i k fp, P t → P (put t i k fp)) {budget : Nat} {d : Draws.State}
    {t : τ} (ht : P t) {i : Nat} {fp : UInt64} {t' : τ} {d' : Draws.State}
    (h : s.insert budget d t i fp = some (t', d')) : P t' := by
  simp only [insert] at h
  split at h
  · cases h
    exact hput _ _ _ _ ht
  · split at h
    · cases h
      exact hput _ _ _ _ ht
    · exact relocate_keeps hput ht h

theorem store_keeps (hput : ∀ t i k fp, P t → P (put t i k fp)) {budget : Nat} {seed : UInt64}
    {t t' : τ} (ht : P t) {keys : List UInt64} (h : s.store budget seed t keys = .ok t') :
    P t' := by
  suffices hfill : ∀ (hashes : List UInt64) (d : Draws.State) (t : τ), P t →
      s.fill budget d t hashes = some t' → P t' from hfill _ _ _ ht (store_eq_ok h)
  intro hashes
  induction hashes with
  | nil =>
    intro d t ht h
    cases h
    exact ht
  | cons k ks ih =>
    intro d t ht h
    simp only [fill] at h
    split at h
    · rename_i t₁ d₁ hins
      exact ih d₁ t₁ (insert_keeps hput ht hins) h
    · cases h

end Keeps

end Run

/-- A table without fingerprints that a scheme can fill. -/
structure Fresh (s : Scheme) (n : Nat) (Good : τ → Prop) (t : τ) : Prop where
  valid : s.Valid n
  acts : ActsAs τ s.width n Good
  good : Good t
  get_eq_zero : ∀ i k, i < n → k < 4 → get t i k = 0

theorem Fresh.content_eq_zero {t : τ} (h : s.Fresh n Good t) : s.content n t = 0 := by
  apply Finset.sum_eq_zero
  intro x hx
  obtain ⟨h₁, h₂⟩ := Finset.mem_product.mp hx
  rw [h.get_eq_zero _ _ (Finset.mem_range.mp h₁) (Finset.mem_range.mp h₂), token_zero]

/-- A table filled from empty has the fingerprints of the given hashes and nothing else. -/
theorem Fresh.content_store [Draws] {t₀ t : τ} (h₀ : s.Fresh n Good t₀) {budget : Nat}
    {seed : UInt64} {keys : List UInt64} (h : s.store budget seed t₀ keys = .ok t) :
    Good t ∧ s.content n t = ((keys.map (mix · seed)).map s.tokenOf : Multiset _) := by
  obtain ⟨hg, hc⟩ := content_fill h₀.valid h₀.acts h₀.good (store_eq_ok h)
  rw [h₀.content_eq_zero, zero_add] at hc
  exact ⟨hg, hc⟩

/-- Some given hash has the fingerprint of a hash, and its buckets are those of the hash. -/
def Holds (s : Scheme) (hashes : List UInt64) (h : UInt64) : Prop :=
  ∃ k ∈ hashes, s.fingerprint k = s.fingerprint h ∧
    (s.home h = s.home k ∨ s.home h = s.alternate (s.home k) (s.fingerprint k))

theorem mem_map_tokenOf {hashes : List UInt64} {h : UInt64} :
    s.tokenOf h ∈ hashes.map s.tokenOf ↔ s.Holds hashes h := by
  rw [List.mem_map, Holds]
  refine exists_congr fun k => and_congr_right fun _ => ?_
  rw [tokenOf, tokenOf, Prod.mk.injEq]
  apply and_congr_right
  intro hfp
  rw [hfp, Sym2.eq_iff]
  constructor
  · rintro (⟨hhome, -⟩ | ⟨-, hhome⟩)
    · exact Or.inl hhome.symm
    · exact Or.inr hhome.symm
  · rintro (hhome | hhome)
    · exact Or.inl ⟨hhome.symm, by rw [hhome]⟩
    · exact Or.inr ⟨by rw [hhome, alternate_alternate], hhome.symm⟩

/-- Looking for a fingerprint in both of its buckets decides whether it is stored at all. -/
theorem mayHold_iff (hs : s.Valid n) {t : τ} {has : Nat → UInt64 → Bool}
    (hhas : ∀ i fp, i < n → fp ≠ 0 → fp.toNat < 2 ^ s.width →
      (has i fp = true ↔ ∃ k, k < 4 ∧ get t i k = fp)) (h : UInt64) :
    s.mayHold has h = true ↔ s.tokenOf h ∈ s.content n t := by
  have hi := hs.home_lt h
  have hj := hs.alternate_lt hi (s.fingerprint h)
  have hne := fingerprint_ne_zero s h
  have hlt := hs.fingerprint_lt h
  rw [mayHold, Bool.or_eq_true, hhas _ _ hi hne hlt, hhas _ _ hj hne hlt, mem_content]
  constructor
  · rintro (⟨k, hk, hget⟩ | ⟨k, hk, hget⟩)
    · refine ⟨s.home h, k, hi, hk, ?_, ?_⟩
      · rwa [hget]
      · rw [hget, tokenOf]
    · refine ⟨s.alternate (s.home h) (s.fingerprint h), k, hj, hk, ?_, ?_⟩
      · rwa [hget]
      · rw [hget, alternate_alternate, Sym2.eq_swap, tokenOf]
  · rintro ⟨i, k, -, hk, -, htoken⟩
    obtain ⟨hfp, hpair⟩ := Prod.mk.inj htoken
    rcases Sym2.eq_iff.mp hpair with ⟨hhome, -⟩ | ⟨-, hhome⟩
    · exact Or.inl ⟨k, hk, hhome ▸ hfp.symm⟩
    · exact Or.inr ⟨k, hk, hhome ▸ hfp.symm⟩

/-- The law of a table filled from empty, read through any correct test of a bucket. Neither the
budget nor the stream of choices has a part in it. -/
theorem Fresh.mayHold_store_iff [Draws] {t₀ t : τ} (h₀ : s.Fresh n Good t₀) {budget : Nat}
    {seed : UInt64} {keys : List UInt64} (h : s.store budget seed t₀ keys = .ok t)
    {has : Nat → UInt64 → Bool}
    (hhas : Good t → ∀ i fp, i < n → fp ≠ 0 → fp.toNat < 2 ^ s.width →
      (has i fp = true ↔ ∃ k, k < 4 ∧ get t i k = fp)) (q : UInt64) :
    s.mayHold has q = true ↔ s.Holds (keys.map (mix · seed)) q := by
  obtain ⟨hg, hc⟩ := h₀.content_store h
  rw [mayHold_iff h₀.valid (hhas hg), hc, Multiset.mem_coe, mem_map_tokenOf]

theorem holds_distinct {hashes : List UInt64} {seed q : UInt64} :
    s.Holds ((distinct hashes).map (mix · seed)) q ↔ s.Holds (hashes.map (mix · seed)) q := by
  have hmem (k : UInt64) : k ∈ (distinct hashes).map (mix · seed) ↔
      k ∈ hashes.map (mix · seed) := by
    rw [List.mem_map, List.mem_map]
    exact exists_congr fun _ => and_congr_left fun _ => mem_distinct
  exact exists_congr fun k => and_congr_left fun _ => hmem k

end Scheme

end ApproxSet
