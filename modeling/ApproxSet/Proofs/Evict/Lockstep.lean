import ApproxSet.Proofs.Evict.Vacuum

/-!
# Relocation in lockstep

Relocation reads and writes a table slot by slot. So two tables of different forms that hold the
same numbers go through the same steps under the same choices: they stay alike, and the one spends
its budget exactly when the other does. A packed vacuum filter is filled in one form and a plain one
in another, and they agree on every hash.
-/
namespace ApproxSet
open BucketTable

variable {α β : Type} [BucketTable α] [BucketTable β] {A : α → Prop} {B : β → Prop}

/-- Two tables, each good for its form, with the same slots in the first `n` buckets. -/
structure Coupled (n : Nat) (A : α → Prop) (B : β → Prop) (a : α) (b : β) : Prop where
  left : A a
  right : B b
  get_eq : ∀ i k, i < n → k < 4 → get a i k = get b i k

namespace Coupled

variable {width n : Nat} {a : α} {b : β} {i k : Nat} {fp : UInt64}

theorem free?_eq (ha : ActsAs α width n A) (hb : ActsAs β width n B) (h : Coupled n A B a b)
    (hi : i < n) : free? a i = free? b i := by
  rw [ha.free?_eq h.left hi, hb.free?_eq h.right hi]
  apply List.find?_congr
  intro k hk
  rw [h.get_eq i k hi (List.mem_range.mp hk)]

theorem put (ha : ActsAs α width n A) (hb : ActsAs β width n B) (h : Coupled n A B a b)
    (hi : i < n) (hk : k < 4) (hfp : fp.toNat < 2 ^ width) :
    Coupled n A B (put a i k fp) (put b i k fp) where
  left := ha.good_put h.left hi hk hfp
  right := hb.good_put h.right hi hk hfp
  get_eq j l hj hl := by
    rw [ha.get_put h.left hi hk hfp j l hj hl, hb.get_put h.right hi hk hfp j l hj hl,
      h.get_eq j l hj hl]

/-- A fingerprint goes into the same free slot of both. -/
theorem put_free (ha : ActsAs α width n A) (hb : ActsAs β width n B) (h : Coupled n A B a b)
    (hi : i < n) (hfree : free? a i = some k) (hfp : fp.toNat < 2 ^ width) :
    Coupled n A B (BucketTable.put a i k fp) (BucketTable.put b i k fp) :=
  h.put ha hb hi (ha.free?_eq_some h.left hi hfree).1 hfp

end Coupled

namespace Scheme

variable {s : Scheme} {n : Nat} {a : α} {b : β} {i : Nat} {fp : UInt64}

section Run

variable [Draws]

/-- The tables stay coupled and the streams of choices stay equal. -/
def Together (n : Nat) (A : α → Prop) (B : β → Prop) (x : α × Draws.State) (y : β × Draws.State) :
    Prop :=
  Coupled n A B x.1 y.1 ∧ x.2 = y.2

/-- Induction on the budget: one step throws the same fingerprint out of both tables. -/
theorem relocate_together (hs : s.Valid n) (ha : ActsAs α s.width n A)
    (hb : ActsAs β s.width n B) (h : Coupled n A B a b) (hi : i < n)
    (hfp : fp.toNat < 2 ^ s.width) (budget : Nat) (d : Draws.State) :
    Option.Rel (Together n A B) (s.relocate budget d a i fp) (s.relocate budget d b i fp) := by
  induction budget generalizing d a b i fp with
  | zero => exact .none
  | succ budget ih =>
    have hk := slot_lt d
    have hvictim := h.get_eq i d.slot.1 hi hk
    have hlt := ha.get_lt h.left hi hk
    have hput := h.put ha hb hi hk hfp
    have hj := hs.alternate_lt hi (get a i d.slot.1)
    have hfree := hput.free?_eq ha hb hj
    simp only [relocate, ← hvictim, ← hfree]
    cases hslot : free? (put a i d.slot.1 fp) (s.alternate i (get a i d.slot.1)) with
    | none => exact ih hput hj hlt _
    | some k => exact .some ⟨hput.put_free ha hb hj hslot hlt, rfl⟩

theorem insert_together (hs : s.Valid n) (ha : ActsAs α s.width n A) (hb : ActsAs β s.width n B)
    (h : Coupled n A B a b) (hi : i < n) (hfp : fp.toNat < 2 ^ s.width) (budget : Nat)
    (d : Draws.State) :
    Option.Rel (Together n A B) (s.insert budget d a i fp) (s.insert budget d b i fp) := by
  have hj := hs.alternate_lt hi fp
  simp only [insert, ← h.free?_eq ha hb hi, ← h.free?_eq ha hb hj]
  cases hhome : free? a i with
  | some k => exact .some ⟨h.put_free ha hb hi hhome hfp, rfl⟩
  | none =>
    cases hother : free? a (s.alternate i fp) with
    | some k => exact .some ⟨h.put_free ha hb hj hother hfp, rfl⟩
    | none =>
      by_cases hcoin : d.coin.1 = true
      · simp only [hcoin, if_true]
        exact relocate_together hs ha hb h hi hfp budget _
      · simp only [hcoin]
        exact relocate_together hs ha hb h hj hfp budget _

/-- Induction on the hashes: both tables take a hash or both fail on it. -/
theorem fill_together (hs : s.Valid n) (ha : ActsAs α s.width n A) (hb : ActsAs β s.width n B)
    (h : Coupled n A B a b) (budget : Nat) (d : Draws.State) (hashes : List UInt64) :
    Option.Rel (Coupled n A B) (s.fill budget d a hashes) (s.fill budget d b hashes) := by
  induction hashes generalizing d a b with
  | nil => exact .some h
  | cons k ks ih =>
    have hstep := insert_together hs ha hb h (hs.home_lt k) (hs.fingerprint_lt k) budget d
    simp only [fill]
    generalize s.insert budget d a (s.home k) (s.fingerprint k) = x at hstep
    generalize s.insert budget d b (s.home k) (s.fingerprint k) = y at hstep
    cases hstep with
    | none => exact .none
    | @some x y hxy =>
      rcases x with ⟨a', d'⟩
      rcases y with ⟨b', e'⟩
      obtain ⟨hcoupled, rfl⟩ : Coupled n A B a' b' ∧ d' = e' := hxy
      exact ih hcoupled d'

theorem store_together (hs : s.Valid n) (ha : ActsAs α s.width n A) (hb : ActsAs β s.width n B)
    (h : Coupled n A B a b) (budget : Nat) (seed : UInt64) (keys : List UInt64) :
    (s.store budget seed a keys = .error (.evictionExceeded budget) ∧
        s.store budget seed b keys = .error (.evictionExceeded budget)) ∨
      ∃ a' b', s.store budget seed a keys = .ok a' ∧ s.store budget seed b keys = .ok b' ∧
        Coupled n A B a' b' := by
  have hfill := fill_together hs ha hb h budget (Draws.start seed) (keys.map (mix · seed))
  simp only [store]
  generalize s.fill budget (Draws.start seed) a (keys.map (mix · seed)) = x at hfill
  generalize s.fill budget (Draws.start seed) b (keys.map (mix · seed)) = y at hfill
  cases hfill with
  | none => exact Or.inl ⟨rfl, rfl⟩
  | some hcoupled => exact Or.inr ⟨_, _, rfl, rfl, hcoupled⟩

end Run

/-- Two tests that agree on every bucket decide alike. -/
theorem mayHold_congr (hs : s.Valid n) {has has' : Nat → UInt64 → Bool}
    (hhas : ∀ i fp, i < n → has i fp = has' i fp) (h : UInt64) :
    s.mayHold has h = s.mayHold has' h := by
  have hi := hs.home_lt h
  rw [mayHold, mayHold, hhas _ _ hi, hhas _ _ (hs.alternate_lt hi _)]

end Scheme

namespace Vacuum

/-! ### The packed and the plain layout -/

variable {width n : Nat}

/-- An empty table in either form. -/
theorem coupled_empty (hw : width ≤ 16) (hn : n < 256 ^ 4) :
    Coupled n (Loose.Good width n) (Dense.Good width n) (Loose.empty n) (Dense.empty width n) where
  left := Loose.good_empty width n
  right := Dense.good_empty (bits_lt hw hn)
  get_eq i k _ _ := (Loose.get_empty n i k).trans (Dense.get_empty hw n i k).symm

/-- A bucket packed from one of two coupled tables holds what it holds in the other. -/
theorem contains_eq_of_coupled (h₁ : 5 ≤ width) (h₂ : width ≤ 16) {t : Loose} {u : Dense}
    (h : Coupled n (Loose.Good width n) (Dense.Good width n) t u) {seed : UInt64}
    {ranges : Vector Nat 4} (i : Nat) (fp : UInt64) (hi : i < n) :
    (Vacuum.mk seed width true n ranges (packTable width n t)).contains i fp =
      (Vacuum.mk seed width false n ranges u.bytes).contains i fp := by
  have hpacked := packed_contains_iff h₁ (by omega)
    (f := ⟨seed, width, true, n, ranges, packTable width n t⟩) rfl rfl h.left rfl hi fp
  have hplain := plain_contains_iff (f := ⟨seed, width, false, n, ranges, u.bytes⟩) rfl rfl h₂
    h.right rfl i fp
  rw [Bool.eq_iff_iff, hpacked, hplain]
  refine exists_congr fun k => and_congr_right fun hk => ?_
  have hslot : t.get i k = u.get i k := h.get_eq i k hi hk
  rw [hslot]

/-- Packing costs no answer: with one bit more of each fingerprint in the plain table, the two
layouts are made or fail for the same hashes, and answer alike, false positives included. -/
theorem build_packed_agrees [Draws] (h₁ : 4 ≤ width) (h₂ : width ≤ 15) (hashes : List UInt64)
    (capacity : Option Nat) (seed : UInt64) (maxKicks : Nat) :
    (∃ e, build hashes width true capacity seed maxKicks = .error e ∧
        build hashes (width + 1) false capacity seed maxKicks = .error e) ∨
      ∃ f g, build hashes width true capacity seed maxKicks = .ok f ∧
        build hashes (width + 1) false capacity seed maxKicks = .ok g ∧
          f.width = g.width ∧ f.buckets = g.buckets ∧ f.ranges = g.ranges ∧
            ∀ q, f.mayContain q = g.mayContain q := by
  have hw : width + 1 ≤ 16 := by omega
  cases hz : sizingFor (capacity.getD (distinct hashes).length) with
  | error e => exact Or.inl ⟨e, build_eq_error_of_sizing hz, build_eq_error_of_sizing hz⟩
  | ok z =>
    obtain ⟨hpos, hlt, hr⟩ := sizingFor_eq_ok hz
    have hs : (scheme (width + 1) z.buckets z.ranges).Valid z.buckets :=
      scheme_valid (by omega) (by omega) hpos hr
    have hempty : Coupled z.buckets (Loose.Good (width + 1) z.buckets)
        (Dense.Good (width + 1) z.buckets) (Loose.empty z.buckets)
        (Dense.empty (width + 1) z.buckets) :=
      coupled_empty hw hlt
    have hstore := Scheme.store_together hs (Loose.actsAs (hw.trans (by decide)) _)
      (Dense.actsAs hw _) hempty maxKicks seed (distinct hashes)
    rw [build_packed_eq hz, build_plain_eq hz]
    rcases hstore with ⟨hloose, hdense⟩ | ⟨t, u, ht, hu, hcoupled⟩
    · rw [hloose, hdense]
      exact Or.inl ⟨_, rfl, rfl⟩
    · rw [ht, hu]
      refine Or.inr ⟨_, _, rfl, rfl, rfl, rfl, rfl, fun q => ?_⟩
      exact Scheme.mayHold_congr hs (contains_eq_of_coupled (by omega) hw hcoupled) _

/-- Seven hashes in eight slots, the last placed by a chain of three kicks in both layouts. -/
theorem build_packed_agrees_seven :
    ∃ f g, build [1, 2, 3, 4, 5, 6, 7] 8 true none 18 3 = .ok f ∧
      build [1, 2, 3, 4, 5, 6, 7] 9 false none 18 3 = .ok g ∧
        ∀ q, f.mayContain q = g.mayContain q := by
  have hkeys : distinct [1, 2, 3, 4, 5, 6, 7] = [1, 2, 3, 4, 5, 6, 7] :=
    distinct_of_ascending (by decide)
  have hok : (build [1, 2, 3, 4, 5, 6, 7] 8 true none 18 3).isOk = true := by
    rw [build, hkeys]
    decide +kernel
  rcases build_packed_agrees (by decide : 4 ≤ 8) (by decide) [1, 2, 3, 4, 5, 6, 7] none 18 3 with
    ⟨e, he, -⟩ | ⟨f, g, hf, hg, -, -, -, hanswer⟩
  · rw [he] at hok
    cases hok
  · exact ⟨f, g, hf, hg, hanswer⟩

end Vacuum

end ApproxSet
