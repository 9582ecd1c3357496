import ApproxSet.Proofs.Evict.Cuckoo
import ApproxSet.Proofs.Evict.Vacuum
import ApproxSet.Search
import Mathlib.Logic.Function.Iterate

/-!
# The budget for relocation

A chain of relocations goes its way whatever the budget is; the budget only says how far it is
followed. So what is built with one budget is built with every larger one, down to the last byte,
and a build fails when some chain is still open after as many kicks as the budget allows.
-/
namespace ApproxSet
open BucketTable

/-- A fingerprint on its way into a bucket. -/
structure Chain [Draws] (τ : Type) where
  draws : Draws.State
  table : τ
  bucket : Nat
  fp : UInt64

namespace Chain

variable [Draws] {τ : Type} [BucketTable τ]

/-- The fingerprint takes the place of another, which is then on its way to its own other
bucket. -/
def kick (s : Scheme) (c : Chain τ) : Chain τ :=
  let victim := get c.table c.bucket c.draws.slot.1
  ⟨c.draws.slot.2, put c.table c.bucket c.draws.slot.1 c.fp, s.alternate c.bucket victim, victim⟩

/-- The table with the fingerprint in a free slot of its bucket, if there is one. -/
def settle? (c : Chain τ) : Option (τ × Draws.State) :=
  (free? c.table c.bucket).map fun k => (put c.table c.bucket k c.fp, c.draws)

/-- The chain is still open after each of its first `n` kicks. -/
def Outlasts (s : Scheme) (n : Nat) (c : Chain τ) : Prop :=
  ∀ m < n, ((kick s)^[m + 1] c).settle? = none

end Chain

namespace Scheme

variable [Draws] {τ : Type} [BucketTable τ] {s : Scheme} {m m' : Nat} {d : Draws.State} {t : τ}
  {i : Nat} {fp : UInt64} {r : τ × Draws.State}

/-- Relocation along a chain. -/
def follow (s : Scheme) (budget : Nat) (c : Chain τ) : Option (τ × Draws.State) :=
  s.relocate budget c.draws c.table c.bucket c.fp

theorem follow_succ (s : Scheme) (budget : Nat) (c : Chain τ) :
    s.follow (budget + 1) c =
      match (c.kick s).settle? with
      | some r => some r
      | none => s.follow budget (c.kick s) := by
  simp only [follow, relocate, Chain.kick, Chain.settle?]
  split
  · rename_i k hfree
    rw [hfree]
    rfl
  · rename_i hfree
    rw [hfree]
    rfl

/-- Relocation is the search for the first kick after which the chain can be closed. -/
theorem follow_eq_firstSuccess (s : Scheme) (budget : Nat) (c : Chain τ) :
    s.follow budget c =
      (firstSuccess (fun n => ((Chain.kick s)^[n + 1] c).settle?) budget).map Prod.snd := by
  suffices h : ∀ budget start, s.follow budget ((Chain.kick s)^[start] c) =
      (firstSuccessFrom (fun n => ((Chain.kick s)^[n + 1] c).settle?) budget start).map
        Prod.snd from h budget 0
  intro budget
  induction budget with
  | zero => exact fun _ => rfl
  | succ budget ih =>
    intro start
    rw [follow_succ, ← Function.iterate_succ_apply' (Chain.kick s), firstSuccessFrom]
    cases ((Chain.kick s)^[start + 1] c).settle? with
    | some r => rfl
    | none => exact ih (start + 1)

theorem follow_mono {c : Chain τ} (hm : m ≤ m') (h : s.follow m c = some r) :
    s.follow m' c = some r := by
  rw [follow_eq_firstSuccess, Option.map_eq_some_iff] at h ⊢
  obtain ⟨p, hp, hr⟩ := h
  exact ⟨p, firstSuccess_mono hm hp, hr⟩

theorem follow_eq_none_iff {c : Chain τ} : s.follow m c = none ↔ c.Outlasts s m := by
  rw [follow_eq_firstSuccess, Option.map_eq_none_iff, firstSuccess_eq_none_iff]
  rfl

/-- The chain that starts in one of the two buckets of a fingerprint, as the coin falls. -/
def chain (s : Scheme) (d : Draws.State) (t : τ) (i : Nat) (fp : UInt64) : Chain τ :=
  ⟨d.coin.2, t, if d.coin.1 then i else s.alternate i fp, fp⟩

theorem insert_eq (s : Scheme) (budget : Nat) (d : Draws.State) (t : τ) (i : Nat) (fp : UInt64) :
    s.insert budget d t i fp =
      match free? t i with
      | some k => some (put t i k fp, d)
      | none =>
        match free? t (s.alternate i fp) with
        | some k => some (put t (s.alternate i fp) k fp, d)
        | none => s.follow budget (s.chain d t i fp) :=
  rfl

theorem insert_mono (hm : m ≤ m') (h : s.insert m d t i fp = some r) :
    s.insert m' d t i fp = some r := by
  rw [insert_eq] at h ⊢
  cases hhome : free? t i with
  | some k =>
    rw [hhome] at h
    exact h
  | none =>
    cases hother : free? t (s.alternate i fp) with
    | some k =>
      rw [hhome, hother] at h
      exact h
    | none =>
      rw [hhome, hother] at h
      exact follow_mono hm h

/-- Both buckets of a fingerprint are full, and the chain that it starts is still open after `n`
kicks. -/
def Unplaced (s : Scheme) (n : Nat) (d : Draws.State) (t : τ) (i : Nat) (fp : UInt64) : Prop :=
  free? t i = none ∧ free? t (s.alternate i fp) = none ∧ (s.chain d t i fp).Outlasts s n

theorem insert_eq_none_iff : s.insert m d t i fp = none ↔ s.Unplaced m d t i fp := by
  rw [insert_eq, Unplaced, ← follow_eq_none_iff]
  cases free? t i with
  | some k => simp
  | none => cases free? t (s.alternate i fp) <;> simp

/-- The hashes before one of them find places with chains of at most `n` kicks, and that one does
not. -/
inductive Overruns (s : Scheme) (n : Nat) : Draws.State → τ → List UInt64 → Prop
  | here {d : Draws.State} {t : τ} {h : UInt64} {hs : List UInt64} :
    s.Unplaced n d t (s.home h) (s.fingerprint h) → Overruns s n d t (h :: hs)
  | later {d d' : Draws.State} {t t' : τ} {h : UInt64} {hs : List UInt64} :
    s.insert n d t (s.home h) (s.fingerprint h) = some (t', d') → Overruns s n d' t' hs →
      Overruns s n d t (h :: hs)

theorem fill_mono (hm : m ≤ m') {hashes : List UInt64} {t' : τ}
    (h : s.fill m d t hashes = some t') : s.fill m' d t hashes = some t' := by
  induction hashes generalizing d t with
  | nil => exact h
  | cons k ks ih =>
    simp only [fill] at h ⊢
    split at h
    · rename_i t₁ d₁ hins
      rw [insert_mono hm hins]
      exact ih h
    · cases h

theorem fill_eq_none_iff {hashes : List UInt64} :
    s.fill m d t hashes = none ↔ s.Overruns m d t hashes := by
  induction hashes generalizing d t with
  | nil =>
    constructor <;> intro h <;> cases h
  | cons k ks ih =>
    simp only [fill]
    cases hins : s.insert m d t (s.home k) (s.fingerprint k) with
    | none => exact iff_of_true rfl (.here (insert_eq_none_iff.mp hins))
    | some r =>
      rw [ih]
      constructor
      · exact .later hins
      · intro h
        cases h with
        | here hopen =>
          rw [insert_eq_none_iff.mpr hopen] at hins
          cases hins
        | later hins' h =>
          cases hins.symm.trans hins'
          exact h

variable {seed : UInt64} {keys : List UInt64}

theorem store_mono (hm : m ≤ m') {t' : τ} (h : s.store m seed t keys = .ok t') :
    s.store m' seed t keys = .ok t' := by
  rw [store, fill_mono hm (store_eq_ok h)]

theorem store_eq_error_iff {e : Error} : s.store m seed t keys = .error e ↔
    e = .evictionExceeded m ∧ s.Overruns m (Draws.start seed) t (keys.map (mix · seed)) := by
  rw [← fill_eq_none_iff, store]
  cases s.fill m (Draws.start seed) t (keys.map (mix · seed)) <;> simp [eq_comm]

end Scheme

/-! ### Built filters -/

namespace Cuckoo

variable [Draws]

/-- The budget falls short of what the table for the hashes takes. -/
def Overruns (hashes : List UInt64) (width : Nat) (capacity : Option Nat) (seed : UInt64)
    (maxKicks : Nat) : Prop :=
  let keys := distinct hashes
  let e := indexBitsFor (capacity.getD keys.length)
  (scheme width e).Overruns maxKicks (Draws.start seed) (Dense.empty width (1 <<< e))
    (keys.map (mix · seed))

variable {hashes : List UInt64} {width : Nat} {capacity : Option Nat} {seed : UInt64} {m m' : Nat}

theorem build_mono (hm : m ≤ m') {f : Cuckoo} (h : build hashes width capacity seed m = .ok f) :
    build hashes width capacity seed m' = .ok f := by
  simp only [build, bind_eq_ok_iff] at h ⊢
  obtain ⟨t, ht, hf⟩ := h
  exact ⟨t, Scheme.store_mono hm ht, hf⟩

theorem build_eq_error_iff {e : Error} : build hashes width capacity seed m = .error e ↔
    e = .evictionExceeded m ∧ Overruns hashes width capacity seed m := by
  rw [Overruns, ← Scheme.store_eq_error_iff, build, bind_eq_error_iff]
  apply or_iff_left
  rintro ⟨_, -, h⟩
  cases h

end Cuckoo

namespace Vacuum

variable [Draws]

/-- The budget falls short of what the table for the hashes takes. -/
def Overruns (z : Sizing) (hashes : List UInt64) (width : Nat) (packed : Bool) (seed : UInt64)
    (maxKicks : Nat) : Prop :=
  let mixed := (distinct hashes).map (mix · seed)
  if packed then
    (scheme (width + 1) z.buckets z.ranges).Overruns maxKicks (Draws.start seed)
      (Loose.empty z.buckets) mixed
  else
    (scheme width z.buckets z.ranges).Overruns maxKicks (Draws.start seed)
      (Dense.empty width z.buckets) mixed

variable {hashes : List UInt64} {width : Nat} {packed : Bool} {capacity : Option Nat}
  {seed : UInt64} {m m' : Nat}

theorem build_mono (hm : m ≤ m') {f : Vacuum}
    (h : build hashes width packed capacity seed m = .ok f) :
    build hashes width packed capacity seed m' = .ok f := by
  cases packed with
  | true =>
    obtain ⟨z, t, hz, hstore, rfl⟩ := build_packed_eq_ok h
    rw [build_packed_eq hz, Scheme.store_mono hm hstore]
    rfl
  | false =>
    obtain ⟨z, t, hz, hstore, rfl⟩ := build_plain_eq_ok h
    rw [build_plain_eq hz, Scheme.store_mono hm hstore]
    rfl

/-- A table that has a size is filled unless the budget falls short. -/
theorem build_eq_error_iff {z : Sizing}
    (hz : sizingFor (capacity.getD (distinct hashes).length) = .ok z) {e : Error} :
    build hashes width packed capacity seed m = .error e ↔
      e = .evictionExceeded m ∧ Overruns z hashes width packed seed m := by
  cases packed with
  | true =>
    rw [build_packed_eq hz, map_eq_error_iff, Scheme.store_eq_error_iff]
    rfl
  | false =>
    rw [build_plain_eq hz, map_eq_error_iff, Scheme.store_eq_error_iff]
    rfl

end Vacuum

namespace Scheme

/-- A filter built with one budget is built with every larger one. Once the table has a size, a
build fails exactly when some chain is still open after as many kicks as the budget allows, and this
number is what the error tells. -/
theorem build_more_kicks [Draws] :
    (∀ (w : BucketWidth) (hashes : List UInt64) (capacity : Option Nat) (seed : UInt64) (m : Nat),
      (∀ m' f, m ≤ m' → Cuckoo.build hashes w.bits capacity seed m = .ok f →
        Cuckoo.build hashes w.bits capacity seed m' = .ok f) ∧
      ∀ e, Cuckoo.build hashes w.bits capacity seed m = .error e ↔
        e = .evictionExceeded m ∧ Cuckoo.Overruns hashes w.bits capacity seed m) ∧
    ∀ (w : BucketWidth) (packed : Bool) (hashes : List UInt64) (capacity : Option Nat)
      (seed : UInt64) (m : Nat),
      (∀ m' f, m ≤ m' → Vacuum.build hashes w.bits packed capacity seed m = .ok f →
        Vacuum.build hashes w.bits packed capacity seed m' = .ok f) ∧
      ∀ z, Vacuum.sizingFor (capacity.getD (distinct hashes).length) = .ok z →
        ∀ e, Vacuum.build hashes w.bits packed capacity seed m = .error e ↔
          e = .evictionExceeded m ∧ Vacuum.Overruns z hashes w.bits packed seed m := by
  constructor
  · intro w hashes capacity seed m
    refine ⟨?_, fun e => Cuckoo.build_eq_error_iff⟩
    intro m' f hm h
    exact Cuckoo.build_mono hm h
  · intro w packed hashes capacity seed m
    refine ⟨?_, fun z hz e => Vacuum.build_eq_error_iff hz⟩
    intro m' f hm h
    exact Vacuum.build_mono hm h

/-- Seven hashes in eight slots: a cuckoo table takes a chain of two kicks, a packed vacuum table
one of three. -/
theorem build_more_kicks_seven :
    (∃ f, Cuckoo.build [1, 2, 3, 4, 5, 6, 7] 8 none 18 2 = .ok f ∧
      Cuckoo.build [1, 2, 3, 4, 5, 6, 7] 8 none 18 500 = .ok f) ∧
    (Cuckoo.build [1, 2, 3, 4, 5, 6, 7] 8 none 18 1 = .error (.evictionExceeded 1) ∧
      Cuckoo.Overruns [1, 2, 3, 4, 5, 6, 7] 8 none 18 1) ∧
    (∃ f, Vacuum.build [1, 2, 3, 4, 5, 6, 7] 8 true none 18 3 = .ok f ∧
      Vacuum.build [1, 2, 3, 4, 5, 6, 7] 8 true none 18 500 = .ok f) ∧
    Vacuum.build [1, 2, 3, 4, 5, 6, 7] 8 true none 18 2 = .error (.evictionExceeded 2) ∧
      Vacuum.Overruns ⟨2, #v[1, 1, 1, 1]⟩ [1, 2, 3, 4, 5, 6, 7] 8 true 18 2 := by
  have hkeys : distinct [1, 2, 3, 4, 5, 6, 7] = [1, 2, 3, 4, 5, 6, 7] :=
    distinct_of_ascending (by decide)
  have hsize : Vacuum.sizingFor ((none : Option Nat).getD (distinct [1, 2, 3, 4, 5, 6, 7]).length) =
      .ok ⟨2, #v[1, 1, 1, 1]⟩ := by
    rw [hkeys]
    rfl
  have htwo : (Cuckoo.build [1, 2, 3, 4, 5, 6, 7] 8 none 18 2).isOk = true := by
    rw [Cuckoo.build, hkeys]
    decide +kernel
  have hone : (Cuckoo.build [1, 2, 3, 4, 5, 6, 7] 8 none 18 1).isOk = false := by
    rw [Cuckoo.build, hkeys]
    decide +kernel
  have hthree : (Vacuum.build [1, 2, 3, 4, 5, 6, 7] 8 true none 18 3).isOk = true := by
    rw [Vacuum.build, hkeys]
    decide +kernel
  have htwo' : (Vacuum.build [1, 2, 3, 4, 5, 6, 7] 8 true none 18 2).isOk = false := by
    rw [Vacuum.build, hkeys]
    decide +kernel
  obtain ⟨f, hf⟩ := exists_ok_of_isOk htwo
  obtain ⟨e, he⟩ := exists_error_of_isOk hone
  obtain ⟨g, hg⟩ := exists_ok_of_isOk hthree
  obtain ⟨e', he'⟩ := exists_error_of_isOk htwo'
  obtain ⟨rfl, hopen⟩ := ((build_more_kicks.1 .eight _ none 18 1).2 e).mp he
  obtain ⟨rfl, hopen'⟩ := ((build_more_kicks.2 .eight true _ none 18 2).2 _ hsize e').mp he'
  have hmore := (build_more_kicks.1 .eight _ none 18 2).1 500 f (by decide) hf
  have hmore' := (build_more_kicks.2 .eight true _ none 18 3).1 500 g (by decide) hg
  exact ⟨⟨f, hf, hmore⟩, ⟨he, hopen⟩, ⟨g, hg, hmore'⟩, he', hopen'⟩

end Scheme

end ApproxSet
