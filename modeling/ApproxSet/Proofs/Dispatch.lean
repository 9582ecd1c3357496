import ApproxSet.Proofs.Blob
import ApproxSet.Proofs.Failures
import ApproxSet.Proofs.SameKeys

/-!
# The ways a build takes

A build ends in one of four ways: with a filter of the family asked for, with a fuse filter in the
place of a ribbon, with the blob that contains everything because peeling ran out of seeds, or with
a failure that is passed on. The way decides what is appended to a buffer, if anything is.
-/
namespace ApproxSet
open ApproxSet.Filter (Exhausts Fails fails_of_build)

theorem Error.allowsFallback_iff {e : Error} : e.allowsFallback = true ↔
    (∃ count least most, e = .keyCount count least most) ∨ e = .unsolvable := by
  cases e <;> simp [allowsFallback]

namespace Options

variable {o : Options} {hashes : List UInt64} {seed : UInt64}

/-- A ribbon with fallback was asked for and no ribbon can be made. -/
def FallsBack (o : Options) (hashes : List UInt64) (seed : UInt64) : Prop :=
  o.family = .ribbonWithFallback ∧
    ((∃ count least most, Ribbon.build hashes o.milliBits seed o.ribbonMinKeys =
        .error (.keyCount count least most)) ∨
      Ribbon.build hashes o.milliBits seed o.ribbonMinKeys = .error .unsolvable)

/-- The failures that are passed on, and for which families. -/
def PassesOn (o : Options) (hashes : List UInt64) : Error → Prop
  | .invalidField field =>
    o.family.sizeField? = some field ∨
      o.family = .ribbonWithFallback ∧ o.fallbackFamily.sizeField? = some field
  | .evictionExceeded kicks => o.family.Relocates ∧ kicks = o.maxKicks
  | .keyCount count least most =>
    o.family = .ribbon ∧ count = (distinct hashes).length ∧ least = o.ribbonMinKeys ∧
      most = Ribbon.maxKeys ∧ (count < least ∨ most < count)
  | .unsolvable => o.family = .ribbon
  | .peelExhausted _ | .tooShort .. | .unknownTag _ | .version _ | .lengthMismatch .. => False

/-- What a build over some hashes comes to, with the reason. -/
inductive Dispatched (o : Options) (hashes : List UInt64) (seed : UInt64) :
    Except Error (Blob × Outcome) → Prop
  | built {f : Filter} (h : Filter.build o.family hashes o seed = .ok f) :
      Dispatched o hashes seed (.ok (.primary f, .ok))
  | replaced {f : Filter} (hfalls : o.FallsBack hashes seed)
      (h : Filter.build o.fallbackFamily hashes o seed = .ok f) :
      Dispatched o hashes seed (.ok (.fallback f, .ok))
  | exhausted (h : Exhausts o.family hashes o seed ∨
      o.FallsBack hashes seed ∧ Exhausts o.fallbackFamily hashes o seed) :
      Dispatched o hashes seed (.ok (.alwaysTrue, .degraded))
  | failed {e : Error} (h : o.PassesOn hashes e) : Dispatched o hashes seed (.error e)

theorem fallsBack_iff : o.FallsBack hashes seed ↔
    o.family = .ribbonWithFallback ∧
      ∃ e, Filter.build o.family hashes o seed = .error e ∧ e.allowsFallback = true := by
  refine and_congr_right fun hfamily => ?_
  have hbuild (e : Error) : Filter.build o.family hashes o seed = .error e ↔
      Ribbon.build hashes o.milliBits seed o.ribbonMinKeys = .error e := by
    rw [hfamily]
    exact map_eq_error_iff
  simp only [hbuild, Error.allowsFallback_iff]
  constructor
  · rintro (⟨count, least, most, h⟩ | h)
    · exact ⟨_, h, Or.inl ⟨count, least, most, rfl⟩⟩
    · exact ⟨_, h, Or.inr rfl⟩
  · rintro ⟨e, h, ⟨count, least, most, rfl⟩ | rfl⟩
    · exact Or.inl ⟨count, least, most, h⟩
    · exact Or.inr h

theorem buildBlobWith_of_fallsBack (hne : hashes ≠ []) (h : o.FallsBack hashes seed) :
    o.buildBlobWith hashes seed =
      (settle (Filter.build o.fallbackFamily hashes o seed)).map
        fun (b, r) => (b.asFallback, r) := by
  obtain ⟨hfamily, e, he, hallows⟩ := fallsBack_iff.mp h
  have hempty : ¬ hashes.isEmpty = true := by simpa using hne
  simp only [buildBlobWith, if_neg hempty, he]
  rw [if_pos ⟨hfamily, hallows⟩]

theorem buildBlobWith_of_not_fallsBack (hne : hashes ≠ []) (h : ¬ o.FallsBack hashes seed) :
    o.buildBlobWith hashes seed = settle (Filter.build o.family hashes o seed) := by
  have hempty : ¬ hashes.isEmpty = true := by simpa using hne
  rw [buildBlobWith, if_neg hempty]
  cases hbuild : Filter.build o.family hashes o seed with
  | ok f => rfl
  | error e =>
    have hnot : ¬ (o.family = .ribbonWithFallback ∧ e.allowsFallback = true) := fun hboth =>
      h (fallsBack_iff.mpr ⟨hboth.1, e, hbuild, hboth.2⟩)
    exact if_neg hnot

/-- The ways a family is settled. -/
theorem settle_build_cases (family : Family) (hashes : List UInt64) (o : Options) (seed : UInt64) :
    (∃ f, Filter.build family hashes o seed = .ok f ∧
        settle (Filter.build family hashes o seed) = .ok (.primary f, .ok)) ∨
      (Exhausts family hashes o seed ∧
        settle (Filter.build family hashes o seed) = .ok (.alwaysTrue, .degraded)) ∨
      ∃ e, Fails family hashes o seed e ∧ (∀ tries, e ≠ .peelExhausted tries) ∧
        Filter.build family hashes o seed = .error e ∧
          settle (Filter.build family hashes o seed) = .error e := by
  cases hbuild : Filter.build family hashes o seed with
  | ok f => exact Or.inl ⟨f, rfl, rfl⟩
  | error e =>
    have hfails := fails_of_build hbuild
    right
    cases hfails with
    | peeling h => exact Or.inl ⟨h, rfl⟩
    | size h => exact Or.inr ⟨_, .size h, fun _ => by simp, rfl, rfl⟩
    | relocation h => exact Or.inr ⟨_, .relocation h, fun _ => by simp, rfl, rfl⟩
    | keyCount h hn => exact Or.inr ⟨_, .keyCount h hn, fun _ => by simp, rfl, rfl⟩
    | unsolvable h => exact Or.inr ⟨_, .unsolvable h, fun _ => by simp, rfl, rfl⟩

theorem dispatched_of_fallsBack (hne : hashes ≠ []) (h : o.FallsBack hashes seed) :
    Dispatched o hashes seed (o.buildBlobWith hashes seed) := by
  obtain ⟨w, hw, -⟩ := o.exists_fallbackFamily
  rw [buildBlobWith_of_fallsBack hne h]
  rcases settle_build_cases o.fallbackFamily hashes o seed with
    ⟨f, hf, hsettle⟩ | ⟨hexhausts, hsettle⟩ | ⟨e, hfails, hpeel, he, hsettle⟩
  · rw [hsettle]
    exact .replaced h hf
  · rw [hsettle]
    exact .exhausted (Or.inr ⟨h, hexhausts⟩)
  · rw [hsettle]
    -- a fuse filter has no failures but its size and its peeling
    cases hfails with
    | size hfield => exact .failed (Or.inr ⟨h.1, hfield⟩)
    | peeling => exact absurd rfl (hpeel _)
    | relocation hfamily => simp [hw, Family.Relocates] at hfamily
    | keyCount hfamily => simp [hw, Family.IsRibbon] at hfamily
    | unsolvable hfamily => simp [hw, Family.IsRibbon] at hfamily

theorem dispatched_of_not_fallsBack (hne : hashes ≠ []) (h : ¬ o.FallsBack hashes seed) :
    Dispatched o hashes seed (o.buildBlobWith hashes seed) := by
  rw [buildBlobWith_of_not_fallsBack hne h]
  rcases settle_build_cases o.family hashes o seed with
    ⟨f, hf, hsettle⟩ | ⟨hexhausts, hsettle⟩ | ⟨e, hfails, hpeel, he, hsettle⟩
  · rw [hsettle]
    exact .built hf
  · rw [hsettle]
    exact .exhausted (Or.inl hexhausts)
  · have hplain (hallows : e.allowsFallback = true) : o.family ≠ .ribbonWithFallback :=
      fun hfamily => h (fallsBack_iff.mpr ⟨hfamily, e, he, hallows⟩)
    rw [hsettle]
    cases hfails with
    | size hfield => exact .failed (Or.inl hfield)
    | peeling => exact absurd rfl (hpeel _)
    | relocation hfamily => exact .failed ⟨hfamily, rfl⟩
    | keyCount hfamily hn =>
      exact .failed ⟨hfamily.resolve_right (hplain rfl), rfl, rfl, rfl, hn⟩
    | unsolvable hfamily => exact .failed (hfamily.resolve_right (hplain rfl))

/-- One case for each way of the dispatcher. -/
theorem dispatched (hne : hashes ≠ []) :
    Dispatched o hashes seed (o.buildBlobWith hashes seed) := by
  by_cases h : o.FallsBack hashes seed
  · exact dispatched_of_fallsBack hne h
  · exact dispatched_of_not_fallsBack hne h

/-! ### What is appended -/

/-- The bytes begin with a tag whose top bit is set. -/
def Marked (bytes : List UInt8) : Prop :=
  ∃ tag rest, bytes = tag :: rest ∧ tag &&& Blob.fallbackBit ≠ 0

/-- The bytes that a successful build appends, and its outcome. -/
structure Appends (o : Options) (hashes : List UInt64) (seed : UInt64) (bytes : List UInt8)
    (r : Outcome) : Prop where
  nil_iff : bytes = [] ↔ hashes = []
  alwaysTrue_iff : bytes = [0, 1] ↔ r = .degraded
  /-- The family that was run in the end, the one asked for or the fallback, ran out of seeds. -/
  degraded_iff : r = .degraded ↔ hashes ≠ [] ∧ (Exhausts o.family hashes o seed ∨
    o.FallsBack hashes seed ∧ Exhausts o.fallbackFamily hashes o seed)
  marked_iff : Marked bytes ↔ hashes ≠ [] ∧ o.FallsBack hashes seed ∧
    ∃ f, Filter.build o.fallbackFamily hashes o seed = .ok f
  /-- Behind a marked tag stands what a build of the fuse family itself would write. -/
  standsIn {tag : UInt8} {rest : List UInt8} (h : bytes = tag :: rest)
    (hmark : tag &&& Blob.fallbackBit ≠ 0) : ∃ w, (w = .eight ↔ o.milliBits ≤ 8000) ∧
      tag = (Family.binaryFuse w).id ||| Blob.fallbackBit ∧
        ∀ p : Options, p.family = .binaryFuse w → p.seed = some seed →
          p.peelTries = o.peelTries → ∀ fresh,
            p.buildInto [] hashes fresh = .ok ((Family.binaryFuse w).id :: rest, .ok)
  /-- Any other tag names the family asked for. -/
  tag_eq {tag : UInt8} {rest : List UInt8} (h : bytes = tag :: rest)
    (hmark : tag &&& Blob.fallbackBit = 0) (hr : r = .ok) : tag = o.family.writtenAs.id

theorem not_exhausts_of_ok {family : Family} {f : Filter}
    (h : Filter.build family hashes o seed = .ok f) : ¬ Exhausts family hashes o seed := by
  intro hexhausts
  rw [hexhausts.build_eq] at h
  cases h

theorem FallsBack.not_exhausts (h : o.FallsBack hashes seed) :
    ¬ Exhausts o.family hashes o seed := by
  rintro ⟨l, hl, -⟩
  rw [h.1] at hl
  exact hl

theorem FallsBack.ne_ok (h : o.FallsBack hashes seed) {f : Filter} :
    Filter.build o.family hashes o seed ≠ .ok f := by
  obtain ⟨-, e, he, -⟩ := fallsBack_iff.mp h
  rw [he]
  rintro ⟨⟩

/-- A peeled family reads no options but the number of tries. -/
theorem build_binaryFuse_congr {p : Options} (htries : p.peelTries = o.peelTries) (w : PeeledWidth)
    (hashes : List UInt64) (seed : UInt64) :
    Filter.build (.binaryFuse w) hashes p seed = Filter.build (.binaryFuse w) hashes o seed := by
  rw [Filter.build, Filter.build, htries]

/-- What a build of the fuse family itself writes. -/
theorem buildInto_binaryFuse (hne : hashes ≠ []) {w : PeeledWidth} {f : Filter}
    (h : Filter.build (.binaryFuse w) hashes o seed = .ok f) {p : Options}
    (hfamily : p.family = .binaryFuse w) (hseed : p.seed = some seed)
    (htries : p.peelTries = o.peelTries) (fresh : UInt64) :
    p.buildInto [] hashes fresh =
      .ok ((Family.binaryFuse w).id :: Blob.currentVersion :: f.encode, .ok) := by
  have hplain : ¬ p.FallsBack hashes seed := by
    rintro ⟨hribbon, -⟩
    rw [hfamily] at hribbon
    cases hribbon
  have hf : f.family = .binaryFuse w := Filter.family_of_build h
  rw [← build_binaryFuse_congr htries, ← hfamily] at h
  rw [buildInto, buildBlob, hseed, Option.getD_some, buildBlobWith_of_not_fallsBack hne hplain, h,
    ← hf]
  rfl

theorem marked_cons {tag : UInt8} {rest : List UInt8} :
    Marked (tag :: rest) ↔ tag &&& Blob.fallbackBit ≠ 0 := by
  constructor
  · rintro ⟨_, _, h, hmark⟩
    cases h
    exact hmark
  · exact fun hmark => ⟨tag, rest, rfl, hmark⟩

/-! One lemma for each way of a build. -/

theorem appends_nil (o : Options) (seed : UInt64) : o.Appends [] seed [] .ok where
  nil_iff := by simp
  alwaysTrue_iff := by simp
  degraded_iff := by simp
  marked_iff := by simp [Marked]
  standsIn h := by cases h
  tag_eq h := by cases h

theorem appends_of_built (hne : hashes ≠ []) {f : Filter}
    (h : Filter.build o.family hashes o seed = .ok f) :
    o.Appends hashes seed (Blob.primary f).encode .ok := by
  obtain ⟨hid, -, htop, -⟩ := Blob.tag_parts f.family
  rw [Blob.encode]
  constructor
  · simp [hne]
  · simp [hid]
  · refine iff_of_false (by decide) ?_
    rintro ⟨-, hexhausts | ⟨hfalls, -⟩⟩
    · exact not_exhausts_of_ok h hexhausts
    · exact hfalls.ne_ok h
  · rw [marked_cons]
    refine iff_of_false (not_not.mpr htop) ?_
    rintro ⟨-, hfalls, -⟩
    exact hfalls.ne_ok h
  · rintro tag rest hbytes hmark
    cases hbytes
    exact absurd htop hmark
  · rintro tag rest hbytes - -
    cases hbytes
    rw [Filter.family_of_build h]

theorem appends_of_exhausted (hne : hashes ≠ []) (h : Exhausts o.family hashes o seed ∨
    o.FallsBack hashes seed ∧ Exhausts o.fallbackFamily hashes o seed) :
    o.Appends hashes seed Blob.alwaysTrue.encode .degraded := by
  have htop : 0 &&& Blob.fallbackBit = 0 := by decide
  rw [Blob.encode]
  constructor
  · simp [hne]
  · simp [Blob.currentVersion]
  · simp [hne, h]
  · rw [marked_cons]
    refine iff_of_false (not_not.mpr htop) ?_
    rintro ⟨-, hfalls, f, hf⟩
    rcases h with hexhausts | ⟨-, hexhausts⟩
    · exact hfalls.not_exhausts hexhausts
    · exact not_exhausts_of_ok hf hexhausts
  · rintro tag rest hbytes hmark
    cases hbytes
    exact absurd htop hmark
  · rintro tag rest - - ⟨⟩

theorem appends_of_replaced (hne : hashes ≠ []) (hfalls : o.FallsBack hashes seed) {f : Filter}
    (h : Filter.build o.fallbackFamily hashes o seed = .ok f) :
    o.Appends hashes seed (Blob.fallback f).encode .ok := by
  obtain ⟨-, -, -, hid, -, htop⟩ := Blob.tag_parts f.family
  rw [Blob.encode]
  constructor
  · simp [hne]
  · simp [hid]
  · refine iff_of_false (by decide) ?_
    rintro ⟨-, hexhausts | ⟨-, hexhausts⟩⟩
    · exact hfalls.not_exhausts hexhausts
    · exact not_exhausts_of_ok h hexhausts
  · rw [marked_cons]
    exact iff_of_true htop ⟨hne, hfalls, f, h⟩
  · rintro tag rest hbytes -
    cases hbytes
    obtain ⟨w, hw, hbudget⟩ := o.exists_fallbackFamily
    rw [hw] at h
    have hf : f.family = .binaryFuse w := Filter.family_of_build h
    refine ⟨w, hbudget, by rw [hf], fun p hfamily hseed htries => ?_⟩
    exact buildInto_binaryFuse hne h hfamily hseed htries
  · rintro tag rest hbytes hmark
    cases hbytes
    exact absurd hmark htop

/-- The outcome of an append and the buffer after it. -/
theorem run_appendBlob (o : Options) (hashes : List UInt64) (fresh : UInt64)
    (buffer : List UInt8) : (o.appendBlob hashes fresh).run.run buffer =
      match o.buildBlob hashes fresh with
      | .ok (b, r) => (.ok r, buffer ++ b.encode)
      | .error e => (.error e, buffer) := by
  unfold appendBlob
  cases o.buildBlob hashes fresh <;> rfl

/-- An append that succeeds is `buildInto` on the buffer at hand. -/
theorem run_appendBlob_eq_ok_iff {o : Options} {hashes : List UInt64} {fresh : UInt64}
    {buffer bytes : List UInt8} {r : Outcome} :
    (o.appendBlob hashes fresh).run.run buffer = (.ok r, bytes) ↔
      o.buildInto buffer hashes fresh = .ok (bytes, r) := by
  rw [run_appendBlob, buildInto]
  cases o.buildBlob hashes fresh with
  | error e =>
    constructor
    · intro h
      cases h
    · intro h
      cases h
  | ok result =>
    constructor
    · intro h
      cases h
      rfl
    · intro h
      cases h
      rfl

/-- A seeded append either fails, for a reason that its options allow, and leaves the buffer as it
is, or adds bytes that the buffer has no part in. -/
theorem appendBlob_dispatch (o : Options) (hashes : List UInt64) {seed : UInt64}
    (hseed : o.seed = some seed) :
    (∃ e, o.PassesOn hashes e ∧ ∀ fresh buffer,
        (o.appendBlob hashes fresh).run.run buffer = (.error e, buffer)) ∨
      ∃ bytes r, o.Appends hashes seed bytes r ∧ ∀ fresh buffer,
        (o.appendBlob hashes fresh).run.run buffer = (.ok r, buffer ++ bytes) := by
  have hbuild (fresh : UInt64) : o.buildBlob hashes fresh = o.buildBlobWith hashes seed := by
    rw [buildBlob, hseed, Option.getD_some]
  simp only [run_appendBlob, hbuild]
  by_cases hne : hashes = []
  · subst hne
    refine Or.inr ⟨[], .ok, appends_nil o seed, fun fresh buffer => ?_⟩
    rfl
  · have hway : Dispatched o hashes seed (o.buildBlobWith hashes seed) := dispatched hne
    generalize o.buildBlobWith hashes seed = result at hway
    cases hway with
    | built h => exact Or.inr ⟨_, _, appends_of_built hne h, fun _ _ => rfl⟩
    | replaced hfalls h => exact Or.inr ⟨_, _, appends_of_replaced hne hfalls h, fun _ _ => rfl⟩
    | exhausted h => exact Or.inr ⟨_, _, appends_of_exhausted hne h, fun _ _ => rfl⟩
    | failed h => exact Or.inl ⟨_, h, fun _ _ => rfl⟩

/-- Three keys are enough for a Bloom filter and too few for a ribbon. -/
theorem appendBlob_dispatch_three :
    (∃ bytes r, (ofSettings [.family .blockedBloom, .seed 7]).Appends [3, 5, 9] 7 bytes r ∧
        ∀ fresh buffer, ((ofSettings [.family .blockedBloom, .seed 7]).appendBlob [3, 5, 9]
          fresh).run.run buffer = (.ok r, buffer ++ bytes)) ∧
      ∃ e, (ofSettings [.family .ribbon, .seed 7]).PassesOn [3, 5, 9] e ∧
        ∀ fresh buffer, ((ofSettings [.family .ribbon, .seed 7]).appendBlob [3, 5, 9]
          fresh).run.run buffer = (.error e, buffer) := by
  constructor
  · rcases appendBlob_dispatch (ofSettings [.family .blockedBloom, .seed 7]) [3, 5, 9] rfl with
      ⟨e, -, hrun⟩ | h
    · have hok : (((ofSettings [.family .blockedBloom, .seed 7]).appendBlob [3, 5, 9]
          0).run.run []).1.isOk = true := by decide +kernel
      rw [hrun] at hok
      cases hok
    · exact h
  · have hkeys : distinct [3, 5, 9] = [3, 5, 9] := distinct_of_ascending (by decide)
    rcases appendBlob_dispatch (ofSettings [.family .ribbon, .seed 7]) [3, 5, 9] rfl with
      h | ⟨bytes, r, -, hrun⟩
    · exact h
    · have hribbon : Ribbon.build [3, 5, 9] 8000 7 256 = .error (.keyCount 3 256 950000000) := by
        rw [Ribbon.build, hkeys]
        rfl
      have hfail : (ofSettings [.family .ribbon, .seed 7]).buildBlob [3, 5, 9] 0 =
          .error (.keyCount 3 256 950000000) := by
        rw [buildBlob, buildBlobWith_of_not_fallsBack (by decide) (by rintro ⟨⟨⟩, -⟩)]
        change settle ((Ribbon.build [3, 5, 9] 8000 7 256).map .ribbon) = _
        rw [hribbon]
        rfl
      have hok := hrun 0 []
      rw [run_appendBlob, hfail] at hok
      cases hok

end Options

end ApproxSet
