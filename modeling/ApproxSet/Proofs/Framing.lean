import ApproxSet.Proofs.Blob
import ApproxSet.Proofs.Wire.SelfDelimiting

/-!
# Where a blob ends

The checks of a header and the lengths that it gives do not depend on the bytes behind it, whatever
the family. So an accepted blob says itself how long it is: cut short or with bytes after it, it is
refused for its length.
-/
namespace ApproxSet

open SelfDelimiting

theorem Xor.selfDelimiting_decode (w : Nat) : SelfDelimiting (Xor.decode w) := by
  refine header fun head => ?_
  apply check
  refine bulk fun slots => ?_
  exact finish _ _

/-- Three arrays follow the header, and each may be the one that is cut. -/
theorem XorPlus.selfDelimiting_decode (w : Nat) : SelfDelimiting (XorPlus.decode w) := by
  refine header fun head => ?_
  apply check
  apply check
  refine bulk fun slots => bulk fun words => bulk fun counts => ?_
  exact finish _ _

theorem Fuse.selfDelimiting_decode (w : Nat) : SelfDelimiting (Fuse.decode w) := by
  refine header fun head => ?_
  refine SelfDelimiting.bind fun segments => ?_
  refine bulk fun slots => ?_
  exact finish _ _

theorem Bloom.selfDelimiting_decode : SelfDelimiting Bloom.decode := by
  refine header fun head => ?_
  apply check
  refine bulk fun words => ?_
  exact finish _ _

/-- The width is checked last, after the length. -/
theorem Cuckoo.selfDelimiting_decode : SelfDelimiting Cuckoo.decode := by
  refine header fun head => ?_
  apply check
  refine bulk fun table => ?_
  exact finish _ _

theorem Vacuum.selfDelimiting_decode : SelfDelimiting Vacuum.decode := by
  refine header fun head => ?_
  apply check
  apply check
  apply check
  apply check
  refine bulk fun table => ?_
  exact finish _ _

theorem Ribbon.selfDelimiting_decode : SelfDelimiting Ribbon.decode := by
  refine header fun head => ?_
  apply check
  apply check
  apply check
  refine bulk fun seeds => bulk fun words => ?_
  exact finish _ _

namespace Filter

theorem selfDelimiting_decodeAs (family : Family) : SelfDelimiting (decodeAs family) := by
  cases family with
  | xor w => exact (Xor.selfDelimiting_decode w.bits).map _
  | xorPlus w => exact (XorPlus.selfDelimiting_decode w.bits).map _
  | binaryFuse w => exact (Fuse.selfDelimiting_decode w.bits).map _
  | blockedBloom => exact Bloom.selfDelimiting_decode.map _
  | cuckoo w => exact Cuckoo.selfDelimiting_decode.map _
  | vacuum w packed => exact Vacuum.selfDelimiting_decode.map _
  | ribbon => exact Ribbon.selfDelimiting_decode.map _
  | ribbonWithFallback => exact SelfDelimiting.error _

/-- The family is compared only when the body has been read to its end. -/
theorem selfDelimiting_decode (family : Family) : SelfDelimiting (decode family) :=
  (selfDelimiting_decodeAs family).andThen _

end Filter

namespace Blob

/-- A blob that contains everything has no body. -/
theorem selfDelimiting_nil (b : Blob) : SelfDelimiting fun body =>
    if body.isEmpty then .ok b else .error (.lengthMismatch 2 (body.length + 2)) where
  cut {input part a} h hpart hne := by
    cases input with
    | nil => exact absurd (List.prefix_nil.mp hpart) hne
    | cons => cases h
  extended {input more a} h hmore := by
    cases input with
    | nil => exact ⟨_, _, if_neg (by rwa [List.nil_append, List.isEmpty_iff])⟩
    | cons => cases h

theorem selfDelimiting_body (tag version : UInt8) :
    SelfDelimiting fun body => decode (tag :: version :: body) := by
  apply check
  by_cases htag : tag = 0
  · simp only [if_pos htag]
    exact selfDelimiting_nil .alwaysTrue
  · simp only [if_neg htag]
    cases Family.ofId? (tag &&& 0x7f) with
    | none => exact SelfDelimiting.error _
    | some family => exact (Filter.selfDelimiting_decode family).map _

/-- Accepted blobs are a prefix-free code. A proper part of one, cut at any place but the front,
lacks bytes, and with bytes after it a blob is too long. -/
theorem decode_length_error {bytes : List UInt8} {b : Blob} (hne : bytes ≠ [])
    (h : decode bytes = .ok b) :
    (∀ part, part <+: bytes → part ≠ [] → part ≠ bytes →
      (∃ need got, decode part = .error (.tooShort need got)) ∨
        ∃ expected actual, decode part = .error (.lengthMismatch expected actual)) ∧
      ∀ more, more ≠ [] →
        ∃ expected actual, decode (bytes ++ more) = .error (.lengthMismatch expected actual) := by
  match bytes with
  | [] => exact absurd rfl hne
  | [_] => cases h
  | tag :: version :: body =>
    have hbody := selfDelimiting_body tag version
    constructor
    · intro part hpart hpartne hproper
      match part with
      | [] => exact absurd rfl hpartne
      | [_] => exact .inl ⟨2, 1, rfl⟩
      | t :: v :: part =>
        obtain ⟨rfl, hrest⟩ := List.cons_prefix_cons.mp hpart
        obtain ⟨rfl, hbodypart⟩ := List.cons_prefix_cons.mp hrest
        obtain ⟨e, he, hlength⟩ := hbody.cut h hbodypart fun heq => hproper (by rw [heq])
        rcases Error.isLength_iff.mp hlength with ⟨need, got, rfl⟩ | ⟨expected, actual, rfl⟩
        · exact .inl ⟨need, got, he⟩
        · exact .inr ⟨expected, actual, he⟩
    · exact fun more hmore => hbody.extended h hmore

/-- A blocked Bloom filter of one bucket that stands in for another filter. -/
theorem decode_length_error_bloom :
    ∃ b, decode ([0x85, 1, 0, 0, 0, 0, 0, 0, 0, 0, 1, 0, 0, 0] ++ List.replicate 64 0xff) = .ok b ∧
      ((∃ need got, decode [0x85, 1, 0, 0, 0] = .error (.tooShort need got)) ∨
        ∃ expected actual, decode [0x85, 1, 0, 0, 0] = .error (.lengthMismatch expected actual)) ∧
      ∃ expected actual,
        decode ([0x85, 1, 0, 0, 0, 0, 0, 0, 0, 0, 1, 0, 0, 0] ++ List.replicate 64 0xff ++ [0]) =
          .error (.lengthMismatch expected actual) := by
  obtain ⟨b, h⟩ := exists_ok_of_isOk (by decide +kernel : (decode ([0x85, 1, 0, 0, 0, 0, 0, 0, 0, 0,
    1, 0, 0, 0] ++ List.replicate 64 0xff)).isOk = true)
  obtain ⟨hcut, hmore⟩ := decode_length_error (by simp) h
  exact ⟨b, h, hcut [0x85, 1, 0, 0, 0] (by simp) (by simp) (by simp), hmore [0] (by simp)⟩

end Blob

end ApproxSet
