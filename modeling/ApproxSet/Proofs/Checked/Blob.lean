import ApproxSet.Proofs.Blob
import ApproxSet.Proofs.Checked.Bloom
import ApproxSet.Proofs.Checked.Evict
import ApproxSet.Proofs.Checked.Peel
import ApproxSet.Proofs.Checked.Ribbon

/-!
# Untrusted bytes

What a decoder lets through is a stored filter, and on a stored filter no query goes wrong. So
neither does any read of any byte string.
-/
namespace ApproxSet
open Checked Reading

namespace Filter

def checkedMayContain (f : Filter) (hash : UInt64) : Option Bool :=
  match f with
  | .xor _ f => f.checkedMayContain hash
  | .xorPlus _ f => f.checkedMayContain hash
  | .binaryFuse _ f => f.checkedMayContain hash
  | .blockedBloom f => f.checkedMayContain hash
  | .cuckoo f => f.checkedMayContain hash
  | .vacuum f => f.checkedMayContain hash
  | .ribbon f => f.checkedMayContain hash

theorem checkedMayContain_eq {f : Filter} (hf : f.Stored) (q : UInt64) :
    f.checkedMayContain q = some (f.mayContain q) := by
  cases f with
  | xor w f => exact Xor.checkedMayContain_eq hf q
  | xorPlus w f => exact XorPlus.checkedMayContain_eq hf q
  | binaryFuse w f => exact Fuse.checkedMayContain_eq hf q
  | blockedBloom f => exact Bloom.checkedMayContain_eq hf q
  | cuckoo f => exact Cuckoo.checkedMayContain_eq hf q
  | vacuum f => exact Vacuum.checkedMayContain_eq hf q
  | ribbon f => exact Ribbon.checkedMayContain_eq hf q

def checkedDecodeAs (family : Family) (body : List UInt8) : Reading Filter :=
  match family with
  | .xor w => Filter.xor w <$> Xor.checkedDecode w.bits body
  | .xorPlus w => Filter.xorPlus w <$> XorPlus.checkedDecode w.bits body
  | .binaryFuse w => Filter.binaryFuse w <$> Fuse.checkedDecode w.bits body
  | .blockedBloom => Filter.blockedBloom <$> Bloom.checkedDecode body
  | .cuckoo _ => Filter.cuckoo <$> Cuckoo.checkedDecode body
  | .vacuum _ _ => Filter.vacuum <$> Vacuum.checkedDecode body
  | .ribbon => Filter.ribbon <$> Ribbon.checkedDecode body
  | .ribbonWithFallback => throw (.unknownTag family.id)

theorem checkedDecodeAs_eq (family : Family) (body : List UInt8) :
    checkedDecodeAs family body = outcome (decodeAs family body) := by
  cases family with
  | xor w => rw [checkedDecodeAs, Xor.checkedDecode_eq, map_outcome, decodeAs]
  | xorPlus w => rw [checkedDecodeAs, XorPlus.checkedDecode_eq, map_outcome, decodeAs]
  | binaryFuse w => rw [checkedDecodeAs, Fuse.checkedDecode_eq, map_outcome, decodeAs]
  | blockedBloom => rw [checkedDecodeAs, Bloom.checkedDecode_eq, map_outcome, decodeAs]
  | cuckoo w => rw [checkedDecodeAs, Cuckoo.checkedDecode_eq, map_outcome, decodeAs]
  | vacuum w packed => rw [checkedDecodeAs, Vacuum.checkedDecode_eq, map_outcome, decodeAs]
  | ribbon => rw [checkedDecodeAs, Ribbon.checkedDecode_eq, map_outcome, decodeAs]
  | ribbonWithFallback => rfl

def checkedDecode (family : Family) (body : List UInt8) : Reading Filter := do
  let f ← checkedDecodeAs family body
  if f.family ≠ family then
    throw (.invalidField "family")
  return f

theorem checkedDecode_eq (family : Family) (body : List UInt8) :
    checkedDecode family body = outcome (decode family body) := by
  rw [checkedDecode, checkedDecodeAs_eq]
  exact outcome_bind fun f _ => throw_if fun _ => rfl

end Filter

namespace Blob

def checkedMayContain (b : Blob) (hash : UInt64) : Option Bool :=
  match b.filter? with
  | none => some true
  | some f => f.checkedMayContain hash

theorem checkedMayContain_eq {b : Blob} (hb : b.Stored) (q : UInt64) :
    b.checkedMayContain q = some (b.mayContain q) := by
  rw [checkedMayContain, mayContain]
  cases hf : b.filter? with
  | none => rfl
  | some f => exact Filter.checkedMayContain_eq (hb f hf) q

def checkedDecode (bytes : List UInt8) : Reading Blob :=
  if bytes.isEmpty then return .empty
  else if bytes.length < 2 then throw (.tooShort 2 bytes.length)
  else do
    let tag ← compute bytes[0]?
    let version ← compute bytes[1]?
    let body ← compute (if 2 ≤ bytes.length then some (bytes.drop 2) else none)
    if version ≠ currentVersion then throw (.version version)
    else if tag = 0 then
      if body.isEmpty then return .alwaysTrue else throw (.lengthMismatch 2 bytes.length)
    else
      match Family.ofId? (tag &&& 0x7f) with
      | none => throw (.unknownTag tag)
      | some family =>
        (if tag &&& fallbackBit ≠ 0 then Blob.fallback else Blob.primary) <$>
          Filter.checkedDecode family body

theorem checkedDecode_eq (bytes : List UInt8) : checkedDecode bytes = outcome (decode bytes) := by
  match bytes with
  | [] => rfl
  | [_] => rfl
  | tag :: version :: body =>
    change (if version ≠ currentVersion then _ else _) =
      outcome (if version ≠ currentVersion then _ else _)
    split
    · rfl
    · split
      · cases body <;> rfl
      · cases Family.ofId? (tag &&& 0x7f) with
        | none => rfl
        | some family =>
          dsimp only
          rw [Filter.checkedDecode_eq, map_outcome]
          rfl

/-- For every byte string: decoding it with every step checked ends, as decoding it does; and if it
ends with a blob, so does every query of that blob, with the answer that the query gives. -/
theorem decode_mayContain_checked (bytes : List UInt8) :
    (checkedDecode bytes).run = some (decode bytes) ∧
      match decode bytes with
      | .error _ => True
      | .ok b => ∀ hash, b.checkedMayContain hash = some (b.mayContain hash) := by
  refine ⟨checkedDecode_eq bytes, ?_⟩
  cases h : decode bytes with
  | error _ => trivial
  | ok b => exact fun hash => checkedMayContain_eq (stored_of_decode h) hash

end Blob

end ApproxSet
