import ApproxSet.Blob

/-!
# Building blobs

A blob is built for the family that the options select. Peeling that runs out of seeds degrades to a
blob that contains everything; a ribbon with fallback that cannot be made is replaced by a binary
fuse filter; every other failure is passed on. No hashes give the empty blob.
-/
namespace ApproxSet

inductive Outcome
  | ok
  /-- Peeling ran out of seeds; the blob contains everything. -/
  | degraded
  deriving DecidableEq

namespace Outcome

def name : Outcome → String
  | .ok => "Ok"
  | .degraded => "Degraded"

end Outcome

/-- A peeling failure becomes a blob that contains everything. -/
def settle : Except Error Filter → Except Error (Blob × Outcome)
  | .ok f => .ok (.primary f, .ok)
  | .error (.peelExhausted _) => .ok (.alwaysTrue, .degraded)
  | .error e => .error e

/-- The failures of a ribbon that a fallback makes up for. -/
def Error.allowsFallback : Error → Bool
  | .keyCount .. | .unsolvable => true
  | _ => false

namespace Blob

/-- The filter becomes one that stands in for another family. -/
def asFallback : Blob → Blob
  | .primary f => .fallback f
  | b => b

end Blob

namespace Options

/-- The family that stands in for a ribbon of the same budget. -/
def fallbackFamily (o : Options) : Family :=
  if o.milliBits ≤ 8000 then .binaryFuse .eight else .binaryFuse .sixteen

/-- The blob over the given hashes under a seed. -/
def buildBlobWith (o : Options) (hashes : List UInt64) (seed : UInt64) :
    Except Error (Blob × Outcome) :=
  if hashes.isEmpty then .ok (.empty, .ok)
  else
    match Filter.build o.family hashes o seed with
    | .error e =>
      if o.family = .ribbonWithFallback ∧ e.allowsFallback then
        (settle (Filter.build o.fallbackFamily hashes o seed)).map fun (b, r) => (b.asFallback, r)
      else settle (.error e)
    | .ok f => settle (.ok f)

/-- The blob over the given hashes; `fresh` is the seed where the options give none. -/
def buildBlob (o : Options) (hashes : List UInt64) (fresh : UInt64) :
    Except Error (Blob × Outcome) :=
  o.buildBlobWith hashes (o.seed.getD fresh)

/-- Appends the encoded blob to `buffer`. -/
def buildInto (o : Options) (buffer : List UInt8) (hashes : List UInt64) (fresh : UInt64) :
    Except Error (List UInt8 × Outcome) :=
  (o.buildBlob hashes fresh).map fun (b, r) => (buffer ++ b.encode, r)

/-- Appends the encoded blob to the buffer at hand, the state of the computation, which outlives a
failure. -/
def appendBlob (o : Options) (hashes : List UInt64) (fresh : UInt64) :
    ExceptT Error (StateM (List UInt8)) Outcome := do
  let (b, r) ← MonadExcept.ofExcept (o.buildBlob hashes fresh)
  modify (· ++ b.encode)
  return r

end Options

/-- The encoded blob over the given hashes. -/
def build (hashes : List UInt64) (settings : List Setting) (fresh : UInt64) :
    Except Error (List UInt8 × Outcome) :=
  (Options.ofSettings settings).buildInto [] hashes fresh

end ApproxSet
