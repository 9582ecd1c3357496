import ApproxSet.Error
import ApproxSet.Word.Mix

/-!
# Buckets of four slots and relocation

A fingerprint may live in its home bucket or in the alternate bucket that home and fingerprint
determine; going to the alternate twice leads back. When both are full, a chosen fingerprint is
thrown out and moves to its own other bucket, and so on, for as many steps as the budget allows.
Which bucket a chain starts in and which slot each step empties are read off a stream of words; any
stream that a seed determines will do.
-/
namespace ApproxSet

/-- A stream of words for the choices in relocation. -/
class Draws where
  State : Type
  start : (seed : UInt64) → State
  /-- The next word and the state after it. -/
  next : State → UInt64 × State

namespace Draws

/-- True when the next word is even. -/
def State.coin [Draws] (d : State) : Bool × State :=
  let (r, d) := next d
  (r &&& 1 == 0, d)

/-- The top two bits of the next word. -/
def State.slot [Draws] (d : State) : Nat × State :=
  let (r, d) := next d
  ((r >>> 62).toNat, d)

/-- The high and the low word of a product, xored. -/
def fold (a b : UInt64) : UInt64 := (a.toNat * b.toNat / UInt64.size).toUInt64 ^^^ (a * b)

/-- The stream of the filters here: a state that grows by a constant, folded with itself. -/
instance folded : Draws where
  State := UInt64
  start seed := seed
  next s :=
    let s := s + 0x2d358dccaa6c78a5
    (fold s (s ^^^ 0x8bb84b93962eacc9), s)

end Draws

/-- A table of buckets with four slots each; zero marks an empty slot. -/
class BucketTable (τ : Type) where
  /-- The first empty slot of a bucket. -/
  free? : τ → (bucket : Nat) → Option Nat
  get : τ → (bucket slot : Nat) → UInt64
  put : τ → (bucket slot : Nat) → UInt64 → τ

/-- How a table of buckets places mixed hashes. -/
structure Scheme where
  /-- Width of a fingerprint in bits. -/
  width : Nat
  /-- The home bucket of a mixed hash. -/
  home : UInt64 → Nat
  /-- For each fingerprint, the logarithm of the range its two buckets share. -/
  reach : UInt64 → Nat

namespace Scheme

/-- The high bits of a mixed hash, zero being replaced by one. -/
def fingerprint (s : Scheme) (h : UInt64) : UInt64 :=
  let f := h >>> (64 - s.width.toUInt64)
  if f = 0 then 1 else f

/-- The other bucket of a fingerprint that lives in bucket `i`. -/
def alternate (s : Scheme) (i : Nat) (fp : UInt64) : Nat :=
  i ^^^ ((mix64 fp).toNat % (1 <<< s.reach fp))

variable [Draws] {τ : Type} [BucketTable τ]

/-- Puts `fp` into a chosen slot of bucket `i` and carries on with the fingerprint it replaces.
No result means that the budget is spent. -/
@[specialize] def relocate (s : Scheme) : (budget : Nat) → Draws.State → τ → (i : Nat) →
    (fp : UInt64) → Option (τ × Draws.State)
  | 0, _, _, _, _ => none
  | budget + 1, d, t, i, fp =>
    let (slot, d) := d.slot
    let victim := BucketTable.get t i slot
    let t := BucketTable.put t i slot fp
    let j := s.alternate i victim
    match BucketTable.free? t j with
    | some k => some (BucketTable.put t j k victim, d)
    | none => relocate s budget d t j victim

/-- Stores `fp` in its home bucket `i` or its other one, relocating if both are full. -/
@[specialize] def insert (s : Scheme) (budget : Nat) (d : Draws.State) (t : τ) (i : Nat)
    (fp : UInt64) : Option (τ × Draws.State) :=
  match BucketTable.free? t i with
  | some k => some (BucketTable.put t i k fp, d)
  | none =>
    let j := s.alternate i fp
    match BucketTable.free? t j with
    | some k => some (BucketTable.put t j k fp, d)
    | none =>
      let (home, d) := d.coin
      s.relocate budget d t (if home then i else j) fp

/-- Stores the given mixed hashes one after the other. -/
@[specialize] def fill (s : Scheme) (budget : Nat) : Draws.State → τ → List UInt64 →
    Option τ
  | _, t, [] => some t
  | d, t, h :: hs =>
    match s.insert budget d t (s.home h) (s.fingerprint h) with
    | some (t, d) => fill s budget d t hs
    | none => none

/-- A table that holds the keys mixed under `seed`. -/
@[specialize] def store (s : Scheme) (budget : Nat) (seed : UInt64) (t : τ) (keys : List UInt64) :
    Except Error τ :=
  match s.fill budget (Draws.start seed) t (keys.map (mix · seed)) with
  | some t => .ok t
  | none => .error (.evictionExceeded budget)

/-- Whether a mixed hash may be stored, by a test of one bucket for a fingerprint. -/
@[specialize] def mayHold (s : Scheme) (has : Nat → UInt64 → Bool) (h : UInt64) : Bool :=
  let i := s.home h
  let fp := s.fingerprint h
  has i fp || has (s.alternate i fp) fp

end Scheme

end ApproxSet
