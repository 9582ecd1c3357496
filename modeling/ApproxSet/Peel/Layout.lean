import ApproxSet.Word.Mix

/-!
# Slot layouts of peeled filters

A layout sends every mixed hash to three distinct slots. `blocks n` takes one slot from each of
three blocks of length `n`; `Segments.layout` takes three slots from consecutive segments. Slots are
sorted into at most three lanes, and peeling serves the lower lanes first.
-/
namespace ApproxSet

structure Triple where
  a : Nat
  b : Nat
  c : Nat

def Triple.toList (t : Triple) : List Nat := [t.a, t.b, t.c]

structure Layout where
  /-- Number of slots. -/
  size : Nat
  /-- The three slots of a mixed hash. -/
  slots : UInt64 → Triple
  /-- The lane of a slot: 0, 1 or 2. -/
  lane : Nat → Nat := fun _ => 0

/-- `h` rotated left by `k` bits, for `0 < k < 64`. -/
def rotateLeft (h : UInt64) (k : UInt64) : UInt64 := (h <<< k) ||| (h >>> (64 - k))

namespace Layout

/-- Three blocks of length `n`, each hash having one slot in each, block by block a lane. -/
def blocks (n : Nat) : Layout where
  size := 3 * n
  slots h :=
    { a := scale32 h.toUInt32 n
      b := scale32 (rotateLeft h 21).toUInt32 n + n
      c := scale32 (rotateLeft h 42).toUInt32 n + 2 * n }
  lane s := s / n

end Layout

/-- Segments of equal length, a power of two. The first slot of a hash lies in the first
`spread` slots; the other two lie in the next two segments. -/
structure Segments where
  length : Nat
  spread : Nat
  deriving DecidableEq

namespace Segments

def size (g : Segments) : Nat := g.spread + 2 * g.length

/-- The slots of a mixed hash. Offsets inside the second and third segment are changed by a xor,
which stays inside the segment. -/
def slots (g : Segments) (h : UInt64) : Triple :=
  let a := scale64 h g.spread
  { a := a
    b := (a + g.length) ^^^ ((h >>> 18).toNat % g.length)
    c := (a + 2 * g.length) ^^^ (h.toNat % g.length) }

def layout (g : Segments) : Layout where
  size := g.size
  slots := g.slots

end Segments

end ApproxSet
