/-!
# Four fingerprints as a set

The order of the four slots of a bucket carries no meaning. Sorted, their high nibbles form one of
3876 ascending quadruples, whose rank takes twelve bits instead of sixteen. Main definitions:
`Nibbles.rank` and its inverse `Nibbles.unrank?`; `Quad.pack` and its inverse `Quad.unpack?`.
-/
namespace ApproxSet

structure Quad (α : Type) where
  a : α
  b : α
  c : α
  d : α
  deriving DecidableEq

namespace Quad

def map {α β : Type} (f : α → β) (q : Quad α) : Quad β := ⟨f q.a, f q.b, f q.c, f q.d⟩

def toList {α : Type} (q : Quad α) : List α := [q.a, q.b, q.c, q.d]

/-- Ascending, by five comparisons. -/
def sort (q : Quad UInt32) : Quad UInt32 :=
  let a := min q.a q.b
  let b := max q.a q.b
  let c := min q.c q.d
  let d := max q.c q.d
  let m := max a c
  let n := min b d
  ⟨min a c, min m n, max m n, max b d⟩

end Quad

namespace Nibbles

/-- Ascending pairs below `n`: sums of `0..n`. -/
def pairs (n : Nat) : Nat := n * (n + 1) / 2

/-- Ascending triples below `n`. -/
def triples (n : Nat) : Nat := n * (n + 1) * (n + 2) / 6

/-- Ascending quadruples below `n`. -/
def quadruples (n : Nat) : Nat := n * (n + 1) * (n + 2) * (n + 3) / 24

/-- The place of an ascending quadruple when quadruples are ordered by their greatest element,
then the next, and so on. -/
def rank (q : Quad Nat) : Nat := q.a + pairs q.b + triples q.c + quadruples q.d

/-- The greatest `k ≤ n` with `f k ≤ r`, or 0. -/
def greatest (f : Nat → Nat) (r : Nat) : (n : Nat) → Nat
  | 0 => 0
  | n + 1 => if f (n + 1) ≤ r then n + 1 else greatest f r n

/-- The quadruple of nibbles at a place, if there is one. -/
def unrank? (r : Nat) : Option (Quad Nat) :=
  if r < quadruples 16 then
    let d := greatest quadruples r 15
    let r := r - quadruples d
    let c := greatest triples r 15
    let r := r - triples c
    let b := greatest pairs r 15
    some ⟨r - pairs b, b, c, d⟩
  else none

end Nibbles

namespace Quad

/-- Four fingerprints of `width` bits in a word of `4 * width - 4` bits: the rank of the high
nibbles, and above it the low parts in ascending order of the fingerprints. -/
def pack (width : Nat) (q : Quad UInt32) : UInt64 :=
  let low := width.toUInt64 - 4
  let q := q.sort
  let part (fp : UInt32) (i : UInt64) : UInt64 :=
    (fp.toUInt64 &&& ((1 <<< low) - 1)) <<< (12 + low * i)
  let nibbles := q.map fun fp => (fp >>> low.toUInt32).toUInt8.toNat
  part q.a 0 ||| part q.b 1 ||| part q.c 2 ||| part q.d 3 |||
    (Nibbles.rank nibbles).toUInt16.toUInt64

/-- The four fingerprints of a word, unless its rank belongs to no quadruple. -/
def unpack? (width : Nat) (w : UInt64) : Option (Quad UInt32) :=
  let low := width.toUInt64 - 4
  let join (n : Nat) (i : UInt64) : UInt32 :=
    ((n.toUInt64 <<< low) ||| ((w >>> (12 + low * i)) &&& ((1 <<< low) - 1))).toUInt32
  (Nibbles.unrank? (w &&& 0xfff).toNat).map fun n =>
    ⟨join n.a 0, join n.b 1, join n.c 2, join n.d 3⟩

end Quad

end ApproxSet
