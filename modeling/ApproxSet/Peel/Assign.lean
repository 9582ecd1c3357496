import ApproxSet.Error
import ApproxSet.Peel.Order
import ApproxSet.Search

/-!
# Fingerprints in slots

The stored slots are chosen so that the three slots of a key xor to its fingerprint. Walking the
picks from the latest to the earliest, each pick sets its own slot to what the other two still lack.
`Layout.solve` tries one seed after the other until all keys can be picked.
-/
namespace ApproxSet

/-- The fingerprint of a mixed hash: its two halves xored, cut to `w` bits. -/
def fingerprint (w : Nat) (h : UInt64) : BitVec w := (h ^^^ (h >>> 32)).toBitVec.setWidth w

namespace Layout

/-- The xor of the three slots of a mixed hash. -/
def sum {w : Nat} (l : Layout) (slots : Array (BitVec w)) (h : UInt64) : BitVec w :=
  let t := l.slots h
  slots.getD t.a 0 ^^^ slots.getD t.b 0 ^^^ slots.getD t.c 0

/-- Slots that satisfy every pick, given latest first. -/
def assign (w : Nat) (l : Layout) (picks : List Pick) : Array (BitVec w) :=
  picks.foldl
    (fun slots p => slots.setIfInBounds p.slot (fingerprint w p.hash ^^^ l.sum slots p.hash))
    (Array.replicate l.size 0)

/-- The picks under one seed, if every key gets picked. -/
def peelAll? (l : Layout) (keys : List UInt64) (seed : UInt64) : Option (List Pick) :=
  let picks := l.peel (keys.map (mix · seed))
  if picks.length = keys.length then some picks else none

/-- The first attempt below `tries` that picks every key, with its picks. -/
def firstPeel? (l : Layout) (keys : List UInt64) (seed : UInt64) (tries : Nat) :
    Option (Nat × List Pick) :=
  firstSuccess (fun j => l.peelAll? keys (trySeed seed j)) tries

/-- The winning seed and the slots under it. -/
def solve (w : Nat) (l : Layout) (keys : List UInt64) (seed : UInt64) (tries : Nat) :
    Except Error (UInt64 × Array (BitVec w)) :=
  match l.firstPeel? keys seed tries with
  | some (j, picks) => .ok (trySeed seed j, l.assign w picks)
  | none => .error (.peelExhausted tries)

end Layout

end ApproxSet
