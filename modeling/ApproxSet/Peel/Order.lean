import ApproxSet.Peel.Layout

/-!
# Peeling

A slot touched by exactly one remaining hash is picked together with that hash, which then leaves
its three slots; this is repeated while such slots exist. `Layout.peel` returns the picks, latest
first. Slots that come down to one hash wait on a stack for each lane, and the lowest lane that is
not empty is served.
-/
namespace ApproxSet

/-- For each slot, how many remaining hashes touch it and the xor of those hashes. -/
structure Tally where
  degree : Array Nat
  mask : Array UInt64

namespace Tally

def empty (n : Nat) : Tally := ⟨Array.replicate n 0, Array.replicate n 0⟩

def add (t : Tally) (h : UInt64) (s : Nat) : Tally :=
  match t with
  | ⟨degree, mask⟩ => ⟨degree.modify s (· + 1), mask.modify s (· ^^^ h)⟩

def remove (t : Tally) (h : UInt64) (s : Nat) : Tally :=
  match t with
  | ⟨degree, mask⟩ => ⟨degree.modify s (· - 1), mask.modify s (· ^^^ h)⟩

/-- The tally of all the given mixed hashes. -/
def ofHashes (l : Layout) (hs : List UInt64) : Tally :=
  hs.foldl (fun t h => let s := l.slots h; ((t.add h s.a).add h s.b).add h s.c) (empty l.size)

/-- Whether exactly one remaining hash touches the slot. -/
def isSingle (t : Tally) (s : Nat) : Bool := t.degree.getD s 0 == 1

end Tally

/-- Slots waiting to be picked, a stack for each lane. -/
structure Waiting where
  low : List Nat := []
  middle : List Nat := []
  high : List Nat := []

namespace Waiting

def push (w : Waiting) (lane s : Nat) : Waiting :=
  match lane with
  | 0 => { w with low := s :: w.low }
  | 1 => { w with middle := s :: w.middle }
  | _ => { w with high := s :: w.high }

/-- The top slot of the lowest lane that is not empty. -/
def pop? : Waiting → Option (Nat × Waiting)
  | ⟨s :: l, m, h⟩ => some (s, ⟨l, m, h⟩)
  | ⟨[], s :: m, h⟩ => some (s, ⟨[], m, h⟩)
  | ⟨[], [], s :: h⟩ => some (s, ⟨[], [], h⟩)
  | ⟨[], [], []⟩ => none

end Waiting

/-- A hash and the slot that it alone touched when it was picked. -/
structure Pick where
  hash : UInt64
  slot : Nat
  deriving DecidableEq

structure Peeling where
  tally : Tally
  waiting : Waiting
  /-- Latest first. -/
  picks : List Pick

namespace Peeling

/-- All hashes present, the slots of single hashes waiting in ascending order. -/
def start (l : Layout) (hs : List UInt64) : Peeling :=
  let t := Tally.ofHashes l hs
  { tally := t
    waiting := (List.range l.size).foldl
      (fun w s => if t.isSingle s then w.push (l.lane s) s else w) {}
    picks := [] }

/-- Hash `h` leaves slot `s`, which waits from now on if one hash is left in it. -/
def leave (l : Layout) (h : UInt64) (p : Peeling) (s : Nat) : Peeling :=
  match p with
  | ⟨tally, waiting, picks⟩ =>
    let t := tally.remove h s
    ⟨t, if t.isSingle s then waiting.push (l.lane s) s else waiting, picks⟩

/-- Picks slot `s` if a single hash is still there. -/
@[inline] def pick (l : Layout) (p : Peeling) (s : Nat) : Peeling :=
  if p.tally.isSingle s then
    let h := p.tally.mask.getD s 0
    let t := l.slots h
    let p := { p with picks := ⟨h, s⟩ :: p.picks }
    leave l h (leave l h (leave l h p t.a) t.b) t.c
  else p

/-- Serves at most `n` waiting slots. -/
def run (l : Layout) : Nat → Peeling → Peeling
  | 0, p => p
  | n + 1, p =>
    match p with
    | ⟨tally, waiting, picks⟩ =>
      match waiting.pop? with
      | none => ⟨tally, waiting, picks⟩
      | some (s, w) => run l n (pick l ⟨tally, w, picks⟩ s)

end Peeling

/-- The picks among the given mixed hashes, latest first. No slot waits more than once, so serving
as many waiting slots as there are slots serves them all. -/
def Layout.peel (l : Layout) (hs : List UInt64) : List Pick :=
  (Peeling.run l l.size (Peeling.start l hs)).picks

end ApproxSet
