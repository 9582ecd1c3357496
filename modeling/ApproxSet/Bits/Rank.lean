import ApproxSet.Word.Digits

/-!
# Counting ones before a position

A list of bits in 64-bit words, with two count words for each stretch of eight words: the ones
before the stretch, and the ones before each of its words but the first, in fields of nine bits.
-/
namespace ApproxSet

structure RankedBits where
  words : Array UInt64
  counts : Array UInt64

namespace RankedBits

/-- Words that hold `n` bits. -/
def wordsFor (n : Nat) : Nat := (n + 63) / 64

/-- Count words over `n` bits. -/
def countsFor (n : Nat) : Nat := 2 * ((wordsFor n + 7) / 8)

/-- Ones in the first `k` words of stretch `b`; words past the end count nothing. -/
def onesInStretch (words : Array UInt64) (b : Nat) : Nat → Nat
  | 0 => 0
  | k + 1 => onesInStretch words b k + ones (words.getD (8 * b + k) 0) 64

/-- The counts before words `1..k+1` of stretch `b`, the first in the lowest nine bits. -/
def relativeCounts (words : Array UInt64) (b : Nat) : Nat → UInt64
  | 0 => 0
  | k + 1 =>
    relativeCounts words b k ||| ((onesInStretch words b (k + 1)).toUInt64 <<< (9 * k).toUInt64)

/-- Appends the count words of `left` stretches from `b` on, `total` ones lying before. -/
def countsFrom (words : Array UInt64) : (left b total : Nat) → Array UInt64 → Array UInt64
  | 0, _, _, acc => acc
  | left + 1, b, total, acc =>
    countsFrom words left (b + 1) (total + onesInStretch words b 8)
      ((acc.push total.toUInt64).push (relativeCounts words b 7))

def ofWords (words : Array UInt64) : RankedBits :=
  ⟨words, countsFrom words ((words.size + 7) / 8) 0 0 #[]⟩

/-- The `n` bits given by `p`. -/
def ofBits (n : Nat) (p : Nat → Bool) : RankedBits :=
  ofWords ((Array.range (wordsFor n)).map fun i =>
    wordOf (fun j => 64 * i + j < n && p (64 * i + j)) 64)

/-- The bit at `pos`. -/
def get (r : RankedBits) (pos : Nat) : Bool := bitAt (r.words.getD (pos / 64) 0) (pos % 64)

/-- Ones strictly before `pos`, as the count words tell. -/
def rank (r : RankedBits) (pos : Nat) : Nat :=
  let word := pos / 64
  let stretch := word / 8
  let k := word % 8
  let relative :=
    if k = 0 then 0
    else ((r.counts.getD (2 * stretch + 1) 0 >>> (9 * (k - 1)).toUInt64) &&& 0x1ff).toNat
  (r.counts.getD (2 * stretch) 0).toNat + relative + ones (r.words.getD word 0) (pos % 64)

end RankedBits

end ApproxSet
