/-!
# Key hashes

Filters never look at a key hash directly: they add a seed and pass the sum through `mix64`, a
permutation of the 64-bit words. This file also maps mixed words onto `0..n` without division by
`n`, and lists the seeds that repeated construction attempts use. Constructions that must not see a
hash twice work on `distinct`, which depends on the given list only as a set.
-/
namespace ApproxSet

/-- A word xored with itself shifted right; a permutation for every positive shift. -/
def xorShift (k h : UInt64) : UInt64 := h ^^^ (h >>> k)

/-- Three xor-shifts around two multiplications by odd constants. -/
def mix64 (k : UInt64) : UInt64 :=
  let h := xorShift 33 k * 0xff51afd7ed558ccd
  let h := xorShift 33 h * 0xc4ceb9fe1a85ec53
  xorShift 33 h

/-- The mixed form of `key` under `seed`. -/
def mix (key seed : UInt64) : UInt64 := mix64 (key + seed)

/-- A 32-bit word taken as a fraction of `2 ^ 32`, scaled to `0..n`. -/
def scale32 (h : UInt32) (n : Nat) : Nat := h.toNat * n / UInt32.size

/-- A 64-bit word taken as a fraction of `2 ^ 64`, scaled to `0..n`. -/
def scale64 (h : UInt64) (n : Nat) : Nat := h.toNat * n / UInt64.size

theorem scale32_lt (h : UInt32) {n : Nat} (hn : 0 < n) : scale32 h n < n := by
  have := h.toNat_lt
  exact Nat.div_lt_of_lt_mul (Nat.mul_lt_mul_of_pos_right this hn)

theorem scale64_lt (h : UInt64) {n : Nat} (hn : 0 < n) : scale64 h n < n := by
  have := h.toNat_lt
  exact Nat.div_lt_of_lt_mul (Nat.mul_lt_mul_of_pos_right this hn)

/-- The golden ratio as a fraction of `2 ^ 64`, made odd. -/
def golden : UInt64 := 0x9E3779B97F4A7C15

/-- The output function of the additive stream below. -/
def scramble (z : UInt64) : UInt64 :=
  let z := xorShift 30 z * 0xBF58476D1CE4E5B9
  let z := xorShift 27 z * 0x94D049BB133111EB
  xorShift 31 z

/-- The `n`-th word of the stream whose state starts at `start` and grows by `golden` before each
word is drawn. -/
def streamWord (start : UInt64) (n : Nat) : UInt64 :=
  scramble (start + golden * (n + 1).toUInt64)

/-- The seed of attempt `j`: first the given one, then the words of the stream it starts. -/
def trySeed (seed : UInt64) : Nat → UInt64
  | 0 => seed
  | n + 1 => streamWord seed n

/-- Prepends `a` unless the list already starts with it. -/
def consNew (a : UInt64) (r : List UInt64) : List UInt64 :=
  if r.head? = some a then r else a :: r

/-- The distinct hashes in ascending order. -/
def distinct (hashes : List UInt64) : List UInt64 :=
  (hashes.mergeSort (· ≤ ·)).foldr consNew []

end ApproxSet
