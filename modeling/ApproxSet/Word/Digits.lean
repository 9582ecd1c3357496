/-!
# Binary digits

`ones w n` counts the ones among the low `n` bits of a word; `parity` is the count of all of them
modulo two, obtained by folding the word onto itself. `roundEven` is the nearest integer to a
quotient, a tie going to the even one, and `significant k n` is `n` rounded in this way to `k`
binary digits.
-/
namespace ApproxSet

/-- Bit `i` of a word. -/
def bitAt (w : UInt64) (i : Nat) : Bool := w.toBitVec.getLsbD i

/-- Ones among bits `0..n`. -/
def ones (w : UInt64) : Nat → Nat
  | 0 => 0
  | n + 1 => ones w n + (bitAt w n).toNat

/-- The word whose bits `0..n` are given by `p`. -/
def wordOf (p : Nat → Bool) : Nat → UInt64
  | 0 => 0
  | n + 1 => wordOf p n ||| (if p n then 1 <<< n.toUInt64 else 0)

/-- The sum of all bits modulo two. -/
def parity (w : UInt64) : Bool :=
  let w := w ^^^ (w >>> 32)
  let w := w ^^^ (w >>> 16)
  let w := w ^^^ (w >>> 8)
  let w := w ^^^ (w >>> 4)
  let w := w ^^^ (w >>> 2)
  let w := w ^^^ (w >>> 1)
  w &&& 1 == 1

/-! ### Rounding -/

/-- The integer nearest to `num / den`, the even one of two. -/
def roundEven (num den : Nat) : Nat :=
  let q := num / den
  let r := num % den
  if 2 * r < den then q else if den < 2 * r then q + 1 else q + q % 2

/-- `n` rounded to its `k` leading binary digits, for `0 < k`. -/
def significant (k n : Nat) : Nat :=
  if n < 1 <<< k then n
  else
    let unit := 1 <<< (n.log2 + 1 - k)
    roundEven n unit * unit

/-- The least `e` with `n ≤ 2 ^ e`. -/
def ceilLog2 (n : Nat) : Nat := if n ≤ 1 then 0 else (n - 1).log2 + 1

/-- `n` rounded up to a multiple of `m`. -/
def roundUpTo (m n : Nat) : Nat := (n + m - 1) / m * m

end ApproxSet
