/-!
# Block cipher rounds on sixteen bytes

The round of the Advanced Encryption Standard on a block of sixteen bytes, byte `i` standing in row
`i % 4` and column `i / 4`. The substitution box is computed from its definition: inversion in the
field of 256 elements, then a fixed affine map.
-/
namespace ApproxSet.KeyHash

abbrev Block := Vector UInt8 16

/-- Multiplication by `x` modulo `x^8 + x^4 + x^3 + x + 1`. -/
def double (a : UInt8) : UInt8 := (a <<< 1) ^^^ (if a ≥ 0x80 then 0x1b else 0)

/-- The product in the field of 256 elements, from the low `n` bits of `b`. -/
def fieldMulFrom (a b : UInt8) : Nat → UInt8
  | 0 => 0
  | n + 1 => (if b &&& 1 = 1 then a else 0) ^^^ fieldMulFrom (double a) (b >>> 1) n

def fieldMul (a b : UInt8) : UInt8 := fieldMulFrom a b 8

def fieldPow (a : UInt8) : Nat → UInt8
  | 0 => 1
  | n + 1 => fieldMul a (fieldPow a n)

def rotate (a : UInt8) (k : UInt8) : UInt8 := (a <<< k) ||| (a >>> (8 - k))

/-- The substitution of one byte; `a ^ 254` is the inverse of `a`, and zero for zero. -/
def substitute (a : UInt8) : UInt8 :=
  let b := fieldPow a 254
  b ^^^ rotate b 1 ^^^ rotate b 2 ^^^ rotate b 3 ^^^ rotate b 4 ^^^ 0x63

/-- The values of `substitute`. -/
def box : Vector UInt8 256 := Vector.ofFn fun i => substitute (UInt8.ofNat i)

def lookUp (a : UInt8) : UInt8 := box.get ⟨a.toNat, a.toNat_lt⟩

namespace Block

def zero : Block := Vector.replicate 16 0

def xor (a b : Block) : Block := Vector.ofFn fun i => a[i] ^^^ b[i]

/-- Bytewise addition modulo 256. -/
def add (a b : Block) : Block := Vector.ofFn fun i => a[i] + b[i]

/-- Row `r` rotated by `r` columns, each byte substituted. -/
def shiftAndSubstitute (a : Block) : Block :=
  Vector.ofFn fun i => lookUp (a.get ⟨(5 * i.val) % 16, Nat.mod_lt _ (by decide)⟩)

/-- Each column multiplied by the circulant matrix of `2, 3, 1, 1`. -/
def mixColumns (a : Block) : Block :=
  Vector.ofFn fun i =>
    let byte (k : Nat) : UInt8 := a.getD (4 * (i.val / 4) + (i.val + k) % 4) 0
    double (byte 0) ^^^ (double (byte 1) ^^^ byte 1) ^^^ byte 2 ^^^ byte 3

/-- One round with round key `k`. -/
def round (a k : Block) : Block := (a.shiftAndSubstitute.mixColumns).xor k

/-- The last round, which leaves the columns unmixed. -/
def lastRound (a k : Block) : Block := a.shiftAndSubstitute.xor k

/-- The first sixteen bytes, zeros standing in for missing ones. -/
def ofBytes (bs : List UInt8) : Block :=
  let a := (bs.take 16).toArray
  Vector.ofFn fun i => a.getD i 0

/-- Four words of four bytes, lowest byte first. -/
def ofWords (a b c d : UInt32) : Block :=
  let words := #[a, b, c, d]
  Vector.ofFn fun i => (words.getD (i.val / 4) 0 >>> (8 * (i.val % 4)).toUInt32).toUInt8

/-- The first eight bytes as a number, lowest byte first. -/
def low64 (a : Block) : UInt64 :=
  (a.toList.take 8).foldr (fun b w => (w <<< 8) ||| b.toUInt64) 0

end Block

end ApproxSet.KeyHash
