/-!
# Bit fields in a byte array

Bit `8 i + j` of a byte array is bit `j` of byte `i`. Fields are read and written through a window
of eight bytes; past the end of the array the window reads zeros and writes nothing. A field of `w`
bits at `pos` fits its window when `pos % 8 + w ≤ 64`.
-/
namespace ApproxSet.BitField

/-- The `n` bytes from index `i` on as a word, the first one lowest. -/
def windowOf (b : Array UInt8) (i : Nat) : Nat → UInt64
  | 0 => 0
  | n + 1 => (b.getD i 0).toUInt64 ||| (windowOf b (i + 1) n <<< 8)

/-- The eight bytes from index `i` on. -/
def window (b : Array UInt8) (i : Nat) : UInt64 := windowOf b i 8

/-- The bits from `pos` to the end of the window that starts at its byte. -/
def bitsFrom (b : Array UInt8) (pos : Nat) : UInt64 :=
  window b (pos / 8) >>> (pos % 8).toUInt64

/-- The field at `pos` under a mask. -/
def get (b : Array UInt8) (pos : Nat) (mask : UInt64) : UInt64 := bitsFrom b pos &&& mask

/-- Overwrites the `n` bytes from index `i` on with a word, as far as the array goes. -/
def storeWindow (b : Array UInt8) (i : Nat) (w : UInt64) : Nat → Array UInt8
  | 0 => b
  | n + 1 => storeWindow (b.setIfInBounds i w.toUInt8) (i + 1) (w >>> 8) n

/-- Replaces the field at `pos` under a mask. -/
def set (b : Array UInt8) (pos : Nat) (mask v : UInt64) : Array UInt8 :=
  let off := (pos % 8).toUInt64
  let w := (window b (pos / 8) &&& ~~~(mask <<< off)) ||| ((v &&& mask) <<< off)
  storeWindow b (pos / 8) w 8

/-- The word of `w` ones, `w` up to 64. -/
def lowMask (w : Nat) : UInt64 := if w < 64 then (1 <<< w.toUInt64) - 1 else ~~~0

theorem size_storeWindow (b : Array UInt8) (i : Nat) (w : UInt64) (n : Nat) :
    (storeWindow b i w n).size = b.size := by
  induction n generalizing b i w with
  | zero => rfl
  | succ n ih => simp [storeWindow, ih]

@[simp] theorem size_set (b : Array UInt8) (pos : Nat) (mask v : UInt64) :
    (set b pos mask v).size = b.size :=
  size_storeWindow ..

end ApproxSet.BitField
