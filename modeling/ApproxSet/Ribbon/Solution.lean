import ApproxSet.Ribbon.Band
import ApproxSet.Ribbon.Columns
import ApproxSet.Word.Digits

/-!
# Solving a band backwards

Each solution column is one bit for each slot. Going from the last slot to the first, a slot's bit
is what its equation demands given the 63 bits after it, and zero where no equation begins. Words of
64 slots are stored block by block, the columns of a block side by side.
-/
namespace ApproxSet

/-- Bit `j` of the right-hand sides. -/
def valueBit (v : UInt32) (j : Nat) : Bool := v.toBitVec.getLsbD j

namespace Band

/-- One slot back: `state` holds the bits of the 64 slots after it. -/
def stepBack (j : Nat) (e : Equation) (state : UInt64) : UInt64 :=
  let s := state <<< 1
  if parity (s &&& e.coeff) == valueBit e.value j then s else s ||| 1

/-- The bits of column `j` from slot `64 b` on, given those from slot `64 b + n` on. -/
def solveBlock (sys : Band) (j b : Nat) : (n : Nat) → UInt64 → UInt64
  | 0, state => state
  | n + 1, state => solveBlock sys j b n (stepBack j (sys.equation (64 * b + n)) state)

/-- Prepends the words of blocks `0..b` of column `j` to `acc`, given the word after them. -/
def columnOnto (sys : Band) (j : Nat) : (b : Nat) → UInt64 → List UInt64 → List UInt64
  | 0, _, acc => acc
  | b + 1, next, acc =>
    let w := solveBlock sys j b 64 next
    columnOnto sys j b w (w :: acc)

/-- Column `j` of the solution, a word for each block. -/
def column (sys : Band) (blocks j : Nat) : Array UInt64 := (sys.columnOnto j blocks 0 []).toArray

/-- All stored words. -/
def solve (sys : Band) (c : Columns) : Array UInt64 :=
  let columns := (Array.range c.upper).map (sys.column c.blocks)
  ((List.range c.blocks).flatMap fun b =>
    (List.range (c.width b)).map fun j => (columns.getD j #[]).getD b 0).toArray

end Band

namespace Columns

/-- The 64 bits of column `j` from a slot on. A slot inside a block takes the rest of them from
the next block. -/
def bitsAt (c : Columns) (words : Array UInt64) (slot j : Nat) : UInt64 :=
  let b := slot / 64
  let k := slot % 64
  let w := words.getD (c.offset b + j) 0
  if k = 0 then w
  else
    (w >>> k.toUInt64) |||
      (words.getD (c.offset b + c.width b + j) 0 <<< (64 - k).toUInt64)

/-- Whether stored words satisfy a row in every column of the block that it begins in. -/
def satisfies (c : Columns) (words : Array UInt64) (r : Row) : Bool :=
  (List.range (c.width (r.start / 64))).all fun j =>
    parity (c.bitsAt words r.start j &&& r.coeff) == valueBit r.value j

end Columns

end ApproxSet
