/-!
# Fractional column counts

Slots come in blocks of 64, and a block stores one word for each of its solution columns. Blocks
from `upperStart` on have `upper` columns, the blocks before have one fewer, so that any number of
words between one and 32 for each block can be spread evenly.
-/
namespace ApproxSet

structure Columns where
  blocks : Nat
  upper : Nat
  upperStart : Nat
  deriving DecidableEq

namespace Columns

/-- No block has more columns than this. -/
def most : Nat := 32

/-- `words` words over `blocks` blocks, held between one and 32 for each. -/
def spread (blocks words : Nat) : Columns :=
  let words := max words blocks
  let lower := words / blocks
  let extra := words % blocks
  if lower ≥ most then ⟨blocks, most, 0⟩
  else if extra = 0 then ⟨blocks, lower, 0⟩
  else ⟨blocks, lower + 1, blocks - extra⟩

/-- Columns of block `b`. -/
def width (c : Columns) (b : Nat) : Nat := if b < c.upperStart then c.upper - 1 else c.upper

/-- The first word of block `b`, as an exact number. It is found in 64 bits in every layout whose
words can be counted there. -/
def offset (c : Columns) (b : Nat) : Nat :=
  if b < c.upperStart then b * (c.upper - 1)
  else c.upperStart * (c.upper - 1) + (b - c.upperStart) * c.upper

/-- Number of words of all blocks. -/
def words (c : Columns) : Nat := c.offset c.blocks

/-- At least one block, and between one and 32 columns in each. -/
def isValid (c : Columns) : Bool :=
  0 < c.blocks && 1 ≤ c.upper && c.upper ≤ most && c.upperStart ≤ c.blocks &&
    (1 < c.upper || c.upperStart == 0)

end Columns

end ApproxSet
