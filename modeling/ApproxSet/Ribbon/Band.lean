/-!
# Bands of equations

An equation over the slots of a shard has its coefficients within 64 consecutive slots, the first of
them one. A band keeps at most one equation for each slot, the one that begins there. A new row is
reduced by the equations it meets from its first slot on, until it finds a slot without one, or
nothing is left of it.
-/
namespace ApproxSet

structure Row where
  /-- The slot of the lowest coefficient. -/
  start : Nat
  coeff : UInt64
  /-- The right-hand sides, one bit for each solution column. -/
  value : UInt32

/-- The equation that begins at a slot; none does when `coeff` is zero. -/
structure Equation where
  coeff : UInt64 := 0
  value : UInt32 := 0

abbrev Band := Array Equation

namespace Band

def empty (slots : Nat) : Band := Array.replicate slots {}

def equation (b : Band) (i : Nat) : Equation := b.getD i {}

/-- Adds a row whose coefficients count from slot `i`, `left` slots before the end of the band.
No result means that it contradicts the equations. -/
def addFrom (b : Band) (left i : Nat) (coeff : UInt64) (value : UInt32) : Option Band :=
  if coeff = 0 then
    if value = 0 then some b else none
  else
    match left with
    | 0 => none
    | left + 1 =>
      if coeff &&& 1 = 0 then addFrom b left (i + 1) (coeff >>> 1) value
      else
        let e := b.equation i
        if e.coeff = 0 then some (b.setIfInBounds i ⟨coeff, value⟩)
        else addFrom b left (i + 1) ((coeff ^^^ e.coeff) >>> 1) (value ^^^ e.value)

def add? (b : Band) (r : Row) : Option Band :=
  b.addFrom (b.size - r.start) r.start r.coeff r.value

end Band

end ApproxSet
