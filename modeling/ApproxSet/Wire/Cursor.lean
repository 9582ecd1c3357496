import ApproxSet.Error

/-!
# Reading a byte string from the front

A cursor holds what is left and how much was read. Headers that do not fit are too short; bulk
data that does not fit, and bytes left at the end, are length mismatches.
-/
namespace ApproxSet

structure Cursor where
  pos : Nat
  rest : List UInt8

namespace Cursor

def ofBytes (bs : List UInt8) : Cursor := ⟨0, bs⟩

/-- Length of the byte string the cursor was started on. -/
def total (c : Cursor) : Nat := c.pos + c.rest.length

/-- The next `k` bytes, if there are so many. -/
def take? (c : Cursor) (k : Nat) : Option (List UInt8 × Cursor) :=
  if k ≤ c.rest.length then some (c.rest.take k, ⟨c.pos + k, c.rest.drop k⟩) else none

/-- A header of `k` bytes. -/
def header (c : Cursor) (k : Nat) : Except Error (List UInt8 × Cursor) :=
  match c.take? k with
  | some r => .ok r
  | none => .error (.tooShort (c.pos + k) c.total)

/-- `k` bytes of bulk data. -/
def bulk (c : Cursor) (k : Nat) : Except Error (List UInt8 × Cursor) :=
  match c.take? k with
  | some r => .ok r
  | none => .error (.lengthMismatch (c.pos + k) c.total)

/-- Nothing may be left. -/
def finish (c : Cursor) : Except Error Unit :=
  if c.rest.isEmpty then .ok () else .error (.lengthMismatch c.pos c.total)

end Cursor

end ApproxSet
