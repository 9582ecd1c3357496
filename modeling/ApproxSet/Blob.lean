import ApproxSet.Filter

/-!
# Blobs

A blob is a tag byte, a version byte and the body of a filter. The tag is the family's id, with the
top bit set for a filter that stands in for another family; tag zero with no body is a filter that
contains everything, and so is the empty blob.
-/
namespace ApproxSet

inductive Blob
  /-- No bytes at all. -/
  | empty
  | alwaysTrue
  | primary (f : Filter)
  /-- A filter of a family that was not the one asked for. -/
  | fallback (f : Filter)

namespace Blob

def currentVersion : UInt8 := 1

def fallbackBit : UInt8 := 0x80

def decode (bytes : List UInt8) : Except Error Blob :=
  match bytes with
  | [] => .ok .empty
  | [_] => .error (.tooShort 2 1)
  | tag :: version :: body =>
    if version ≠ currentVersion then .error (.version version)
    else if tag = 0 then
      if body.isEmpty then .ok .alwaysTrue else .error (.lengthMismatch 2 bytes.length)
    else
      match Family.ofId? (tag &&& 0x7f) with
      | none => .error (.unknownTag tag)
      | some family =>
        (Filter.decode family body).map
          (if tag &&& fallbackBit ≠ 0 then .fallback else .primary)

def encode : Blob → List UInt8
  | .empty => []
  | .alwaysTrue => [0, currentVersion]
  | .primary f => f.family.id :: currentVersion :: f.encode
  | .fallback f => (f.family.id ||| fallbackBit) :: currentVersion :: f.encode

def filter? : Blob → Option Filter
  | .empty | .alwaysTrue => none
  | .primary f | .fallback f => some f

def family? (b : Blob) : Option Family := b.filter?.map Filter.family

/-- Without a filter, everything may be contained. -/
def mayContain (b : Blob) (hash : UInt64) : Bool :=
  match b.filter? with
  | none => true
  | some f => f.mayContain hash

/-- Length of the encoding. -/
def size : Blob → Nat
  | .empty => 0
  | .alwaysTrue => 2
  | .primary f | .fallback f => 2 + f.size

end Blob

/-- Whether a blob may contain a hash. -/
def query (blob : List UInt8) (hash : UInt64) : Except Error Bool :=
  (Blob.decode blob).map (·.mayContain hash)

/-- Whether a blob may contain a key. -/
def queryKey (blob key : List UInt8) : Except Error Bool := query blob (hashKey key)

end ApproxSet
