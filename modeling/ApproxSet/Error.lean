/-!
# Failures of a build or a read

Each constructor is one cause with the numbers that describe it. `Error.message` is the only
place that holds wording.
-/
namespace ApproxSet

inductive Error
  /-- A fixed-size header needs more bytes than there are. -/
  | tooShort (need got : Nat)
  /-- The tag byte names no family. -/
  | unknownTag (tag : UInt8)
  /-- The version byte is not the one this library writes. -/
  | version (found : UInt8)
  /-- The length fixed by the header is not the length given. -/
  | lengthMismatch (expected actual : Nat)
  /-- A header field, or a size that would have to fit one, is out of range. -/
  | invalidField (field : String)
  /-- Relocation spent its budget before every fingerprint had a slot. -/
  | evictionExceeded (kicks : Nat)
  /-- Every seed byte of a ribbon shard gives contradictory rows. -/
  | unsolvable
  /-- The number of distinct keys is outside the range a ribbon accepts. -/
  | keyCount (count least most : Nat)
  /-- No tried seed lets all keys be peeled. -/
  | peelExhausted (tries : Nat)
  deriving DecidableEq

/-- A byte as `0x` and two lower-case hexadecimal digits. -/
def hexByte (b : UInt8) : String :=
  let digit (n : Nat) : Char := Char.ofNat (if n < 10 then 48 + n else 87 + n)
  String.ofList ['0', 'x', digit (b.toNat / 16), digit (b.toNat % 16)]

def Error.message : Error → String
  | .tooShort need got => s!"Filter blob too short: need {need} bytes, got {got}"
  | .unknownTag tag => "Unknown filter tag " ++ hexByte tag
  | .version found => s!"Unsupported filter blob version {found}"
  | .lengthMismatch expected actual =>
    s!"Filter blob length mismatch: expected {expected}, got {actual}"
  | .invalidField field => "Invalid filter field: " ++ field
  | .evictionExceeded kicks => s!"Eviction chain exceeded {kicks} kicks"
  | .unsolvable => "Ribbon banding unsolvable"
  | .keyCount count least most =>
    s!"Key count {count} outside ribbon range {least}..={most}"
  | .peelExhausted tries => s!"Peeling failed after {tries} seeds"

end ApproxSet
