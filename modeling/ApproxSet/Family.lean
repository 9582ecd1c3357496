/-!
# Kinds of filter and their concrete families

A kind names an algorithm; a family is a kind with its widths fixed, which is what a stored filter
is tagged with. `Family.id` is the number in the tag and `Family.ofId?` reads it back.
-/
namespace ApproxSet

inductive Kind
  | xor
  | xorPlus
  | binaryFuse
  | blockedBloom
  | cuckoo
  | vacuum (packed : Bool)
  | ribbon (fallback : Bool)
  deriving DecidableEq

/-- Fingerprint widths of the peeled families. -/
inductive PeeledWidth
  | eight
  | sixteen
  deriving DecidableEq

/-- Fingerprint widths of the families with buckets. -/
inductive BucketWidth
  | eight
  | twelve
  | sixteen
  deriving DecidableEq

def PeeledWidth.bits : PeeledWidth → Nat
  | .eight => 8
  | .sixteen => 16

def BucketWidth.bits : BucketWidth → Nat
  | .eight => 8
  | .twelve => 12
  | .sixteen => 16

theorem PeeledWidth.bits_whole (w : PeeledWidth) : 8 * (w.bits / 8) = w.bits := by
  cases w <;> rfl

theorem BucketWidth.bits_bounds (w : BucketWidth) : 4 ≤ w.bits ∧ w.bits ≤ 16 := by
  cases w <;> decide

theorem BucketWidth.exists_eq_bits_iff {n : Nat} :
    (∃ w : BucketWidth, n = w.bits) ↔ n = 8 ∨ n = 12 ∨ n = 16 := by
  constructor
  · rintro ⟨w, rfl⟩
    cases w <;> decide
  · rintro (rfl | rfl | rfl)
    · exact ⟨.eight, rfl⟩
    · exact ⟨.twelve, rfl⟩
    · exact ⟨.sixteen, rfl⟩

inductive Family
  | xor (w : PeeledWidth)
  | xorPlus (w : PeeledWidth)
  | binaryFuse (w : PeeledWidth)
  | blockedBloom
  | cuckoo (w : BucketWidth)
  | vacuum (w : BucketWidth) (packed : Bool)
  | ribbon
  /-- A ribbon, or a binary fuse filter where no ribbon can be made; never a tag of its own. -/
  | ribbonWithFallback
  deriving DecidableEq

/-- The widest width that a budget of bits per key pays for. -/
def PeeledWidth.ofBudget (bitsPerKey : Nat) : PeeledWidth :=
  if bitsPerKey ≥ 16 then .sixteen else .eight

def BucketWidth.ofBudget (bitsPerKey : Nat) : BucketWidth :=
  if bitsPerKey ≥ 16 then .sixteen else if bitsPerKey ≥ 12 then .twelve else .eight

namespace Family

/-- The family of a kind that fits a budget of bits per key. -/
def pick (kind : Kind) (bitsPerKey : Nat) : Family :=
  match kind with
  | .xor => .xor (.ofBudget bitsPerKey)
  | .xorPlus => .xorPlus (.ofBudget bitsPerKey)
  | .binaryFuse => .binaryFuse (.ofBudget bitsPerKey)
  | .blockedBloom => .blockedBloom
  | .cuckoo => .cuckoo (.ofBudget bitsPerKey)
  | .vacuum packed => .vacuum (.ofBudget bitsPerKey) packed
  | .ribbon false => .ribbon
  | .ribbon true => .ribbonWithFallback

def kind : Family → Kind
  | .xor _ => .xor
  | .xorPlus _ => .xorPlus
  | .binaryFuse _ => .binaryFuse
  | .blockedBloom => .blockedBloom
  | .cuckoo _ => .cuckoo
  | .vacuum _ packed => .vacuum packed
  | .ribbon => .ribbon false
  | .ribbonWithFallback => .ribbon true

def id : Family → UInt8
  | .xor .eight => 1
  | .xor .sixteen => 2
  | .binaryFuse .eight => 3
  | .binaryFuse .sixteen => 4
  | .blockedBloom => 5
  | .cuckoo .eight => 6
  | .cuckoo .twelve => 7
  | .cuckoo .sixteen => 8
  | .vacuum .eight false => 9
  | .vacuum .twelve false => 10
  | .vacuum .sixteen false => 11
  | .vacuum .eight true => 12
  | .vacuum .twelve true => 13
  | .vacuum .sixteen true => 14
  | .ribbon => 15
  | .ribbonWithFallback => 16
  | .xorPlus .eight => 17
  | .xorPlus .sixteen => 18

/-- The families that a tag can name. -/
def stored : List Family :=
  [.xor .eight, .xor .sixteen, .xorPlus .eight, .xorPlus .sixteen,
    .binaryFuse .eight, .binaryFuse .sixteen, .blockedBloom,
    .cuckoo .eight, .cuckoo .twelve, .cuckoo .sixteen,
    .vacuum .eight false, .vacuum .twelve false, .vacuum .sixteen false,
    .vacuum .eight true, .vacuum .twelve true, .vacuum .sixteen true, .ribbon]

/-- The family that a tag names. -/
def ofId? (n : UInt8) : Option Family := stored.find? fun f => f.id = n

/-- The name used in messages. -/
def name : Family → String
  | .xor .eight => "Xor8"
  | .xor .sixteen => "Xor16"
  | .xorPlus .eight => "XorPlus8"
  | .xorPlus .sixteen => "XorPlus16"
  | .binaryFuse .eight => "BinaryFuse8"
  | .binaryFuse .sixteen => "BinaryFuse16"
  | .blockedBloom => "BlockedBloom"
  | .cuckoo .eight => "Cuckoo8"
  | .cuckoo .twelve => "Cuckoo12"
  | .cuckoo .sixteen => "Cuckoo16"
  | .vacuum .eight false => "Vacuum8"
  | .vacuum .twelve false => "Vacuum12"
  | .vacuum .sixteen false => "Vacuum16"
  | .vacuum .eight true => "Vacuum8Packed"
  | .vacuum .twelve true => "Vacuum12Packed"
  | .vacuum .sixteen true => "Vacuum16Packed"
  | .ribbon => "Ribbon"
  | .ribbonWithFallback => "RibbonWithFallback"

theorem ofId?_id {f : Family} (h : f ≠ .ribbonWithFallback) : ofId? f.id = some f := by
  revert h
  rcases f with w | w | w | _ | w | ⟨w, p⟩ | _ | _ <;> (try cases w) <;> (try cases p) <;> decide

theorem id_of_ofId? {n : UInt8} {f : Family} (h : ofId? n = some f) : f.id = n := by
  simpa using List.find?_some h

end Family

end ApproxSet
