import ApproxSet.Bloom
import ApproxSet.Evict.Cuckoo
import ApproxSet.Evict.Vacuum
import ApproxSet.KeyHash.Digest
import ApproxSet.Options
import ApproxSet.Peel.Fuse
import ApproxSet.Peel.XorPlus
import ApproxSet.Ribbon.Basic

/-!
# Filters of any family

One type for the filters of all families, with the operations that they share. A filter's body does
not name its family: `decode` is told it, and refuses a body of another.
-/
namespace ApproxSet

inductive Filter
  | xor (w : PeeledWidth) (f : Xor w.bits)
  | xorPlus (w : PeeledWidth) (f : XorPlus w.bits)
  | binaryFuse (w : PeeledWidth) (f : Fuse w.bits)
  | blockedBloom (f : Bloom)
  | cuckoo (f : Cuckoo)
  | vacuum (f : Vacuum)
  | ribbon (f : Ribbon)

namespace Filter

/-- The filter of a family over the given hashes. -/
def build (family : Family) (hashes : List UInt64) (o : Options) (seed : UInt64) :
    Except Error Filter :=
  match family with
  | .xor w => (Xor.build w.bits hashes seed o.peelTries).map (.xor w)
  | .xorPlus w => (XorPlus.build w.bits hashes seed o.peelTries).map (.xorPlus w)
  | .binaryFuse w => (Fuse.build w.bits hashes seed o.peelTries).map (.binaryFuse w)
  | .blockedBloom => (Bloom.build hashes o.bitsPerKey seed).map .blockedBloom
  | .cuckoo w => (Cuckoo.build hashes w.bits o.capacity seed o.maxKicks).map .cuckoo
  | .vacuum w packed =>
    (Vacuum.build hashes w.bits packed o.capacity seed o.maxKicks).map .vacuum
  | .ribbon | .ribbonWithFallback =>
    (Ribbon.build hashes o.milliBits seed o.ribbonMinKeys).map .ribbon

/-- The family of a cuckoo table, told by its width. -/
def cuckooFamily (width : Nat) : Family :=
  match width with
  | 8 => .cuckoo .eight
  | 12 => .cuckoo .twelve
  | _ => .cuckoo .sixteen

/-- The family of a vacuum table, told by its stored width: packing adds one bit. -/
def vacuumFamily (width : Nat) : Family :=
  match width with
  | 8 => .vacuum .eight false
  | 12 => .vacuum .twelve false
  | 16 => .vacuum .sixteen false
  | 9 => .vacuum .eight true
  | 13 => .vacuum .twelve true
  | _ => .vacuum .sixteen true

def family : Filter → Family
  | .xor w _ => .xor w
  | .xorPlus w _ => .xorPlus w
  | .binaryFuse w _ => .binaryFuse w
  | .blockedBloom _ => .blockedBloom
  | .cuckoo f => cuckooFamily f.table.width
  | .vacuum f => vacuumFamily f.width
  | .ribbon _ => .ribbon

/-- False only for hashes that the filter was not built over. -/
def mayContain (f : Filter) (hash : UInt64) : Bool :=
  match f with
  | .xor _ f => f.mayContain hash
  | .xorPlus _ f => f.mayContain hash
  | .binaryFuse _ f => f.mayContain hash
  | .blockedBloom f => f.mayContain hash
  | .cuckoo f => f.mayContain hash
  | .vacuum f => f.mayContain hash
  | .ribbon f => f.mayContain hash

def mayContainKey (f : Filter) (key : List UInt8) : Bool := f.mayContain (hashKey key)

def encode : Filter → List UInt8
  | .xor _ f => f.encode
  | .xorPlus _ f => f.encode
  | .binaryFuse _ f => f.encode
  | .blockedBloom f => f.encode
  | .cuckoo f => f.encode
  | .vacuum f => f.encode
  | .ribbon f => f.encode

/-- Length of the encoding. -/
def size : Filter → Nat
  | .xor _ f => f.size
  | .xorPlus _ f => f.size
  | .binaryFuse _ f => f.size
  | .blockedBloom f => f.size
  | .cuckoo f => f.size
  | .vacuum f => f.size
  | .ribbon f => f.size

/-- A body in the form of the given family, whatever its widths. -/
def decodeAs (family : Family) (body : List UInt8) : Except Error Filter :=
  match family with
  | .xor w => (Xor.decode w.bits body).map (.xor w)
  | .xorPlus w => (XorPlus.decode w.bits body).map (.xorPlus w)
  | .binaryFuse w => (Fuse.decode w.bits body).map (.binaryFuse w)
  | .blockedBloom => (Bloom.decode body).map .blockedBloom
  | .cuckoo _ => (Cuckoo.decode body).map .cuckoo
  | .vacuum _ _ => (Vacuum.decode body).map .vacuum
  | .ribbon => (Ribbon.decode body).map .ribbon
  | .ribbonWithFallback => .error (.unknownTag family.id)

def decode (family : Family) (body : List UInt8) : Except Error Filter := do
  let f ← decodeAs family body
  if f.family ≠ family then
    throw (.invalidField "family")
  return f

end Filter

end ApproxSet
