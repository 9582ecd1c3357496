import ApproxSet.Family

/-!
# Build options

A list of settings is folded into one record, later settings overriding earlier ones. Bits per key
are held to `1..=64` and the number of peeling seeds to at least one; thousandths of a bit per key
are held to `1000..=32000` when they are asked for.
-/
namespace ApproxSet

inductive Setting
  | kind (k : Kind)
  | family (f : Family)
  | bitsPerKey (n : Nat)
  /-- Ribbon space in thousandths of a bit per key. -/
  | ribbonMilliBits (n : Nat)
  | seed (s : UInt64)
  | peelTries (n : Nat)
  | maxKicks (n : Nat)
  /-- Number of keys that a table with buckets is sized for. -/
  | capacity (n : Nat)
  /-- Key sets smaller than this get no ribbon. -/
  | ribbonMinKeys (n : Nat)

structure Options where
  kind : Kind := .binaryFuse
  explicitFamily : Option Family := none
  bitsPerKey : Nat := 8
  explicitMilliBits : Option Nat := none
  seed : Option UInt64 := none
  peelTries : Nat := 100
  maxKicks : Nat := 500
  capacity : Option Nat := none
  ribbonMinKeys : Nat := 256

/-- `n` moved to the nearest point of `least..=most`. -/
def clamp (least most n : Nat) : Nat := max least (min n most)

namespace Options

def apply (o : Options) : Setting → Options
  | .kind k => { o with kind := k }
  | .family f => { o with explicitFamily := some f }
  | .bitsPerKey n => { o with bitsPerKey := clamp 1 64 n }
  | .ribbonMilliBits n => { o with explicitMilliBits := some n }
  | .seed s => { o with seed := some s }
  | .peelTries n => { o with peelTries := max 1 n }
  | .maxKicks n => { o with maxKicks := n }
  | .capacity n => { o with capacity := some n }
  | .ribbonMinKeys n => { o with ribbonMinKeys := n }

def ofSettings (settings : List Setting) : Options := settings.foldl apply {}

/-- The family to build: the explicit one, else the one picked by kind and budget. -/
def family (o : Options) : Family := o.explicitFamily.getD (.pick o.kind o.bitsPerKey)

/-- Thousandths of a bit per key as asked for, or as the bits per key imply. -/
def requestedMilliBits (o : Options) : Nat := o.explicitMilliBits.getD (o.bitsPerKey * 1000)

def milliBits (o : Options) : Nat := clamp 1000 32000 o.requestedMilliBits

end Options

end ApproxSet
