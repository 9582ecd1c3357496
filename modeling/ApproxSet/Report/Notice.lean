import ApproxSet.Build
import ApproxSet.Word.Digits

/-!
# Notices

What a build has to say besides its result: options that had to be corrected, attempts that had to
be repeated, the shape of what was built, and how a failure was made up for. `Notice.text` is the
only place that holds wording.
-/
namespace ApproxSet

inductive Level
  | trace
  | debug
  | warn

def Level.name : Level → String
  | .trace => "TRACE"
  | .debug => "DEBUG"
  | .warn => "WARN"

inductive Notice
  | bitsPerKeyClamped (given used : Nat)
  | peelTriesRaised
  | milliBitsClamped (given used : Nat)
  /-- Peeling starts over with the seed of a further attempt. -/
  | peelReseeded (attempt keys : Nat)
  /-- A ribbon shard starts over with the next seed byte. -/
  | shardReseeded (seed keys : Nat)
  | xorPlusBuilt (width keys kept blockLength : Nat)
  | cuckooBuilt (width keys buckets used : Nat)
  | vacuumBuilt (width : Nat) (packed : Bool) (keys buckets : Nat) (ranges : List Nat)
  | ribbonBuilt (keys shards slots : Nat) (columns : Columns) (bytes : Nat)
  | ribbonReplaced (cause : Error) (family : Family)
  | degraded (family : Family) (tries keys : Nat)
  | blobBuilt (family : Option Family) (keys bytes : Nat) (outcome : Outcome)

namespace Notice

def level : Notice → Level
  | bitsPerKeyClamped .. | peelTriesRaised | milliBitsClamped .. | ribbonReplaced ..
  | degraded .. => .warn
  | peelReseeded .. | shardReseeded .. => .trace
  | xorPlusBuilt .. | cuckooBuilt .. | vacuumBuilt .. | ribbonBuilt .. | blobBuilt .. => .debug

/-- A quotient with three decimal places, a tie going to the even digit. -/
def threePlaces (num den : Nat) : String :=
  let q := roundEven (1000 * num) den
  let digits := toString (q % 1000)
  toString (q / 1000) ++ "." ++ "".pushn '0' (3 - digits.length) ++ digits

def familyText : Option Family → String
  | none => "None"
  | some f => "Some(" ++ f.name ++ ")"

def text : Notice → String
  | .bitsPerKeyClamped given used => s!"BitsPerKey {given} clamped to {used}"
  | .peelTriesRaised => "PeelTries 0 raised to 1"
  | .milliBitsClamped given used => s!"RibbonMilliBits {given} clamped to {used}"
  | .peelReseeded attempt keys => s!"peel reseed attempt {attempt} keys {keys}"
  | .shardReseeded seed keys => s!"ribbon shard reseed {seed} keys {keys}"
  | .xorPlusBuilt width keys kept blockLength =>
    s!"xor+{width} keys {keys} third block {kept}/{blockLength}"
  | .cuckooBuilt width keys buckets used =>
    s!"cuckoo{width} keys {keys} buckets {buckets} load " ++ threePlaces used (4 * buckets)
  | .vacuumBuilt width packed keys buckets ranges =>
    s!"vacuum{width} packed {packed} keys {keys} buckets {buckets} ranges [" ++
      ", ".intercalate (ranges.map toString) ++ "]"
  | .ribbonBuilt keys shards slots columns bytes =>
    let upper := columns.upper
    let start := columns.upperStart
    s!"ribbon keys {keys} shards {shards} slots {slots} columns {upper}/{start} bytes {bytes}"
  | .ribbonReplaced cause family =>
    "ribbon unusable (" ++ cause.message ++ "), falling back to " ++ family.name
  | .degraded family tries keys =>
    family.name ++ s!" peeling failed after {tries} seeds over {keys} keys, " ++
      "degraded to always true"
  | .blobBuilt family keys bytes outcome =>
    "filter " ++ familyText family ++ s!" keys {keys} bytes {bytes} " ++ outcome.name

/-- The level and the text. -/
def line (n : Notice) : String := n.level.name ++ " " ++ n.text

end Notice

end ApproxSet
