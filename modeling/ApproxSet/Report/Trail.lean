import ApproxSet.Report.Notice

/-!
# The notices of a build

Each function lists, in order, the notices of the operation that it is named for. They are read off
the same definitions that the operation is made of, so the operations themselves stay free of them.
-/
namespace ApproxSet.Trail

def ofSetting : Setting → List Notice
  | .bitsPerKey n =>
    let used := clamp 1 64 n
    if used = n then [] else [.bitsPerKeyClamped n used]
  | .peelTries 0 => [.peelTriesRaised]
  | _ => []

def ofSettings (settings : List Setting) : List Notice := settings.flatMap ofSetting

/-- Asking the options for their thousandths of a bit per key. -/
def ofMilliBits (o : Options) : List Notice :=
  if o.milliBits = o.requestedMilliBits then []
  else [.milliBitsClamped o.requestedMilliBits o.milliBits]

/-- Attempts `1..=last` at peeling. -/
def reseeds (last keys : Nat) : List Notice :=
  (List.range last).map fun i => .peelReseeded (i + 1) keys

def ofPeel (l : Layout) (keys : List UInt64) (seed : UInt64) (tries : Nat) : List Notice :=
  match l.firstPeel? keys seed tries with
  | some (j, _) => reseeds j keys.length
  | none => reseeds (tries - 1) keys.length

/-- The attempts at three blocks. -/
def ofBlocks (hashes : List UInt64) (seed : UInt64) (tries : Nat) : List Notice :=
  let keys := distinct hashes
  match Xor.blockLength? keys.length with
  | .ok n => ofPeel (.blocks n) keys seed tries
  | .error _ => []

/-- The attempts at fuse segments. -/
def ofSegments (hashes : List UInt64) (seed : UInt64) (tries : Nat) : List Notice :=
  let keys := distinct hashes
  match Segments.ofKeyCount keys.length with
  | .ok g => ofPeel g.layout keys seed tries
  | .error _ => []

/-- Shards in order, up to the first that no seed byte solves. -/
def ofShardsFrom (slots : Nat) : List (List UInt64) → List Notice
  | [] => []
  | bases :: rest =>
    let reseeded (last : Nat) : List Notice :=
      (List.range last).map fun i => .shardReseeded (i + 1) bases.length
    match Ribbon.solveShard? bases slots with
    | some (seed, _) => reseeded seed ++ ofShardsFrom slots rest
    | none => reseeded 255

/-- The attempts at the shards of a ribbon. -/
def ofShards (hashes : List UInt64) (seed : UInt64) (minKeys : Nat) : List Notice :=
  let keys := distinct hashes
  let n := keys.length
  if n < minKeys ∨ n > Ribbon.maxKeys then []
  else
    let shardBits := Ribbon.shardBitsFor n
    let bases := Ribbon.basesOf keys seed
    ofShardsFrom (Ribbon.shardSlots n shardBits)
      ((List.range (1 <<< shardBits)).map (Ribbon.inShard bases shardBits))

/-- The shape of a filter over `keys` distinct hashes. -/
def ofShape (keys : Nat) : Filter → List Notice
  | .xor .. | .binaryFuse .. | .blockedBloom _ => []
  | .xorPlus w f => [.xorPlusBuilt w.bits keys f.thirdLength f.blockLength]
  | .cuckoo f =>
    let n := 1 <<< f.indexBits
    [.cuckooBuilt f.table.width keys n (f.table.occupied n)]
  | .vacuum f => [.vacuumBuilt f.width f.packed keys f.buckets f.ranges.toList]
  | .ribbon f =>
    [.ribbonBuilt keys (1 <<< f.shardBits) (64 * f.columns.blocks) f.columns (8 * f.words.size)]

/-- The end of a construction over the given hashes. -/
def ofResult (hashes : List UInt64) : Except Error Filter → List Notice
  | .ok f => ofShape (distinct hashes).length f
  | .error _ => []

/-- The attempts at a filter of the given family. -/
def ofAttempts (family : Family) (hashes : List UInt64) (o : Options) (seed : UInt64) :
    List Notice :=
  match family with
  | .xor _ | .xorPlus _ => ofBlocks hashes seed o.peelTries
  | .binaryFuse _ => ofSegments hashes seed o.peelTries
  | .blockedBloom | .cuckoo _ | .vacuum .. => []
  | .ribbon | .ribbonWithFallback => ofMilliBits o ++ ofShards hashes seed o.ribbonMinKeys

/-- Building the filter of a family, which came out as `result`, and settling for a blob that
contains everything. -/
def ofSettled (family : Family) (hashes : List UInt64) (o : Options) (seed : UInt64)
    (result : Except Error Filter) : List Notice :=
  ofAttempts family hashes o seed ++ ofResult hashes result ++
    match result with
    | .error (.peelExhausted tries) => [.degraded family tries hashes.length]
    | _ => []

def ofBlob (o : Options) (hashes : List UInt64) (fresh : UInt64) : List Notice :=
  if hashes.isEmpty then []
  else
    let seed := o.seed.getD fresh
    let result := Filter.build o.family hashes o seed
    ofSettled o.family hashes o seed result ++
      match result with
      | .error e =>
        if o.family = .ribbonWithFallback ∧ e.allowsFallback then
          let family := o.fallbackFamily
          ofMilliBits o ++ .ribbonReplaced e family ::
            ofSettled family hashes o seed (Filter.build family hashes o seed)
        else []
      | .ok _ => []

/-- Building a blob and appending it to a buffer. -/
def ofAppended (o : Options) (hashes : List UInt64) (fresh : UInt64) : List Notice :=
  ofBlob o hashes fresh ++
    match o.buildBlob hashes fresh with
    | .ok (b, r) => [.blobBuilt b.family? hashes.length b.encode.length r]
    | .error _ => []

end ApproxSet.Trail
