import ApproxSet.KeyHash.Round

/-!
# The 64-bit hash of a key

A key is compressed to one block and three more rounds and a last round finish it. The last whole
multiple of sixteen bytes is read as blocks; a shorter piece, if there is one, stands in front and
carries its length.
-/
namespace ApproxSet

namespace KeyHash

def key0 : Block := Block.ofWords 0xF2784542 0xB09D3E21 0x89C222E5 0xFC3BC28E
def key1 : Block := Block.ofWords 0x03FCE279 0xCB6B2E9B 0xB361DC58 0x39132BD9
def key2 : Block := Block.ofWords 0xD0012E32 0x689D2B7D 0x5544B1B7 0xC78B122B

/-- A piece of at most sixteen bytes, padded with zeros, its length added to every byte. -/
def padded (bs : List UInt8) : Block :=
  (Block.ofBytes bs).add (Vector.replicate 16 (UInt8.ofNat bs.length))

/-- `n` blocks of sixteen bytes. -/
def blocks : Nat → List UInt8 → List Block
  | 0, _ => []
  | n + 1, bs => Block.ofBytes bs :: blocks n (bs.drop 16)

/-- Two lanes over the long middle of a key, with the tweak that each adds in every step. -/
structure Lanes where
  left : Block
  right : Block
  tweakLeft : Block
  tweakRight : Block

/-- Four blocks encrypted in turn under one another. -/
def chain (a b c d : Block) : Block := ((a.round b).round c).round d

/-- One step takes eight blocks, the even ones to the left and the odd ones to the right. -/
def Lanes.absorb : List Block → Lanes → Lanes
  | v0 :: v1 :: v2 :: v3 :: v4 :: v5 :: v6 :: v7 :: rest, l =>
    let tl := l.tweakLeft.add key0
    let tr := l.tweakRight.add key1
    absorb rest
      { left := ((chain v0 v2 v4 v6).round tl).lastRound l.left
        right := ((chain v1 v3 v5 v7).round tr).lastRound l.right
        tweakLeft := tl
        tweakRight := tr }
  | _, l => l

/-- The blocks past the third of a key of `n` bytes: as many of them go to `front` one by one as
leave a multiple of eight for the lanes. -/
def absorbLong (n : Nat) (front : Block) (bs : List Block) : Block :=
  let single := bs.length % 8
  let front := (bs.take single).foldl Block.round front
  let l := Lanes.absorb (bs.drop single) ⟨front, front, Block.zero, Block.zero⟩
  let size := n.toUInt32
  let length := Block.ofWords size size size size
  (l.left.add length).round (l.right.add length)

/-- The blocks of a key of `n` bytes after its front piece. -/
def compressBlocks (n : Nat) (front : Block) : List Block → Block
  | [] => front
  | v :: bs =>
    let v := (bs.take 2).foldl Block.round v
    let front := if bs.length > 2 then absorbLong n front (bs.drop 2) else front
    front.lastRound ((v.round key0).round key1)

def compress (key : List UInt8) : Block :=
  let n := key.length
  if n = 0 then Block.zero
  else if n ≤ 16 then padded key
  else
    let e := n % 16
    let front := if e = 0 then Block.ofBytes key else padded (key.take e)
    let p := if e = 0 then 16 else e
    compressBlocks n front (blocks ((n - p) / 16) (key.drop p))

end KeyHash

/-- The hash by which filters know a key. -/
def hashKey (key : List UInt8) : UInt64 :=
  let h := (KeyHash.compress key).round KeyHash.Block.zero
  let h := (h.round KeyHash.key0).round KeyHash.key1
  (h.lastRound KeyHash.key2).low64

end ApproxSet
