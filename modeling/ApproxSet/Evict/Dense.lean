import ApproxSet.Bits.Field
import ApproxSet.Evict.Table

/-!
# Bit-dense buckets

Four fields of `width` bits make a bucket, and buckets follow one another without gaps. A bucket is
read with one window, which covers it for widths up to sixteen.
-/
namespace ApproxSet

structure Dense where
  width : Nat
  bytes : Array UInt8

namespace Dense

def mask (t : Dense) : UInt64 := (1 <<< t.width.toUInt64) - 1

/-- Bytes of a table; its size in bits is taken in 64-bit arithmetic. -/
def byteSize (width buckets : Nat) : Nat := (4 * width * buckets % UInt64.size + 7) / 8

def empty (width buckets : Nat) : Dense := ⟨width, Array.replicate (byteSize width buckets) 0⟩

/-- The window on bucket `i`. -/
def bucket (t : Dense) (i : Nat) : UInt64 := BitField.bitsFrom t.bytes (4 * t.width * i)

/-- Slot `k` of a window. -/
def slotOf (t : Dense) (w : UInt64) (k : Nat) : UInt64 := (w >>> (t.width * k).toUInt64) &&& t.mask

/-- Whether some slot of bucket `i` holds `fp`. -/
def contains (t : Dense) (i : Nat) (fp : UInt64) : Bool :=
  let w := t.bucket i
  (List.range 4).any fun k => t.slotOf w k == fp

def free? (t : Dense) (i : Nat) : Option Nat :=
  let w := t.bucket i
  (List.range 4).find? fun k => t.slotOf w k == 0

/-- The first bit of slot `k` of bucket `i`. -/
def position (t : Dense) (i k : Nat) : Nat := 4 * t.width * i + t.width * k

def get (t : Dense) (i k : Nat) : UInt64 := BitField.get t.bytes (t.position i k) t.mask

def put (t : Dense) (i k : Nat) (fp : UInt64) : Dense :=
  let pos := t.position i k
  let m := t.mask
  match t with
  | ⟨width, bytes⟩ => ⟨width, BitField.set bytes pos m fp⟩

/-- Number of slots in use in bucket `i`. -/
def usedIn (t : Dense) (i : Nat) : Nat :=
  let w := t.bucket i
  (List.range 4).countP fun k => t.slotOf w k != 0

/-- Number of slots in use among the first `n` buckets. -/
def occupied (t : Dense) (n : Nat) : Nat := (List.range n).foldl (fun s i => s + t.usedIn i) 0

instance : BucketTable Dense := ⟨free?, get, put⟩

end Dense

end ApproxSet
