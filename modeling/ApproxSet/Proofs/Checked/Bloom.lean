import ApproxSet.Proofs.Bloom
import ApproxSet.Proofs.Checked.Machine

/-!
# Blocked Bloom filters, every step checked

A bucket of a stored filter is a slice of eight words, and a bit of a hash one of the 64 of a word.
-/
namespace ApproxSet.Bloom
open Checked Reading LittleEndian

def checkedBit (h : UInt32) (i : Fin 8) : Option UInt64 := shiftLeft 1 (bitIndex h i)

theorem checkedBit_eq (h : UInt32) (i : Fin 8) : checkedBit h i = some (bit h i) := by
  rw [checkedBit, shiftLeft_eq _ (bitIndex_lt h i), bit_eq]

def checkedMayContain (f : Bloom) (hash : UInt64) : Option Bool := do
  let h := mix hash f.seed
  let base ← mul 8 (← checkedScale32 (h >>> 32).toUInt32 f.buckets)
  let stop ← add base 8
  let bucket ← slice f.words base stop
  (List.finRange 8).allM fun i => do
    let w ← fetch bucket i.val
    let b ← checkedBit h.toUInt32 i
    return w &&& b != 0

theorem fetch_bucket {words : Array UInt64} {base : Nat} (h : base + 8 ≤ words.size) (i : Fin 8) :
    fetch (words.extract base (base + 8)) i.val = some (words.getD (base + i.val) 0) := by
  have hin : base + i.val < words.size := by omega
  have hi : i.val < (words.extract base (base + 8)).size := by
    rw [Array.size_extract]
    omega
  rw [fetch, Array.getElem?_eq_getElem hi, Array.getElem_extract]
  simp [hin]

theorem checkedMayContain_eq {f : Bloom} (hf : f.Stored) (q : UInt64) :
    f.checkedMayContain q = some (f.mayContain q) := by
  have hlt := hf.lt
  have hbucket : bucketOf (mix q f.seed) f.buckets < f.buckets := scale32_lt _ hf.pos
  have hin : 8 * bucketOf (mix q f.seed) f.buckets + 8 ≤ f.words.size := by
    rw [hf.size_words]
    omega
  have hscale : checkedScale32 (mix q f.seed >>> 32).toUInt32 f.buckets =
      some (bucketOf (mix q f.seed) f.buckets) := checkedScale32_eq _ hlt
  rw [checkedMayContain, bind_eq hscale, bind_eq (mul_eq (by omega)), bind_eq (add_eq (by omega)),
    bind_eq (slice_eq (by omega) hin), mayContain]
  apply allM_eq
  intro i _
  rw [bind_eq (fetch_bucket hin i), bind_eq (checkedBit_eq _ i), Option.pure_def]

def checkedDecode (body : List UInt8) : Reading Bloom := do
  let (head, c) ← outcome ((Cursor.ofBytes body).header headerSize)
  let n := fieldAt 8 4 head
  if n = 0 then
    throw (.invalidField "bloom num_buckets")
  let words ← compute (mul 8 n)
  let (data, c) ← outcome (c.bulk (8 * words))
  outcome c.finish
  return {
    seed := (fieldAt 0 8 head).toUInt64
    buckets := n
    words := unpack 8 Nat.toUInt64 words data }

theorem checkedDecode_eq (body : List UInt8) : checkedDecode body = outcome (decode body) := by
  apply outcome_bind
  rintro ⟨head, c⟩ _
  have hn := fieldAt_lt 8 4 head
  apply throw_if
  intro _
  rw [compute_bind (mul_eq (by omega))]
  apply outcome_bind
  rintro ⟨data, c⟩ _
  exact outcome_bind fun _ _ => rfl

end ApproxSet.Bloom
