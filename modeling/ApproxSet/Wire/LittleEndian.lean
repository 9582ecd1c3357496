/-!
# Little-endian numbers

`bytes k x` writes `x` on `k` bytes, lowest first, and `value` reads bytes back. Main statement: the
bytes of a value are the bytes it was read from (`bytes_value`).
-/
namespace ApproxSet.LittleEndian

/-- The low `k` bytes of `x`, lowest first. -/
def bytes : (k x : Nat) → List UInt8
  | 0, _ => []
  | k + 1, x => UInt8.ofNat x :: bytes k (x / 256)

def value : List UInt8 → Nat
  | [] => 0
  | b :: r => b.toNat + 256 * value r

@[simp] theorem length_bytes (k x : Nat) : (bytes k x).length = k := by
  induction k generalizing x with
  | zero => rfl
  | succ k ih => simp [bytes, ih]

theorem bytes_value (bs : List UInt8) : bytes bs.length (value bs) = bs := by
  induction bs with
  | nil => rfl
  | cons b r ih =>
    have hb := b.toNat_lt
    have h₁ : UInt8.ofNat (b.toNat + 256 * value r) = b := by
      apply UInt8.toNat_inj.mp
      rw [UInt8.toNat_ofNat']
      omega
    have h₂ : (b.toNat + 256 * value r) / 256 = value r := by omega
    simp only [List.length_cons, bytes, value, h₁, h₂, ih]

/-- The `k`-byte number at offset `i`. -/
def fieldAt (i k : Nat) (bs : List UInt8) : Nat := value ((bs.drop i).take k)

/-- Cuts `n` pieces of `k` bytes off the front and appends what `f` makes of their values. -/
def unpackOnto {α : Type} (k : Nat) (f : Nat → α) : (n : Nat) → List UInt8 → Array α → Array α
  | 0, _, acc => acc
  | n + 1, bs, acc => unpackOnto k f n (bs.drop k) (acc.push (f (value (bs.take k))))

/-- `n` numbers of `k` bytes each. -/
def unpack {α : Type} (k : Nat) (f : Nat → α) (n : Nat) (bs : List UInt8) : Array α :=
  unpackOnto k f n bs #[]

/-- Numbers of `k` bytes each, one after the other. -/
def pack {α : Type} (k : Nat) (g : α → Nat) (xs : Array α) : List UInt8 :=
  xs.toList.flatMap fun x => bytes k (g x)

end ApproxSet.LittleEndian
