import ApproxSet.Wire.LittleEndian
import Mathlib.Tactic.Ring

/-!
# Little-endian numbers read back

`value_bytes` and `bytes_value` together say that `k` bytes and the numbers below `256 ^ k` are the
same thing. So a header is the concatenation of its fields (`fieldsFrom_eq_drop`), and packed
numbers are unpacked again (`unpack_pack`, `pack_unpack`).
-/
namespace ApproxSet.LittleEndian

theorem value_bytes (k x : ℕ) : value (bytes k x) = x % 256 ^ k := by
  induction k generalizing x with
  | zero => simp [bytes, value, Nat.mod_one]
  | succ k ih =>
    rw [pow_succ' 256 k, Nat.mod_mul, bytes, value, ih, UInt8.toNat_ofNat']

theorem value_lt (bs : List UInt8) : value bs < 256 ^ bs.length := by
  induction bs with
  | nil => simp [value]
  | cons b r ih =>
    have hb := b.toNat_lt
    simp only [value, List.length_cons, pow_succ]
    omega

/-! ### Fields of a header -/

theorem fieldAt_lt (i k : ℕ) (bs : List UInt8) : fieldAt i k bs < 256 ^ k :=
  lt_of_lt_of_le (value_lt _) (Nat.pow_le_pow_right (by decide) (List.length_take_le ..))

/-- A field written again, followed by the bytes behind it. -/
theorem bytes_fieldAt_append {i k : ℕ} {bs : List UInt8} (h : i + k ≤ bs.length) :
    bytes k (fieldAt i k bs) ++ bs.drop (i + k) = bs.drop i := by
  have hlen : ((bs.drop i).take k).length = k := by
    rw [List.length_take, List.length_drop]
    omega
  have hbytes := bytes_value ((bs.drop i).take k)
  rw [hlen] at hbytes
  rw [fieldAt, hbytes, ← List.drop_drop, List.take_append_drop]

/-- The fields of the given widths from offset `i` on, written again. -/
def fieldsFrom (bs : List UInt8) : (i : ℕ) → List ℕ → List UInt8
  | _, [] => []
  | i, k :: ks => bytes k (fieldAt i k bs) ++ fieldsFrom bs (i + k) ks

theorem fieldsFrom_eq_drop {bs : List UInt8} {i : ℕ} {ks : List ℕ} (h : i + ks.sum = bs.length) :
    fieldsFrom bs i ks = bs.drop i := by
  induction ks generalizing i with
  | nil =>
    have hi : bs.length ≤ i := by simpa using h.ge
    rw [fieldsFrom, List.drop_of_length_le hi]
  | cons k ks ih =>
    rw [List.sum_cons] at h
    rw [fieldsFrom, ih (by omega), bytes_fieldAt_append (by omega)]

/-- A header is the concatenation of its fields. -/
theorem fieldsFrom_zero (ks : List ℕ) {bs : List UInt8} (h : bs.length = ks.sum) :
    fieldsFrom bs 0 ks = bs := by
  rw [fieldsFrom_eq_drop (by rw [h, Nat.zero_add]), List.drop_zero]

@[simp] theorem fieldAt_bytes (k x : ℕ) : fieldAt 0 k (bytes k x) = x % 256 ^ k := by
  rw [fieldAt, List.drop_zero, List.take_of_length_le (length_bytes k x).le, value_bytes]

@[simp] theorem fieldAt_zero_bytes_append (k x : ℕ) (r : List UInt8) :
    fieldAt 0 k (bytes k x ++ r) = x % 256 ^ k := by
  rw [fieldAt, List.drop_zero, List.take_left' (length_bytes k x), value_bytes]

theorem fieldAt_bytes_append {i j : ℕ} (h : j ≤ i) (k x : ℕ) (r : List UInt8) :
    fieldAt i k (bytes j x ++ r) = fieldAt (i - j) k r := by
  have hlen := length_bytes j x
  rw [fieldAt, fieldAt, List.drop_append, List.drop_of_length_le (by omega), List.nil_append, hlen]

/-! ### Sequences of numbers -/

variable {α : Type} {k : ℕ} {f : ℕ → α} {g : α → ℕ}

theorem toList_unpackOnto (k : ℕ) (f : ℕ → α) (n : ℕ) (bs : List UInt8) (acc : Array α) :
    (unpackOnto k f n bs acc).toList = acc.toList ++ (unpack k f n bs).toList := by
  induction n generalizing bs acc with
  | zero => simp [unpackOnto, unpack]
  | succ n ih =>
    rw [unpack, unpackOnto, unpackOnto, ih, ih _ (#[].push _)]
    simp

theorem toList_unpack_succ (k : ℕ) (f : ℕ → α) (n : ℕ) (bs : List UInt8) :
    (unpack k f (n + 1) bs).toList =
      f (value (bs.take k)) :: (unpack k f n (bs.drop k)).toList := by
  rw [unpack, unpackOnto, toList_unpackOnto]
  simp

@[simp] theorem size_unpack (k : ℕ) (f : ℕ → α) (n : ℕ) (bs : List UInt8) :
    (unpack k f n bs).size = n := by
  induction n generalizing bs with
  | zero => rfl
  | succ n ih =>
    have h := congrArg List.length (toList_unpack_succ k f n bs)
    rwa [List.length_cons, Array.length_toList, Array.length_toList, ih] at h

@[simp] theorem length_pack (k : ℕ) (g : α → ℕ) (xs : Array α) :
    (pack k g xs).length = xs.size * k := by
  simp [pack, List.length_flatMap, List.map_const']

theorem pack_unpack (hg : ∀ v, v < 256 ^ k → g (f v) = v) {n : ℕ} {bs : List UInt8}
    (hlen : bs.length = n * k) : pack k g (unpack k f n bs) = bs := by
  unfold pack
  induction n generalizing bs with
  | zero =>
    have hnil : bs = [] := List.length_eq_zero_iff.mp (by simpa using hlen)
    simp [hnil, unpack, unpackOnto]
  | succ n ih =>
    have hk : (bs.take k).length = k := by
      rw [List.length_take, hlen, Nat.add_mul, Nat.one_mul]
      omega
    have hhead := bytes_value (bs.take k)
    have hlt := value_lt (bs.take k)
    rw [hk] at hhead hlt
    have hrest : (bs.drop k).length = n * k := by
      rw [List.length_drop, hlen, Nat.add_mul, Nat.one_mul, Nat.add_sub_cancel]
    rw [toList_unpack_succ, List.flatMap_cons, hg _ hlt, hhead, ih hrest, List.take_append_drop]

theorem unpack_pack (hf : ∀ x, f (g x % 256 ^ k) = x) (xs : Array α) :
    unpack k f xs.size (pack k g xs) = xs := by
  rcases xs with ⟨xs⟩
  apply Array.toList_inj.mp
  change (unpack k f xs.length (xs.flatMap fun x => bytes k (g x))).toList = xs
  induction xs with
  | nil => rfl
  | cons x xs ih =>
    have hlen := length_bytes k (g x)
    rw [List.length_cons, toList_unpack_succ, List.flatMap_cons, List.take_left' hlen,
      List.drop_left' hlen, value_bytes, hf, ih]

/-! ### Words of eight bytes -/

theorem toNat_toUInt64_of_lt {v : ℕ} (h : v < 256 ^ 8) : v.toUInt64.toNat = v := by
  rw [Nat.toUInt64_eq, UInt64.toNat_ofNat']
  exact Nat.mod_eq_of_lt h

theorem toUInt64_toNat_mod (x : UInt64) : (x.toNat % 256 ^ 8).toUInt64 = x := by
  have hx : x.toNat % 256 ^ 8 = x.toNat := Nat.mod_eq_of_lt x.toNat_lt
  rw [hx, Nat.toUInt64_eq, UInt64.ofNat_toNat]

/-! ### Slots of whole bytes -/

variable {w : ℕ}

theorem pow_bytes (hw : 8 * (w / 8) = w) : 256 ^ (w / 8) = 2 ^ w := by
  have h : (256 : ℕ) = 2 ^ 8 := by norm_num
  rw [h, ← pow_mul, hw]

theorem toNat_ofNat_of_lt (hw : 8 * (w / 8) = w) (v : ℕ) (h : v < 256 ^ (w / 8)) :
    (BitVec.ofNat w v).toNat = v := by
  rw [BitVec.toNat_ofNat, Nat.mod_eq_of_lt (pow_bytes hw ▸ h)]

theorem ofNat_toNat_mod (hw : 8 * (w / 8) = w) (x : BitVec w) :
    BitVec.ofNat w (x.toNat % 256 ^ (w / 8)) = x := by
  rw [pow_bytes hw, Nat.mod_eq_of_lt x.isLt, BitVec.ofNat_toNat, BitVec.setWidth_eq]

end ApproxSet.LittleEndian
