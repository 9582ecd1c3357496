import ApproxSet.Error
import ApproxSet.Proofs.Word.Digits
import ApproxSet.Word.Mix

/-!
# Operations that can go wrong

An index past the end of an array, a shift by the width of the word or more, a difference below
zero, a division by zero, and a sum or product that does not fit its word stop the machine. Here
such an operation has no result, so a computation made of these operations has a result only when
nothing goes wrong on its way. Shifts by numbers in the text, and the operations that wrap around on
purpose, are not among them.
-/
namespace ApproxSet

namespace Checked

variable {α β : Type}

def fit (bits n : Nat) : Option Nat := if n < 2 ^ bits then some n else none

def add (m n : Nat) : Option Nat := fit 64 (m + n)

def mul (m n : Nat) : Option Nat := fit 64 (m * n)

def sub (m n : Nat) : Option Nat := if n ≤ m then some (m - n) else none

def div (m n : Nat) : Option Nat := if n = 0 then none else some (m / n)

def mod (m n : Nat) : Option Nat := if n = 0 then none else some (m % n)

/-- The element at an index. -/
def fetch (a : Array α) (i : Nat) : Option α := a[i]?

/-- The elements from index `i` up to index `j`. -/
def slice (a : Array α) (i j : Nat) : Option (Array α) :=
  if i ≤ j ∧ j ≤ a.size then some (a.extract i j) else none

def shiftLeft (w : UInt64) (k : Nat) : Option UInt64 :=
  if k < 64 then some (w <<< k.toUInt64) else none

def shiftRight (w : UInt64) (k : Nat) : Option UInt64 :=
  if k < 64 then some (w >>> k.toUInt64) else none

def shiftRight32 (v : UInt32) (k : Nat) : Option UInt32 :=
  if k < 32 then some (v >>> k.toUInt32) else none

/-- One shifted by `k` in a word of the given width. -/
def power (bits k : Nat) : Option Nat := if k < bits then some (1 <<< k) else none

/-- The length of a range of `2 ^ k`, less one. -/
def rangeMask (k : Nat) : Option Nat := do
  sub (← power 64 k) 1

/-- The word of `k` ones: one shifted by `k`, less one. -/
def mask (k : Nat) : Option UInt64 := do
  let top ← shiftLeft 1 k
  if 1 ≤ top then some (top - 1) else none

/-- A step that gives a result is followed by the rest. -/
theorem bind_eq {x : Option α} {a : α} (h : x = some a) (f : α → Option β) : x >>= f = f a := by
  subst h
  rfl

theorem fit_eq {bits n : Nat} (h : n < 2 ^ bits) : fit bits n = some n := if_pos h

theorem fit_eq_none {bits n : Nat} (h : ¬ n < 2 ^ bits) : fit bits n = none := if_neg h

theorem fit_eq_some_iff {bits m n : Nat} : fit bits m = some n ↔ m < 2 ^ bits ∧ m = n := by
  rw [fit, Option.ite_none_right_eq_some, Option.some.injEq]

theorem add_eq {m n : Nat} (h : m + n < 2 ^ 64) : add m n = some (m + n) := if_pos h

/-- A sum that fits has summands that fit. -/
theorem fit_bind_add (m n : Nat) :
    (fit 64 m >>= fun a => fit 64 n >>= fun b => add a b) = fit 64 (m + n) := by
  by_cases hm : m < 2 ^ 64
  · rw [bind_eq (fit_eq hm)]
    by_cases hn : n < 2 ^ 64
    · rw [bind_eq (fit_eq hn), add]
    · have hsum : ¬ m + n < 2 ^ 64 := by omega
      rw [fit_eq_none hn, fit_eq_none hsum]
      rfl
  · have hsum : ¬ m + n < 2 ^ 64 := by omega
    rw [fit_eq_none hm, fit_eq_none hsum]
    rfl

theorem mul_eq {m n : Nat} (h : m * n < 2 ^ 64) : mul m n = some (m * n) := if_pos h

theorem sub_eq {m n : Nat} (h : n ≤ m) : sub m n = some (m - n) := if_pos h

theorem div_eq {m n : Nat} (h : 0 < n) : div m n = some (m / n) :=
  if_neg (Nat.pos_iff_ne_zero.mp h)

theorem mod_eq {m n : Nat} (h : 0 < n) : mod m n = some (m % n) :=
  if_neg (Nat.pos_iff_ne_zero.mp h)

theorem fetch_eq {a : Array α} {i : Nat} (h : i < a.size) (d : α) :
    fetch a i = some (a.getD i d) := by
  simp [fetch, h]

theorem slice_eq {a : Array α} {i j : Nat} (hij : i ≤ j) (hj : j ≤ a.size) :
    slice a i j = some (a.extract i j) :=
  if_pos ⟨hij, hj⟩

theorem shiftLeft_eq (w : UInt64) {k : Nat} (h : k < 64) :
    shiftLeft w k = some (w <<< k.toUInt64) :=
  if_pos h

theorem shiftRight_eq (w : UInt64) {k : Nat} (h : k < 64) :
    shiftRight w k = some (w >>> k.toUInt64) :=
  if_pos h

theorem shiftRight32_eq (v : UInt32) {k : Nat} (h : k < 32) :
    shiftRight32 v k = some (v >>> k.toUInt32) :=
  if_pos h

theorem power_eq {bits k : Nat} (h : k < bits) : power bits k = some (1 <<< k) := if_pos h

theorem rangeMask_eq {k : Nat} (h : k < 64) : rangeMask k = some (2 ^ k - 1) := by
  rw [rangeMask, bind_eq (power_eq h), Nat.one_shiftLeft, sub_eq (Nat.two_pow_pos k)]

theorem mask_eq {k : Nat} (h : k < 64) : mask k = some (1 <<< k.toUInt64 - 1) := by
  have hle : (1 : UInt64) ≤ 1 <<< k.toUInt64 := by
    rw [UInt64.le_iff_toNat_le, toNat_one_shiftLeft h]
    exact Nat.two_pow_pos k
  simp only [mask, shiftLeft_eq _ h, Option.bind_eq_bind, Option.bind_some, hle, if_true]

/-! ### Lists -/

theorem mapM_eq {f : α → Option β} {g : α → β} {xs : List α} (h : ∀ x ∈ xs, f x = some (g x)) :
    xs.mapM f = some (xs.map g) := by
  induction xs with
  | nil => rfl
  | cons x xs ih =>
    rw [List.mapM_cons, h x List.mem_cons_self, ih fun y hy => h y (List.mem_cons_of_mem x hy)]
    rfl

theorem allM_eq {f : α → Option Bool} {p : α → Bool} {xs : List α}
    (h : ∀ x ∈ xs, f x = some (p x)) : xs.allM f = some (xs.all p) := by
  induction xs with
  | nil => rfl
  | cons x xs ih =>
    rw [List.allM, h x List.mem_cons_self, List.all_cons]
    cases p x
    · rfl
    · simpa using ih fun y hy => h y (List.mem_cons_of_mem x hy)

theorem anyM_eq {f : α → Option Bool} {p : α → Bool} {xs : List α}
    (h : ∀ x ∈ xs, f x = some (p x)) : xs.anyM f = some (xs.any p) := by
  induction xs with
  | nil => rfl
  | cons x xs ih =>
    rw [List.anyM, h x List.mem_cons_self, List.any_cons]
    cases p x
    · simpa using ih fun y hy => h y (List.mem_cons_of_mem x hy)
    · rfl

end Checked

open Checked

/-! ### Scaled words -/

def checkedScale32 (h : UInt32) (n : Nat) : Option Nat := do
  let p ← mul h.toNat n
  return p / UInt32.size

theorem checkedScale32_eq (h : UInt32) {n : Nat} (hn : n < 256 ^ 4) :
    checkedScale32 h n = some (scale32 h n) := by
  have hp : h.toNat * n < 2 ^ 32 * 256 ^ 4 := Nat.mul_lt_mul'' h.toNat_lt hn
  rw [checkedScale32, mul_eq hp]
  rfl

/-- The product of two words is taken in 128 bits. -/
def checkedScale64 (h : UInt64) (n : Nat) : Option Nat := do
  let p ← fit 128 (h.toNat * n)
  return p / UInt64.size

theorem checkedScale64_eq (h : UInt64) {n : Nat} (hn : n < 2 ^ 64) :
    checkedScale64 h n = some (scale64 h n) := by
  have hp : h.toNat * n < 2 ^ 64 * 2 ^ 64 := Nat.mul_lt_mul'' h.toNat_lt hn
  rw [checkedScale64, fit_eq hp]
  rfl

/-! ### Reads that may also be refused -/

/-- A read that is refused with an error, or gives a value, unless something goes wrong. -/
abbrev Reading := ExceptT Error Option

namespace Reading

variable {α β : Type}

/-- A step in which nothing can go wrong. -/
def outcome (x : Except Error α) : Reading α := ExceptT.mk (some x)

/-- A computation on the way. -/
def compute (x : Option α) : Reading α := ExceptT.lift x

theorem outcome_bind {x : Except Error α} {f : α → Reading β} {g : α → Except Error β}
    (h : ∀ a, x = .ok a → f a = outcome (g a)) : outcome x >>= f = outcome (x >>= g) := by
  cases x with
  | error e => rfl
  | ok a => exact h a rfl

theorem compute_bind {x : Option α} {a : α} (h : x = some a) (f : α → Reading β) :
    compute x >>= f = f a := by
  subst h
  rfl

theorem throw_if {p : Prop} [Decidable p] {e : Error} {f : α → Reading β}
    {g : α → Except Error β} {x : Reading β} {y : Except Error β} (h : ¬p → x = outcome y) :
    (if p then throw e >>= f else x) = outcome (if p then throw e >>= g else y) := by
  by_cases hp : p
  · rw [if_pos hp, if_pos hp]
    rfl
  · rw [if_neg hp, if_neg hp, h hp]

theorem map_outcome (f : α → β) (x : Except Error α) : f <$> outcome x = outcome (x.map f) := by
  cases x with
  | error e => rfl
  | ok a => rfl

end Reading

end ApproxSet
