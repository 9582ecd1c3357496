import ApproxSet.Proofs.Word.Bits
import ApproxSet.Word.Mix
import Mathlib.Data.FinEnum
import Mathlib.Data.List.Nodup
import Mathlib.Logic.Function.Iterate

/-!
# Mixing loses nothing

`mix` permutes the words for every seed, so distinct hashes stay distinct. The seeds of repeated
attempts are read off a stream in closed form; `streamWord_eq_drawn` says that drawing the words one
by one from a growing state gives the same words. The stream comes back to a word after `2 ^ 64`
draws and not before (`streamWord_eq_streamWord_iff`).
-/
namespace ApproxSet
open Function

theorem bitAt_xorShift {k : Nat} (hk : k < 64) (h : UInt64) (i : Nat) :
    bitAt (xorShift k.toUInt64 h) i = (bitAt h i ^^ bitAt h (k + i)) := by
  rw [xorShift, bitAt_xor, bitAt_shiftRight _ hk]

/-- The high bits are those of the argument, and each further one follows from them. -/
theorem xorShift_injective {k : Nat} (hpos : 0 < k) (hk : k < 64) :
    Injective (xorShift k.toUInt64) := by
  intro a b h
  have hbit (i : Nat) : (bitAt a i ^^ bitAt a (k + i)) = (bitAt b i ^^ bitAt b (k + i)) := by
    rw [← bitAt_xorShift hk, ← bitAt_xorShift hk, h]
  -- induction on the distance to the top of the word
  have hdist : ∀ d i, 64 ≤ i + d → bitAt a i = bitAt b i := by
    intro d
    induction d using Nat.strongRecOn with
    | ind d ih =>
      intro i hi
      by_cases htop : 64 ≤ i
      · rw [bitAt_of_ge a htop, bitAt_of_ge b htop]
      · have hup : bitAt a (k + i) = bitAt b (k + i) := ih (d - k) (by omega) (k + i) (by omega)
        have hi := hbit i
        rwa [hup, Bool.xor_left_inj] at hi
  exact eq_of_bitAt fun i _ => hdist 64 i (by omega)

theorem mul_injective_of_inverse {c d : UInt64} (h : c * d = 1) : Injective (· * c) := by
  intro a b hab
  have hc : a * c = b * c := hab
  calc a = a * (c * d) := by rw [h, UInt64.mul_one]
    _ = b * (c * d) := by rw [← UInt64.mul_assoc, hc, UInt64.mul_assoc]
    _ = b := by rw [h, UInt64.mul_one]

theorem mix64_injective : Injective mix64 := by
  have hx : Injective (xorShift 33) := xorShift_injective (k := 33) (by decide) (by decide)
  have h₁ : Injective (· * (0xff51afd7ed558ccd : UInt64)) :=
    mul_injective_of_inverse (d := 0x4f74430c22a54005) (by decide)
  have h₂ : Injective (· * (0xc4ceb9fe1a85ec53 : UInt64)) :=
    mul_injective_of_inverse (d := 0x9cb4b2f8129337db) (by decide)
  exact hx.comp (h₂.comp (hx.comp (h₁.comp hx)))

theorem mix_injective (seed : UInt64) : Injective (mix · seed) := by
  intro a b h
  exact (UInt64.add_left_inj seed).mp (mix64_injective h)

theorem mix_bijective (seed : UInt64) : Bijective (mix · seed) :=
  Finite.injective_iff_bijective.mp (mix_injective seed)

theorem scramble_injective : Injective scramble := by
  have hx₃₀ : Injective (xorShift 30) := xorShift_injective (k := 30) (by decide) (by decide)
  have hx₂₇ : Injective (xorShift 27) := xorShift_injective (k := 27) (by decide) (by decide)
  have hx₃₁ : Injective (xorShift 31) := xorShift_injective (k := 31) (by decide) (by decide)
  have h₁ : Injective (· * (0xBF58476D1CE4E5B9 : UInt64)) :=
    mul_injective_of_inverse (d := 0x96de1b173f119089) (by decide)
  have h₂ : Injective (· * (0x94D049BB133111EB : UInt64)) :=
    mul_injective_of_inverse (d := 0x319642b2d24d8ec3) (by decide)
  exact hx₃₁.comp (h₂.comp (hx₂₇.comp (h₁.comp hx₃₀)))

/-- A word and the next state: the state grows by `golden` before it is scrambled. -/
def drawWord (state : UInt64) : UInt64 × UInt64 := (scramble (state + golden), state + golden)

/-- The `n`-th word drawn, the state being handed on `n` times before. -/
def drawn (state : UInt64) (n : Nat) : UInt64 := (drawWord ((fun s => (drawWord s).2)^[n] state)).1

theorem iterate_drawWord (state : UInt64) (n : Nat) :
    (fun s => (drawWord s).2)^[n] state = state + golden * n.toUInt64 := by
  induction n with
  | zero =>
    change state = state + golden * 0
    rw [UInt64.mul_zero, UInt64.add_zero]
  | succ n ih =>
    have hs : (n + 1).toUInt64 = n.toUInt64 + 1 := UInt64.ofNat_add n 1
    rw [Function.iterate_succ_apply', ih, drawWord, hs, UInt64.mul_add, UInt64.mul_one,
      UInt64.add_assoc]

theorem streamWord_eq_drawn (state : UInt64) (n : Nat) : streamWord state n = drawn state n := by
  have hs : (n + 1).toUInt64 = n.toUInt64 + 1 := UInt64.ofNat_add n 1
  rw [streamWord, drawn, iterate_drawWord, drawWord, hs, UInt64.mul_add, UInt64.mul_one,
    UInt64.add_assoc]

/-- The states run through all words before one comes back, and scrambling keeps them apart. -/
theorem streamWord_eq_streamWord_iff {start : UInt64} {i j : Nat} :
    streamWord start i = streamWord start j ↔ i % 2 ^ 64 = j % 2 ^ 64 := by
  have hodd : Injective (· * golden) :=
    mul_injective_of_inverse (d := 0xf1de83e19937733d) (by decide)
  have hnumber : i % 2 ^ 64 = j % 2 ^ 64 ↔ (i + 1) % 2 ^ 64 = (j + 1) % 2 ^ 64 := by omega
  rw [hnumber, ← toUInt64_eq_iff, streamWord, streamWord, scramble_injective.eq_iff,
    UInt64.add_right_inj, UInt64.mul_comm golden, UInt64.mul_comm golden]
  exact hodd.eq_iff

theorem streamWord_succ (start : UInt64) (n : Nat) :
    streamWord start (n + 1) = streamWord (drawWord start).2 n := by
  rw [streamWord_eq_drawn, streamWord_eq_drawn, drawn, drawn, Function.iterate_succ_apply]

/-- The next `n` words drawn, the state being handed on from each to the next. -/
def drawWords (state : UInt64) : Nat → List UInt64
  | 0 => []
  | n + 1 => (drawWord state).1 :: drawWords (drawWord state).2 n

theorem drawWords_eq_map (state : UInt64) (n : Nat) :
    drawWords state n = (List.range n).map (streamWord state) := by
  induction n generalizing state with
  | zero => rfl
  | succ n ih =>
    have hfirst : (drawWord state).1 = streamWord state 0 := (streamWord_eq_drawn state 0).symm
    have hnext : streamWord (drawWord state).2 = streamWord state ∘ Nat.succ := by
      funext i
      exact (streamWord_succ state i).symm
    rw [drawWords, ih, List.range_succ_eq_map, List.map_cons, List.map_map, hnext, hfirst]

/-- No word is drawn twice before all have been drawn. -/
theorem nodup_drawWords (state : UInt64) {n : Nat} (hn : n ≤ 2 ^ 64) :
    (drawWords state n).Nodup := by
  rw [drawWords_eq_map]
  apply List.nodup_range.map_on
  intro i hi j hj h
  have hi := Nat.lt_of_lt_of_le (List.mem_range.mp hi) hn
  have hj := Nat.lt_of_lt_of_le (List.mem_range.mp hj) hn
  have hmod := streamWord_eq_streamWord_iff.mp h
  rwa [Nat.mod_eq_of_lt hi, Nat.mod_eq_of_lt hj] at hmod

/-- The seeds of repeated attempts: the given one, then the words drawn from it as the state. -/
def seedStream (seed : UInt64) : Nat → UInt64
  | 0 => seed
  | n + 1 => drawn seed n

theorem trySeed_eq_seedStream (seed : UInt64) (n : Nat) : trySeed seed n = seedStream seed n := by
  cases n with
  | zero => rfl
  | succ n => exact streamWord_eq_drawn seed n

end ApproxSet
