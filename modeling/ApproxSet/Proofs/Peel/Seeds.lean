import ApproxSet.Peel.Assign
import ApproxSet.Proofs.KeySet
import ApproxSet.Proofs.Word.Mix

/-!
# Attempts do not repeat

Keys are tried under one seed after the other, in the order of `attemptSeeds`. Under each seed the
mixed keys are as many as the keys, and no two of the attempts after the first have the same seed.
-/
namespace ApproxSet.Layout
open Function

/-- The seeds of `n` attempts in order: the given one, then the words drawn from it as the state. -/
def attemptSeeds (seed : UInt64) : Nat → List UInt64
  | 0 => []
  | n + 1 => seed :: drawWords seed n

theorem attemptSeeds_eq_map (seed : UInt64) (n : Nat) :
    attemptSeeds seed n = (List.range n).map (trySeed seed) := by
  cases n with
  | zero => rfl
  | succ n =>
    rw [attemptSeeds, drawWords_eq_map, List.range_succ_eq_map, List.map_cons, List.map_map]
    rfl

theorem nodup_tail_attemptSeeds (seed : UInt64) {n : Nat} (hn : n ≤ 2 ^ 64 + 1) :
    (attemptSeeds seed n).tail.Nodup := by
  cases n with
  | zero => exact List.nodup_nil
  | succ n => exact nodup_drawWords seed (by omega)

/-- The outcome of the attempt under seed `s`, if every key gets picked. -/
def attempt? (w : Nat) (l : Layout) (keys : List UInt64) (s : UInt64) :
    Option (UInt64 × Array (BitVec w)) :=
  (l.peelAll? keys s).map fun picks => (s, l.assign w picks)

/-- The search goes through the seeds in order, up to the first attempt that succeeds. -/
theorem solve_eq_findSome? (w : Nat) (l : Layout) (keys : List UInt64) (seed : UInt64)
    (tries : Nat) : l.solve w keys seed tries =
      ((attemptSeeds seed tries).findSome? (l.attempt? w keys)).elim
        (.error (.peelExhausted tries)) .ok := by
  have hfirst := firstSuccess_map (fun j => l.peelAll? keys (trySeed seed j))
    (fun j picks => (trySeed seed j, l.assign w picks)) tries
  have hsearch : (attemptSeeds seed tries).findSome? (l.attempt? w keys) =
      (l.firstPeel? keys seed tries).map fun r => (trySeed seed r.1, l.assign w r.2) := by
    rw [attemptSeeds_eq_map, List.findSome?_map, firstPeel?, hfirst]
    rfl
  rw [hsearch, solve]
  cases l.firstPeel? keys seed tries with
  | some r => rfl
  | none => rfl

/-- Mixing under any seed permutes the words, so distinct keys stay as many as they are. The first
`2 ^ 64` words of any stream are distinct, and so are the seeds under which a search makes its
attempts, the first attempt apart. -/
theorem mixed_keys_and_seeds_distinct (seed : UInt64) :
    Bijective (mix · seed) ∧
      (∀ hashes, ((distinct hashes).map (mix · seed)).Nodup) ∧
      (∀ n, drawWords seed n = (List.range n).map (streamWord seed) ∧
        (n ≤ 2 ^ 64 → (drawWords seed n).Nodup)) ∧
      ∀ (w : Nat) (l : Layout) (keys : List UInt64) (tries : Nat),
        l.solve w keys seed tries =
            ((attemptSeeds seed tries).findSome? (l.attempt? w keys)).elim
              (.error (.peelExhausted tries)) .ok ∧
          (tries ≤ 2 ^ 64 + 1 → (attemptSeeds seed tries).tail.Nodup) := by
  refine ⟨mix_bijective seed, ?_, ?_, ?_⟩
  · intro hashes
    exact (nodup_distinct hashes).map (mix_injective seed)
  · intro n
    exact ⟨drawWords_eq_map seed n, nodup_drawWords seed⟩
  · intro w l keys tries
    exact ⟨solve_eq_findSome? w l keys seed tries, nodup_tail_attemptSeeds seed⟩

/-- Two keys given three times, that the second attempt picks. -/
theorem mixed_keys_and_seeds_distinct_four :
    ((distinct [2, 1, 2]).map (mix · 4)).Nodup ∧ 3 ≤ 2 ^ 64 ∧ (drawWords 4 3).Nodup ∧
      (blocks 2).solve 8 [1, 2] 4 3 =
        ((attemptSeeds 4 3).findSome? ((blocks 2).attempt? 8 [1, 2])).elim
          (.error (.peelExhausted 3)) .ok ∧
      3 ≤ 2 ^ 64 + 1 ∧ (attemptSeeds 4 3).tail.Nodup := by
  obtain ⟨-, hkeys, hwords, hsearch⟩ := mixed_keys_and_seeds_distinct 4
  obtain ⟨hsolve, hseeds⟩ := hsearch 8 (blocks 2) [1, 2] 3
  exact ⟨hkeys [2, 1, 2], by decide, (hwords 3).2 (by decide), hsolve, by decide,
    hseeds (by decide)⟩

end ApproxSet.Layout
