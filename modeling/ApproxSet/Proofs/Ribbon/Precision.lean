import ApproxSet.Proofs.Ribbon.Basic

/-!
# More bits

The bits for each key decide how many columns of the solution are stored. They have no part in the
seed bytes or in what a column says, so a filter with more bits finds no hash that one with fewer
bits rejects.
-/
namespace ApproxSet

/-- What satisfies a row in more columns satisfies it in fewer. -/
theorem Columns.satisfies_of_wider (sys : Band) {c c' : Columns} (hblocks : c.blocks = c'.blocks)
    (hwider : ∀ b, b < c.blocks → c.width b ≤ c'.width b) {r : Row}
    (hstart : r.start + 64 ≤ 64 * c.blocks) (h : c'.satisfies (sys.solve c') r = true) :
    c.satisfies (sys.solve c) r = true := by
  rw [satisfies_solve_iff sys c' (hblocks ▸ hstart), ← hblocks] at h
  rw [satisfies_solve_iff sys c hstart]
  intro j hj
  exact h j (hj.trans_le (hwider _ (by omega)))

namespace Ribbon

theorem wordsFor_mono (slots : Nat) {m m' : Nat} (h : m ≤ m') :
    wordsFor slots m ≤ wordsFor slots m' :=
  Nat.div_le_div_right (Nat.add_le_add_right (Nat.mul_le_mul_left _ h) _)

theorem width_columnsFor_mono (n : Nat) {m m' : Nat} (h : m ≤ m') {b : Nat}
    (hb : b < (columnsFor n m).blocks) : (columnsFor n m).width b ≤ (columnsFor n m').width b := by
  rw [columnsFor, Columns.blocks_spread] at hb
  exact Columns.width_spread_mono hb (wordsFor_mono _ h)

/-- Both filters read the same row for a hash, since they agree in the number of slots and in the
seed bytes. -/
theorem placedRow_ofShards (n m m' : Nat) (seed : UInt64) (shards : List (Nat × Band))
    (hash : UInt64) :
    (ofShards n m seed shards).placedRow hash = (ofShards n m' seed shards).placedRow hash := by
  obtain ⟨-, -, hslots⟩ := ofShards_sizes n m seed shards
  obtain ⟨-, -, hslots'⟩ := ofShards_sizes n m' seed shards
  rw [placedRow, hslots, placedRow, hslots']
  rfl

theorem build_of_solved {hashes : List UInt64} {seed : UInt64} {minKeys : Nat}
    {shards : List (Nat × Band)} (h : solved hashes seed minKeys = .ok shards) (m : Nat) :
    build hashes m seed minKeys = .ok (ofShards (distinct hashes).length m seed shards) := by
  rw [build_eq, h, Except.map]

/-- More bits make the same builds fail, choose the same seed bytes, and add no false positive. -/
theorem build_more_bits (hashes : List UInt64) (seed : UInt64) (minKeys : Nat) {m m' : Nat}
    (h : m ≤ m') :
    (∃ e, build hashes m seed minKeys = .error e ∧ build hashes m' seed minKeys = .error e) ∨
      ∃ f g, build hashes m seed minKeys = .ok f ∧ build hashes m' seed minKeys = .ok g ∧
        f.shardSeeds = g.shardSeeds ∧ ∀ q, g.mayContain q = true → f.mayContain q = true := by
  cases hsolved : solved hashes seed minKeys with
  | error e =>
    refine .inl ⟨e, ?_, ?_⟩
    · rw [build_eq, hsolved, Except.map]
    · rw [build_eq, hsolved, Except.map]
  | ok shards =>
    have hf := build_of_solved hsolved m
    refine .inr ⟨_, _, hf, build_of_solved hsolved m', rfl, ?_⟩
    intro q hq
    obtain ⟨-, -, hend⟩ := (stored_of_build hf).placedRow_bounds q rfl
    have hblocks : (columnsFor (distinct hashes).length m).blocks =
        (columnsFor (distinct hashes).length m').blocks := by
      rw [columnsFor, columnsFor, Columns.blocks_spread, Columns.blocks_spread]
    rw [mayContain_eq, placedRow_ofShards _ m' m] at hq
    rw [mayContain_eq]
    exact Columns.satisfies_of_wider _ hblocks (fun b hb => width_columnsFor_mono _ h hb) hend hq

/-- A filter of three hashes with three and a half bits for each slot, and one with seven. -/
theorem build_more_bits_three : 3500 ≤ 7000 ∧ ∃ f g, build [3, 5, 9] 3500 4 1 = .ok f ∧
    build [3, 5, 9] 7000 4 1 = .ok g ∧ f.shardSeeds = g.shardSeeds ∧
      ∀ q, g.mayContain q = true → f.mayContain q = true := by
  have hkeys : distinct [3, 5, 9] = [3, 5, 9] := distinct_of_ascending (by decide)
  have hok : (build [3, 5, 9] 3500 4 1).isOk = true := by
    rw [build, hkeys, basesOf_of_ascending (by decide +kernel)]
    decide +kernel
  refine ⟨by decide, ?_⟩
  rcases build_more_bits [3, 5, 9] 4 1 (by decide : 3500 ≤ 7000) with ⟨e, he, -⟩ | hboth
  · rw [he] at hok
    cases hok
  · exact hboth

end Ribbon

end ApproxSet
