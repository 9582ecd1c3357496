import ApproxSet.Proofs.Ribbon.Basic

/-!
# Rows that were taken

Rows come in any order, each for the band of its own shard. A band takes a row by storing it, or by
finding that its equations already say the same. Either way the words that are solved from all bands
together satisfy the row, also where it runs from a block into one with more columns.
-/
namespace ApproxSet.Band

/-- Adds a row to the band of its shard. -/
def addAt? (bands : List Band) (p : Nat × Row) : Option (List Band) := do
  let b ← bands[p.1]?
  let b ← b.add? p.2
  return bands.set p.1 b

/-- Bands of `slots` slots whose equations imply the rows taken so far. -/
structure Taken (slots : Nat) (bands : List Band) (rows : List (Nat × Row)) : Prop where
  wellFormed : ∀ b ∈ bands, b.WellFormed
  size : ∀ b ∈ bands, b.size = slots
  implied : ∀ p ∈ rows, ∃ b, bands[p.1]? = some b ∧
    ∀ j x, b.Solves j x → dot x p.2.start p.2.coeff = valueBit p.2.value j

theorem taken_empty (slots shards : Nat) :
    Taken slots (List.replicate shards (empty slots)) [] where
  wellFormed b hb := List.eq_of_mem_replicate hb ▸ wellFormed_empty slots
  size b hb := List.eq_of_mem_replicate hb ▸ Array.size_replicate
  implied := by simp

theorem addAt?_eq_some {bands bands' : List Band} {p : Nat × Row}
    (h : addAt? bands p = some bands') :
    ∃ b b', bands[p.1]? = some b ∧ b.add? p.2 = some b' ∧ bands' = bands.set p.1 b' := by
  obtain ⟨b, hb, h⟩ := Option.bind_eq_some_iff.mp h
  obtain ⟨b', hb', h⟩ := Option.bind_eq_some_iff.mp h
  cases h
  exact ⟨b, b', hb, hb', rfl⟩

variable {slots : Nat} {bands bands' : List Band} {done : List (Nat × Row)}

/-- One step: the band of the row loses those solutions that the row does not have, and no other
band changes. -/
theorem Taken.addAt? (h : Taken slots bands done) {p : Nat × Row} (hp : p.2.start ≤ slots)
    (hadd : addAt? bands p = some bands') : Taken slots bands' (done ++ [p]) := by
  obtain ⟨b, b', hb, hb', rfl⟩ := addAt?_eq_some hadd
  have hmem := List.mem_of_getElem? hb
  have hsize := h.size b hmem
  have hlt := (List.getElem?_eq_some_iff.mp hb).1
  obtain ⟨hwf', hsize', hiff⟩ := solves_add?_iff (h.wellFormed b hmem) (hsize.symm ▸ hp) hb'
  constructor
  · intro a ha
    rcases List.mem_or_eq_of_mem_set ha with ha | rfl
    · exact h.wellFormed a ha
    · exact hwf'
  · intro a ha
    rcases List.mem_or_eq_of_mem_set ha with ha | rfl
    · exact h.size a ha
    · exact hsize'.trans hsize
  · intro q hq
    rcases List.mem_append.mp hq with hq | hq
    · obtain ⟨a, ha, hrow⟩ := h.implied q hq
      by_cases hsame : p.1 = q.1
      · rw [← hsame, hb] at ha
        cases ha
        refine ⟨b', ?_, fun j x hx => hrow j x ((hiff j x).mp hx).1⟩
        rw [← hsame, List.getElem?_set_self hlt]
      · refine ⟨a, ?_, hrow⟩
        rw [List.getElem?_set_ne hsame, ha]
    · obtain rfl := List.mem_singleton.mp hq
      exact ⟨b', List.getElem?_set_self hlt, fun j x hx => ((hiff j x).mp hx).2⟩

theorem length_addAt? {p : Nat × Row} (h : Band.addAt? bands p = some bands') :
    bands'.length = bands.length := by
  obtain ⟨b, b', -, -, rfl⟩ := addAt?_eq_some h
  exact List.length_set

/-- Induction on the rows that are left. -/
theorem Taken.foldlM (h : Taken slots bands done) {rows : List (Nat × Row)}
    (hrows : ∀ p ∈ rows, p.2.start ≤ slots) (hrun : rows.foldlM Band.addAt? bands = some bands') :
    Taken slots bands' (done ++ rows) ∧ bands'.length = bands.length := by
  induction rows generalizing bands done with
  | nil =>
    cases hrun
    rw [List.append_nil]
    exact ⟨h, rfl⟩
  | cons p rows ih =>
    obtain ⟨hp, hrows⟩ := List.forall_mem_cons.mp hrows
    rw [List.foldlM_cons] at hrun
    obtain ⟨bands₁, hadd, hrun⟩ := Option.bind_eq_some_iff.mp hrun
    obtain ⟨htaken, hlen⟩ := ih (h.addAt? hp hadd) hrows hrun
    rw [List.append_assoc] at htaken
    exact ⟨htaken, hlen.trans (length_addAt? hadd)⟩

/-- Solving backwards satisfies all rows that the bands of the shards took, in whatever order they
came, however many columns a block has, and whether an equation was stored for the row or not. The
rows must end inside their shards. -/
theorem solve_satisfies_taken {shards : Nat} {c : Columns} (hc : 64 * c.blocks = shards * slots)
    {rows : List (Nat × Row)} (hrows : ∀ p ∈ rows, p.2.start + 64 ≤ slots)
    (hrun : rows.foldlM addAt? (List.replicate shards (empty slots)) = some bands) :
    ∀ p ∈ rows,
      c.satisfies ((joined bands).solve c)
        { p.2 with start := p.1 * slots + p.2.start } = true := by
  have hstart : ∀ p ∈ rows, p.2.start ≤ slots := by
    intro p hp
    exact (Nat.le_add_right ..).trans (hrows p hp)
  obtain ⟨htaken, hlen⟩ := (taken_empty slots shards).foldlM hstart hrun
  rw [List.length_replicate] at hlen
  intro p hp
  obtain ⟨b, hb, hrow⟩ := htaken.implied p (List.mem_append_right _ hp)
  exact Columns.satisfies_joined htaken.wellFormed htaken.size (by rw [hlen, hc]) hb (hrows p hp)
    hrow

/-- Four rows for two shards of two blocks with three and four columns: the second begins in the
first block of its shard and ends in the second, and the last repeats the first. -/
theorem solve_satisfies_taken_four :
    ∃ bands, [(1, ⟨10, 0b1011, 5⟩), (0, ⟨60, 0xff01, 3⟩), (1, ⟨64, 1, 0x7f⟩),
        (1, ⟨10, 0b1011, 5⟩)].foldlM addAt? (List.replicate 2 (empty 128)) = some bands ∧
      (Columns.spread 4 15).satisfies ((joined bands).solve (.spread 4 15)) ⟨60, 0xff01, 3⟩ ∧
      (Columns.spread 4 15).satisfies ((joined bands).solve (.spread 4 15)) ⟨138, 0b1011, 5⟩ := by
  have hsome : ([(1, ⟨10, 0b1011, 5⟩), (0, ⟨60, 0xff01, 3⟩), (1, ⟨64, 1, 0x7f⟩),
      (1, ⟨10, 0b1011, 5⟩)].foldlM addAt? (List.replicate 2 (empty 128))).isSome = true := by
    decide +kernel
  obtain ⟨bands, hrun⟩ := Option.isSome_iff_exists.mp hsome
  have h := solve_satisfies_taken (c := .spread 4 15) (by decide) (by decide) hrun
  exact ⟨bands, hrun, h (0, ⟨60, 0xff01, 3⟩) (by simp), h (1, ⟨10, 0b1011, 5⟩) (by simp)⟩

end ApproxSet.Band
