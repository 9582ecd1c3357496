import ApproxSet.Proofs.Ribbon.Basic

/-!
# Solvable shards

A row is an equation between unknown words, one for each slot. A band that ends inside itself
refuses a row only when every solution of its equations fails the row, and any band has a solution.
So the rows of a shard fit in a band exactly when they have a common solution, and a shard takes the
first seed byte under which they do.
-/
namespace ApproxSet

/-! ### Equations between words -/

theorem valueBit_of_ge (v : UInt32) {j : Nat} (h : 32 ≤ j) : valueBit v j = false :=
  BitVec.getLsbD_of_ge _ _ h

theorem eq_of_valueBit {v w : UInt32} (h : ∀ j, valueBit v j = valueBit w j) : v = w :=
  UInt32.toBitVec_inj.mp (BitVec.eq_of_getLsbD_eq fun j _ => h j)

theorem exists_valueBit {v : UInt32} (h : v ≠ 0) : ∃ j, valueBit v j = true := by
  by_contra hnone
  apply h
  apply eq_of_valueBit
  intro j
  rw [valueBit_zero]
  exact Bool.eq_false_iff.mpr fun hj => hnone ⟨j, hj⟩

theorem valueBit_toUInt32 (w : UInt64) (j : Nat) :
    valueBit w.toUInt32 j = (decide (j < 32) && bitAt w j) := by
  rw [valueBit, UInt64.toBitVec_toUInt32, BitVec.getLsbD_setWidth, bitAt]

/-- Bit `j` of each unknown. -/
def bitColumn (x : Nat → UInt32) (j : Nat) : Nat → Bool := fun i => valueBit (x i) j

namespace Row

/-- The sum of the unknowns that the first `n` coefficients of a row pick. -/
def sumTo (r : Row) (x : Nat → UInt32) : Nat → UInt32
  | 0 => 0
  | n + 1 => if bitAt r.coeff n then r.sumTo x n ^^^ x (r.start + n) else r.sumTo x n

/-- The unknowns satisfy the equation of a row. -/
def Holds (r : Row) (x : Nat → UInt32) : Prop := r.sumTo x 64 = r.value

theorem valueBit_sumTo (r : Row) (x : Nat → UInt32) (j n : Nat) :
    valueBit (r.sumTo x n) j =
      xorUpTo (fun t => bitAt r.coeff t && bitColumn x j (r.start + t)) n := by
  induction n with
  | zero => exact valueBit_zero j
  | succ n ih =>
    rw [sumTo, xorUpTo, ← ih]
    cases bitAt r.coeff n with
    | false => simp
    | true => simp [bitColumn]

/-- A row holds when it holds in every column. -/
theorem holds_iff {r : Row} {x : Nat → UInt32} :
    r.Holds x ↔ ∀ j, dot (bitColumn x j) r.start r.coeff = valueBit r.value j := by
  constructor
  · intro h j
    rw [← h, valueBit_sumTo, dot]
  · intro h
    apply eq_of_valueBit
    intro j
    rw [valueBit_sumTo, ← h j, dot]

end Row

/-- The rows have a common solution in the unknowns of the first `slots` slots. -/
def Solvable (slots : Nat) (rows : List Row) : Prop :=
  ∃ x : Nat → UInt32, (∀ i, slots ≤ i → x i = 0) ∧ ∀ r ∈ rows, r.Holds x

namespace Band

/-- The unknowns satisfy every equation of a band. -/
def SolvedBy (b : Band) (x : Nat → UInt32) : Prop := ∀ j, b.Solves j (bitColumn x j)

theorem solvedBy_empty (slots : Nat) (x : Nat → UInt32) : (empty slots).SolvedBy x := by
  intro j i
  rw [equation_empty, dot_zero, valueBit_zero]

theorem solvedBy_add?_iff {b : Band} (hb : b.WellFormed) {r : Row} (hr : r.start ≤ b.size)
    {b' : Band} (h : b.add? r = some b') (x : Nat → UInt32) :
    b'.SolvedBy x ↔ b.SolvedBy x ∧ r.Holds x := by
  obtain ⟨-, -, hiff⟩ := solves_add?_iff hb hr h
  rw [SolvedBy, SolvedBy, Row.holds_iff, ← forall_and]
  exact forall_congr' fun j => hiff j _

theorem solvedBy_foldlM_iff {b : Band} (hb : b.WellFormed) {rows : List Row}
    (hrows : ∀ r ∈ rows, r.start ≤ b.size) {b' : Band} (h : rows.foldlM add? b = some b')
    (x : Nat → UInt32) : b'.SolvedBy x ↔ b.SolvedBy x ∧ ∀ r ∈ rows, r.Holds x := by
  obtain ⟨-, -, hiff⟩ := solves_foldlM_iff hb hrows h
  simp only [SolvedBy, Row.holds_iff, hiff]
  constructor
  · exact fun h => ⟨fun j => (h j).1, fun r hr j => (h j).2 r hr⟩
  · exact fun h j => ⟨h.1 j, fun r hr => h.2 r hr j⟩

/-! ### Every band has a solution -/

/-- The columns found backwards, side by side. -/
def assignment (b : Band) (total s : Nat) : UInt32 :=
  (wordOf (fun j => solution b j total s) 32).toUInt32

theorem valueBit_assignment (b : Band) (total s j : Nat) :
    valueBit (b.assignment total s) j = (decide (j < 32) && solution b j total s) := by
  rw [assignment, valueBit_toUInt32, bitAt_wordOf _ (by decide)]
  cases decide (j < 32) <;> rfl

theorem bitColumn_assignment (b : Band) (total : Nat) {j : Nat} (hj : j < 32) :
    bitColumn (b.assignment total) j = solution b j total := by
  ext s
  rw [bitColumn, valueBit_assignment]
  simp [hj]

theorem bitColumn_assignment_of_ge (b : Band) (total : Nat) {j : Nat} (hj : 32 ≤ j) :
    bitColumn (b.assignment total) j = fun _ => false := by
  ext s
  rw [bitColumn, valueBit_of_ge _ hj]

theorem assignment_of_ge (b : Band) {total s : Nat} (h : total ≤ s) : b.assignment total s = 0 := by
  apply eq_of_valueBit
  intro j
  rw [valueBit_assignment, valueBit_zero, solution, window_of_ge b j h, bitAt_zero, Bool.and_false]

theorem solvedBy_assignment {b : Band} (hb : b.WellFormed) {total : Nat} (h : b.size ≤ total) :
    b.SolvedBy (b.assignment total) := by
  intro j
  by_cases hj : j < 32
  · rw [bitColumn_assignment b total hj]
    exact solution_solves hb h j
  · intro i
    rw [bitColumn_assignment_of_ge b total (by omega), valueBit_of_ge _ (by omega), dot]
    exact xorUpTo_false fun t _ => Bool.and_false _

/-! ### Refused rows -/

/-- All coefficients lie in the next `n` slots. -/
def Within (c : UInt64) (n : Nat) : Prop := ∀ t, bitAt c t = true → t < n

/-- Every equation ends at the last slot or before. -/
def Inside (b : Band) : Prop := ∀ i, Within (b.equation i).coeff (b.size - i)

theorem within_word (c : UInt64) {n : Nat} (h : 64 ≤ n) : Within c n := by
  intro t ht
  by_contra hn
  rw [bitAt_of_ge c (by omega)] at ht
  cases ht

theorem Within.eq_zero {c : UInt64} (h : Within c 0) : c = 0 := by
  apply eq_of_bitAt
  intro t _
  rw [bitAt_zero]
  exact Bool.eq_false_iff.mpr fun ht => Nat.not_lt_zero t (h t ht)

theorem Within.shiftRight {c : UInt64} {n : Nat} (h : Within c (n + 1)) : Within (c >>> 1) n := by
  intro t ht
  have hshift : bitAt (c >>> 1) t = bitAt c (1 + t) := bitAt_shiftRight c (k := 1) (by decide) t
  have hlt := h (1 + t) (hshift ▸ ht)
  omega

theorem Within.xor {c d : UInt64} {n : Nat} (hc : Within c n) (hd : Within d n) :
    Within (c ^^^ d) n := by
  intro t ht
  rw [bitAt_xor] at ht
  cases hbit : bitAt c t with
  | true => exact hc t hbit
  | false =>
    rw [hbit, Bool.false_xor] at ht
    exact hd t ht

theorem inside_empty (slots : Nat) : (empty slots).Inside := by
  intro i t ht
  rw [equation_empty, bitAt_zero] at ht
  cases ht

theorem Inside.set {b : Band} (hb : b.Inside) {i : Nat} (hi : i < b.size) {c : UInt64}
    (hc : Within c (b.size - i)) (v : UInt32) : Inside (b.setIfInBounds i ⟨c, v⟩) := by
  intro k
  rw [equation_set b hi, Array.size_setIfInBounds]
  split
  · rename_i hk
    exact hk ▸ hc
  · exact hb k

/-- What is left of a row after it meets the equation of its slot ends where the band does. -/
theorem Inside.within_sum {b : Band} (hb : b.Inside) {n i : Nat} (hi : i + (n + 1) = b.size)
    {c : UInt64} (hc : Within c (n + 1)) : Within ((c ^^^ (b.equation i).coeff) >>> 1) n := by
  have he := hb i
  have hsub : b.size - i = n + 1 := by omega
  rw [hsub] at he
  exact (hc.xor he).shiftRight

theorem Inside.addFrom {b : Band} (hb : b.Inside) {left i : Nat} (hi : i + left = b.size)
    {c : UInt64} (hc : Within c left) {v : UInt32} {b' : Band}
    (h : b.addFrom left i c v = some b') : b'.Inside := by
  induction left using Nat.strongRecOn generalizing i c v with
  | ind left ih =>
    rcases addFrom_cases h with ⟨-, -, ⟨⟩⟩ | ⟨-, -, ⟨⟩⟩ | ⟨-, -, ⟨⟩⟩ |
      ⟨n, rfl, ⟨-, h⟩ | ⟨-, -, ⟨⟩⟩ | ⟨-, -, h⟩⟩
    · exact hb
    · exact ih n n.lt_succ_self (by omega) hc.shiftRight h
    · have hsub : b.size - i = n + 1 := by omega
      exact hb.set (by omega) (hsub ▸ hc) v
    · exact ih n n.lt_succ_self (by omega) (hb.within_sum hi hc) h

/-- A refused row fails in some column under every solution of the band. Induction on the slots
left: sums with equations that are met do not change whether the row is. -/
theorem exists_column_of_addFrom {b : Band} (hb : b.WellFormed) (hin : b.Inside) {left i : Nat}
    (hi : i + left = b.size) {c : UInt64} (hc : Within c left) {v : UInt32}
    (h : b.addFrom left i c v = none) :
    ∃ j, ∀ x, b.Solves j x → dot x i c ≠ valueBit v j := by
  induction left using Nat.strongRecOn generalizing i c v with
  | ind left ih =>
    rcases addFrom_cases h with ⟨-, -, ⟨⟩⟩ | ⟨rfl, hv, -⟩ | ⟨hne, rfl, -⟩ |
      ⟨n, rfl, ⟨hbit, h⟩ | ⟨-, -, ⟨⟩⟩ | ⟨hbit, he, h⟩⟩
    · obtain ⟨j, hj⟩ := exists_valueBit hv
      refine ⟨j, fun x _ => ?_⟩
      rw [dot_zero, hj]
      decide
    · exact absurd hc.eq_zero hne
    · obtain ⟨j, hj⟩ := ih n n.lt_succ_self (by omega) hc.shiftRight h
      refine ⟨j, fun x hx => ?_⟩
      rw [← dot_shiftRight x i hbit]
      exact hj x hx
    · have hsum : bitAt (c ^^^ (b.equation i).coeff) 0 = false := by
        rw [bitAt_xor, hbit, (hb i).1 he]
        rfl
      obtain ⟨j, hj⟩ := ih n n.lt_succ_self (by omega) (hin.within_sum hi hc) h
      refine ⟨j, fun x hx hrow => hj x hx ?_⟩
      rw [dot_shiftRight x i hsum]
      exact (dot_sum_iff hx i c v).mpr hrow

theorem not_holds_of_add?_eq_none {b : Band} (hb : b.WellFormed) (hin : b.Inside) {r : Row}
    (hr : r.start + 64 ≤ b.size) (h : b.add? r = none) {x : Nat → UInt32} (hx : b.SolvedBy x) :
    ¬ r.Holds x := by
  obtain ⟨j, hj⟩ := exists_column_of_addFrom hb hin (by omega) (within_word r.coeff (by omega)) h
  exact fun hrow => hj _ (hx j) (Row.holds_iff.mp hrow j)

theorem Inside.add? {b : Band} (hb : b.Inside) {r : Row} (hr : r.start + 64 ≤ b.size) {b' : Band}
    (h : b.add? r = some b') : b'.Inside :=
  hb.addFrom (by omega) (within_word r.coeff (by omega)) h

theorem Inside.foldlM {rows : List Row} {b b' : Band} (hb : b.Inside)
    (hrows : ∀ r ∈ rows, r.start + 64 ≤ b.size) (h : rows.foldlM Band.add? b = some b') :
    b'.Inside := by
  induction rows generalizing b with
  | nil =>
    cases h
    exact hb
  | cons r rows ih =>
    obtain ⟨hr, hrows⟩ := List.forall_mem_cons.mp hrows
    rw [List.foldlM_cons] at h
    obtain ⟨b₁, h₁, h⟩ := Option.bind_eq_some_iff.mp h
    have hsize := size_addFrom h₁
    exact ih (hb.add? hr h₁) (hsize ▸ hrows) h

/-- Rows with a common solution are all taken. -/
theorem exists_foldlM_of_holds {rows : List Row} {b : Band} (hb : b.WellFormed) (hin : b.Inside)
    (hrows : ∀ r ∈ rows, r.start + 64 ≤ b.size) {x : Nat → UInt32} (hx : b.SolvedBy x)
    (hold : ∀ r ∈ rows, r.Holds x) : ∃ b', rows.foldlM add? b = some b' := by
  induction rows generalizing b with
  | nil => exact ⟨b, rfl⟩
  | cons r rows ih =>
    obtain ⟨hr, hrows⟩ := List.forall_mem_cons.mp hrows
    obtain ⟨hrow, hold⟩ := List.forall_mem_cons.mp hold
    cases h : b.add? r with
    | none => exact absurd hrow (not_holds_of_add?_eq_none hb hin hr h hx)
    | some b₁ =>
      have hstart : r.start ≤ b.size := by omega
      obtain ⟨hb₁, hsize, -⟩ := solves_add?_iff hb hstart h
      have hx₁ := (solvedBy_add?_iff hb hstart h x).mpr ⟨hx, hrow⟩
      rw [List.foldlM_cons, h]
      exact ih hb₁ (hin.add? hr h) (hsize ▸ hrows) hx₁ hold

theorem foldlM_add?_concat {b b' : Band} {rows : List Row} (h : rows.foldlM add? b = some b')
    (r : Row) : (rows ++ [r]).foldlM add? b = b'.add? r := by
  rw [List.foldlM_append, h]
  exact bind_pure (b'.add? r)

/-- Rows fit in a band exactly when they have a common solution. -/
theorem foldlM_add?_eq_none_iff {slots : Nat} {rows : List Row}
    (hrows : ∀ r ∈ rows, r.start + 64 ≤ slots) :
    rows.foldlM add? (empty slots) = none ↔ ¬ Solvable slots rows := by
  have hsize : (empty slots).size = slots := Array.size_replicate
  have hwf := wellFormed_empty slots
  constructor
  · rintro hnone ⟨x, -, hold⟩
    obtain ⟨b, hb⟩ := exists_foldlM_of_holds hwf (inside_empty slots) (hsize.symm ▸ hrows)
      (solvedBy_empty slots x) hold
    rw [hb] at hnone
    cases hnone
  · intro hsol
    cases h : rows.foldlM add? (empty slots) with
    | none => rfl
    | some b =>
      have hstart : ∀ r ∈ rows, r.start ≤ (empty slots).size := by
        intro r hr
        have hle := hrows r hr
        omega
      obtain ⟨hb, hbsize, -⟩ := solves_foldlM_iff hwf hstart h
      have hx := solvedBy_assignment hb (hbsize.trans hsize).le
      exact absurd ⟨b.assignment slots, fun i hi => assignment_of_ge b hi,
        ((solvedBy_foldlM_iff hwf hstart h _).mp hx).2⟩ hsol

/-! ### One band for all seeds -/

/-- Every equation taken out. -/
def clear (b : Band) : Band := b.map fun _ => {}

theorem clear_eq (b : Band) : b.clear = empty b.size := by
  rw [clear, empty, Array.map_const']

/-- Adds rows up to the first that is refused. The band keeps those before it. -/
def addWhile (b : Band) : List Row → Band × Bool
  | [] => (b, true)
  | r :: rows =>
    match b.add? r with
    | some b => b.addWhile rows
    | none => (b, false)

theorem size_addWhile (b : Band) (rows : List Row) : (b.addWhile rows).1.size = b.size := by
  induction rows generalizing b with
  | nil => rfl
  | cons r rows ih =>
    rw [addWhile]
    split
    · rename_i b₁ h
      rw [ih, size_addFrom h]
    · rfl

theorem addWhile_eq (b : Band) (rows : List Row) :
    rows.foldlM add? b = if (b.addWhile rows).2 then some (b.addWhile rows).1 else none := by
  induction rows generalizing b with
  | nil => rfl
  | cons r rows ih =>
    rw [List.foldlM_cons, addWhile]
    cases b.add? r with
    | none => rfl
    | some b₁ => exact ih b₁

end Band

namespace Ribbon

/-- The rows of the given mixed hashes under a seed byte. -/
def rowsUnder (bases : List UInt64) (slots shardSeed : Nat) : List Row :=
  bases.map fun base => rowOf base shardSeed slots

theorem bandUnder?_eq (bases : List UInt64) (slots shardSeed : Nat) :
    bandUnder? bases slots shardSeed =
      (rowsUnder bases slots shardSeed).foldlM Band.add? (Band.empty slots) := by
  rw [bandUnder?, rowsUnder, List.foldlM_map]

/-- Tries `left` seed bytes from `shardSeed` on with one band, which is cleared before every seed
byte but 0. -/
def solveWith (bases : List UInt64) (slots : Nat) : (left shardSeed : Nat) → Band →
    Option (Nat × Band)
  | 0, _, _ => none
  | left + 1, shardSeed, band =>
    let start := if 0 < shardSeed then band.clear else band
    let (band, taken) := start.addWhile (rowsUnder bases slots shardSeed)
    if taken then some (shardSeed, band) else solveWith bases slots left (shardSeed + 1) band

/-- Clearing leaves nothing of the rows of an earlier seed byte. -/
theorem solveWith_eq (bases : List UInt64) {slots left shardSeed : Nat} {band : Band}
    (hsize : band.size = slots) (hzero : shardSeed = 0 → band = Band.empty slots) :
    solveWith bases slots left shardSeed band =
      firstSuccessFrom (bandUnder? bases slots) left shardSeed := by
  induction left generalizing shardSeed band with
  | zero => rfl
  | succ left ih =>
    have hstart : (if 0 < shardSeed then band.clear else band) = Band.empty slots := by
      split
      · rw [Band.clear_eq, hsize]
      · exact hzero (by omega)
    have hsize' : ((Band.empty slots).addWhile (rowsUnder bases slots shardSeed)).1.size = slots :=
      (Band.size_addWhile ..).trans Array.size_replicate
    simp only [solveWith, firstSuccessFrom, hstart, bandUnder?_eq, Band.addWhile_eq]
    split
    · rfl
    · rw [ih hsize' (by omega)]

theorem rowsUnder_fit (bases : List UInt64) {slots : Nat} (h : 64 ≤ slots) (shardSeed : Nat) :
    ∀ r ∈ rowsUnder bases slots shardSeed, r.start + 64 ≤ slots := by
  intro r hr
  obtain ⟨base, -, rfl⟩ := List.mem_map.mp hr
  exact rowOf_start_le base shardSeed h

theorem inside_of_solveShard? {bases : List UInt64} {slots : Nat} (h : 64 ≤ slots) {b : Nat}
    {band : Band} (hsolve : solveShard? bases slots = some (b, band)) : band.Inside := by
  obtain ⟨-, hband, -⟩ := firstSuccess_eq_some_iff.mp hsolve
  have hsize : (Band.empty slots).size = slots := Array.size_replicate
  rw [bandUnder?_eq] at hband
  exact (Band.inside_empty slots).foldlM (hsize.symm ▸ rowsUnder_fit bases h b) hband

section

variable (bases : List UInt64) {slots : Nat} (h : 64 ≤ slots)
include h

theorem bandUnder?_eq_none_iff (b : Nat) :
    bandUnder? bases slots b = none ↔ ¬ Solvable slots (rowsUnder bases slots b) := by
  rw [bandUnder?_eq]
  exact Band.foldlM_add?_eq_none_iff (rowsUnder_fit bases h b)

theorem exists_bandUnder?_iff (b : Nat) :
    (∃ band, bandUnder? bases slots b = some band) ↔ Solvable slots (rowsUnder bases slots b) := by
  rw [← Option.ne_none_iff_exists', Ne, bandUnder?_eq_none_iff bases h, not_not]

theorem exists_solveShard?_iff (b : Nat) :
    (∃ band, solveShard? bases slots = some (b, band)) ↔
      b < 256 ∧ Solvable slots (rowsUnder bases slots b) ∧
        ∀ b', b' < b → ¬ Solvable slots (rowsUnder bases slots b') := by
  simp only [solveShard?, firstSuccess_eq_some_iff, bandUnder?_eq_none_iff bases h,
    exists_and_left, exists_and_right, exists_bandUnder?_iff bases h]

theorem solveShard?_eq_none_iff : solveShard? bases slots = none ↔
    ∀ b, b < 256 → ¬ Solvable slots (rowsUnder bases slots b) := by
  simp only [solveShard?, firstSuccess_eq_none_iff, bandUnder?_eq_none_iff bases h]

/-- One step of a run: the row of the next mixed hash. -/
theorem add?_eq_none_iff {b : Nat} {band : Band} (hband : bandUnder? bases slots b = some band)
    (base : UInt64) : band.add? (rowOf base b slots) = none ↔
      ¬ Solvable slots (rowsUnder (bases ++ [base]) slots b) := by
  have hrows : rowsUnder (bases ++ [base]) slots b =
      rowsUnder bases slots b ++ [rowOf base b slots] := List.map_append
  rw [bandUnder?_eq] at hband
  rw [← bandUnder?_eq_none_iff _ h, bandUnder?_eq, hrows, Band.foldlM_add?_concat hband]

end

/-- A shard takes the least seed byte whose rows have a common solution, and none only if there is
no such byte; trying all seed bytes on one band gives the same. At each step a row is refused
exactly when it has no solution in common with the rows taken before it. -/
theorem solveShard?_exact (bases : List UInt64) {slots : Nat} (h : 64 ≤ slots) :
    solveWith bases slots 256 0 (Band.empty slots) = solveShard? bases slots ∧
      (∀ b, (∃ band, solveShard? bases slots = some (b, band)) ↔
        b < 256 ∧ Solvable slots (rowsUnder bases slots b) ∧
          ∀ b', b' < b → ¬ Solvable slots (rowsUnder bases slots b')) ∧
      (solveShard? bases slots = none ↔
        ∀ b, b < 256 → ¬ Solvable slots (rowsUnder bases slots b)) ∧
      ∀ b taken band, bandUnder? taken slots b = some band → ∀ base,
        (band.add? (rowOf base b slots) = none ↔
          ¬ Solvable slots (rowsUnder (taken ++ [base]) slots b)) := by
  refine ⟨?_, exists_solveShard?_iff bases h, solveShard?_eq_none_iff bases h,
    fun _ taken _ hband base => add?_eq_none_iff taken h hband base⟩
  rw [solveShard?, firstSuccess]
  exact solveWith_eq bases Array.size_replicate fun _ => rfl

/-- Three hashes in one block: every row begins in the first slot. -/
theorem solveShard?_exact_three : 64 ≤ 64 ∧
    (∃ band, solveShard? [3, 5, 9] 64 = some (0, band)) ∧
      Solvable 64 (rowsUnder [3, 5, 9] 64 0) := by
  obtain ⟨-, hiff, -⟩ := solveShard?_exact [3, 5, 9] (le_refl 64)
  have hfirst : (solveShard? [3, 5, 9] 64).map Prod.fst = some 0 := by decide +kernel
  obtain ⟨⟨b, band⟩, hsolve, rfl⟩ := Option.map_eq_some_iff.mp hfirst
  exact ⟨le_refl 64, ⟨band, hsolve⟩, ((hiff _).mp ⟨band, hsolve⟩).2.1⟩

end Ribbon

end ApproxSet
