import ApproxSet.Proofs.Ribbon.Band
import ApproxSet.Proofs.Ribbon.Columns

/-!
# The stored solution

Going backwards, each slot gets the bit that its equation demands, so the bits of a column solve the
band. The stored words hold these bits, and reading 64 of them from any slot on gives them back.
-/
namespace ApproxSet

namespace Band

variable {sys : Band} {j total : Nat}

/-! ### One slot back -/

theorem bitAt_shiftLeft_one (w : UInt64) (t : Nat) :
    bitAt (w <<< 1) t = (decide (t < 64) && (decide (1 ≤ t) && bitAt w (t - 1))) :=
  bitAt_shiftLeft w (k := 1) (by decide) t

theorem bitAt_stepBack (j : Nat) (e : Equation) (state : UInt64) {t : Nat} (ht : t + 1 < 64) :
    bitAt (stepBack j e state) (t + 1) = bitAt state t := by
  have hone : bitAt 1 (t + 1) = false := bitAt_ones (k := 1) (by decide) (t + 1)
  simp only [stepBack]
  split
  · rw [bitAt_shiftLeft_one]
    simp [ht]
  · rw [bitAt_or, hone, bitAt_shiftLeft_one]
    simp [ht]

/-- The new bit is one when the equation fails without it. -/
theorem bitAt_stepBack_zero (j : Nat) (e : Equation) (state : UInt64) :
    bitAt (stepBack j e state) 0 = (parity ((state <<< 1) &&& e.coeff) != valueBit e.value j) := by
  have hone : bitAt 1 0 = true := bitAt_ones (k := 1) (by decide) 0
  have hfirst : bitAt (state <<< 1) 0 = false := by rw [bitAt_shiftLeft_one]; rfl
  simp only [stepBack]
  split
  · rename_i heq
    rw [hfirst, bne, heq]
    rfl
  · rename_i hne
    rw [bitAt_or, hone, bne, Bool.eq_false_iff.mpr hne]
    exact Bool.or_true _

/-- The new bit is chosen so that the equation holds. -/
theorem parity_stepBack (j : Nat) {e : Equation} (state : UInt64)
    (he : e.coeff ≠ 0 → bitAt e.coeff 0 = true) (hz : e.coeff = 0 → e.value = 0) :
    parity (stepBack j e state &&& e.coeff) = valueBit e.value j := by
  by_cases hc : e.coeff = 0
  · rw [hc, hz hc, parity_eq_xorUpTo, valueBit_zero]
    exact xorUpTo_false fun t _ => by rw [bitAt_and, bitAt_zero, Bool.and_false]
  · have hfirst : bitAt (state <<< 1) 0 = false := by rw [bitAt_shiftLeft_one]; rfl
    -- the new bit is one summand, and the others are what they were without it
    have hsum : parity (stepBack j e state &&& e.coeff) =
        (bitAt (stepBack j e state) 0 ^^ parity ((state <<< 1) &&& e.coeff)) := by
      rw [parity_eq_xorUpTo, parity_eq_xorUpTo, xorUpTo_succ_left _ 63, xorUpTo_succ_left _ 63,
        bitAt_and, bitAt_and, he hc, hfirst, Bool.and_true, Bool.false_and, Bool.false_xor]
      refine congrArg (bitAt (stepBack j e state) 0 ^^ ·) (xorUpTo_congr fun t ht => ?_)
      have hlt : t + 1 < 64 := by omega
      rw [bitAt_and, bitAt_and, bitAt_stepBack j e state hlt, bitAt_shiftLeft_one]
      simp [hlt]
    rw [hsum, bitAt_stepBack_zero]
    cases parity ((state <<< 1) &&& e.coeff) <;> cases valueBit e.value j <;> rfl

/-! ### The bits of a column -/

/-- The 64 bits that begin `d` slots before the end of the system. -/
def windowBack (sys : Band) (j total : Nat) : (d : Nat) → UInt64
  | 0 => 0
  | d + 1 => stepBack j (sys.equation (total - (d + 1))) (windowBack sys j total d)

/-- The 64 bits of column `j` from slot `s` on. -/
def window (sys : Band) (j total s : Nat) : UInt64 := windowBack sys j total (total - s)

/-- The bit of slot `s` in column `j`. -/
def solution (sys : Band) (j total s : Nat) : Bool := bitAt (window sys j total s) 0

theorem window_of_ge (sys : Band) (j : Nat) {s : Nat} (h : total ≤ s) :
    window sys j total s = 0 := by
  rw [window, Nat.sub_eq_zero_of_le h, windowBack]

theorem window_of_lt (sys : Band) (j : Nat) {s : Nat} (h : s < total) :
    window sys j total s = stepBack j (sys.equation s) (window sys j total (s + 1)) := by
  have hd : total - s = total - (s + 1) + 1 := by omega
  have hs : total - (total - (s + 1) + 1) = s := by omega
  rw [window, hd, windowBack, hs, window]

theorem bitAt_window (sys : Band) (j total : Nat) {s t : Nat} (ht : t < 64) :
    bitAt (window sys j total s) t = solution sys j total (s + t) := by
  induction t generalizing s with
  | zero => rfl
  | succ t ih =>
    by_cases hs : s < total
    · rw [window_of_lt sys j hs, bitAt_stepBack _ _ _ ht, ih (by omega), Nat.add_assoc,
        Nat.add_comm 1 t]
    · have hz := window_of_ge sys j (Nat.le_of_not_lt hs)
      have hz' := window_of_ge sys j (by omega : total ≤ s + (t + 1))
      rw [solution, hz, hz', bitAt_zero, bitAt_zero]

/-- A bit follows from the equation of its slot and the 63 bits after it. -/
theorem solution_of_lt (sys : Band) (j : Nat) {s : Nat} (h : s < total) :
    solution sys j total s =
      (xorUpTo (fun t => solution sys j total (s + 1 + t) &&
        bitAt (sys.equation s).coeff (t + 1)) 63 != valueBit (sys.equation s).value j) := by
  rw [solution, window_of_lt sys j h, bitAt_stepBack_zero, parity_eq_xorUpTo,
    xorUpTo_succ_left _ 63, bitAt_and, bitAt_shiftLeft_one]
  have hrest : xorUpTo (fun t => bitAt ((window sys j total (s + 1) <<< 1) &&&
        (sys.equation s).coeff) (t + 1)) 63 =
      xorUpTo (fun t => solution sys j total (s + 1 + t) &&
        bitAt (sys.equation s).coeff (t + 1)) 63 :=
    xorUpTo_congr fun t ht => by
      have hlt : t + 1 < 64 := by omega
      rw [bitAt_and, bitAt_shiftLeft_one, ← bitAt_window sys j total (by omega)]
      simp [hlt]
  rw [hrest]
  simp

theorem dot_solution (sys : Band) (j total s : Nat) (c : UInt64) :
    dot (solution sys j total) s c = parity (window sys j total s &&& c) := by
  rw [parity_eq_xorUpTo, dot]
  apply xorUpTo_congr
  intro t ht
  rw [bitAt_and, bitAt_window sys j total ht, Bool.and_comm]

theorem solution_solves (hsys : sys.WellFormed) (hsize : sys.size ≤ total) (j : Nat) :
    sys.Solves j (solution sys j total) := by
  intro s
  rw [dot_solution]
  by_cases hs : s < total
  · rw [window_of_lt sys j hs]
    exact parity_stepBack j _ (hsys s).1 (hsys s).2
  · have he := equation_of_size_le (b := sys) (i := s) (by omega)
    rw [he, ← dot_solution]
    exact (dot_zero _ s).trans (valueBit_zero j).symm

/-! ### The stored words -/

theorem solveBlock_window (sys : Band) (j b : Nat) {n : Nat} (h : 64 * b + n ≤ total) :
    solveBlock sys j b n (window sys j total (64 * b + n)) = window sys j total (64 * b) := by
  induction n with
  | zero => rfl
  | succ n ih => rw [solveBlock, Nat.add_succ, ← window_of_lt sys j (by omega), ih (by omega)]

theorem columnOnto_window (sys : Band) (j : Nat) {b : Nat} (h : 64 * b ≤ total)
    (acc : List UInt64) : sys.columnOnto j b (window sys j total (64 * b)) acc =
      ((List.range b).map fun i => window sys j total (64 * i)) ++ acc := by
  induction b generalizing acc with
  | zero => rfl
  | succ b ih =>
    have hblock : 64 * (b + 1) = 64 * b + 64 := by omega
    simp only [columnOnto]
    rw [hblock, solveBlock_window sys j b (by omega), ih (by omega), List.range_succ,
      List.map_append, List.append_assoc]
    rfl

theorem getD_column (sys : Band) (j : Nat) {blocks b : Nat} (hb : b < blocks) :
    (sys.column blocks j).getD b 0 = window sys j (64 * blocks) (64 * b) := by
  have hend := window_of_ge sys j (Nat.le_refl (64 * blocks))
  have h := columnOnto_window sys j (Nat.le_refl (64 * blocks)) []
  rw [hend] at h
  rw [column, h]
  simp [hb]

end Band

namespace Columns

/-- A word for each column of each of the first `n` blocks. -/
def tile (c : Columns) (g : Nat → Nat → UInt64) (n : Nat) : List UInt64 :=
  (List.range n).flatMap fun b => (List.range (c.width b)).map (g b)

theorem tile_succ (c : Columns) (g : Nat → Nat → UInt64) (n : Nat) :
    c.tile g (n + 1) = c.tile g n ++ (List.range (c.width n)).map (g n) := by
  rw [tile, tile, List.range_succ, List.flatMap_append, List.flatMap_singleton]

theorem length_tile (c : Columns) (g : Nat → Nat → UInt64) (n : Nat) :
    (c.tile g n).length = c.offset n := by
  induction n with
  | zero => rw [offset_zero]; rfl
  | succ n ih => rw [tile_succ, List.length_append, ih, offset_succ, List.length_map,
      List.length_range]

theorem getElem?_tile (c : Columns) (g : Nat → Nat → UInt64) {n b j : Nat} (hb : b < n)
    (hj : j < c.width b) : (c.tile g n)[c.offset b + j]? = some (g b j) := by
  induction n with
  | zero => omega
  | succ n ih =>
    have hlen := length_tile c g n
    rw [tile_succ]
    by_cases hlast : b = n
    · subst hlast
      rw [List.getElem?_append_right (by omega), hlen, Nat.add_sub_cancel_left]
      simp [hj]
    · have hin : c.offset b + j < c.offset n := by
        have h := offset_mono c (Nat.succ_le_of_lt (by omega : b < n))
        rw [offset_succ] at h
        omega
      rw [List.getElem?_append_left (hlen ▸ hin), ih (by omega)]

theorem size_solve (sys : Band) (c : Columns) : (sys.solve c).size = c.words := by
  simp only [Band.solve, List.size_toArray]
  exact length_tile ..

theorem getD_solve (sys : Band) (c : Columns) {b j : Nat} (hb : b < c.blocks)
    (hj : j < c.width b) : (sys.solve c).getD (c.offset b + j) 0 =
      Band.window sys j (64 * c.blocks) (64 * b) := by
  have hupper : j < c.upper := Nat.lt_of_lt_of_le hj (width_le_upper c b)
  have hcolumn : (((Array.range c.upper).map (sys.column c.blocks)).getD j #[]).getD b 0 =
      Band.window sys j (64 * c.blocks) (64 * b) := by
    rw [← Band.getD_column sys j hb]
    congr 1
    simp [hupper]
  have hfound := getElem?_tile c
    (fun b j => (((Array.range c.upper).map (sys.column c.blocks)).getD j #[]).getD b 0) hb hj
  rw [tile] at hfound
  simp only [Band.solve, Array.getD_eq_getD_getElem?, List.getElem?_toArray] at hfound hcolumn ⊢
  rw [hfound, Option.getD_some, hcolumn]

/-- Reading from any slot on gives the bits of the solution from there, unless the slot lies inside
the last block. -/
theorem bitsAt_solve (sys : Band) (c : Columns) {slot j : Nat} (hslot : slot + 64 ≤ 64 * c.blocks)
    (hj : j < c.width (slot / 64)) :
    c.bitsAt (sys.solve c) slot j = Band.window sys j (64 * c.blocks) slot := by
  have hmul : 64 * (slot / 64) + slot % 64 = slot := by omega
  simp only [bitsAt]
  by_cases hk : slot % 64 = 0
  · rw [if_pos hk, getD_solve sys c (by omega) hj]
    congr 1
    omega
  · have hnext : j < c.width (slot / 64 + 1) :=
      Nat.lt_of_lt_of_le hj (width_le_width c (Nat.le_succ _))
    rw [if_neg hk, ← offset_succ, getD_solve sys c (by omega) hj,
      getD_solve sys c (by omega) hnext]
    apply eq_of_bitAt
    intro t ht
    rw [bitAt_or, bitAt_shiftRight _ (by omega), bitAt_shiftLeft _ (by omega),
      Band.bitAt_window sys j _ ht]
    by_cases hlow : slot % 64 + t < 64
    · have hplace : 64 * (slot / 64) + (slot % 64 + t) = slot + t := by omega
      have hout : ¬ 64 - slot % 64 ≤ t := by omega
      rw [Band.bitAt_window sys j _ hlow, hplace]
      simp [hout]
    · have hin : 64 - slot % 64 ≤ t := by omega
      have hplace : 64 * (slot / 64 + 1) + (t - (64 - slot % 64)) = slot + t := by omega
      rw [bitAt_of_ge _ (by omega), Band.bitAt_window sys j _ (by omega), hplace]
      simp [ht, hin]

/-- The stored words satisfy a row when it holds for the solution in the columns of its block. -/
theorem satisfies_solve_iff (sys : Band) (c : Columns) {r : Row}
    (hstart : r.start + 64 ≤ 64 * c.blocks) : c.satisfies (sys.solve c) r = true ↔
      ∀ j, j < c.width (r.start / 64) →
        dot (Band.solution sys j (64 * c.blocks)) r.start r.coeff = valueBit r.value j := by
  simp only [satisfies, List.all_eq_true, List.mem_range, beq_iff_eq]
  refine forall_congr' fun j => forall_congr' fun hj => ?_
  rw [bitsAt_solve sys c hstart hj, ← Band.dot_solution]

/-- A row that holds for the solution is satisfied by the stored words. -/
theorem satisfies_solve (sys : Band) (c : Columns) {r : Row}
    (hstart : r.start + 64 ≤ 64 * c.blocks)
    (hrow : ∀ j, dot (Band.solution sys j (64 * c.blocks)) r.start r.coeff = valueBit r.value j) :
    c.satisfies (sys.solve c) r = true :=
  (satisfies_solve_iff sys c hstart).mpr fun j _ => hrow j

end Columns

end ApproxSet
