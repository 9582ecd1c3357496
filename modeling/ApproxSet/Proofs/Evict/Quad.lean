import ApproxSet.Evict.Quad
import ApproxSet.Proofs.Word.Bits
import Mathlib.Data.Nat.Choose.Basic
import Mathlib.Data.Set.Function
import Mathlib.Order.Monotone.Basic
import Mathlib.Tactic.Ring

/-!
# Packed buckets are unpacked again

The rank of ascending nibbles determines them (`unrank?_rank`): each greatest element that still
fits is the one that was ranked. So unpacking a packed bucket gives its fingerprints in ascending
order (`unpack?_pack`), and every number below 3876 is the rank of one ascending quadruple
(`rank_bijOn`).
-/
namespace ApproxSet

namespace Nibbles

/-! ### Ranks -/

theorem pairs_eq_choose (n : Nat) : pairs n = (n + 1).choose 2 := by
  rw [Nat.choose_two_right, pairs, Nat.add_sub_cancel, Nat.mul_comm]

theorem triples_eq_choose (n : Nat) : triples n = (n + 2).choose 3 := by
  have hfall : (n + 2).descFactorial 3 = n * (n + 1) * (n + 2) := by
    simp only [Nat.descFactorial, Nat.add_sub_cancel, Nat.reduceSubDiff, Nat.sub_zero]
    ring
  rw [Nat.choose_eq_descFactorial_div_factorial, hfall]
  rfl

theorem quadruples_eq_choose (n : Nat) : quadruples n = (n + 3).choose 4 := by
  have hfall : (n + 3).descFactorial 4 = n * (n + 1) * (n + 2) * (n + 3) := by
    simp only [Nat.descFactorial, Nat.add_sub_cancel, Nat.reduceSubDiff, Nat.sub_zero]
    ring
  rw [Nat.choose_eq_descFactorial_div_factorial, hfall]
  rfl

theorem pairs_succ (n : Nat) : pairs (n + 1) = pairs n + (n + 1) := by
  rw [pairs_eq_choose, pairs_eq_choose, Nat.choose_succ_succ', Nat.choose_one_right, Nat.add_comm]

theorem triples_succ (n : Nat) : triples (n + 1) = triples n + pairs (n + 1) := by
  rw [triples_eq_choose, triples_eq_choose, pairs_eq_choose, Nat.choose_succ_succ', Nat.add_comm]

theorem quadruples_succ (n : Nat) : quadruples (n + 1) = quadruples n + triples (n + 1) := by
  rw [quadruples_eq_choose, quadruples_eq_choose, triples_eq_choose, Nat.choose_succ_succ',
    Nat.add_comm]

/-- A rank is a number in the combinatorial number system of degree four. -/
theorem rank_eq_choose (q : Quad Nat) : rank q =
    q.a.choose 1 + (q.b + 1).choose 2 + (q.c + 2).choose 3 + (q.d + 3).choose 4 := by
  rw [rank, pairs_eq_choose, triples_eq_choose, quadruples_eq_choose, Nat.choose_one_right]

theorem pairs_mono : Monotone pairs :=
  monotone_nat_of_le_succ fun n => by rw [pairs_succ]; exact Nat.le_add_right ..

theorem triples_mono : Monotone triples :=
  monotone_nat_of_le_succ fun n => by rw [triples_succ]; exact Nat.le_add_right ..

theorem quadruples_mono : Monotone quadruples :=
  monotone_nat_of_le_succ fun n => by rw [quadruples_succ]; exact Nat.le_add_right ..

theorem le_of_between {f : Nat → Nat} (hf : Monotone f) {k n r : Nat} (hle : f k ≤ r)
    (hlt : r < f (n + 1)) : k ≤ n :=
  Nat.le_of_lt_succ (hf.reflect_lt (Nat.lt_of_le_of_lt hle hlt))

/-- The search ends between two neighbours of the row, and no later than at a place from which on
the row is too great. -/
theorem greatest_between {f : Nat → Nat} (hf : Monotone f) {r k n : Nat} (hzero : f 0 ≤ r)
    (hk : k ≤ n) (hlt : r < f (k + 1)) :
    greatest f r n ≤ k ∧ f (greatest f r n) ≤ r ∧ r < f (greatest f r n + 1) := by
  have hspec : f (greatest f r n) ≤ r ∧ r < f (greatest f r n + 1) := by
    have htop : r < f (n + 1) := Nat.lt_of_lt_of_le hlt (hf (Nat.add_le_add_right hk 1))
    clear hk
    induction n with
    | zero => exact ⟨hzero, htop⟩
    | succ n ih =>
      rw [greatest]
      by_cases hle : f (n + 1) ≤ r
      · rw [if_pos hle]
        exact ⟨hle, htop⟩
      · rw [if_neg hle]
        exact ih (Nat.lt_of_not_le hle)
  exact ⟨le_of_between hf hspec.1 hlt, hspec⟩

theorem greatest_eq {f : Nat → Nat} (hf : Monotone f) {r n k : Nat} (hk : k ≤ n) (hle : f k ≤ r)
    (hlt : r < f (k + 1)) : greatest f r n = k := by
  have hzero : f 0 ≤ r := (hf (Nat.zero_le k)).trans hle
  obtain ⟨hge, -, hnext⟩ := greatest_between hf hzero hk hlt
  exact Nat.le_antisymm hge (le_of_between hf hle hnext)

/-- An ascending quadruple of nibbles. -/
structure Ascending (q : Quad Nat) : Prop where
  ab : q.a ≤ q.b
  bc : q.b ≤ q.c
  cd : q.c ≤ q.d
  lt : q.d < 16

/-- Each partial rank lies below the next count. -/
theorem Ascending.rank_bounds {q : Quad Nat} (h : Ascending q) :
    q.a + pairs q.b < pairs (q.b + 1) ∧ q.a + pairs q.b + triples q.c < triples (q.c + 1) ∧
      rank q < quadruples (q.d + 1) := by
  have hab := h.ab
  have hpairs := pairs_succ q.b
  have htriples := triples_succ q.c
  have hquads := quadruples_succ q.d
  have hbc : pairs (q.b + 1) ≤ pairs (q.c + 1) := pairs_mono (Nat.add_le_add_right h.bc 1)
  have hcd : triples (q.c + 1) ≤ triples (q.d + 1) := triples_mono (Nat.add_le_add_right h.cd 1)
  rw [rank]
  omega

theorem Ascending.rank_lt {q : Quad Nat} (h : Ascending q) : rank q < 3876 :=
  Nat.lt_of_lt_of_le h.rank_bounds.2.2 (quadruples_mono h.lt)

theorem unrank?_rank {q : Quad Nat} (h : Ascending q) : unrank? (rank q) = some q := by
  obtain ⟨hb, hc, hd⟩ := h.rank_bounds
  have hbc := h.bc
  have hcd := h.cd
  have hlt := h.lt
  have hrank : rank q = q.a + pairs q.b + triples q.c + quadruples q.d := rfl
  have hquad : greatest quadruples (rank q) 15 = q.d :=
    greatest_eq quadruples_mono (by omega) (by omega) hd
  have htriple : greatest triples (q.a + pairs q.b + triples q.c) 15 = q.c :=
    greatest_eq triples_mono (by omega) (by omega) hc
  have hpair : greatest pairs (q.a + pairs q.b) 15 = q.b :=
    greatest_eq pairs_mono (by omega) (by omega) hb
  have hin : rank q < quadruples 16 := h.rank_lt
  rw [unrank?, if_pos hin]
  simp only [hquad]
  rw [hrank, Nat.add_sub_cancel]
  simp only [htriple]
  rw [Nat.add_sub_cancel]
  simp only [hpair]
  rw [Nat.add_sub_cancel]

/-- What remains after the greatest element lies below the count of what may follow it, so the next
element is no greater. -/
theorem ascending_of_unrank? {r : Nat} {q : Quad Nat} (h : unrank? r = some q) :
    Ascending q ∧ rank q = r := by
  by_cases hr : r < quadruples 16
  · simp only [unrank?, if_pos hr, Option.some.injEq] at h
    obtain ⟨hd15, hd, hd'⟩ := greatest_between quadruples_mono (Nat.zero_le r) (le_refl 15) hr
    generalize greatest quadruples r 15 = d at *
    rw [quadruples_succ] at hd'
    have hrest : r - quadruples d < triples (d + 1) := by omega
    obtain ⟨hcd, hc, hc'⟩ := greatest_between triples_mono (Nat.zero_le _) hd15 hrest
    generalize greatest triples (r - quadruples d) 15 = c at *
    rw [triples_succ] at hc'
    have hrest' : r - quadruples d - triples c < pairs (c + 1) := by omega
    obtain ⟨hbc, hb, hb'⟩ := greatest_between pairs_mono (Nat.zero_le _) (hcd.trans hd15) hrest'
    generalize greatest pairs (r - quadruples d - triples c) 15 = b at *
    rw [pairs_succ] at hb'
    subst h
    refine ⟨⟨?_, hbc, hcd, Nat.lt_succ_of_le hd15⟩, ?_⟩
    · change r - quadruples d - triples c - pairs b ≤ b
      omega
    · change r - quadruples d - triples c - pairs b + pairs b + triples c + quadruples d = r
      omega
  · rw [unrank?, if_neg hr] at h
    cases h

theorem unrank?_eq_some_iff {r : Nat} {q : Quad Nat} :
    unrank? r = some q ↔ Ascending q ∧ rank q = r := by
  constructor
  · exact ascending_of_unrank?
  · rintro ⟨hq, rfl⟩
    exact unrank?_rank hq

theorem unrank?_eq_none_iff {r : Nat} : unrank? r = none ↔ 3876 ≤ r := by
  have hcount : quadruples 16 = 3876 := rfl
  rw [unrank?, hcount]
  split
  · rename_i hr
    exact iff_of_false nofun (Nat.not_le.mpr hr)
  · rename_i hr
    exact iff_of_true rfl (Nat.le_of_not_lt hr)

/-- The ascending quadruples of nibbles are numbered without gaps. -/
theorem rank_bijOn : Set.BijOn rank {q | Ascending q} (Set.Iio 3876) := by
  refine ⟨fun q hq => hq.rank_lt, fun q hq q' hq' hrank => ?_, fun r hr => ?_⟩
  · have hsame := unrank?_rank hq
    rw [hrank, unrank?_rank hq'] at hsame
    exact (Option.some.inj hsame).symm
  · obtain ⟨q, hq⟩ := Option.ne_none_iff_exists'.mp
      (mt unrank?_eq_none_iff.mp (Nat.not_le.mpr hr))
    exact ⟨q, ascending_of_unrank? hq⟩

end Nibbles

namespace Quad

/-! ### Sorting -/

theorem min_max_cases (a b : UInt32) :
    (min a b = a ∧ max a b = b ∧ a.toNat ≤ b.toNat) ∨
      (min a b = b ∧ max a b = a ∧ b.toNat ≤ a.toNat) := by
  have hmin : min a b = if a ≤ b then a else b := rfl
  have hmax : max a b = if a ≤ b then b else a := rfl
  by_cases h : a ≤ b
  · rw [hmin, hmax, if_pos h, if_pos h]
    exact Or.inl ⟨rfl, rfl, UInt32.le_iff_toNat_le.mp h⟩
  · rw [hmin, hmax, if_neg h, if_neg h]
    exact Or.inr ⟨rfl, rfl, UInt32.le_iff_toNat_le.mp (UInt32.le_of_lt (UInt32.not_le.mp h))⟩

theorem perm_min_max (a b : UInt32) : [min a b, max a b].Perm [a, b] := by
  rcases min_max_cases a b with ⟨hmin, hmax, -⟩ | ⟨hmin, hmax, -⟩
  · rw [hmin, hmax]
  · rw [hmin, hmax]
    exact List.Perm.swap ..

theorem toNat_min (a b : UInt32) : (min a b).toNat = min a.toNat b.toNat := by
  rcases min_max_cases a b with ⟨hmin, -, hle⟩ | ⟨hmin, -, hle⟩
  · rw [hmin, Nat.min_eq_left hle]
  · rw [hmin, Nat.min_eq_right hle]

theorem toNat_max (a b : UInt32) : (max a b).toNat = max a.toNat b.toNat := by
  rcases min_max_cases a b with ⟨-, hmax, hle⟩ | ⟨-, hmax, hle⟩
  · rw [hmax, Nat.max_eq_right hle]
  · rw [hmax, Nat.max_eq_left hle]

/-- The five comparisons permute the four numbers. -/
theorem sort_perm (q : Quad UInt32) : q.sort.toList.Perm q.toList := by
  have houter {x y : UInt32} : [min x y, max x y].Perm [x, y] := perm_min_max x y
  calc q.sort.toList
      = [min (min q.a q.b) (min q.c q.d)] ++
          [min (max (min q.a q.b) (min q.c q.d)) (min (max q.a q.b) (max q.c q.d)),
            max (max (min q.a q.b) (min q.c q.d)) (min (max q.a q.b) (max q.c q.d))] ++
          [max (max q.a q.b) (max q.c q.d)] := rfl
    _ |>.Perm ([min (min q.a q.b) (min q.c q.d)] ++
          [max (min q.a q.b) (min q.c q.d), min (max q.a q.b) (max q.c q.d)] ++
          [max (max q.a q.b) (max q.c q.d)]) := (houter.append_left _).append_right _
    _ |>.Perm ([min q.a q.b, min q.c q.d] ++ [max q.a q.b, max q.c q.d]) :=
        houter.append houter
    _ |>.Perm ([min q.a q.b, max q.a q.b] ++ [min q.c q.d, max q.c q.d]) :=
        (List.Perm.swap ..).cons _
    _ |>.Perm ([q.a, q.b] ++ [q.c, q.d]) := houter.append houter

theorem sort_ascending (q : Quad UInt32) :
    q.sort.a.toNat ≤ q.sort.b.toNat ∧ q.sort.b.toNat ≤ q.sort.c.toNat ∧
      q.sort.c.toNat ≤ q.sort.d.toNat := by
  simp only [sort, toNat_min, toNat_max]
  omega

theorem pairwise_sort (q : Quad UInt32) : q.sort.toList.Pairwise (· ≤ ·) := by
  obtain ⟨hab, hbc, hcd⟩ := sort_ascending q
  simp only [toList, List.pairwise_cons, List.mem_cons, List.not_mem_nil, or_false,
    forall_eq_or_imp, forall_eq, UInt32.le_iff_toNat_le, IsEmpty.forall_iff, implies_true,
    List.Pairwise.nil, and_true]
  omega

/-! ### Packing -/

/-- The low `l` bits of a fingerprint at their place behind the rank. -/
def lowPart (l : Nat) (fp : UInt32) (i : Nat) : UInt64 :=
  (fp.toUInt64 &&& ((1 <<< l.toUInt64) - 1)) <<< (12 + l * i).toUInt64

theorem bitAt_lowPart {l : Nat} (hl : l ≤ 13) (fp : UInt32) {i j x : Nat} (hi : i < 4) (hj : j < 4)
    (hx : x < l) :
    bitAt (lowPart l fp i) (12 + (l * j + x)) = (decide (i = j) && fp.toNat.testBit x) := by
  have hli : l * i ≤ l * 3 := Nat.mul_le_mul_left _ (by omega)
  have hlj : l * j ≤ l * 3 := Nat.mul_le_mul_left _ (by omega)
  have hfp (y : Nat) : bitAt fp.toUInt64 y = fp.toNat.testBit y := rfl
  have hin : 12 + (l * j + x) < 64 := by omega
  rw [lowPart, bitAt_shiftLeft _ (by omega), bitAt_and, bitAt_ones (by omega), hfp]
  by_cases hij : i = j
  · subst hij
    have hge : 12 + l * i ≤ 12 + (l * i + x) := by omega
    have hback : 12 + (l * i + x) - (12 + l * i) = x := by omega
    rw [hback]
    simp [hin, hge, hx]
  · by_cases hge : 12 + l * i ≤ 12 + (l * j + x)
    · have hapart := fields_apart (w := l) hij
      have hout : ¬ 12 + (l * j + x) - (12 + l * i) < l := by omega
      simp [hij, hout]
    · simp [hij, hge]

theorem bitAt_lowPart_of_lt {l : Nat} (hl : l ≤ 13) (fp : UInt32) {i x : Nat} (hi : i < 4)
    (hx : x < 12) : bitAt (lowPart l fp i) x = false := by
  have hli : l * i ≤ l * 3 := Nat.mul_le_mul_left _ (by omega)
  have hout : ¬ 12 + l * i ≤ x := by omega
  rw [lowPart, bitAt_shiftLeft _ (by omega)]
  simp [hout]

/-- The bits of four fingerprints above the low `l`. -/
def highNibbles (l : Nat) (q : Quad UInt32) : Quad Nat := q.map fun fp => fp.toNat / 2 ^ l

variable {l : Nat} {q : Quad UInt32}

theorem mem_sort {fp : UInt32} : fp ∈ q.sort.toList ↔ fp ∈ q.toList := (sort_perm q).mem_iff

theorem ascending_highNibbles (hq : ∀ fp ∈ q.toList, fp.toNat < 2 ^ (l + 4)) :
    Nibbles.Ascending (highNibbles l q.sort) := by
  obtain ⟨hab, hbc, hcd⟩ := sort_ascending q
  have hd : q.sort.d.toNat < 2 ^ (l + 4) := hq _ (mem_sort.mp (by simp [toList]))
  refine ⟨Nat.div_le_div_right hab, Nat.div_le_div_right hbc, Nat.div_le_div_right hcd, ?_⟩
  apply Nat.div_lt_of_lt_mul
  rw [Nat.pow_add] at hd
  exact hd

/-- A rank has twelve bits. -/
theorem testBit_rank_of_ge (hq : ∀ fp ∈ q.toList, fp.toNat < 2 ^ (l + 4)) {x : Nat} (hx : 12 ≤ x) :
    (Nibbles.rank (highNibbles l q.sort)).testBit x = false := by
  have hrank := (ascending_highNibbles hq).rank_lt
  have hlt : Nibbles.rank (highNibbles l q.sort) < 2 ^ 12 := Nat.lt_trans hrank (by decide)
  exact Nat.testBit_lt_two_pow (Nat.lt_of_lt_of_le hlt (Nat.pow_le_pow_right (by decide) hx))

/-- The machine's reading of a high nibble. -/
theorem toNat_nibble (hl : l ≤ 13) {fp : UInt32} (hfp : fp.toNat < 2 ^ (l + 4)) :
    (fp >>> l.toUInt64.toUInt32).toUInt8.toNat = fp.toNat / 2 ^ l := by
  have hl32 : l.toUInt64.toUInt32.toNat = l := by
    rw [UInt64.toNat_toUInt32, toNat_toUInt64 (by omega)]
    omega
  have hlt : fp.toNat / 2 ^ l < 16 := Nat.div_lt_of_lt_mul (by rwa [Nat.pow_add] at hfp)
  rw [UInt32.toNat_toUInt8, UInt32.toNat_shiftRight, hl32, Nat.mod_eq_of_lt (by omega : l < 32),
    Nat.shiftRight_eq_div_pow]
  exact Nat.mod_eq_of_lt (Nat.lt_trans hlt (by decide))

theorem toUInt16_toUInt64 {n : Nat} (hn : n < 2 ^ 16) : n.toUInt16.toUInt64 = n.toUInt64 := by
  apply UInt64.toNat_inj.mp
  rw [toNat_toUInt64 (by omega), UInt16.toNat_toUInt64, Nat.toUInt16_eq, UInt16.toNat_ofNat',
    Nat.mod_eq_of_lt hn]

theorem lowWidth_eq (hl : l ≤ 13) : (l + 4).toUInt64 - 4 = l.toUInt64 :=
  toUInt64_sub (k := 4) (by omega) (by omega)

theorem partStart_eq (l i : Nat) :
    (12 : UInt64) + l.toUInt64 * i.toUInt64 = (12 + l * i).toUInt64 := by
  rw [toUInt64_mul]
  exact toUInt64_add 12 _

theorem pack_eq (hl : l ≤ 13) (hq : ∀ fp ∈ q.toList, fp.toNat < 2 ^ (l + 4)) :
    pack (l + 4) q = lowPart l q.sort.a 0 ||| lowPart l q.sort.b 1 ||| lowPart l q.sort.c 2 |||
      lowPart l q.sort.d 3 ||| (Nibbles.rank (highNibbles l q.sort)).toUInt64 := by
  have hnibbles : (q.sort.map fun fp => (fp >>> l.toUInt64.toUInt32).toUInt8.toNat) =
      highNibbles l q.sort := by
    have hfp {fp : UInt32} (h : fp ∈ q.sort.toList) := toNat_nibble hl (hq fp (mem_sort.mp h))
    rw [highNibbles, map, map, hfp (by simp [toList]), hfp (by simp [toList]),
      hfp (by simp [toList]), hfp (by simp [toList])]
  have hrank := (ascending_highNibbles hq).rank_lt
  simp only [pack, lowWidth_eq hl, hnibbles, lowPart, ← partStart_eq]
  rw [toUInt16_toUInt64 (by omega)]
  rfl

/-- Behind the rank, the word holds the low bits of the sorted fingerprints one after the other. -/
theorem bitAt_pack_low (hl : l ≤ 13) (hq : ∀ fp ∈ q.toList, fp.toNat < 2 ^ (l + 4)) {j x : Nat}
    (hj : j < 4) (hx : x < l) : bitAt (pack (l + 4) q) (12 + (l * j + x)) =
      (decide (0 = j) && q.sort.a.toNat.testBit x || decide (1 = j) && q.sort.b.toNat.testBit x ||
        decide (2 = j) && q.sort.c.toNat.testBit x || decide (3 = j) && q.sort.d.toNat.testBit x)
      := by
  have hrank := (ascending_highNibbles hq).rank_lt
  have hz := testBit_rank_of_ge hq (Nat.le_add_right 12 (l * j + x))
  have hword (y : Nat) := bitAt_toUInt64 (n := Nibbles.rank (highNibbles l q.sort)) (by omega) y
  simp only [pack_eq hl hq, bitAt_or, bitAt_lowPart hl _ (by decide : 0 < 4) hj hx,
    bitAt_lowPart hl _ (by decide : 1 < 4) hj hx, bitAt_lowPart hl _ (by decide : 2 < 4) hj hx,
    bitAt_lowPart hl _ (by decide : 3 < 4) hj hx, hword, hz, Bool.or_false]

theorem bitAt_pack_of_ge (hl : l ≤ 13) (hq : ∀ fp ∈ q.toList, fp.toNat < 2 ^ (l + 4)) {x : Nat}
    (hx : 12 + 4 * l ≤ x) : bitAt (pack (l + 4) q) x = false := by
  have hrank := (ascending_highNibbles hq).rank_lt
  have hz := testBit_rank_of_ge hq (by omega : 12 ≤ x)
  have hpart (fp : UInt32) {i : Nat} (hi : i < 4) : bitAt (lowPart l fp i) x = false := by
    have hli : l * i ≤ l * 3 := Nat.mul_le_mul_left _ (by omega)
    have hout : ¬ x - (12 + l * i) < l := by omega
    rw [lowPart, bitAt_shiftLeft _ (by omega), bitAt_and, bitAt_ones (by omega)]
    simp [hout]
  have hword := bitAt_toUInt64 (n := Nibbles.rank (highNibbles l q.sort)) (by omega) x
  simp only [pack_eq hl hq, bitAt_or, hpart _ (by decide : 0 < 4), hpart _ (by decide : 1 < 4),
    hpart _ (by decide : 2 < 4), hpart _ (by decide : 3 < 4), hword, hz, Bool.or_false]

theorem rank_of_pack (hl : l ≤ 13) (hq : ∀ fp ∈ q.toList, fp.toNat < 2 ^ (l + 4)) :
    (pack (l + 4) q &&& 0xfff).toNat = Nibbles.rank (highNibbles l q.sort) := by
  have hrank := (ascending_highNibbles hq).rank_lt
  have hmask (x : Nat) : bitAt 0xfff x = decide (x < 12) := bitAt_ones (k := 12) (by decide) x
  apply Nat.eq_of_testBit_eq
  intro x
  rw [← bitAt_eq_testBit, bitAt_and, hmask]
  by_cases hx : x < 12
  · rw [pack_eq hl hq, bitAt_or, bitAt_or, bitAt_or, bitAt_or,
      bitAt_lowPart_of_lt hl _ (by decide) hx, bitAt_lowPart_of_lt hl _ (by decide) hx,
      bitAt_lowPart_of_lt hl _ (by decide) hx, bitAt_lowPart_of_lt hl _ (by decide) hx,
      bitAt_toUInt64 (by omega)]
    simp [hx]
  · have hz := testBit_rank_of_ge hq (Nat.le_of_not_lt hx)
    simp [hx, hz]

/-- A fingerprint put together again from its high nibble and its low bits in a word. -/
theorem join_eq (hl : l ≤ 13) (fp : UInt32) {i : Nat} (hi : i < 4) {w : UInt64}
    (hw : ∀ x, x < l → bitAt w (12 + (l * i + x)) = fp.toNat.testBit x) :
    (((fp.toNat / 2 ^ l).toUInt64 <<< l.toUInt64) |||
      ((w >>> (12 + l * i).toUInt64) &&& ((1 <<< l.toUInt64) - 1))).toUInt32 = fp := by
  have hli : l * i ≤ l * 3 := Nat.mul_le_mul_left _ (by omega)
  have hfp := fp.toNat_lt
  have hhigh : fp.toNat / 2 ^ l < 2 ^ 64 :=
    Nat.lt_of_le_of_lt (Nat.div_le_self ..) (Nat.lt_trans hfp (by decide))
  apply UInt32.toNat_inj.mp
  rw [UInt64.toNat_toUInt32]
  refine Eq.trans (congrArg (· % 2 ^ 32) ?_) (Nat.mod_eq_of_lt hfp)
  apply Nat.eq_of_testBit_eq
  intro x
  rw [← bitAt_eq_testBit, bitAt_or, bitAt_shiftLeft _ (by omega), bitAt_and,
    bitAt_shiftRight _ (by omega), bitAt_ones (by omega), bitAt_toUInt64 hhigh,
    Nat.testBit_div_two_pow]
  by_cases hx : x < l
  · have hplace : 12 + l * i + x = 12 + (l * i + x) := by omega
    have hnot : ¬ l ≤ x := by omega
    rw [hplace, hw x hx]
    simp [hx, hnot]
  · have hback : x - l + l = x := by omega
    by_cases h64 : x < 64
    · simp [hx, h64, hback, Nat.le_of_not_lt hx]
    · have hz : fp.toNat.testBit x = false :=
        Nat.testBit_lt_two_pow
          (Nat.lt_of_lt_of_le hfp (Nat.pow_le_pow_right (by decide) (by omega)))
      simp [hx, h64, hz]

/-- A packed bucket is unpacked to its fingerprints in ascending order. -/
theorem unpack?_pack {width : Nat} (h₁ : 5 ≤ width) (h₂ : width ≤ 17)
    (hq : ∀ fp ∈ q.toList, fp.toNat < 2 ^ width) : unpack? width (pack width q) = some q.sort := by
  obtain ⟨l, rfl⟩ : ∃ l, width = l + 4 := ⟨width - 4, by omega⟩
  have hl : l ≤ 13 := by omega
  have hbits {j : Nat} (hj : j < 4) {x : Nat} (hx : x < l) := bitAt_pack_low hl hq hj hx
  have ha := join_eq hl q.sort.a (by decide : 0 < 4) fun x hx =>
    (hbits (by decide) hx).trans (by simp)
  have hb := join_eq hl q.sort.b (by decide : 1 < 4) fun x hx =>
    (hbits (by decide) hx).trans (by simp)
  have hc := join_eq hl q.sort.c (by decide : 2 < 4) fun x hx =>
    (hbits (by decide) hx).trans (by simp)
  have hd := join_eq hl q.sort.d (by decide : 3 < 4) fun x hx =>
    (hbits (by decide) hx).trans (by simp)
  simp only [unpack?, lowWidth_eq hl, rank_of_pack hl hq,
    Nibbles.unrank?_rank (ascending_highNibbles hq), Option.map_some]
  rw [← partStart_eq] at ha hb hc hd
  exact congrArg some (congr (congr (congr (congrArg Quad.mk ha) hb) hc) hd)

theorem pack_lt {width : Nat} (h₁ : 5 ≤ width) (h₂ : width ≤ 17)
    (hq : ∀ fp ∈ q.toList, fp.toNat < 2 ^ width) :
    (pack width q).toNat < 2 ^ (4 * width - 4) := by
  obtain ⟨l, rfl⟩ : ∃ l, width = l + 4 := ⟨width - 4, by omega⟩
  apply Nat.lt_pow_two_of_testBit
  intro x hx
  rw [← bitAt_eq_testBit]
  exact bitAt_pack_of_ge (by omega) hq (by omega)

/-- Four fingerprints are packed in four bits less than they have, and unpacked in ascending order.
The ranks that stand for their high nibbles are sums of binomial coefficients, and just the numbers
below 3876. -/
theorem packs_up_to_order :
    (∀ (width : Nat) (q : Quad UInt32), 5 ≤ width → width ≤ 17 →
      (∀ fp ∈ q.toList, fp.toNat < 2 ^ width) →
      (pack width q).toNat < 2 ^ (4 * width - 4) ∧
        ∃ s, unpack? width (pack width q) = some s ∧ s.toList.Pairwise (· ≤ ·) ∧
          s.toList.Perm q.toList ∧ ∀ fp, fp ∈ s.toList ↔ fp ∈ q.toList) ∧
    (∀ q, Nibbles.rank q =
      q.a.choose 1 + (q.b + 1).choose 2 + (q.c + 2).choose 3 + (q.d + 3).choose 4) ∧
    Set.BijOn Nibbles.rank {q | Nibbles.Ascending q} (Set.Iio 3876) ∧
    (∀ r q, Nibbles.unrank? r = some q ↔ Nibbles.Ascending q ∧ Nibbles.rank q = r) ∧
    ∀ r, Nibbles.unrank? r = none ↔ 3876 ≤ r := by
  refine ⟨?_, Nibbles.rank_eq_choose, Nibbles.rank_bijOn,
    fun _ _ => Nibbles.unrank?_eq_some_iff, fun _ => Nibbles.unrank?_eq_none_iff⟩
  intro width q h₁ h₂ hq
  exact ⟨pack_lt h₁ h₂ hq, q.sort, unpack?_pack h₁ h₂ hq, pairwise_sort q, sort_perm q,
    fun _ => mem_sort⟩

/-- At the greatest width the four fingerprints fill the word. -/
theorem packs_up_to_order_seventeen :
    (∀ fp ∈ (⟨131071, 0, 131071, 43690⟩ : Quad UInt32).toList, fp.toNat < 2 ^ 17) ∧
    (pack 17 ⟨131071, 0, 131071, 43690⟩).toNat < 2 ^ 64 ∧
    ∃ s, unpack? 17 (pack 17 ⟨131071, 0, 131071, 43690⟩) = some s ∧
      s.toList = [0, 43690, 131071, 131071] := by
  have hq : ∀ fp ∈ (⟨131071, 0, 131071, 43690⟩ : Quad UInt32).toList, fp.toNat < 2 ^ 17 := by
    simp [toList]
  obtain ⟨hlt, s, hs, hsorted, hperm, -⟩ := packs_up_to_order.1 17 _ (by decide) (by decide) hq
  have hlist : [0, 43690, 131071, 131071].Perm s.toList :=
    List.Perm.trans (by decide) hperm.symm
  refine ⟨hq, hlt, s, hs, ?_⟩
  exact (hlist.eq_of_pairwise (fun _ _ _ _ => UInt32.le_antisymm) (by decide) hsorted).symm

end Quad

end ApproxSet
