/-
  LambdaTree.Proofs.Term.Binary64

  Rounding to numbers with 53 binary digits, as binary floating point does after
  every operation.  The numbers around a given one are the multiples of its
  quantum, a power of two; rounding goes to the nearest of them, and there is no
  largest number.  It keeps the order of numbers (`toBinary64_monotone`), also
  from one power of two to the next, where the quantum changes, and it keeps all
  whole numbers of at most 53 digits (`toBinary64_intCast`).
-/

import Mathlib.Algebra.Order.Field.Power
import Mathlib.Algebra.Order.Floor.Ring
import Mathlib.Data.Int.Log
import Mathlib.Data.Rat.Floor
import Mathlib.Order.Monotone.Odd
import Mathlib.Tactic.Linarith
import Mathlib.Tactic.Positivity
import Mathlib.Tactic.Ring

namespace LambdaTree

/-! ## Whole numbers -/

/-- The nearest whole number, and the even one of two that are equally near. -/
def nearestEven (x : ℚ) : ℤ :=
  if Int.fract x < 1 / 2 then ⌊x⌋
  else if 1 / 2 < Int.fract x then ⌊x⌋ + 1
  else ⌊x⌋ + ⌊x⌋ % 2

theorem nearestEven_intCast (n : ℤ) : nearestEven n = n := by
  simp [nearestEven]

theorem nearestEven_bounds (x : ℚ) : ⌊x⌋ ≤ nearestEven x ∧ nearestEven x ≤ ⌊x⌋ + 1 := by
  unfold nearestEven
  split_ifs <;> omega

theorem nearestEven_mono {x y : ℚ} (hxy : x ≤ y) : nearestEven x ≤ nearestEven y := by
  rcases (Int.floor_mono hxy).lt_or_eq with hlt | heq
  · have hx := (nearestEven_bounds x).2
    have hy := (nearestEven_bounds y).1
    omega
  · -- Behind the same whole number, the larger fraction is not rounded further down.
    have hfract : Int.fract x ≤ Int.fract y := by
      rw [Int.fract, Int.fract, heq]
      linarith
    unfold nearestEven
    rw [heq]
    grind

theorem nearestEven_neg (x : ℚ) : nearestEven (-x) = -nearestEven x := by
  by_cases hx : Int.fract x = 0
  · obtain ⟨n, rfl⟩ := Int.fract_eq_zero_iff.mp hx
    have hneg := nearestEven_intCast (-n)
    rw [Int.cast_neg] at hneg
    rw [hneg, nearestEven_intCast]
  · have hfract : Int.fract (-x) = 1 - Int.fract x := Int.fract_neg hx
    have hfloor : ⌊-x⌋ = -⌊x⌋ - 1 := by
      have hsum := Int.floor_add_fract (-x)
      have hsum' := Int.floor_add_fract x
      have hcast : (⌊-x⌋ : ℚ) = (-⌊x⌋ - 1 : ℤ) := by
        push_cast
        linarith
      exact_mod_cast hcast
    unfold nearestEven
    rw [hfract, hfloor]
    grind

/-! ## Multiples of a quantum -/

/-- The distance of the numbers with 53 binary digits around a number; it never gets
    smaller than the least number of the format. -/
def quantum (x : ℚ) : ℚ :=
  2 ^ max (Int.log 2 |x| - 52) (-1074)

/-- The nearest number with 53 binary digits, and the even one of two that are equally
    near. -/
def toBinary64 (x : ℚ) : ℚ :=
  nearestEven (x / quantum x) * quantum x

theorem quantum_pos (x : ℚ) : 0 < quantum x := by
  unfold quantum
  positivity

theorem toBinary64_neg (x : ℚ) : toBinary64 (-x) = -toBinary64 x := by
  have hquantum : quantum (-x) = quantum x := by rw [quantum, quantum, abs_neg]
  rw [toBinary64, toBinary64, hquantum, neg_div, nearestEven_neg]
  push_cast
  ring

/-- A multiple of the quantum that bounds a number bounds what it is rounded to. -/
theorem toBinary64_le {x : ℚ} {n : ℤ} (h : x ≤ n * quantum x) : toBinary64 x ≤ n * quantum x := by
  have hscaled : x / quantum x ≤ n := (div_le_iff₀ (quantum_pos x)).mpr h
  have hnearest : nearestEven (x / quantum x) ≤ n :=
    nearestEven_intCast n ▸ nearestEven_mono hscaled
  unfold toBinary64
  gcongr
  exact (quantum_pos x).le

theorem le_toBinary64 {x : ℚ} {n : ℤ} (h : n * quantum x ≤ x) : n * quantum x ≤ toBinary64 x := by
  have hscaled : n ≤ x / quantum x := (le_div_iff₀ (quantum_pos x)).mpr h
  have hnearest : n ≤ nearestEven (x / quantum x) :=
    nearestEven_intCast n ▸ nearestEven_mono hscaled
  unfold toBinary64
  gcongr
  exact (quantum_pos x).le

/-! ## Order and whole numbers -/

/-- A number in a larger binade than another is rounded to the start of the binade at least,
    and the other to this at most. -/
theorem toBinary64_le_of_quantum_lt {x y : ℚ} (hx : 0 < x) (hxy : x ≤ y)
    (hlt : quantum x < quantum y) : toBinary64 x ≤ toBinary64 y := by
  have hy : 0 < y := hx.trans_le hxy
  rw [quantum, quantum, abs_of_pos hx, abs_of_pos hy, zpow_lt_zpow_iff_right₀ one_lt_two] at hlt
  -- The start of the binade of `y`, as a multiple of both quanta.
  have hbelow : (2 : ℚ) ^ Int.log 2 y ≤ y := by exact_mod_cast Int.zpow_log_le_self one_lt_two hy
  have habove : x ≤ 2 ^ Int.log 2 y := by
    have hx' : x < 2 ^ (Int.log 2 x + 1) := by
      exact_mod_cast Int.lt_zpow_succ_log_self one_lt_two x
    exact hx'.le.trans (zpow_le_zpow_right₀ one_le_two (by omega))
  have hmultiple {z : ℚ} (hz : 0 < z) (hle : max (Int.log 2 z - 52) (-1074) ≤ Int.log 2 y) :
      (2 : ℚ) ^ Int.log 2 y =
        ((2 ^ (Int.log 2 y - max (Int.log 2 z - 52) (-1074)).toNat : ℤ) : ℚ) * quantum z := by
    rw [quantum, abs_of_pos hz]
    push_cast
    rw [← zpow_natCast, ← zpow_add₀ two_ne_zero]
    congr 1
    omega
  have hx' := hmultiple hx (by omega)
  have hy' := hmultiple hy (by omega)
  calc toBinary64 x ≤ 2 ^ Int.log 2 y := hx' ▸ toBinary64_le (hx' ▸ habove)
    _ ≤ toBinary64 y := hy' ▸ le_toBinary64 (hy' ▸ hbelow)

theorem toBinary64_zero : toBinary64 0 = 0 := by
  rw [toBinary64, zero_div, ← Int.cast_zero, nearestEven_intCast, Int.cast_zero, zero_mul]

theorem quantum_mono {x y : ℚ} (hx : 0 < x) (hxy : x ≤ y) : quantum x ≤ quantum y := by
  have hlog : Int.log 2 x ≤ Int.log 2 y := Int.log_mono_right hx hxy
  rw [quantum, quantum, abs_of_pos hx, abs_of_pos (hx.trans_le hxy)]
  exact zpow_le_zpow_right₀ one_le_two (by omega)

theorem toBinary64_monotone : Monotone toBinary64 := by
  refine monotone_of_odd_of_monotoneOn_nonneg toBinary64_neg fun x hx y _ hxy => ?_
  rcases (Set.mem_Ici.mp hx).eq_or_lt with rfl | hpos
  · have hy : ((0 : ℤ) : ℚ) * quantum y ≤ toBinary64 y := le_toBinary64 (by simpa using hxy)
    simpa [toBinary64_zero] using hy
  · rcases (quantum_mono hpos hxy).eq_or_lt with heq | hlt
    · unfold toBinary64
      rw [heq]
      have hquantum := (quantum_pos y).le
      gcongr
      exact nearestEven_mono (by gcongr)
    · exact toBinary64_le_of_quantum_lt hpos hxy hlt

/-- Whole numbers with at most 53 binary digits stay as they are. -/
theorem toBinary64_intCast {n : ℤ} (hn : 0 ≤ n) (hlt : n < 2 ^ 53) : toBinary64 n = n := by
  rcases hn.eq_or_lt with rfl | hpos
  · exact_mod_cast toBinary64_zero
  have hpos' : (0 : ℚ) < n := by exact_mod_cast hpos
  have hlog : Int.log 2 (n : ℚ) < 53 := by
    have hle : (2 : ℚ) ^ Int.log 2 (n : ℚ) ≤ n := by
      exact_mod_cast Int.zpow_log_le_self one_lt_two hpos'
    have hlt' : (n : ℚ) < 2 ^ (53 : ℤ) := by exact_mod_cast hlt
    exact (zpow_lt_zpow_iff_right₀ one_lt_two).mp (hle.trans_lt hlt')
  -- The quantum is a negative power of two, so it divides every whole number.
  generalize hk : max (Int.log 2 (n : ℚ) - 52) (-1074) = k
  have hquantum : quantum n = (2 : ℚ) ^ k := by rw [quantum, abs_of_pos hpos', hk]
  have hmultiple : (n : ℚ) = ((n * 2 ^ (-k).toNat : ℤ) : ℚ) * quantum n := by
    rw [hquantum]
    push_cast
    rw [← zpow_natCast, mul_assoc, ← zpow_add₀ two_ne_zero]
    have hzero : ((-k).toNat : ℤ) + k = 0 := by omega
    rw [hzero, zpow_zero, mul_one]
  exact le_antisymm ((toBinary64_le hmultiple.le).trans_eq hmultiple.symm)
    (hmultiple.le.trans (le_toBinary64 hmultiple.ge))

end LambdaTree
