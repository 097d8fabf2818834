/-
  LambdaTree.Proofs.Sequence.Slices

  What a slice picks.  Its ends are brought into the sequence first
  (`Slice.bounds`); then it goes from its start by its step as long as it has
  not come to its stop.  All places on the way are places of the sequence, so
  the items picked are those at these places, one for each step
  (`Slice.pick_spec`).  A step of zero is the only fault (`Slice.pick_fault_iff`).
-/

import LambdaTree.Slice
import Mathlib.Algebra.Order.Group.Unbundled.Int
import Mathlib.Tactic.Ring

namespace LambdaTree.Slice

variable {ι : Type}

/-- The `n`-th step from `start` has not come to `stop`. -/
def Before (start stop step : Int) (n : Nat) : Prop :=
  if 0 < step then start + n * step < stop else stop < start + n * step

instance (start stop step : Int) (n : Nat) : Decidable (Before start stop step n) :=
  inferInstanceAs (Decidable (if 0 < step then _ else _))

/-! ## Bounds -/

theorem clamp_mem {size : Nat} {low high : Int} (h : low ≤ high) (index : Int) :
    low ≤ clamp size low high index ∧ clamp size low high index ≤ high := by
  simp only [clamp]
  omega

/-- An end that is brought between two bounds, or left out, lies between them. -/
theorem end_mem (size : Nat) {low high other : Int} (hlow : low ≤ other) (hhigh : other ≤ high)
    (index : Option Int) :
    low ≤ (index.map (clamp size low high)).getD other ∧
      (index.map (clamp size low high)).getD other ≤ high := by
  cases index with
  | none => exact ⟨hlow, hhigh⟩
  | some index => exact clamp_mem (Int.le_trans hlow hhigh) index

/-- The ends of a slice lie in the sequence, or right before or behind it. -/
theorem bounds_eq_ok {slice : Slice} {size : Nat} {start stop step : Int}
    (h : slice.bounds size = .ok (start, stop, step)) :
    step = slice.step.getD 1 ∧
      (0 < step ∧ 0 ≤ start ∧ stop ≤ size ∨ step < 0 ∧ start ≤ size - 1 ∧ -1 ≤ stop) := by
  simp only [bounds] at h
  split at h
  · cases h
  · rename_i hzero
    split at h
    · rename_i hpos
      obtain ⟨rfl, rfl, rfl⟩ : _ ∧ _ ∧ _ := by simpa using h
      have hsize : (0 : Int) ≤ size := by omega
      have hstart := end_mem size (Int.le_refl 0) hsize slice.start
      have hstop := end_mem size hsize (Int.le_refl _) slice.stop
      exact ⟨rfl, .inl ⟨hpos, hstart.1, hstop.2⟩⟩
    · rename_i hneg
      obtain ⟨rfl, rfl, rfl⟩ : _ ∧ _ ∧ _ := by simpa using h
      have hsize : (-1 : Int) ≤ size - 1 := by omega
      have hstart := end_mem size hsize (Int.le_refl _) slice.start
      have hstop := end_mem size (Int.le_refl _) hsize slice.stop
      exact ⟨rfl, .inr ⟨by omega, hstart.2, hstop.1⟩⟩

theorem bounds_eq_error_iff {slice : Slice} {size : Nat} {fault : Fault} :
    slice.bounds size = .error fault ↔ fault = .zeroStep ∧ slice.step = some 0 := by
  have hstep : slice.step.getD 1 = 0 ↔ slice.step = some 0 := by
    cases slice.step <;> simp
  simp only [bounds]
  split_ifs with hzero hpos
  · simp only [Except.error.injEq, hstep.mp hzero, and_true]
    exact eq_comm
  · simp [← hstep, hzero]
  · simp [← hstep, hzero]

/-! ## Steps -/

/-- As many steps are counted as do not come to the stop. -/
theorem lt_count_iff {start stop step : Int} (hstep : step ≠ 0) (n : Nat) :
    n < count start stop step ↔ Before start stop step n := by
  simp only [count, Before]
  by_cases hpos : 0 < step
  · simp only [hpos, if_true]
    have hle : (n : Int) ≤ (stop - start - 1) / step ↔ n * step ≤ stop - start - 1 :=
      Int.le_ediv_iff_mul_le hpos
    have hmul : 0 ≤ (n : Int) * step := Int.mul_nonneg (by omega) (by omega)
    split
    · have hdiv : 0 ≤ (stop - start - 1) / step := Int.ediv_nonneg (by omega) (by omega)
      omega
    · omega
  · simp only [hpos, if_false]
    have hle : (n : Int) ≤ (start - stop - 1) / -step ↔ n * -step ≤ start - stop - 1 :=
      Int.le_ediv_iff_mul_le (by omega)
    have hneg : (n : Int) * -step = -(n * step) := by ring
    have hmul : 0 ≤ (n : Int) * -step := Int.mul_nonneg (by omega) (by omega)
    rw [hneg] at hle hmul
    split
    · have hdiv : 0 ≤ (start - stop - 1) / -step := Int.ediv_nonneg (by omega) (by omega)
      omega
    · omega

/-- A step that has not come to the stop is at a place of the sequence. -/
theorem Before.place {slice : Slice} {size : Nat} {start stop step : Int} {n : Nat}
    (hbounds : slice.bounds size = .ok (start, stop, step)) (h : Before start stop step n) :
    0 ≤ start + n * step ∧ start + n * step < size := by
  obtain ⟨-, ⟨hpos, hstart, hstop⟩ | ⟨hneg, hstart, hstop⟩⟩ := bounds_eq_ok hbounds
  · rw [Before, if_pos hpos] at h
    have hmul : 0 ≤ (n : Int) * step := Int.mul_nonneg (by omega) (by omega)
    omega
  · rw [Before, if_neg (by omega)] at h
    have hmul : (n : Int) * step ≤ 0 := Int.mul_nonpos_of_nonneg_of_nonpos (by omega) (by omega)
    omega

/-! ## Items -/

/-- Where no number is left out, the `n`-th result is that for the number `n`. -/
theorem filterMap_range {f : Nat → Option ι} {count : Nat}
    (h : ∀ i < count, ∃ item, f i = some item) :
    ((List.range count).filterMap f).length = count ∧
      ∀ n < count, ((List.range count).filterMap f)[n]? = f n := by
  induction count with
  | zero => simp
  | succ count ih =>
      obtain ⟨item, hitem⟩ := h count (by omega)
      obtain ⟨hlength, hget⟩ := ih fun i hi => h i (by omega)
      rw [List.range_succ, List.filterMap_append, List.filterMap_cons_some hitem,
        List.filterMap_nil]
      refine ⟨by rw [List.length_append, hlength, List.length_singleton], fun n hn => ?_⟩
      by_cases hlast : n = count
      · rw [hlast, List.getElem?_append_right (by omega), hlength, Nat.sub_self, hitem]
        rfl
      · rw [List.getElem?_append_left (by omega), hget n (by omega)]

/-- The `n`-th item picked is the one at the `n`-th step from the start, as long as this has
    not come to the stop. -/
theorem pick_spec {slice : Slice} {data : Array ι} {start stop step : Int}
    (hbounds : slice.bounds data.size = .ok (start, stop, step)) :
    ∃ picked, slice.pick data = .ok picked ∧ ∀ n : Nat,
      picked[n]? = if Before start stop step n then data[(start + n * step).toNat]? else none := by
  have hstep : step ≠ 0 := by
    obtain ⟨-, ⟨hpos, -⟩ | ⟨hneg, -⟩⟩ := bounds_eq_ok hbounds <;> omega
  have hitems (i : Nat) (hi : i < count start stop step) :
      ∃ item, data[(start + i * step).toNat]? = some item := by
    obtain ⟨hlow, hhigh⟩ := ((lt_count_iff hstep i).mp hi).place hbounds
    have hlt : (start + i * step).toNat < data.size := by omega
    exact ⟨data[(start + i * step).toNat], Array.getElem?_eq_getElem hlt⟩
  obtain ⟨hlength, hget⟩ := filterMap_range hitems
  refine ⟨_, by rw [pick, hbounds]; rfl, fun n => ?_⟩
  split
  · rename_i hbefore
    exact hget n ((lt_count_iff hstep n).mpr hbefore)
  · rename_i hstopped
    have hge : ¬n < count start stop step := mt (lt_count_iff hstep n).mp hstopped
    exact List.getElem?_eq_none (by omega)

/-- Only a step of zero is at fault. -/
theorem pick_fault_iff {slice : Slice} {data : Array ι} {fault : Fault} :
    slice.pick data = .error fault ↔ fault = .zeroStep ∧ slice.step = some 0 := by
  have hbounds : slice.bounds data.size = .error fault ↔ _ := bounds_eq_error_iff
  rw [← hbounds, pick]
  cases slice.bounds data.size with
  | error other => simp [bind, Except.bind]
  | ok ends => simp [bind, Except.bind, pure, Except.pure]

end LambdaTree.Slice
