import Mathlib.Algebra.Order.BigOperators.Group.List
import Mathlib.Algebra.Ring.Int.Defs

/-! The truncated mean of some integers.

    A sum of nonnegative integers is divided downwards, and the mean then has a member at or below
    it and one at or above it: `exists_le_ediv`, `exists_ediv_le`. Truncation is symmetric, so the
    same holds of a negative sum, seen in the mirror: `tdiv_between`. -/

namespace VideoWall.Average

variable {ts : List Int}

theorem sum_const (k : Int) (ts : List Int) : (ts.map fun _ => k).sum = ts.length * k := by simp

theorem length_pos (hne : ts ≠ []) : (0 : Int) < ts.length := by
  exact_mod_cast List.length_pos_iff.2 hne

/-- Some member is at or below the mean rounded down. -/
theorem exists_le_ediv (hne : ts ≠ []) : ∃ t ∈ ts, t ≤ ts.sum / ts.length := by
  have hlt : (ts.map id).sum < (ts.map fun _ => ts.sum / ts.length + 1).sum := by
    rw [sum_const, List.map_id, Int.mul_add, Int.mul_one]
    exact Int.lt_mul_ediv_self_add (length_pos hne)
  obtain ⟨t, ht, hlt⟩ := List.exists_lt_of_sum_lt _ _ hlt
  exact ⟨t, ht, Int.lt_add_one_iff.1 hlt⟩

/-- Some member is at or above the mean rounded down. -/
theorem exists_ediv_le (hne : ts ≠ []) : ∃ t ∈ ts, ts.sum / ts.length ≤ t := by
  have hle : (ts.map fun _ => ts.sum / ts.length).sum ≤ (ts.map id).sum := by
    rw [sum_const, List.map_id]
    exact Int.mul_ediv_self_le (length_pos hne).ne'
  exact List.exists_le_of_sum_le hne _ _ hle

theorem sum_neg (ts : List Int) : (ts.map (- ·)).sum = -ts.sum := by
  induction ts with
  | nil => rfl
  | cons t ts ih => rw [List.map_cons, List.sum_cons, ih, List.sum_cons, Int.neg_add]

/-- The truncated mean of some integers lies between two of them. -/
theorem tdiv_between (hne : ts ≠ []) :
    (∃ t ∈ ts, t ≤ ts.sum.tdiv ts.length) ∧ ∃ t ∈ ts, ts.sum.tdiv ts.length ≤ t := by
  rcases Int.le_total 0 ts.sum with hsum | hsum
  · rw [Int.tdiv_eq_ediv_of_nonneg hsum]
    exact ⟨exists_le_ediv hne, exists_ediv_le hne⟩
  · -- the mirrored integers have a sum that is not negative
    have hne' : ts.map (- ·) ≠ [] := mt List.map_eq_nil_iff.1 hne
    have hmirror : (ts.map (- ·)).sum / (ts.map (- ·)).length = -ts.sum.tdiv ts.length := by
      rw [sum_neg, List.length_map, ← Int.tdiv_eq_ediv_of_nonneg (Int.neg_nonneg_of_nonpos hsum),
        Int.neg_tdiv]
    obtain ⟨_, hmem, hle⟩ := exists_le_ediv hne'
    obtain ⟨high, hhigh, rfl⟩ := List.mem_map.1 hmem
    obtain ⟨_, hmem, hge⟩ := exists_ediv_le hne'
    obtain ⟨low, hlow, rfl⟩ := List.mem_map.1 hmem
    rw [hmirror] at hle hge
    exact ⟨⟨low, hlow, Int.neg_le_neg_iff.1 hge⟩, high, hhigh, Int.neg_le_neg_iff.1 hle⟩

/-- A truncated mean lies in every range that its members lie in. -/
theorem tdiv_mem {lo hi : Int} (hne : ts ≠ []) (h : ∀ t ∈ ts, lo ≤ t ∧ t ≤ hi) :
    lo ≤ ts.sum.tdiv ts.length ∧ ts.sum.tdiv ts.length ≤ hi := by
  obtain ⟨⟨low, hlow, hle⟩, high, hhigh, hge⟩ := tdiv_between hne
  exact ⟨Int.le_trans (h low hlow).1 hle, Int.le_trans hge (h high hhigh).2⟩

end VideoWall.Average
