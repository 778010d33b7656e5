/-! The fixed-width ranges of the quantities a display reports, as clamps on `Nat` and `Int`.

    Pixel counts are unsigned 32-bit, signed measures (refresh, density, canvas edges) are signed
    32-bit, and times are signed 64-bit nanoseconds. Sums of such quantities saturate: they stop at
    the end of the range instead of wrapping. -/

namespace VideoWall.Limits

/-- The largest unsigned 32-bit count. -/
abbrev maxCount : Nat := 4294967295

/-- The largest signed 32-bit measure. -/
abbrev maxMeasure : Int := 2147483647

/-- The smallest signed 32-bit measure. -/
abbrev minMeasure : Int := -2147483648

/-- The largest signed 64-bit time. -/
abbrev maxTime : Int := 9223372036854775807

/-- The smallest signed 64-bit time. -/
abbrev minTime : Int := -9223372036854775808

/-- The nearest count in range. -/
def count (n : Nat) : Nat := min n maxCount

/-- The nearest measure in range. -/
def measure (x : Int) : Int := max minMeasure (min x maxMeasure)

/-- The nearest time in range. -/
def time (x : Int) : Int := max minTime (min x maxTime)

theorem count_of_le {n : Nat} (h : n ≤ maxCount) : count n = n := Nat.min_eq_left h

theorem measure_of_mem {x : Int} (lo : minMeasure ≤ x) (hi : x ≤ maxMeasure) : measure x = x := by
  rw [measure, Int.min_eq_left hi, Int.max_eq_right lo]

theorem measure_mem (x : Int) : minMeasure ≤ measure x ∧ measure x ≤ maxMeasure := by
  simp only [measure, minMeasure, maxMeasure]; omega

end VideoWall.Limits
