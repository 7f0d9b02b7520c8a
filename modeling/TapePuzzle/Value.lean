/-!
# Values

Slots and objects hold integers from -999 to 999. Sums, differences and products that leave this
range wrap around it.
-/

namespace TapePuzzle

/-- The smallest value. -/
def minValue : Int := -999

/-- The largest value. -/
def maxValue : Int := 999

/-- The number of values, and so the distance by which a result wraps. -/
def valueCount : Int := 1999

/-- The most values an object holds. No more are allowed, since its length has to be a value too. -/
def maxObjectLength : Nat := 999

/-- The longest tape. -/
def maxTapeLength : Nat := 999

/-- Whether an integer is a value. -/
def inRange (v : Int) : Bool := decide (minValue ≤ v ∧ v ≤ maxValue)

/-- The value that differs from `v` by a multiple of `valueCount`. -/
def wrap (v : Int) : Int := (v - minValue) % valueCount + minValue

theorem inRange_iff {v : Int} : inRange v = true ↔ -999 ≤ v ∧ v ≤ 999 := by
  exact decide_eq_true_iff

/-- Wrapping always ends in range. -/
theorem inRange_wrap (v : Int) : inRange (wrap v) = true := by
  rw [inRange_iff]
  unfold wrap valueCount minValue
  omega

/-- Values do not wrap. -/
theorem wrap_of_inRange {v : Int} (h : inRange v = true) : wrap v = v := by
  rw [inRange_iff] at h
  unfold wrap valueCount minValue
  omega

end TapePuzzle
