import Mathlib.Tactic

/-!
# Integers of 64 bits that wrap

A sum or a product that does not fit is taken modulo `2 ^ 64`, into the range of the signed
integers of 64 bits.
-/

namespace Averin

/-- What 64 bits hold of an integer. -/
def wrapInt64 (n : Int) : Int := n.bmod (2 ^ 64)

/-- What fits is kept. -/
theorem wrapInt64_of_fits {n : Int} (h : -2 ^ 63 ≤ n ∧ n < 2 ^ 63) : wrapInt64 n = n := by
  unfold wrapInt64
  apply Int.bmod_eq_of_le
  · norm_num
    exact h.1
  · norm_num
    exact h.2

/-- One step over the end comes out at the other end. -/
theorem wrapInt64_of_over {n : Int} (h : 2 ^ 63 ≤ n ∧ n < 2 ^ 63 + 2 ^ 64) :
    wrapInt64 n = n - 2 ^ 64 := by
  rw [← wrapInt64_of_fits (n := n - 2 ^ 64) (by omega)]
  unfold wrapInt64
  exact (Int.sub_bmod_right n (2 ^ 64)).symm

/-- One step under the start comes out at the end. -/
theorem wrapInt64_of_under {n : Int} (h : -2 ^ 63 - 2 ^ 64 ≤ n ∧ n < -2 ^ 63) :
    wrapInt64 n = n + 2 ^ 64 := by
  rw [← wrapInt64_of_fits (n := n + 2 ^ 64) (by omega)]
  unfold wrapInt64
  exact (Int.add_bmod_right n (2 ^ 64)).symm

end Averin
