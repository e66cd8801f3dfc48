import Mathlib.Data.Nat.Log
import Mathlib.Tactic

/-!
# Whole numbers through a double

A whole number that is held as a double is first rounded to 53 bits, to even on a tie. Written
out again, it is the shortest decimal that is rounded to the same double, filled up with zeros.
Below `2 ^ 53` a number comes through unchanged.
-/

namespace Averin

namespace Float64

/-- The double nearest to a whole number. -/
def round (n : Nat) : Nat :=
  if n < 2 ^ 53 then n
  else
    let unit := 2 ^ (Nat.log2 n - 52)
    let q := n / unit
    let r := n % unit
    if 2 * r > unit ∨ 2 * r = unit ∧ q % 2 = 1 then (q + 1) * unit else q * unit

/-- The multiple of `10 ^ zeros` next to `x` that is rounded to `x`. -/
def withZeros (x zeros : Nat) : Option Nat :=
  let step := 10 ^ zeros
  let below := x / step * step
  let above := below + step
  match decide (round below = x), decide (round above = x) with
  | true, true => some (if x - below ≤ above - x then below else above)
  | true, false => some below
  | false, true => some above
  | false, false => none

/-- The shortest decimal that is rounded to `x`: the one with the most zeros at its end. -/
def shortest (x : Nat) : Nat := ((List.range 20).reverse.findSome? (withZeros x)).getD x

/-- What is written out for a number that was held as a double. -/
def rewritten (n : Int) : Int :=
  if n < 0 then -(shortest (round n.natAbs) : Int) else shortest (round n.natAbs)

/-- The double nearest to an integer. -/
def roundInt (n : Int) : Int := if n < 0 then -(round n.natAbs : Int) else round n.natAbs

theorem round_of_lt {n : Nat} (h : n < 2 ^ 53) : round n = n := by rw [round, if_pos h]

/-- Rounding does not go below `2 ^ 53` from above. -/
theorem le_round {n : Nat} (h : 2 ^ 53 ≤ n) : 2 ^ 53 ≤ round n := by
  have hlog : 53 ≤ Nat.log2 n := by
    rw [Nat.le_log2 (by omega)]
    exact h
  have hunit : 2 ^ 53 ≤ n / 2 ^ (Nat.log2 n - 52) * 2 ^ (Nat.log2 n - 52) := by
    have hpow : 2 ^ (Nat.log2 n - 52) * 2 ^ 52 ≤ n := by
      rw [← pow_add, Nat.sub_add_cancel (by omega)]
      exact Nat.log2_self_le (by omega)
    have hq : 2 ^ 52 ≤ n / 2 ^ (Nat.log2 n - 52) :=
      (Nat.le_div_iff_mul_le (by positivity)).mpr (by rwa [mul_comm] at hpow)
    calc 2 ^ 53 = 2 ^ 52 * 2 ^ 1 := by norm_num
      _ ≤ n / 2 ^ (Nat.log2 n - 52) * 2 ^ (Nat.log2 n - 52) :=
          Nat.mul_le_mul hq (Nat.pow_le_pow_right (by decide) (by omega))
  rw [round, if_neg (by omega)]
  dsimp only
  split_ifs
  · exact hunit.trans (Nat.mul_le_mul_right _ (Nat.le_succ _))
  · exact hunit

/-- Below `2 ^ 53` only the number itself is rounded to it. -/
theorem eq_of_round_eq {n x : Nat} (hx : x < 2 ^ 53) (h : round n = x) : n = x := by
  by_cases hn : n < 2 ^ 53
  · rwa [round_of_lt hn] at h
  · have := le_round (not_lt.mp hn)
    omega

/-- A small number is found only as itself. -/
theorem eq_of_withZeros {x zeros c : Nat} (hx : x < 2 ^ 53) (h : withZeros x zeros = some c) :
    c = x := by
  unfold withZeros at h
  dsimp only at h
  split at h
  · next hb ha =>
    have hb := eq_of_round_eq hx (of_decide_eq_true hb)
    have ha := eq_of_round_eq hx (of_decide_eq_true ha)
    have := Nat.pow_pos (n := zeros) (a := 10) (by decide)
    omega
  · next hb _ => exact (Option.some.inj h).symm.trans (eq_of_round_eq hx (of_decide_eq_true hb))
  · next _ ha => exact (Option.some.inj h).symm.trans (eq_of_round_eq hx (of_decide_eq_true ha))
  · cases h

/-- A small number is written as itself. -/
theorem shortest_of_lt {x : Nat} (hx : x < 2 ^ 53) : shortest x = x := by
  unfold shortest
  cases h : (List.range 20).reverse.findSome? (withZeros x) with
  | none => rfl
  | some c =>
    obtain ⟨zeros, -, hc⟩ := List.exists_of_findSome?_eq_some h
    exact eq_of_withZeros hx hc

/-- A number below `2 ^ 53` comes through unchanged. -/
theorem rewritten_of_lt {n : Int} (h : n.natAbs < 2 ^ 53) : rewritten n = n := by
  unfold rewritten
  rw [round_of_lt h, shortest_of_lt h]
  split_ifs <;> omega

theorem roundInt_of_lt {n : Int} (h : n.natAbs < 2 ^ 53) : roundInt n = n := by
  unfold roundInt
  rw [round_of_lt h]
  split_ifs <;> omega

/-- The first number that does not. -/
example : rewritten (2 ^ 53 + 1) = 2 ^ 53 := by decide +kernel

end Float64

end Averin
