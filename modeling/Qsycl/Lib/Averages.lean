/-
# Moving averages

An exponential moving average of a signal and one of its square, both from 0:
the square of the first is at most a constant times the second
(`sq_average_le`), whatever the signal is. So their quotient is bounded, also
where it is damped (`quotient_le`).
-/
import Mathlib

namespace Averages

/-- The next value of an average with decay `β`. -/
def average (β a x : ℝ) : ℝ := β * a + (1 - β) * x

/-- The largest value of the square of the first average over the second. -/
noncomputable def factor (β₁ β₂ : ℝ) : ℝ := (1 - β₁) ^ 2 * β₂ / ((1 - β₂) * (β₂ - β₁ ^ 2))

variable {β₁ β₂ : ℝ}

theorem factor_nonneg (h₁ : β₁ ^ 2 < β₂) (h₂ : β₂ < 1) : 0 ≤ factor β₁ β₂ := by
  have hpos : 0 < β₂ := (sq_nonneg β₁).trans_lt h₁
  exact div_nonneg (mul_nonneg (sq_nonneg _) hpos.le) (mul_nonneg (by linarith) (by linarith))

/-- **One step** keeps the bound. -/
theorem sq_average_le (h₁ : β₁ ^ 2 < β₂) (h₂ : β₂ < 1) {m v x : ℝ} (h : m ^ 2 ≤ factor β₁ β₂ * v) :
    average β₁ m x ^ 2 ≤ factor β₁ β₂ * average β₂ v (x * x) := by
  have hpos : 0 < β₂ := (sq_nonneg β₁).trans_lt h₁
  have hgap : 0 < β₂ - β₁ ^ 2 := by linarith
  have hnew : factor β₁ β₂ * ((1 - β₂) * (x * x)) = (1 - β₁) ^ 2 * β₂ * x ^ 2 / (β₂ - β₁ ^ 2) := by
    rw [factor]
    have : 1 - β₂ ≠ 0 := by linarith
    field_simp
  -- the two sides differ by a square
  have hsquare : average β₁ m x ^ 2 ≤ β₂ * m ^ 2 + (1 - β₁) ^ 2 * β₂ * x ^ 2 / (β₂ - β₁ ^ 2) := by
    have heq : β₂ * m ^ 2 + (1 - β₁) ^ 2 * β₂ * x ^ 2 / (β₂ - β₁ ^ 2) - average β₁ m x ^ 2 =
        ((β₂ - β₁ ^ 2) * m - β₁ * (1 - β₁) * x) ^ 2 / (β₂ - β₁ ^ 2) := by
      rw [average]
      field_simp
      ring
    have hle : 0 ≤ ((β₂ - β₁ ^ 2) * m - β₁ * (1 - β₁) * x) ^ 2 / (β₂ - β₁ ^ 2) :=
      div_nonneg (sq_nonneg _) hgap.le
    linarith
  calc average β₁ m x ^ 2 ≤ β₂ * m ^ 2 + (1 - β₁) ^ 2 * β₂ * x ^ 2 / (β₂ - β₁ ^ 2) := hsquare
    _ ≤ β₂ * (factor β₁ β₂ * v) + (1 - β₁) ^ 2 * β₂ * x ^ 2 / (β₂ - β₁ ^ 2) :=
        add_le_add_left (mul_le_mul_of_nonneg_left h hpos.le) _
    _ = factor β₁ β₂ * average β₂ v (x * x) := by rw [← hnew, average]; ring

/-- **The damped quotient** of corrected averages. -/
theorem quotient_le {K m v c₁ c₂ eps : ℝ} (hK : 0 ≤ K) (h : m ^ 2 ≤ K * v) (hc₁ : 0 < c₁) (hc₂ : 0 < c₂)
    (hc₂' : c₂ ≤ 1) (heps : 0 ≤ eps) : |m / c₁ / (√(v / c₂) + eps)| ≤ √K / c₁ := by
  have hm : |m| ≤ √K * √(v / c₂) := by
    rw [← Real.sqrt_mul hK]
    refine Real.abs_le_sqrt (h.trans ?_)
    rcases le_or_gt 0 v with hv | hv
    · exact mul_le_mul_of_nonneg_left (le_div_self hv hc₂ hc₂') hK
    · have hz : K * v ≤ 0 := mul_nonpos_of_nonneg_of_nonpos hK hv.le
      have hz' : K * v = 0 := le_antisymm hz ((sq_nonneg m).trans h)
      rcases mul_eq_zero.mp hz' with rfl | rfl
      · simp
      · exact absurd hv (lt_irrefl 0)
  have hden : 0 ≤ √(v / c₂) + eps := add_nonneg (Real.sqrt_nonneg _) heps
  rw [abs_div, abs_div, abs_of_pos hc₁, abs_of_nonneg hden]
  rcases hden.eq_or_lt with hzero | hpos
  · rw [← hzero, div_zero]
    exact div_nonneg (Real.sqrt_nonneg K) hc₁.le
  · rw [div_le_iff₀ hpos, div_mul_eq_mul_div]
    refine div_le_div_of_nonneg_right (hm.trans ?_) hc₁.le
    exact mul_le_mul_of_nonneg_left (by linarith) (Real.sqrt_nonneg K)

end Averages
