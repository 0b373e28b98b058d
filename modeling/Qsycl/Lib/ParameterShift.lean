/-
# The parameter-shift rule

An expectation value is a combination of 1, `cos y` and `sin y` of the angle
`y` of one rotation (`sinusoid_rotationAbout`). Such a function has the
derivative `(f (y + π / 2) - f (y - π / 2)) / 2`, and a differentiable function
of several angles that is of this kind in each of them has a derivative that
two values for each angle determine (`hasFDerivAt_of_sinusoid`).
-/
import Qsycl.Lib.Rotations

namespace Qubits

open Matrix

/-- A combination of 1, cosine and sine. -/
def Sinusoid (f : ℝ → ℝ) : Prop := ∃ α β γ : ℝ, ∀ y, f y = α + β * Real.cos y + γ * Real.sin y

theorem sinusoid_const (α : ℝ) : Sinusoid fun _ => α := ⟨α, 0, 0, by simp⟩

/-- **The shift rule** in one angle. -/
theorem Sinusoid.hasDerivAt {f : ℝ → ℝ} (h : Sinusoid f) (y : ℝ) :
    HasDerivAt f ((f (y + Real.pi / 2) - f (y - Real.pi / 2)) / 2) y := by
  obtain ⟨α, β, γ, hf⟩ := h
  have hd : HasDerivAt (fun y => α + β * Real.cos y + γ * Real.sin y)
      (β * -Real.sin y + γ * Real.cos y) y :=
    (((Real.hasDerivAt_cos y).const_mul β).const_add α).add ((Real.hasDerivAt_sin y).const_mul γ)
  have hv : (f (y + Real.pi / 2) - f (y - Real.pi / 2)) / 2 = β * -Real.sin y + γ * Real.cos y := by
    rw [hf, hf, Real.cos_add_pi_div_two, Real.sin_add_pi_div_two, Real.cos_sub_pi_div_two,
      Real.sin_sub_pi_div_two]
    ring
  rw [hv, funext hf]
  exact hd

section Several

variable {κ : Type*} [Fintype κ] [DecidableEq κ]

/-- The difference of two values of `G`, with coordinate `k` shifted both ways. -/
def shiftDifference (δ : ℝ) (G : (κ → ℝ) → ℝ) (a : κ → ℝ) (k : κ) : ℝ :=
  G (Function.update a k (a k + δ)) - G (Function.update a k (a k - δ))

/-- The projection on coordinate `k`. -/
noncomputable abbrev coordinate (k : κ) : (κ → ℝ) →L[ℝ] ℝ := ContinuousLinearMap.proj k

/-- **The shift rule** in several angles. -/
theorem hasFDerivAt_of_sinusoid {G : (κ → ℝ) → ℝ} {a : κ → ℝ} (hd : DifferentiableAt ℝ G a)
    (hs : ∀ k, Sinusoid fun y => G (Function.update a k y)) :
    HasFDerivAt G (∑ k, (shiftDifference (Real.pi / 2) G a k / 2) • coordinate k) a := by
  have hpartial : ∀ k, fderiv ℝ G a (Pi.single k 1) = shiftDifference (Real.pi / 2) G a k / 2 := by
    intro k
    have hG : HasFDerivAt G (fderiv ℝ G a) (Function.update a k (a k)) := by
      rw [Function.update_eq_self]
      exact hd.hasFDerivAt
    have h1 := hG.comp_hasDerivAt (a k) (hasDerivAt_update a k (a k))
    exact h1.unique ((hs k).hasDerivAt (a k))
  have hL : fderiv ℝ G a = ∑ k, (shiftDifference (Real.pi / 2) G a k / 2) • coordinate k := by
    refine ContinuousLinearMap.ext fun v => ?_
    conv_lhs => rw [pi_eq_sum_univ' v, map_sum]
    rw [FunLike.coe_sum, Finset.sum_apply]
    refine Finset.sum_congr rfl fun k _ => ?_
    rw [map_smul, hpartial, smul_eq_mul, mul_comm]
    rfl
  rw [← hL]
  exact hd.hasFDerivAt

end Several

/-! ### Expectation values -/

variable {ι : Type*} [Fintype ι] [DecidableEq ι]

/-- **An expectation value is a sinusoid** in the angle of one rotation. -/
theorem sinusoid_rotationAbout (A P : Op ι) (ψ : State ι) :
    Sinusoid fun y => (expect A (rotationAbout P (y / 2) *ᵥ ψ)).re := by
  -- the four terms of the product, with `u = ⟨ψ, A ψ⟩` and `v`, `w`, `z` those with P
  obtain ⟨u, hu⟩ : ∃ u, u = star ψ ⬝ᵥ (A *ᵥ ψ) := ⟨_, rfl⟩
  obtain ⟨v, hv⟩ : ∃ v, v = star ψ ⬝ᵥ (A *ᵥ (P *ᵥ ψ)) := ⟨_, rfl⟩
  obtain ⟨w, hw⟩ : ∃ w, w = star (P *ᵥ ψ) ⬝ᵥ (A *ᵥ ψ) := ⟨_, rfl⟩
  obtain ⟨z, hz⟩ : ∃ z, z = star (P *ᵥ ψ) ⬝ᵥ (A *ᵥ (P *ᵥ ψ)) := ⟨_, rfl⟩
  have hexp : ∀ y : ℝ, expect A (rotationAbout P (y / 2) *ᵥ ψ) =
      (Real.cos (y / 2) ^ 2 : ℝ) * u + (Real.sin (y / 2) ^ 2 : ℝ) * z +
        (Real.cos (y / 2) * Real.sin (y / 2) : ℝ) * (Complex.I * (w - v)) := by
    intro y
    rw [rotationAbout, sub_mulVec, smul_mulVec, smul_mulVec, one_mulVec, expect, star_sub, star_smul,
      star_smul, mulVec_sub, mulVec_smul, mulVec_smul, sub_dotProduct, dotProduct_sub, dotProduct_sub,
      smul_dotProduct, smul_dotProduct, smul_dotProduct, smul_dotProduct, dotProduct_smul,
      dotProduct_smul, dotProduct_smul, dotProduct_smul, ← hu, ← hv, ← hw, ← hz]
    simp only [smul_eq_mul, star_mul', Complex.star_def, Complex.conj_ofReal, Complex.conj_I]
    push_cast
    linear_combination (-(Complex.sin (y / 2)) ^ 2 * z) * Complex.I_mul_I
  refine ⟨(u.re + z.re) / 2, (u.re - z.re) / 2, (Complex.I * (w - v)).re / 2, fun y => ?_⟩
  have hc : Real.cos (y / 2) ^ 2 = 1 / 2 + Real.cos y / 2 := by
    rw [Real.cos_sq, mul_div_cancel₀ _ two_ne_zero]
  have hs : Real.sin (y / 2) ^ 2 = 1 / 2 - Real.cos y / 2 := by
    rw [Real.sin_sq, hc]
    ring
  have hcs : Real.cos (y / 2) * Real.sin (y / 2) = Real.sin y / 2 := by
    rw [show Real.sin y = Real.sin (2 * (y / 2)) by rw [mul_div_cancel₀ _ two_ne_zero], Real.sin_two_mul]
    ring
  beta_reduce
  rw [hexp, Complex.add_re, Complex.add_re, Complex.re_ofReal_mul, Complex.re_ofReal_mul,
    Complex.re_ofReal_mul, hc, hs, hcs]
  ring

end Qubits
