/-
# Expectations and eigenvalues

In a normalized state the expectation of a Hermitian operator is a mean of its
eigenvalues (`expect_eigenvalues`), so it lies between the least and the
largest of them (`ground_le_expect`, `expect_le_top`).
-/
import Qsycl.Lib.Qubits

namespace Qubits

open Matrix

variable {ι : Type*} [Fintype ι] [DecidableEq ι] {A : Op ι}

/-- The amplitudes of a state in an eigenbasis of `A`. -/
noncomputable def inEigenbasis (hA : A.IsHermitian) (ψ : State ι) : State ι :=
  (hA.eigenvectorUnitary : Op ι)ᴴ *ᵥ ψ

theorem sum_normSq_inEigenbasis (hA : A.IsHermitian) (ψ : State ι) :
    ∑ i, Complex.normSq (inEigenbasis hA ψ i) = ∑ i, Complex.normSq (ψ i) := by
  have hunitary : IsUnitary ((hA.eigenvectorUnitary : Op ι)ᴴ) := by
    rw [IsUnitary, conjTranspose_conjTranspose]
    exact Unitary.coe_mul_star_self hA.eigenvectorUnitary
  exact hunitary.sum_normSq ψ

theorem expect_eigenvalues (hA : A.IsHermitian) (ψ : State ι) :
    (expect A ψ).re = ∑ i, hA.eigenvalues i * Complex.normSq (inEigenbasis hA ψ i) := by
  have hspectral : A = ((hA.eigenvectorUnitary : Op ι)ᴴ)ᴴ * diagonal (RCLike.ofReal ∘ hA.eigenvalues) *
      (hA.eigenvectorUnitary : Op ι)ᴴ := by
    rw [conjTranspose_conjTranspose]
    exact hA.spectral_theorem
  have hdiagonal : expect A ψ =
      expect (diagonal (RCLike.ofReal ∘ hA.eigenvalues)) (inEigenbasis hA ψ) := by
    rw [inEigenbasis, expect_mulVec, ← hspectral]
  rw [hdiagonal, expect, dotProduct, Complex.re_sum]
  refine Finset.sum_congr rfl fun i _ => ?_
  rw [mulVec_diagonal, Pi.star_apply, mul_left_comm, Complex.star_def, ← Complex.normSq_eq_conj_mul_self,
    Function.comp_apply]
  exact congrArg Complex.re (Complex.ofReal_mul _ _).symm

section Bounds

variable (hA : A.IsHermitian)

/-- The least eigenvalue. -/
noncomputable def ground : ℝ := ⨅ i, hA.eigenvalues i

/-- The largest eigenvalue. -/
noncomputable def top : ℝ := ⨆ i, hA.eigenvalues i

variable {ψ : State ι}

/-- **No state is below the ground energy.** -/
theorem ground_le_expect (hψ : ∑ i, Complex.normSq (ψ i) = 1) : ground hA ≤ (expect A ψ).re := by
  have hle : ∀ i, ground hA ≤ hA.eigenvalues i := ciInf_le (Set.finite_range _).bddBelow
  calc ground hA = ∑ i, ground hA * Complex.normSq (inEigenbasis hA ψ i) := by
        rw [← Finset.mul_sum, sum_normSq_inEigenbasis, hψ, mul_one]
    _ ≤ ∑ i, hA.eigenvalues i * Complex.normSq (inEigenbasis hA ψ i) :=
        Finset.sum_le_sum fun i _ => mul_le_mul_of_nonneg_right (hle i) (Complex.normSq_nonneg _)
    _ = (expect A ψ).re := (expect_eigenvalues hA ψ).symm

theorem expect_le_top (hψ : ∑ i, Complex.normSq (ψ i) = 1) : (expect A ψ).re ≤ top hA := by
  have hle : ∀ i, hA.eigenvalues i ≤ top hA := le_ciSup (Set.finite_range _).bddAbove
  calc (expect A ψ).re = ∑ i, hA.eigenvalues i * Complex.normSq (inEigenbasis hA ψ i) :=
        expect_eigenvalues hA ψ
    _ ≤ ∑ i, top hA * Complex.normSq (inEigenbasis hA ψ i) :=
        Finset.sum_le_sum fun i _ => mul_le_mul_of_nonneg_right (hle i) (Complex.normSq_nonneg _)
    _ = top hA := by rw [← Finset.mul_sum, sum_normSq_inEigenbasis, hψ, mul_one]

/-- An eigenvalue is the expectation in some state. -/
theorem exists_eigenstate (i : ι → Bool) :
    ∃ ψ : State ι, ∑ x, Complex.normSq (ψ x) = 1 ∧ (expect A ψ).re = hA.eigenvalues i := by
  refine ⟨⇑(hA.eigenvectorBasis i), ?_, (hA.eigenvalues_eq i).symm⟩
  have hnorm := EuclideanSpace.norm_sq_eq (hA.eigenvectorBasis i)
  rw [hA.eigenvectorBasis.orthonormal.1 i, one_pow] at hnorm
  exact (Finset.sum_congr rfl fun x _ => Complex.normSq_eq_norm_sq _).trans hnorm.symm

/-- What bounds the expectations bounds the spectrum. -/
theorem top_le {B : ℝ} (h : ∀ ψ : State ι, ∑ x, Complex.normSq (ψ x) = 1 → (expect A ψ).re ≤ B) : top hA ≤ B :=
  ciSup_le fun i => by
    obtain ⟨ψ, hψ, hi⟩ := exists_eigenstate hA i
    exact hi ▸ h ψ hψ

theorem le_ground {B : ℝ} (h : ∀ ψ : State ι, ∑ x, Complex.normSq (ψ x) = 1 → B ≤ (expect A ψ).re) : B ≤ ground hA :=
  le_ciInf fun i => by
    obtain ⟨ψ, hψ, hi⟩ := exists_eigenstate hA i
    exact hi ▸ h ψ hψ

include hA in
/-- An observable with the values 1 and -1. -/
theorem abs_expect_le_one (hsq : A * A = 1) (hψ : ∑ i, Complex.normSq (ψ i) = 1) : |(expect A ψ).re| ≤ 1 := by
  have hsign : ∀ s : ℝ, s * s = 1 → 0 ≤ 1 + s * (expect A ψ).re := by
    intro s hs
    have hsquare : (1 + (s : ℂ) • A)ᴴ * 1 * (1 + (s : ℂ) • A) = 1 + 1 + ((s + s : ℝ) : ℂ) • A := by
      have hss : (s : ℂ) * (s : ℂ) = 1 := by exact_mod_cast hs
      rw [conjTranspose_add, conjTranspose_one, conjTranspose_smul, hA.eq, Complex.star_def, Complex.conj_ofReal,
        Matrix.mul_one, Matrix.add_mul, Matrix.one_mul, Matrix.mul_add, Matrix.mul_one, smul_mul_smul_comm, hsq,
        hss, one_smul, Complex.ofReal_add, add_smul]
      abel
    have hexpect := expect_mulVec 1 (1 + (s : ℂ) • A) ψ
    rw [hsquare, expect_one] at hexpect
    have hlinear : expect (1 + 1 + ((s + s : ℝ) : ℂ) • A) ψ =
        expect 1 ψ + expect 1 ψ + ((s + s : ℝ) : ℂ) * expect A ψ := by
      simp only [expect, add_mulVec, smul_mulVec, dotProduct_add, dotProduct_smul, smul_eq_mul]
    rw [hlinear, expect_one, ← Complex.ofReal_sum, ← Complex.ofReal_sum, hψ] at hexpect
    have hre := congrArg Complex.re hexpect
    rw [Complex.add_re, Complex.re_ofReal_mul, Complex.ofReal_re] at hre
    have hnonneg := Finset.sum_nonneg fun (x : ι → Bool) (_ : x ∈ Finset.univ) =>
      Complex.normSq_nonneg (((1 + (s : ℂ) • A) *ᵥ ψ) x)
    rw [hre] at hnonneg
    simp only [Complex.add_re, Complex.ofReal_one, Complex.one_re] at hnonneg
    linarith
  rw [abs_le]
  constructor
  · linarith [hsign 1 (one_mul 1)]
  · linarith [hsign (-1) (by norm_num)]

end Bounds

end Qubits
