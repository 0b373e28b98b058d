/-
# Identities of the gate matrices

The matrices of `gates.hpp` as operators on one qubit, and the identities
between them that the basis changes of the shot path and the translations to
other gate sets rely on.
-/
import Qsycl.Simulation
import Qsycl.Lib.Rotations

namespace Qsycl

open Qubits Matrix

theorem toOp_vec (a b c d : ℂ) : Matrix2x2.toOp ![a, b, c, d] = mat2 a b c d := by
  ext r s
  cases r <;> cases s <;> rfl

namespace Gates

/-! ### The matrices -/

theorem toOp_X : X.toOp = Pauli.X.op := by
  rw [X, toOp_vec]
  congr 1

theorem toOp_Y : Y.toOp = Pauli.Y.op := by
  rw [Y, toOp_vec, Pauli.op]
  congr 1
  apply Complex.ext <;> simp

theorem toOp_Z : Z.toOp = Pauli.Z.op := by
  rw [Z, toOp_vec, Pauli.op]
  congr 1
  apply Complex.ext <;> simp

theorem toOp_S : S.toOp = mat2 1 0 0 Complex.I := by
  rw [S, toOp_vec]
  rfl

theorem toOp_Sdg : Sdg.toOp = mat2 1 0 0 (-Complex.I) := by
  rw [Sdg, toOp_vec]
  congr 1
  apply Complex.ext <;> simp

theorem toOp_H : H.toOp = ((1 / √2 : ℝ) : ℂ) • mat2 1 1 1 (-1) := by
  simp only [H]
  generalize 1 / √2 = s
  rw [toOp_vec, smul_mat2]
  congr 1 <;> apply Complex.ext <;> simp

/-- A rotation gate turns about its axis by half its angle. -/
theorem toOp_RX (theta : ℝ) : (RX theta).toOp = rotationAbout Pauli.X.op (half theta) := by
  simp only [RX]
  rw [toOp_vec, rotationAbout, Pauli.op, ← mat2_one, smul_mat2, smul_mat2, sub_mat2]
  congr 1 <;> apply Complex.ext <;> simp [-Complex.ofReal_cos, -Complex.ofReal_sin]

theorem toOp_RY (theta : ℝ) : (RY theta).toOp = rotationAbout Pauli.Y.op (half theta) := by
  simp only [RY]
  rw [toOp_vec, rotationAbout, Pauli.op, ← mat2_one, smul_mat2, smul_mat2, sub_mat2]
  congr 1 <;> apply Complex.ext <;> simp [-Complex.ofReal_cos, -Complex.ofReal_sin]

theorem toOp_RZ (theta : ℝ) : (RZ theta).toOp = rotationAbout Pauli.Z.op (half theta) := by
  simp only [RZ]
  rw [toOp_vec, rotationAbout, Pauli.op, ← mat2_one, smul_mat2, smul_mat2, sub_mat2]
  congr 1 <;> apply Complex.ext <;> simp [-Complex.ofReal_cos, -Complex.ofReal_sin]

/-! ### Changes of basis -/

theorem sq_sqrt_half : (((1 / √2 : ℝ) : ℂ)) * ((1 / √2 : ℝ) : ℂ) = 1 / 2 := by
  rw [← Complex.ofReal_mul, div_mul_div_comm, one_mul, Real.mul_self_sqrt (by norm_num)]
  norm_num

theorem H_conjTranspose : (H.toOp)ᴴ = H.toOp := by
  rw [toOp_H, smul_mat2, mat2_conjTranspose]
  simp

theorem H_mul_H : H.toOp * H.toOp = 1 := by
  rw [toOp_H, smul_mul_smul_comm, mat2_mul, sq_sqrt_half, smul_mat2, ← mat2_one]
  congr 1 <;> norm_num

/-- H turns Z into X. -/
theorem H_conj_Z : (H.toOp)ᴴ * Pauli.Z.op * H.toOp = Pauli.X.op := by
  simp only [Pauli.op]
  rw [H_conjTranspose, toOp_H, smul_mul_assoc, smul_mul_smul_comm, mat2_mul, mat2_mul, sq_sqrt_half,
    smul_mat2]
  congr 1 <;> norm_num

/-- H Sdg turns Z into Y. -/
theorem HSdg_conj_Z : (H.toOp * Sdg.toOp)ᴴ * Pauli.Z.op * (H.toOp * Sdg.toOp) = Pauli.Y.op := by
  have h : (H.toOp * Sdg.toOp)ᴴ * Pauli.Z.op * (H.toOp * Sdg.toOp) =
      (Sdg.toOp)ᴴ * ((H.toOp)ᴴ * Pauli.Z.op * H.toOp) * Sdg.toOp := by
    simp only [conjTranspose_mul, Matrix.mul_assoc]
  rw [h, H_conj_Z, toOp_Sdg, mat2_conjTranspose]
  simp [Pauli.op, mat2_mul]

theorem H_unitary : (H.toOp)ᴴ * H.toOp = 1 := by rw [H_conjTranspose, H_mul_H]

theorem HSdg_unitary : (H.toOp * Sdg.toOp)ᴴ * (H.toOp * Sdg.toOp) = 1 := by
  have h : (H.toOp * Sdg.toOp)ᴴ * (H.toOp * Sdg.toOp) = (Sdg.toOp)ᴴ * ((H.toOp)ᴴ * H.toOp) * Sdg.toOp := by
    simp only [conjTranspose_mul, Matrix.mul_assoc]
  rw [h, H_unitary, Matrix.mul_one, toOp_Sdg, mat2_conjTranspose, mat2_mul, ← mat2_one]
  simp

/-! ### The gates are unitary -/

/-- A turn about a Hermitian axis. -/
theorem rotation_unitary (p : Pauli) (φ : ℝ) : (rotationAbout p.op φ)ᴴ * rotationAbout p.op φ = 1 := by
  rw [rotationAbout_conjTranspose p.op_conjTranspose]
  have h := rotationAbout_mul_neg p.op_mul_self (-φ)
  rwa [neg_neg] at h

theorem pauli_unitary (p : Pauli) : (p.op)ᴴ * p.op = 1 := by rw [p.op_conjTranspose, p.op_mul_self]

theorem X_unitary : (X.toOp)ᴴ * X.toOp = 1 := by rw [toOp_X, pauli_unitary]

theorem Y_unitary : (Y.toOp)ᴴ * Y.toOp = 1 := by rw [toOp_Y, pauli_unitary]

theorem Z_unitary : (Z.toOp)ᴴ * Z.toOp = 1 := by rw [toOp_Z, pauli_unitary]

theorem RX_unitary (theta : ℝ) : ((RX theta).toOp)ᴴ * (RX theta).toOp = 1 := by
  rw [toOp_RX, rotation_unitary]

theorem RY_unitary (theta : ℝ) : ((RY theta).toOp)ᴴ * (RY theta).toOp = 1 := by
  rw [toOp_RY, rotation_unitary]

theorem RZ_unitary (theta : ℝ) : ((RZ theta).toOp)ᴴ * (RZ theta).toOp = 1 := by
  rw [toOp_RZ, rotation_unitary]

/-- A phase on the state 1. -/
theorem phase_unitary {w : ℂ} (hw : star w * w = 1) : (mat2 1 0 0 w)ᴴ * mat2 1 0 0 w = 1 := by
  rw [mat2_conjTranspose, mat2_mul, ← mat2_one]
  simp only [star_one, star_zero, mul_one, mul_zero, zero_mul, add_zero, zero_add, hw]

/-- `e^{iφ}`. -/
theorem star_phase_mul (φ : ℝ) : star (⟨Real.cos φ, Real.sin φ⟩ : ℂ) * ⟨Real.cos φ, Real.sin φ⟩ = 1 := by
  apply Complex.ext
  · simp only [Complex.star_def, Complex.mul_re, Complex.conj_re, Complex.conj_im, Complex.one_re]
    nlinarith [Real.sin_sq_add_cos_sq φ]
  · simp only [Complex.star_def, Complex.mul_im, Complex.conj_re, Complex.conj_im, Complex.one_im]
    ring

theorem S_unitary : (S.toOp)ᴴ * S.toOp = 1 := by
  rw [toOp_S]
  exact phase_unitary (by simp)

theorem Sdg_unitary : (Sdg.toOp)ᴴ * Sdg.toOp = 1 := by
  rw [toOp_Sdg]
  exact phase_unitary (by simp)

theorem T_unitary : (T.toOp)ᴴ * T.toOp = 1 := by
  rw [T, toOp_vec]
  exact phase_unitary (star_phase_mul _)

theorem Tdg_unitary : (Tdg.toOp)ᴴ * Tdg.toOp = 1 := by
  rw [Tdg, toOp_vec]
  exact phase_unitary (star_phase_mul _)

/-- The phase of the sum of two angles. -/
theorem phase_add (φ ψ : ℝ) : (⟨Real.cos (φ + ψ), Real.sin (φ + ψ)⟩ : ℂ) =
    ⟨Real.cos φ, Real.sin φ⟩ * ⟨Real.cos ψ, Real.sin ψ⟩ := by
  apply Complex.ext
  · rw [Complex.mul_re, Real.cos_add]
  · rw [Complex.mul_im, Real.sin_add]
    ring

/-- A real turn between two phases. -/
theorem turn_unitary {c s p l : ℂ} (hc : star c = c) (hs : star s = s) (h : c * c + s * s = 1)
    (hp : star p * p = 1) (hl : star l * l = 1) :
    (mat2 c (-s * l) (s * p) (c * (p * l)))ᴴ * mat2 c (-s * l) (s * p) (c * (p * l)) = 1 := by
  rw [mat2_conjTranspose, mat2_mul, ← mat2_one]
  simp only [star_mul, star_neg, hc, hs]
  congr 1
  · linear_combination h + s * s * hp
  · linear_combination c * s * l * hp
  · linear_combination c * s * star l * hp
  · linear_combination h + s * s * hl + c * c * (star l * l * hp + hl)

theorem U_unitary (theta phi lambda : ℝ) : ((U theta phi lambda).toOp)ᴴ * (U theta phi lambda).toOp = 1 := by
  have hneg : (⟨-Real.sin (half theta), 0⟩ : ℂ) = -⟨Real.sin (half theta), 0⟩ := by
    apply Complex.ext <;> simp [-Complex.ofReal_sin]
  have hreal : ∀ x : ℝ, star (⟨x, 0⟩ : ℂ) = ⟨x, 0⟩ := fun x => by apply Complex.ext <;> simp
  have hone : (⟨Real.cos (half theta), 0⟩ : ℂ) * ⟨Real.cos (half theta), 0⟩ +
      ⟨Real.sin (half theta), 0⟩ * ⟨Real.sin (half theta), 0⟩ = 1 := by
    have hsq := Real.cos_sq_add_sin_sq (half theta)
    apply Complex.ext
    · simp only [Complex.add_re, Complex.mul_re, Complex.one_re]
      linarith [hsq]
    · simp
  simp only [U]
  rw [toOp_vec, phase_add, hneg]
  exact turn_unitary (hreal _) (hreal _) hone (star_phase_mul _) (star_phase_mul _)

end Gates

/-! ### The operators of gate calls -/

theorem GateCall.kernel_unitary (g : GateCall ℝ) : match g.kernel with
    | .single _ m | .controlled _ _ m => (m.toOp)ᴴ * m.toOp = 1
    | .swap _ _ => True := by
  cases g with
  | h => exact Gates.H_unitary
  | x | cnot => exact Gates.X_unitary
  | y => exact Gates.Y_unitary
  | z | cz => exact Gates.Z_unitary
  | s => exact Gates.S_unitary
  | sdg => exact Gates.Sdg_unitary
  | t => exact Gates.T_unitary
  | tdg => exact Gates.Tdg_unitary
  | u => exact Gates.U_unitary _ _ _
  | rx | crx => exact Gates.RX_unitary _
  | ry | cry => exact Gates.RY_unitary _
  | rz | crz => exact Gates.RZ_unitary _
  | swap => trivial

/-- **A gate call that fits is unitary.** -/
theorem GateCall.Fits.isUnitary {n P : ℕ} {g : GateCall ℝ} (h : g.Fits n P) : IsUnitary (g.operator n) := by
  have hk := h.kernel
  have hu := g.kernel_unitary
  rw [GateCall.operator]
  cases hg : g.kernel with
  | single q m =>
    rw [hg] at hk hu
    obtain ⟨q, rfl⟩ : ∃ i : Fin n, q = i := ⟨⟨q, hk⟩, rfl⟩
    rw [Kernel.operator_single]
    exact isUnitary_onQubit q hu
  | controlled c t m =>
    rw [hg] at hk hu
    obtain ⟨hc, ht, hct⟩ := hk
    obtain ⟨c, rfl⟩ : ∃ i : Fin n, c = i := ⟨⟨c, hc⟩, rfl⟩
    obtain ⟨t, rfl⟩ : ∃ i : Fin n, t = i := ⟨⟨t, ht⟩, rfl⟩
    rw [Kernel.operator_controlled]
    exact isUnitary_controlled (fun heq => hct (congrArg Fin.val heq)) hu
  | swap a b =>
    rw [hg] at hk
    obtain ⟨ha, hb, -⟩ := hk
    obtain ⟨a, rfl⟩ : ∃ i : Fin n, a = i := ⟨⟨a, ha⟩, rfl⟩
    obtain ⟨b, rfl⟩ : ∃ i : Fin n, b = i := ⟨⟨b, hb⟩, rfl⟩
    rw [Kernel.operator_swap]
    exact isUnitary_exchange a b

theorem isUnitary_circuitOperator {n P : ℕ} : ∀ {calls : List (GateCall ℝ)}, (∀ g ∈ calls, g.Fits n P) →
    IsUnitary (circuitOperator n calls)
  | [], _ => isUnitary_one
  | g :: _, h =>
    (isUnitary_circuitOperator fun g' hg' => h g' (List.mem_cons_of_mem _ hg')).mul
      (h g List.mem_cons_self).isUnitary

end Qsycl
