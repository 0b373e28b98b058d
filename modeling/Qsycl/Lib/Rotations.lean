/-
# Rotations

The rotation `exp (-i φ A)` about an operator `A` with `A * A = 1`
(`rotationAbout_eq_exp`). Rotations about one operator add their angles, a change
of basis takes a rotation to one about the transformed operator, and rotations
about commuting operators commute.
-/
import Qsycl.Lib.Paulis

namespace Qubits

open Matrix Complex

section Rotation

variable {m : Type*} [Fintype m] [DecidableEq m]

/-- `cos φ - i sin φ A`. -/
noncomputable def rotationAbout (A : Matrix m m ℂ) (φ : ℝ) : Matrix m m ℂ :=
  (Real.cos φ : ℂ) • 1 - ((Real.sin φ : ℂ) * I) • A

variable {A B : Matrix m m ℂ}

omit [Fintype m] in
@[simp] theorem rotationAbout_zero (A : Matrix m m ℂ) : rotationAbout A 0 = 1 := by
  simp [rotationAbout]

omit [Fintype m] in
theorem rotationAbout_neg (A : Matrix m m ℂ) (φ : ℝ) : rotationAbout (-A) φ = rotationAbout A (-φ) := by
  simp [rotationAbout]

/-- Angles add. -/
theorem rotationAbout_mul (hA : A * A = 1) (a b : ℝ) :
    rotationAbout A a * rotationAbout A b = rotationAbout A (a + b) := by
  have key : ∀ p q r s : ℂ, (p • (1 : Matrix m m ℂ) - q • A) * (r • 1 - s • A) =
      (p * r + q * s) • 1 - (q * r + p * s) • A := by
    intro p q r s
    rw [sub_mul, mul_sub, mul_sub, smul_mul_smul_comm, smul_mul_smul_comm, smul_mul_smul_comm,
      smul_mul_smul_comm, hA, Matrix.one_mul, Matrix.one_mul, Matrix.mul_one, add_smul, add_smul]
    abel
  rw [rotationAbout, rotationAbout, key, rotationAbout, Real.cos_add, Real.sin_add]
  congr 2
  · linear_combination ((Real.sin a : ℂ) * Real.sin b) * I_mul_I +
      (by push_cast; ring : (Real.cos a * Real.cos b : ℂ) - Real.sin a * Real.sin b =
        ((Real.cos a * Real.cos b - Real.sin a * Real.sin b : ℝ) : ℂ))
  · push_cast
    ring

theorem rotationAbout_mul_neg (hA : A * A = 1) (φ : ℝ) : rotationAbout A φ * rotationAbout A (-φ) = 1 := by
  rw [rotationAbout_mul hA, add_neg_cancel, rotationAbout_zero]

/-- A change of basis. -/
theorem rotationAbout_conj {U V : Matrix m m ℂ} (h : U * V = 1) (A : Matrix m m ℂ) (φ : ℝ) :
    U * rotationAbout A φ * V = rotationAbout (U * A * V) φ := by
  simp only [rotationAbout, mul_sub, sub_mul, mul_smul_comm, smul_mul_assoc, Matrix.mul_one, h]

omit [Fintype m] in
theorem rotationAbout_conjTranspose (hA : Aᴴ = A) (φ : ℝ) :
    (rotationAbout A φ)ᴴ = rotationAbout A (-φ) := by
  rw [rotationAbout, conjTranspose_sub, conjTranspose_smul, conjTranspose_smul, conjTranspose_one, hA,
    rotationAbout, Real.cos_neg, Real.sin_neg]
  congr 1
  · simp [-ofReal_cos]
  · simp [-ofReal_sin]

/-- **A rotation is an exponential.** -/
theorem rotationAbout_eq_exp (hA : A * A = 1) (φ : ℝ) :
    rotationAbout A φ = NormedSpace.exp ((-(φ : ℂ) * I) • A) := by
  have heven : ∀ k : ℕ, ((2 * k).factorial⁻¹ : ℂ) • ((-(φ : ℂ) * I) • A) ^ (2 * k) =
      ((-(φ : ℂ) * I) ^ (2 * k) / (2 * k).factorial) • 1 := by
    intro k
    rw [smul_pow, pow_mul A, pow_two, hA, one_pow, smul_smul, div_eq_inv_mul]
  have hodd : ∀ k : ℕ, ((2 * k + 1).factorial⁻¹ : ℂ) • ((-(φ : ℂ) * I) • A) ^ (2 * k + 1) =
      (I * ((-(φ : ℂ) * I) ^ (2 * k + 1) / (2 * k + 1).factorial / I)) • A := by
    intro k
    rw [smul_pow, pow_succ A, pow_mul A, pow_two, hA, one_pow, Matrix.one_mul, smul_smul,
      mul_div_cancel₀ _ I_ne_zero, div_eq_inv_mul]
  have hcos := (Complex.hasSum_cos' (-(φ : ℂ))).smul_const (1 : Matrix m m ℂ)
  have hsin := ((Complex.hasSum_sin' (-(φ : ℂ))).mul_left I).smul_const A
  have hsum := HasSum.even_add_odd (f := fun k => (k.factorial⁻¹ : ℂ) • ((-(φ : ℂ) * I) • A) ^ k)
    (by simpa only [heven] using hcos) (by simpa only [hodd] using hsin)
  rw [NormedSpace.exp_eq_tsum ℂ]
  beta_reduce
  rw [hsum.tsum_eq, rotationAbout, sub_eq_add_neg, ← neg_smul]
  congr 2
  · simp
  · simp [mul_comm]

end Rotation

/-! ### Rotations of one qubit -/

variable {ι : Type*} [Fintype ι] [DecidableEq ι]

theorem onQubit_smul (q : ι) (k : ℂ) (U : Op1) : onQubit q (k • U) = k • onQubit q U := by
  ext x y
  simp [onQubit_apply]

theorem onQubit_sub (q : ι) (U V : Op1) : onQubit q (U - V) = onQubit q U - onQubit q V := by
  ext x y
  simp only [onQubit_apply, Matrix.sub_apply]
  split <;> simp

theorem onQubit_rotationAbout (q : ι) (U : Op1) (φ : ℝ) :
    onQubit q (rotationAbout U φ) = rotationAbout (onQubit q U) φ := by
  rw [rotationAbout, onQubit_sub, onQubit_smul, onQubit_smul, onQubit_one, rotationAbout]

theorem neg_mat2 (a b c d : ℂ) : -mat2 a b c d = mat2 (-a) (-b) (-c) (-d) := by
  rw [← neg_one_smul ℂ, smul_mat2]
  simp only [neg_one_mul]

theorem sub_mat2 (a b c d a' b' c' d' : ℂ) :
    mat2 a b c d - mat2 a' b' c' d' = mat2 (a - a') (b - b') (c - c') (d - d') := by
  ext r s
  cases r <;> cases s <;> rfl

namespace Pauli

theorem op_mul_self (p : Pauli) : p.op * p.op = 1 := by
  cases p <;> simp [op, mat2_mul, ← mat2_one]

/-- A rotation about one Pauli matrix is turned back by another. -/
theorem conj_rotationAbout {p r : Pauli} (h : p.op * r.op * p.op = -r.op) (φ : ℝ) :
    p.op * rotationAbout r.op φ * p.op = rotationAbout r.op (-φ) := by
  rw [rotationAbout_conj p.op_mul_self, h, rotationAbout_neg]

theorem X_conj_Z : X.op * Z.op * X.op = -Z.op := by
  simp [op, mat2_mul, neg_mat2]

theorem X_conj_Y : X.op * Y.op * X.op = -Y.op := by
  simp [op, mat2_mul, neg_mat2]

end Pauli

end Qubits
