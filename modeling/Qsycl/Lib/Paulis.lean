/-
# Pauli strings

The four Pauli matrices and their tensor products. A string is Hermitian, and
it sends basis state `y` to the one flipped at its X and Y factors, with one
factor `i` for each Y and one sign for each set bit of `y` under a Z or a Y
(`pauliString_apply`, `expect_pauliString`).
-/
import Qsycl.Lib.Qubits

namespace Qubits

open Matrix Complex

/-- The operator with rows `a b` and `c d`. -/
def mat2 (a b c d : ℂ) : Op1 := of fun
  | false, false => a
  | false, true => b
  | true, false => c
  | true, true => d

theorem mat2_mul (a b c d a' b' c' d' : ℂ) : mat2 a b c d * mat2 a' b' c' d' =
    mat2 (a * a' + b * c') (a * b' + b * d') (c * a' + d * c') (c * b' + d * d') := by
  ext r s
  cases r <;> cases s <;> simp [mat2, mul_apply, add_comm]

theorem smul_mat2 (k a b c d : ℂ) : k • mat2 a b c d = mat2 (k * a) (k * b) (k * c) (k * d) := by
  ext r s
  cases r <;> cases s <;> simp [mat2]

theorem mat2_one : mat2 1 0 0 1 = 1 := by
  ext r s
  cases r <;> cases s <;> simp [mat2]

theorem mat2_conjTranspose (a b c d : ℂ) : (mat2 a b c d)ᴴ = mat2 (star a) (star c) (star b) (star d) := by
  ext r s
  cases r <;> cases s <;> simp [mat2, conjTranspose_apply]

/-! ### One factor -/

inductive Pauli
  | I | X | Y | Z
  deriving DecidableEq, Repr

namespace Pauli

/-- The Pauli matrices. -/
def op : Pauli → Op1
  | I => mat2 1 0 0 1
  | X => mat2 0 1 1 0
  | Y => mat2 0 (-Complex.I) Complex.I 0
  | Z => mat2 1 0 0 (-1)

/-- Whether the factor flips its qubit. -/
def flips : Pauli → Bool
  | I | Z => false
  | X | Y => true

/-- Whether the factor changes the sign where its qubit is set. -/
def signs : Pauli → Bool
  | I | X => false
  | Y | Z => true

/-- 1 for Y. -/
def ny (p : Pauli) : ℕ := (p.flips && p.signs).toNat

/-- The factor that flips if `x` and changes signs if `z`. -/
def ofBits : Bool → Bool → Pauli
  | false, false => I
  | true, false => X
  | true, true => Y
  | false, true => Z

@[simp] theorem ofBits_flips_signs (p : Pauli) : ofBits p.flips p.signs = p := by cases p <;> rfl

@[simp] theorem flips_ofBits (x z : Bool) : (ofBits x z).flips = x := by cases x <;> cases z <;> rfl

@[simp] theorem signs_ofBits (x z : Bool) : (ofBits x z).signs = z := by cases x <;> cases z <;> rfl

theorem op_I : I.op = 1 := mat2_one

theorem op_apply (p : Pauli) (r c : Bool) : p.op r c =
    if (c ^^ p.flips) = r then Complex.I ^ p.ny * (-1) ^ (c && p.signs).toNat else 0 := by
  cases p <;> cases r <;> cases c <;> simp [op, mat2, flips, signs, ny]

theorem op_conjTranspose (p : Pauli) : (p.op)ᴴ = p.op := by
  ext r c
  cases p <;> cases r <;> cases c <;> simp [op, mat2, conjTranspose_apply]

end Pauli

/-! ### Strings -/

variable {ι : Type*} [Fintype ι] [DecidableEq ι]

/-- The tensor product of one factor for each qubit. -/
def pauliString (P : ι → Pauli) : Op ι := tensor fun q => (P q).op

omit [DecidableEq ι] in
theorem pauliString_conjTranspose (P : ι → Pauli) : (pauliString P)ᴴ = pauliString P := by
  simp only [pauliString, tensor_conjTranspose, Pauli.op_conjTranspose]

/-- `y` with the qubits of the X and Y factors flipped. -/
def flipped (P : ι → Pauli) (y : ι → Bool) : ι → Bool := fun q => y q ^^ (P q).flips

/-- The number of set bits of `y` under a Z or Y factor. -/
def signCount (P : ι → Pauli) (y : ι → Bool) : ℕ := ∑ q, (y q && (P q).signs).toNat

/-- The number of Y factors. -/
def numY (P : ι → Pauli) : ℕ := ∑ q, (P q).ny

omit [DecidableEq ι] in
theorem pauliString_apply (P : ι → Pauli) (x y : ι → Bool) : pauliString P x y =
    if flipped P y = x then Complex.I ^ numY P * (-1) ^ signCount P y else 0 := by
  simp only [pauliString, tensor_apply, Pauli.op_apply, Finset.prod_ite_zero, Finset.mem_univ,
    true_imp_iff, Finset.prod_mul_distrib, Finset.prod_pow_eq_pow_sum, funext_iff, flipped, numY,
    signCount]

/-- **The expectation of a Pauli string** is a signed sum of products of two
amplitudes, turned by a power of `i`. -/
theorem expect_pauliString (P : ι → Pauli) (ψ : State ι) : expect (pauliString P) ψ =
    Complex.I ^ numY P * ∑ y, (-1) ^ signCount P y * (star (ψ (flipped P y)) * ψ y) := by
  have h : ∀ x, star ψ x * (pauliString P *ᵥ ψ) x = ∑ y, if flipped P y = x then
      star (ψ x) * (Complex.I ^ numY P * (-1) ^ signCount P y * ψ y) else 0 := by
    intro x
    rw [mulVec, dotProduct, Finset.mul_sum]
    refine Finset.sum_congr rfl fun y _ => ?_
    rw [pauliString_apply]
    split <;> simp
  rw [expect, dotProduct, Finset.sum_congr rfl fun x _ => h x, Finset.sum_comm, Finset.mul_sum]
  refine Finset.sum_congr rfl fun y _ => ?_
  rw [Finset.sum_ite_eq, if_pos (Finset.mem_univ _)]
  ring

/-- The expectation of a Pauli string is real. -/
theorem expect_pauliString_im (P : ι → Pauli) (ψ : State ι) : (expect (pauliString P) ψ).im = 0 :=
  expect_im (pauliString_conjTranspose P) ψ

end Qubits
