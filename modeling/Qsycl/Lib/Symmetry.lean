/-
# Symmetries of the basis states

Exchanging the qubits and flipping some of them permutes the basis states
(`relabel`). The permutation commutes with the sum of the X of all qubits, with
every diagonal that it leaves invariant, and so with their exponentials; an
operator that commutes with it keeps the states whose amplitudes it leaves
invariant (`mulVec_invariant`).
-/
import Qsycl.Lib.Paulis

namespace Qubits

open Matrix

variable {ι : Type*} [Fintype ι] [DecidableEq ι]

/-- Qubit `q` takes the value of qubit `e q`, flipped where `s` says so. -/
def relabel (e : Equiv.Perm ι) (s : ι → Bool) : Equiv.Perm (ι → Bool) where
  toFun x q := x (e q) ^^ s q
  invFun y r := y (e.symm r) ^^ s (e.symm r)
  left_inv x := by
    funext r
    simp
  right_inv y := by
    funext q
    simp

omit [Fintype ι] [DecidableEq ι] in
theorem relabel_apply (e : Equiv.Perm ι) (s : ι → Bool) (x : ι → Bool) (q : ι) :
    relabel e s x q = (x (e q) ^^ s q) := rfl

omit [Fintype ι] in
/-- A relabelling takes a flip of qubit `q` to a flip of the qubit that takes its value. -/
theorem relabel_flip (e : Equiv.Perm ι) (s : ι → Bool) (x : ι → Bool) (q : ι) :
    relabel e s (Function.update x q (!x q)) =
      Function.update (relabel e s x) (e.symm q) (!relabel e s x (e.symm q)) := by
  funext r
  rw [relabel_apply]
  by_cases h : e r = q
  · subst h
    rw [Function.update_self, Equiv.symm_apply_apply, Function.update_self, relabel_apply, Bool.not_xor]
  · have hr : r ≠ e.symm q := fun he => h ((Equiv.eq_symm_apply e).mp he)
    rw [Function.update_of_ne h, Function.update_of_ne hr, relabel_apply]

/-! ### What commutes with a permutation of the basis states -/

section Permutations

variable {σ : Equiv.Perm (ι → Bool)}

theorem commute_permMatrix_iff {A : Op ι} : Commute (σ.permMatrix ℂ) A ↔
    ∀ (ψ : State ι) (x : ι → Bool), (A *ᵥ ψ) (σ x) = (A *ᵥ (ψ ∘ σ)) x := by
  rw [Commute, SemiconjBy, Matrix.ext_iff_mulVec]
  refine forall_congr' fun ψ => ?_
  rw [← mulVec_mulVec, ← mulVec_mulVec, permMatrix_mulVec, permMatrix_mulVec]
  exact funext_iff

theorem commute_permMatrix_diagonal {d : (ι → Bool) → ℂ} (h : ∀ x, d (σ x) = d x) :
    Commute (σ.permMatrix ℂ) (diagonal d) := by
  rw [commute_permMatrix_iff]
  intro ψ x
  rw [mulVec_diagonal, mulVec_diagonal, h, Function.comp_apply]

/-- An operator that commutes with a permutation keeps the states it leaves invariant. -/
theorem mulVec_invariant {A : Op ι} (hA : Commute (σ.permMatrix ℂ) A) {ψ : State ι}
    (hψ : ∀ x, ψ (σ x) = ψ x) (x : ι → Bool) : (A *ᵥ ψ) (σ x) = (A *ᵥ ψ) x := by
  have h : ψ ∘ σ = ψ := funext hψ
  rw [commute_permMatrix_iff.mp hA, h]

/-- Of a real function of the basis states that the permutation turns into its negative
the average over an invariant state is 0. -/
theorem sum_normSq_eq_zero {d : (ι → Bool) → ℝ} (hd : ∀ x, d (σ x) = -d x) {ψ : State ι}
    (hψ : ∀ x, ψ (σ x) = ψ x) : ∑ x, Complex.normSq (ψ x) * d x = 0 := by
  have h : ∑ x, Complex.normSq (ψ x) * d x = -∑ x, Complex.normSq (ψ x) * d x :=
    calc ∑ x, Complex.normSq (ψ x) * d x = ∑ x, Complex.normSq (ψ (σ x)) * d (σ x) :=
          (Equiv.sum_comp σ fun x => Complex.normSq (ψ x) * d x).symm
      _ = ∑ x, -(Complex.normSq (ψ x) * d x) :=
          Finset.sum_congr rfl fun x _ => by rw [hψ, hd, mul_neg]
      _ = -∑ x, Complex.normSq (ψ x) * d x := Finset.sum_neg_distrib _
  linarith

end Permutations

/-! ### The sum of the X of all qubits -/

theorem onQubit_X_mulVec (q : ι) (ψ : State ι) (x : ι → Bool) :
    (onQubit q Pauli.X.op *ᵥ ψ) x = ψ (Function.update x q (!x q)) := by
  rw [onQubit_mulVec, Fintype.sum_bool]
  cases x q <;> simp [Pauli.op, mat2]

theorem commute_relabel_sum_X (e : Equiv.Perm ι) (s : ι → Bool) :
    Commute ((relabel e s).permMatrix ℂ) (∑ q, onQubit q Pauli.X.op) := by
  rw [commute_permMatrix_iff]
  intro ψ x
  rw [sum_mulVec, sum_mulVec, Finset.sum_apply, Finset.sum_apply]
  refine (Equiv.sum_comp e.symm _).symm.trans (Finset.sum_congr rfl fun q _ => ?_)
  rw [onQubit_X_mulVec, onQubit_X_mulVec, Function.comp_apply, relabel_flip]

end Qubits
