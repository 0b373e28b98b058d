/-
# Operators on qubits

A register of qubits is a finite type `ι`; its basis states are the functions
`ι → Bool`, its states the vectors of complex amplitudes over them, its
operators the matrices. Operators on one qubit (`onQubit`), controlled on
another (`controlled`, `mux`) and the exchange of two qubits (`exchange`) are
all described by what they do to amplitudes (`onQubit_mulVec`, `mux_mulVec`,
`exchange_mulVec`) and compose like the 2x2 matrices they are made of.
-/
import Mathlib

namespace Qubits

open Matrix

variable {ι : Type*} [Fintype ι] [DecidableEq ι]

/-- An operator on one qubit. -/
abbrev Op1 := Matrix Bool Bool ℂ

/-- An operator on the register. -/
abbrev Op (ι : Type*) := Matrix (ι → Bool) (ι → Bool) ℂ

/-- A vector of amplitudes. -/
abbrev State (ι : Type*) := (ι → Bool) → ℂ

/-! ### Tensor products -/

/-- The tensor product of one operator for each qubit. -/
def tensor (A : ι → Op1) : Op ι := of fun x y => ∏ q, A q (x q) (y q)

omit [DecidableEq ι] in
theorem tensor_apply (A : ι → Op1) (x y : ι → Bool) : tensor A x y = ∏ q, A q (x q) (y q) := rfl

/-- Tensor products multiply qubit by qubit. -/
theorem tensor_mul (A B : ι → Op1) : tensor A * tensor B = tensor (A * B) := by
  ext x z
  simp only [mul_apply, tensor_apply, Pi.mul_apply, ← Finset.prod_mul_distrib]
  exact (Fintype.prod_sum fun q b => A q (x q) b * B q b (z q)).symm

omit [DecidableEq ι] in
theorem tensor_one : tensor (1 : ι → Op1) = 1 := by
  ext x y
  simp only [tensor_apply, Pi.one_apply, one_apply, Finset.prod_ite_zero, Finset.mem_univ,
    true_imp_iff, funext_iff, Finset.prod_const_one]

omit [DecidableEq ι] in
theorem tensor_conjTranspose (A : ι → Op1) : (tensor A)ᴴ = tensor fun q => (A q)ᴴ := by
  ext x y
  simp [tensor_apply, conjTranspose_apply]

/-! ### One qubit -/

/-- An operator on qubit `q` and the identity elsewhere. -/
def onQubit (q : ι) (U : Op1) : Op ι := tensor (Function.update 1 q U)

theorem onQubit_apply (q : ι) (U : Op1) (x y : ι → Bool) :
    onQubit q U x y = if Function.update x q (y q) = y then U (x q) (y q) else 0 := by
  have h1 : ∀ r ∈ Finset.univ.erase q,
      (Function.update 1 q U : ι → Op1) r (x r) (y r) = if x r = y r then 1 else 0 := by
    intro r hr
    rw [Function.update_of_ne (Finset.ne_of_mem_erase hr), Pi.one_apply, one_apply]
  have h2 : Function.update x q (y q) = y ↔ ∀ r ∈ Finset.univ.erase q, x r = y r := by
    simp only [Finset.mem_erase, Finset.mem_univ, and_true]
    constructor
    · intro h r hr
      rw [← h, Function.update_of_ne hr]
    · intro h
      funext r
      by_cases hr : r = q
      · rw [hr, Function.update_self]
      · rw [Function.update_of_ne hr, h r hr]
  rw [onQubit, tensor_apply, ← Finset.mul_prod_erase _ _ (Finset.mem_univ q), Function.update_self,
    Finset.prod_congr rfl h1, Finset.prod_ite_zero]
  simp only [h2, Finset.prod_const_one, mul_ite, mul_one, mul_zero]

/-- **The action on one qubit**: the new amplitude of `x` combines those of the
two states that differ from `x` in `q` at most. -/
theorem onQubit_mulVec (q : ι) (U : Op1) (ψ : State ι) (x : ι → Bool) :
    (onQubit q U *ᵥ ψ) x = ∑ b, U (x q) b * ψ (Function.update x q b) := by
  have h : ∀ y : ι → Bool, onQubit q U x y * ψ y =
      ∑ b, if Function.update x q b = y then U (x q) b * ψ y else 0 := by
    intro y
    rw [Finset.sum_eq_single (y q), onQubit_apply]
    · split <;> simp
    · intro b _ hb
      refine if_neg fun he => hb ?_
      rw [← he, Function.update_self]
    · exact fun hc => absurd (Finset.mem_univ _) hc
  rw [mulVec, dotProduct]
  simp only [h]
  rw [Finset.sum_comm]
  simp

theorem onQubit_mul (q : ι) (U V : Op1) : onQubit q U * onQubit q V = onQubit q (U * V) := by
  rw [onQubit, onQubit, onQubit, tensor_mul]
  congr 1
  funext r
  by_cases h : r = q
  · subst h; simp
  · simp [h]

@[simp] theorem onQubit_one (q : ι) : onQubit q 1 = (1 : Op ι) := by
  rw [onQubit, ← tensor_one]
  congr 1
  exact Function.update_eq_self q (1 : ι → Op1)

/-- Operators on different qubits commute. -/
theorem onQubit_comm {q r : ι} (h : q ≠ r) (U V : Op1) :
    onQubit q U * onQubit r V = onQubit r V * onQubit q U := by
  rw [onQubit, onQubit, tensor_mul, tensor_mul]
  congr 1
  funext s
  by_cases hq : s = q
  · subst hq; simp [h]
  · simp [hq]

theorem onQubit_conjTranspose (q : ι) (U : Op1) : (onQubit q U)ᴴ = onQubit q Uᴴ := by
  rw [onQubit, onQubit, tensor_conjTranspose]
  congr 1
  funext r
  by_cases h : r = q
  · subst h; simp
  · simp [h]

/-! ### A qubit that selects -/

/-- `U₁` on qubit `t` where qubit `c` is set, `U₀` where it is clear. -/
def mux (c t : ι) (U₀ U₁ : Op1) : Op ι :=
  of fun x y => if x c then onQubit t U₁ x y else onQubit t U₀ x y

theorem mux_mulVec (c t : ι) (U₀ U₁ : Op1) (ψ : State ι) (x : ι → Bool) :
    (mux c t U₀ U₁ *ᵥ ψ) x =
      if x c then (onQubit t U₁ *ᵥ ψ) x else (onQubit t U₀ *ᵥ ψ) x := by
  simp only [mulVec, dotProduct, mux, of_apply]
  split <;> rfl

theorem mux_self (c t : ι) (U : Op1) : mux c t U U = onQubit t U := by
  ext x y
  simp [mux]

/-- The selecting qubit is not changed. -/
theorem onQubit_apply_eq_zero {c t : ι} (h : c ≠ t) (U : Op1) {x y : ι → Bool} (hxy : x c ≠ y c) :
    onQubit t U x y = 0 := by
  rw [onQubit_apply, if_neg]
  intro he
  apply hxy
  rw [← he, Function.update_of_ne h]

theorem mux_mul {c t : ι} (h : c ≠ t) (U₀ U₁ V₀ V₁ : Op1) :
    mux c t U₀ U₁ * mux c t V₀ V₁ = mux c t (U₀ * V₀) (U₁ * V₁) := by
  ext x z
  have key : ∀ (U : Op1) (y : ι → Bool), onQubit t U x y * mux c t V₀ V₁ y z =
      onQubit t U x y * (if x c then onQubit t V₁ y z else onQubit t V₀ y z) := by
    intro U y
    by_cases hxy : x c = y c
    · rw [mux, of_apply, hxy]
    · rw [onQubit_apply_eq_zero h U hxy, zero_mul, zero_mul]
  simp only [mux, of_apply, ← onQubit_mul]
  rw [mul_apply]
  cases hx : x c
  · simp only [of_apply, hx, Bool.false_eq_true, if_false, mul_apply]
    refine Finset.sum_congr rfl fun y _ => ?_
    simpa [mux, hx] using key U₀ y
  · simp only [of_apply, hx, if_true, mul_apply]
    refine Finset.sum_congr rfl fun y _ => ?_
    simpa [mux, hx] using key U₁ y

/-- `U` on qubit `t` where qubit `c` is set. -/
def controlled (c t : ι) (U : Op1) : Op ι := mux c t 1 U

theorem controlled_mulVec (c t : ι) (U : Op1) (ψ : State ι) (x : ι → Bool) :
    (controlled c t U *ᵥ ψ) x = if x c then (onQubit t U *ᵥ ψ) x else ψ x := by
  rw [controlled, mux_mulVec, onQubit_one, one_mulVec]

theorem mux_conjTranspose {c t : ι} (h : c ≠ t) (U₀ U₁ : Op1) :
    (mux c t U₀ U₁)ᴴ = mux c t U₀ᴴ U₁ᴴ := by
  ext x y
  by_cases hxy : x c = y c
  · simp only [mux, conjTranspose_apply, of_apply, ← onQubit_conjTranspose, hxy]
    split <;> rfl
  · have hzero : ∀ U : Op1, onQubit t U x y = 0 ∧ onQubit t U y x = 0 := fun U =>
      ⟨onQubit_apply_eq_zero h U hxy, onQubit_apply_eq_zero h U (Ne.symm hxy)⟩
    simp [mux, conjTranspose_apply, (hzero _).1, (hzero _).2]

/-! ### The exchange of two qubits -/

/-- The exchange of qubits `a` and `b`. -/
def exchange (a b : ι) : Op ι := of fun x y => if x ∘ Equiv.swap a b = y then 1 else 0

theorem exchange_mulVec (a b : ι) (ψ : State ι) (x : ι → Bool) :
    (exchange a b *ᵥ ψ) x = ψ (x ∘ Equiv.swap a b) := by
  simp [mulVec, dotProduct, exchange]

theorem exchange_conjTranspose (a b : ι) : (exchange a b)ᴴ = exchange a b := by
  ext x y
  have hcomp : y ∘ Equiv.swap a b = x ↔ x ∘ Equiv.swap a b = y := by
    constructor <;> rintro rfl <;> simp [Function.comp_assoc, ← Equiv.coe_trans]
  simp [exchange, conjTranspose_apply, hcomp]

theorem exchange_mul_self (a b : ι) : exchange a b * exchange a b = 1 := by
  refine Matrix.ext_of_mulVec_single fun y => ?_
  rw [← mulVec_mulVec, one_mulVec]
  funext x
  rw [exchange_mulVec, exchange_mulVec, Function.comp_assoc, ← Equiv.coe_trans, Equiv.swap_swap]
  rfl

/-! ### Unitary operators -/

/-- The adjoint undoes the operator. -/
def IsUnitary (U : Op ι) : Prop := Uᴴ * U = 1

theorem isUnitary_one : IsUnitary (1 : Op ι) := by rw [IsUnitary, conjTranspose_one, Matrix.mul_one]

theorem IsUnitary.mul {U V : Op ι} (hU : IsUnitary U) (hV : IsUnitary V) : IsUnitary (U * V) := by
  unfold IsUnitary at *
  rw [conjTranspose_mul, Matrix.mul_assoc, ← Matrix.mul_assoc Uᴴ, hU, Matrix.one_mul, hV]

theorem isUnitary_onQubit (q : ι) {U : Op1} (h : Uᴴ * U = 1) : IsUnitary (onQubit q U) := by
  rw [IsUnitary, onQubit_conjTranspose, onQubit_mul, h, onQubit_one]

theorem isUnitary_controlled {c t : ι} (hct : c ≠ t) {U : Op1} (h : Uᴴ * U = 1) :
    IsUnitary (controlled c t U) := by
  rw [IsUnitary, controlled, mux_conjTranspose hct, mux_mul hct, h, conjTranspose_one, Matrix.mul_one,
    mux_self, onQubit_one]

theorem isUnitary_exchange (a b : ι) : IsUnitary (exchange a b) := by
  rw [IsUnitary, exchange_conjTranspose, exchange_mul_self]

/-! ### Expectation values -/

/-- `⟨ψ| A |ψ⟩`. -/
def expect (A : Op ι) (ψ : State ι) : ℂ := star ψ ⬝ᵥ (A *ᵥ ψ)

/-- Expectations in a transformed state are those of the conjugated operator. -/
theorem expect_mulVec (A U : Op ι) (ψ : State ι) : expect A (U *ᵥ ψ) = expect (Uᴴ * A * U) ψ := by
  simp only [expect, star_mulVec, ← dotProduct_mulVec, mulVec_mulVec, Matrix.mul_assoc]

/-- `∑ |ψ x|²`. -/
theorem expect_one (ψ : State ι) : expect 1 ψ = ∑ x, (Complex.normSq (ψ x) : ℂ) := by
  rw [expect, one_mulVec, dotProduct]
  exact Finset.sum_congr rfl fun x _ => Complex.normSq_eq_conj_mul_self.symm

/-- **A unitary operator keeps the norm.** -/
theorem IsUnitary.sum_normSq {U : Op ι} (h : IsUnitary U) (ψ : State ι) :
    ∑ x, Complex.normSq ((U *ᵥ ψ) x) = ∑ x, Complex.normSq (ψ x) := by
  have hexpect : expect 1 (U *ᵥ ψ) = expect 1 ψ := by
    rw [expect_mulVec, Matrix.mul_one, h]
  rw [expect_one, expect_one] at hexpect
  exact_mod_cast hexpect

/-- The expectation of a Hermitian operator is real. -/
theorem expect_im {A : Op ι} (h : Aᴴ = A) (ψ : State ι) : (expect A ψ).im = 0 := by
  have hs : star (expect A ψ) = expect A ψ := by
    rw [expect, ← star_dotProduct, star_mulVec, h, ← dotProduct_mulVec]
  exact Complex.conj_eq_iff_im.mp hs

end Qubits
