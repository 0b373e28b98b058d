/-
# Exponentials of commuting operators

Products of Z on several qubits (`zString`) are diagonal. A controlled not
moves the sign of its control onto its target (`controlled_conj_zString`),
which is how a circuit rotates about a Z string. The exponential of a sum of
commuting operators is the product of their exponentials
(`exp_sum_eqPhase`), here up to a scalar of absolute value 1 (`EqPhase`).
-/
import Qsycl.Lib.Rotations

namespace Qubits

open Matrix

variable {ι : Type*} [Fintype ι] [DecidableEq ι]

/-! ### Equality up to a phase -/

/-- Equal up to a scalar of absolute value 1. -/
def EqPhase (A B : Op ι) : Prop := ∃ ω : ℂ, ‖ω‖ = 1 ∧ A = ω • B

omit [Fintype ι] [DecidableEq ι] in
theorem EqPhase.refl (A : Op ι) : EqPhase A A := ⟨1, norm_one, (one_smul ℂ A).symm⟩

theorem EqPhase.mul {A B C D : Op ι} (h : EqPhase A B) (h' : EqPhase C D) : EqPhase (A * C) (B * D) := by
  obtain ⟨ω, hω, rfl⟩ := h
  obtain ⟨ω', hω', rfl⟩ := h'
  exact ⟨ω * ω', by rw [norm_mul, hω, hω', one_mul], smul_mul_smul_comm ω B ω' D⟩

/-! ### Z strings -/

/-- The sign of `x` under a Z on each qubit of `qs`. -/
def zSign (qs : List ι) (x : ι → Bool) : ℂ := (qs.map fun q => if x q then -1 else 1).prod

/-- A Z on each qubit of `qs`. -/
def zString (qs : List ι) : Op ι := diagonal (zSign qs)

omit [Fintype ι] [DecidableEq ι] in
theorem zSign_mul_self (qs : List ι) (x : ι → Bool) : zSign qs x * zSign qs x = 1 := by
  induction qs with
  | nil => simp [zSign]
  | cons q qs ih =>
    rw [zSign, List.map_cons, List.prod_cons, mul_mul_mul_comm, ← zSign, ih, mul_one]
    split <;> norm_num

theorem zString_mul_self (qs : List ι) : zString qs * zString qs = 1 := by
  simp only [zString, diagonal_mul_diagonal, zSign_mul_self, diagonal_one]

theorem onQubit_Z (q : ι) : onQubit q Pauli.Z.op = zString [q] := by
  ext x y
  rw [onQubit_apply, zString, diagonal_apply]
  by_cases h : x = y
  · subst h
    cases hq : x q <;> simp [zSign, hq, Pauli.op, mat2]
  · rw [if_neg h]
    split
    · rename_i hu
      have hq : x q ≠ y q := fun he => h (by rw [← hu, ← he, Function.update_eq_self])
      cases hx : x q <;> cases hy : y q <;> simp_all [Pauli.op, mat2]
    · rfl

omit [DecidableEq ι] in
/-- A string of I and Z is diagonal. -/
theorem pauliString_eq_diagonal {P : ι → Pauli} (hP : ∀ q, (P q).flips = false) :
    pauliString P = diagonal fun y => (-1) ^ signCount P y := by
  have hflip : ∀ y, flipped P y = y := fun y => by
    funext q
    rw [flipped, hP, Bool.xor_false]
  have hny : numY P = 0 := Finset.sum_eq_zero fun q _ => by simp [Pauli.ny, hP]
  ext x y
  rw [pauliString_apply, hflip, hny, pow_zero, one_mul, diagonal_apply]
  by_cases h : x = y
  · rw [if_pos h.symm, if_pos h, h]
  · rw [if_neg h, if_neg (Ne.symm h)]

/-- A string of I and Z is the Z string of its Z factors. -/
theorem pauliString_eq_zString {P : ι → Pauli} (hP : ∀ q, (P q).flips = false) {qs : List ι}
    (hnd : qs.Nodup) (hqs : ∀ q, q ∈ qs ↔ (P q).signs = true) : pauliString P = zString qs := by
  rw [pauliString_eq_diagonal hP, zString]
  congr 1
  funext y
  rw [zSign, ← List.prod_toFinset _ hnd, signCount, ← Finset.prod_pow_eq_pow_sum,
    ← Finset.prod_subset (Finset.subset_univ qs.toFinset)]
  · refine Finset.prod_congr rfl fun q hq => ?_
    rw [(hqs q).mp (List.mem_toFinset.mp hq)]
    cases y q <;> simp
  · intro q _ hq
    have hs : (P q).signs = false := by
      rwa [List.mem_toFinset, hqs, Bool.not_eq_true] at hq
    simp [hs]

/-! ### Fan-in -/

/-- The basis state that a controlled not makes of `x`. -/
def flipIf (c t : ι) (x : ι → Bool) : ι → Bool := if x c then Function.update x t (!x t) else x

theorem controlled_X_apply (c t : ι) (x y : ι → Bool) :
    controlled c t Pauli.X.op x y = if flipIf c t x = y then 1 else 0 := by
  rw [controlled, mux, of_apply, flipIf, onQubit_one, one_apply]
  cases x c
  · rfl
  · simp only [if_true, onQubit_apply]
    by_cases hy : y t = !x t
    · rw [hy]
      cases x t <;> simp [Pauli.op, mat2]
    · have hy' : y t = x t := by simpa using hy
      have hne : Function.update x t (!x t) ≠ y := fun he => hy (by rw [← he, Function.update_self])
      rw [if_neg hne, hy']
      cases x t <;> simp [Pauli.op, mat2]

theorem controlled_X_mul_self {c t : ι} (h : c ≠ t) :
    controlled c t Pauli.X.op * controlled c t Pauli.X.op = 1 := by
  rw [controlled, mux_mul h, Pauli.op_mul_self, Matrix.one_mul, mux_self, onQubit_one]

/-- A controlled not takes the sign of its control to its target. -/
theorem controlled_conj_zString {c t : ι} (h : c ≠ t) {qs : List ι} (ht : t ∉ qs) :
    controlled c t Pauli.X.op * zString (t :: qs) * controlled c t Pauli.X.op = zString (t :: c :: qs) := by
  have hsign : ∀ x, zSign (t :: qs) (flipIf c t x) = zSign (t :: c :: qs) x := by
    intro x
    rw [flipIf]
    cases hx : x c
    · simp [zSign, hx]
    · have hq : ∀ q ∈ qs, (Function.update x t (!x t)) q = x q := by
        intro q hq
        rw [Function.update_of_ne]
        rintro rfl
        exact ht hq
      have hmap := List.map_congr_left fun q h => congrArg (fun b => if b then (-1 : ℂ) else 1) (hq q h)
      simp only [zSign, if_true, List.map_cons, List.prod_cons, hmap, hx, Function.update_self]
      cases x t <;> simp
  have hcomm : controlled c t Pauli.X.op * zString (t :: qs) =
      zString (t :: c :: qs) * controlled c t Pauli.X.op := by
    ext x y
    rw [zString, zString, mul_diagonal, diagonal_mul, controlled_X_apply, ← hsign]
    split
    · rename_i hxy
      rw [hxy, mul_comm]
    · rw [zero_mul, mul_zero]
  rw [hcomm, Matrix.mul_assoc, controlled_X_mul_self h, Matrix.mul_one]

/-! ### Eigenvectors -/

/-- An eigenvector of an operator is one of its exponential. -/
theorem exp_mulVec_of_eigenvector {A : Op ι} {v : State ι} {z : ℂ} (h : A *ᵥ v = z • v) :
    NormedSpace.exp A *ᵥ v = Complex.exp z • v := by
  let _ : NormedRing (Op ι) := Matrix.linftyOpNormedRing
  let _ : NormedAlgebra ℂ (Op ι) := Matrix.linftyOpNormedAlgebra
  have hpow : ∀ k : ℕ, (A ^ k) *ᵥ v = z ^ k • v := by
    intro k
    induction k with
    | zero => rw [pow_zero, pow_zero, one_mulVec, one_smul]
    | succ k ih => rw [pow_succ, ← mulVec_mulVec, h, mulVec_smul, ih, smul_smul, pow_succ']
  have hA : HasSum (fun k => ((k.factorial : ℂ)⁻¹) • A ^ k) (NormedSpace.exp A) :=
    NormedSpace.exp_series_hasSum_exp' A
  have hz : HasSum (fun k => ((k.factorial : ℂ)⁻¹) • z ^ k) (NormedSpace.exp z) :=
    NormedSpace.exp_series_hasSum_exp' z
  have hAv := hA.map (mulVec.addMonoidHomLeft v) (Continuous.matrix_mulVec continuous_id continuous_const)
  have hterm : (mulVec.addMonoidHomLeft v ∘ fun k => ((k.factorial : ℂ)⁻¹) • A ^ k) =
      fun k => (((k.factorial : ℂ)⁻¹) • z ^ k) • v := by
    funext k
    show (((k.factorial : ℂ)⁻¹) • A ^ k) *ᵥ v = _
    rw [smul_mulVec, hpow, smul_assoc]
  rw [hterm] at hAv
  rw [Complex.exp_eq_exp_ℂ]
  exact hAv.unique (hz.smul_const v)

/-! ### Sums -/

/-- If the exponential of each of some commuting operators is a known one, up
to a phase, that of their sum is the product. -/
theorem exp_sum_eqPhase {α : Type*} {A B : α → Op ι} {l : List α}
    (hc : ∀ a ∈ l, ∀ b ∈ l, Commute (A a) (A b)) (h : ∀ a ∈ l, EqPhase (B a) (NormedSpace.exp (A a))) :
    EqPhase (l.map B).reverse.prod (NormedSpace.exp (l.map A).sum) := by
  induction l with
  | nil =>
    simp
    exact .refl 1
  | cons a l ih =>
    have hcl : Commute (l.map A).sum (A a) := by
      refine Commute.list_sum_left _ _ fun b hb => ?_
      obtain ⟨d, hd, rfl⟩ := List.mem_map.mp hb
      exact hc d (List.mem_cons_of_mem _ hd) a List.mem_cons_self
    rw [List.map_cons, List.map_cons, List.sum_cons, List.reverse_cons, List.prod_append,
      List.prod_singleton, add_comm, Matrix.exp_add_of_commute _ _ hcl]
    exact (ih (fun b hb d hd => hc b (List.mem_cons_of_mem _ hb) d (List.mem_cons_of_mem _ hd))
      fun b hb => h b (List.mem_cons_of_mem _ hb)).mul (h a List.mem_cons_self)

end Qubits
