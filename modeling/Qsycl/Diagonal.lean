/-
# Diagonal observables

An observable without X and Y terms is evaluated in three places: over the
amplitudes (`expectation_value`), as a table over the basis states
(`Observable::diagonal`) and on one bitstring (`diagonal_cost`). They agree, and
the energy of a normalized state is an average of the table
(`diagonal_energy`).
-/
import Qsycl.Qaoa

namespace Qsycl

open Qubits

/-! ### The table -/

namespace Observable

variable {R : Type} [Ring R]

/-- The value that `diagonal` computes for basis state `j`. -/
def diagonalEntry (obs : Observable R) (j : ℕ) : R :=
  obs.masks.foldl (fun v m => v + m.coeff * (if parity (j &&& m.z) ≠ 0 then -1 else 1)) 0

def diagonal (obs : Observable R) : Except Exn (List R) :=
  if !obs.isDiagonal then
    throw ⟨.logicError, "Observable::diagonal: observable has X/Y terms"⟩
  else if 30 < obs.numQubits then
    throw ⟨.lengthError, "Observable::diagonal: too many qubits"⟩
  else
    return (List.range (1 <<< obs.numQubits)).map obs.diagonalEntry

theorem diagonal_eq {obs : Observable R} (hd : obs.isDiagonal = true) (hn : obs.numQubits ≤ 30) :
    obs.diagonal = .ok ((List.range (2 ^ obs.numQubits)).map obs.diagonalEntry) := by
  rw [diagonal, hd, Bool.not_true, if_neg Bool.false_ne_true, if_neg hn.not_gt, Nat.one_shiftLeft]
  rfl

end Observable

/-- The cost of a bitstring is its entry of the table. -/
theorem diagonalCost_entry {R : Type} [Ring R] {obs : Observable R} (hd : obs.isDiagonal = true) (j : ℕ) :
    diagonalCost obs j = .ok (obs.diagonalEntry j) := by
  rw [diagonalCost, hd]
  rfl

/-! ### The energy -/

section Energy

variable {n : ℕ}

/-- The expectation of a diagonal operator is the average of its entries. -/
theorem expect_diagonal (d : (Fin n → Bool) → ℝ) (ψ : State (Fin n)) :
    (expect (Matrix.diagonal fun x => (d x : ℂ)) ψ).re = ∑ x, Complex.normSq (ψ x) * d x := by
  rw [expect, dotProduct, Complex.re_sum]
  refine Finset.sum_congr rfl fun x _ => ?_
  rw [Matrix.mulVec_diagonal, Pi.star_apply, mul_left_comm, RCLike.star_def,
    ← Complex.normSq_eq_conj_mul_self, mul_comm, Complex.re_mul_ofReal, Complex.ofReal_re]

/-- An average is not less than every lower bound of what is averaged. -/
theorem le_average {ι : Type*} [Fintype ι] {w d : ι → ℝ} {b : ℝ} (hw : ∀ j, 0 ≤ w j) (hsum : ∑ j, w j = 1)
    (hd : ∀ j, b ≤ d j) : b ≤ ∑ j, w j * d j :=
  calc b = ∑ j, w j * b := by rw [← Finset.sum_mul, hsum, one_mul]
    _ ≤ ∑ j, w j * d j := Finset.sum_le_sum fun j _ => mul_le_mul_of_nonneg_left (hd j) (hw j)

/-- Nor more than every upper bound. -/
theorem average_le {ι : Type*} [Fintype ι] {w d : ι → ℝ} {b : ℝ} (hw : ∀ j, 0 ≤ w j) (hsum : ∑ j, w j = 1)
    (hd : ∀ j, d j ≤ b) : ∑ j, w j * d j ≤ b :=
  calc ∑ j, w j * d j ≤ ∑ j, w j * b := Finset.sum_le_sum fun j _ => mul_le_mul_of_nonneg_left (hd j) (hw j)
    _ = b := by rw [← Finset.sum_mul, hsum, one_mul]

/-- The weights of a basis state. -/
theorem normSq_single (x y : Fin n → Bool) :
    Complex.normSq ((Pi.single x 1 : State (Fin n)) y) = if y = x then 1 else 0 := by
  rw [Pi.single_apply, apply_ite Complex.normSq, map_one, map_zero]

theorem sum_normSq_single (x : Fin n → Bool) : ∑ y, Complex.normSq ((Pi.single x 1 : State (Fin n)) y) = 1 := by
  simp [normSq_single]

/-- The energy of a basis state is the cost of its bits. -/
theorem expect_basis {obs : Observable ℝ} (ho : obs.Legal) (hd : obs.isDiagonal = true)
    (x : Fin obs.numQubits → Bool) :
    (expect (obs.operator obs.numQubits) (Pi.single x 1)).re = obs.diagonalEntry (index x) := by
  have hentry := (diagonalCost_entry hd _).symm.trans (diagonalCost_eq ho hd x)
  rw [operator_eq_diagonal hd, expect_diagonal, Except.ok.inj hentry]
  simp [normSq_single]

/-- `expectation_value` averages the table with the squared amplitudes. -/
theorem expectationValue_diagonal {obs : Observable ℝ} (hl : obs.Legal) (hd : obs.isDiagonal = true)
    {psi : StateVec ℂ} (hpsi : psi.size = 2 ^ obs.numQubits) : expectationValue psi obs =
      .ok (∑ j ∈ Finset.range (2 ^ obs.numQubits), Complex.normSq (psi.cell j) * obs.diagonalEntry j) := by
  have hψ : psi.Holds (view obs.numQubits psi.cell) := ⟨hpsi, rfl⟩
  rw [expectationValue_holds hl hψ, operator_eq_diagonal hd, expect_diagonal, sum_index]
  refine congrArg Except.ok (Finset.sum_congr rfl fun x _ => ?_)
  have hentry := (diagonalCost_entry hd _).symm.trans (diagonalCost_eq hl hd x)
  rw [Except.ok.inj hentry]
  rfl

/-- **Diagonal observables.** The table has an entry for each basis state, the
cost of its bitstring; the energy is the average of the table with the squared
amplitudes, and so, if these add up to 1, lies between two of the costs, the
smallest and the largest. -/
theorem diagonal_energy {terms : List (Term ℝ)} {obs : Observable ℝ} (hobs : Observable.ofTerms n terms = .ok obs)
    (hd : obs.isDiagonal = true) (hn : n ≤ 30) {psi : StateVec ℂ} (hpsi : psi.size = 2 ^ n) :
    ∃ (d : List ℝ) (e : ℝ), obs.diagonal = .ok d ∧ d.length = 2 ^ n ∧
      (∀ j : Fin d.length, diagonalCost obs j = .ok d[j]) ∧
      expectationValue psi obs = .ok e ∧ e = ∑ j : Fin d.length, Complex.normSq (psi.cell j) * d[j] ∧
      (∑ j : Fin d.length, Complex.normSq (psi.cell j) = 1 → ∃ lo hi : Fin d.length,
        (∀ j : Fin d.length, d[lo] ≤ d[j] ∧ d[j] ≤ d[hi]) ∧ d[lo] ≤ e ∧ e ≤ d[hi]) := by
  have hl := legal_of_ofTerms hobs
  obtain ⟨-, rfl, -⟩ := ofTerms_ok hobs
  let d := (List.range (2 ^ obs.numQubits)).map obs.diagonalEntry
  have hlen : d.length = 2 ^ obs.numQubits := by simp [d]
  have hget : ∀ j : Fin d.length, d[j] = obs.diagonalEntry j := fun j => by simp [d]
  have hsum : ∑ j ∈ Finset.range (2 ^ obs.numQubits), Complex.normSq (psi.cell j) * obs.diagonalEntry j =
      ∑ j : Fin d.length, Complex.normSq (psi.cell j) * d[j] := by
    simp only [hget]
    rw [← hlen, Finset.sum_range]
  refine ⟨d, _, Observable.diagonal_eq hd hn, hlen, fun j => ?_, expectationValue_diagonal hl hd hpsi, hsum,
    fun hnorm => ?_⟩
  · rw [hget]
    exact diagonalCost_entry hd j
  · have : Nonempty (Fin d.length) := ⟨⟨0, hlen ▸ Nat.two_pow_pos _⟩⟩
    obtain ⟨lo, hlo⟩ := Finite.exists_min fun j : Fin d.length => d[j]
    obtain ⟨hi, hhi⟩ := Finite.exists_max fun j : Fin d.length => d[j]
    have hw : ∀ j : Fin d.length, 0 ≤ Complex.normSq (psi.cell j) := fun j => Complex.normSq_nonneg _
    rw [hsum]
    exact ⟨lo, hi, fun j => ⟨hlo j, hhi j⟩, le_average hw hnorm hlo, average_le hw hnorm hhi⟩

/-- `Z₀ Z₁ + 3` at a vector on two qubits. -/
theorem diagonal_energy_two : ∃ (d : List ℝ) (e : ℝ),
    Observable.diagonal ⟨2, [⟨1, 0, 3, 0⟩, ⟨3, 0, 0, 0⟩]⟩ = .ok d ∧
    expectationValue ⟨4, Function.update 0 2 Complex.I⟩ ⟨2, [⟨1, 0, 3, 0⟩, ⟨3, 0, 0, 0⟩]⟩ = .ok e ∧
    e = ∑ j : Fin d.length, Complex.normSq (Function.update (0 : ℕ → ℂ) 2 Complex.I j) * d[j] := by
  have hobs : Observable.ofTerms 2 [.sparse 1 [('Z', 0), ('Z', 1)], .dense 3 ['I', 'I']] =
      .ok (⟨2, [⟨1, 0, 3, 0⟩, ⟨3, 0, 0, 0⟩]⟩ : Observable ℝ) := rfl
  have hpsi : (⟨4, Function.update 0 2 Complex.I⟩ : StateVec ℂ).size = 2 ^ 2 := rfl
  obtain ⟨d, e, hd, -, -, he, hsum, -⟩ := diagonal_energy hobs (by simp [Observable.isDiagonal]) (by decide) hpsi
  exact ⟨d, e, hd, he, hsum⟩

end Energy

end Qsycl
