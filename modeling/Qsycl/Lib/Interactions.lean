/-
# One operator on every qubit

`everywhere U` is `U` on each qubit of the register, the product of its `U` in any
order of the qubits (`prod_onQubit`). The exchange of two qubits commutes with all of
these (`exchange_mul_everywhere`), and so does `XX + YY + ZZ`, which is twice the
exchange less 1 (`sum_pairs_eq_exchange`).
-/
import Qsycl.Lib.Paulis

namespace Qubits

open Matrix

variable {ι : Type*} [Fintype ι] [DecidableEq ι]

/-- `U` on every qubit. -/
def everywhere (U : Op1) : Op ι := tensor fun _ => U

/-- A product over different qubits. -/
theorem prod_onQubit (U : Op1) {l : List ι} (h : l.Nodup) :
    (l.map fun q => onQubit q U).prod = tensor fun q => if q ∈ l then U else 1 := by
  induction l with
  | nil =>
    simp only [List.map_nil, List.prod_nil, List.not_mem_nil, if_false]
    exact tensor_one.symm
  | cons q l ih =>
    obtain ⟨hq, hl⟩ := List.nodup_cons.mp h
    rw [List.map_cons, List.prod_cons, ih hl, onQubit, tensor_mul]
    congr 1
    funext r
    rw [Pi.mul_apply]
    by_cases hr : r = q
    · subst hr
      rw [Function.update_self, if_neg hq, if_pos List.mem_cons_self, Matrix.mul_one]
    · rw [Function.update_of_ne hr, Pi.one_apply, Matrix.one_mul]
      simp only [List.mem_cons, hr, false_or]

theorem prod_onQubit_all (U : Op1) {l : List ι} (h : l.Nodup) (hall : ∀ q, q ∈ l) :
    (l.map fun q => onQubit q U).prod = everywhere U := by
  rw [prod_onQubit U h, everywhere]
  simp only [hall, if_true]

/-! ### What commutes with it -/

theorem onQubit_mul_everywhere {U V W : Op1} (h : U * V = V * W) (q : ι) :
    onQubit q U * everywhere V = everywhere V * onQubit q W := by
  rw [onQubit, onQubit, everywhere, tensor_mul, tensor_mul]
  congr 1
  funext r
  by_cases hr : r = q
  · subst hr
    simp only [Pi.mul_apply, Function.update_self, h]
  · simp only [Pi.mul_apply, Function.update_of_ne hr, Pi.one_apply, Matrix.one_mul, Matrix.mul_one]

theorem onQubit_neg (q : ι) (U : Op1) : onQubit q (-U) = -onQubit q U := by
  ext x y
  rw [neg_apply, onQubit_apply, onQubit_apply]
  split
  · rfl
  · rw [neg_zero]

/-- A pair of operators that both commute or both anticommute with `V`. -/
theorem commute_pair_everywhere {U V : Op1} (h : U * V = V * U ∨ U * V = V * -U) (a b : ι) :
    Commute (onQubit a U * onQubit b U) (everywhere V) := by
  rw [Commute, SemiconjBy]
  rcases h with h | h
  · rw [Matrix.mul_assoc, onQubit_mul_everywhere h, ← Matrix.mul_assoc, onQubit_mul_everywhere h,
      Matrix.mul_assoc]
  · rw [Matrix.mul_assoc, onQubit_mul_everywhere h, ← Matrix.mul_assoc, onQubit_mul_everywhere h,
      Matrix.mul_assoc, onQubit_neg, onQubit_neg, neg_mul_neg]

theorem exchange_mul_everywhere (a b : ι) (U : Op1) : Commute (exchange a b) (everywhere U) := by
  have hs : ∀ x : ι → Bool, (x ∘ Equiv.swap a b) ∘ Equiv.swap a b = x := fun x => by
    funext q
    simp
  ext x y
  calc (exchange a b * everywhere U : Op ι) x y
      = everywhere U (x ∘ Equiv.swap a b) y := by simp [mul_apply, exchange]
    _ = ∏ q, U (x (Equiv.swap a b q)) (y q) := rfl
    _ = ∏ q, U (x q) (y (Equiv.swap a b q)) := by
        rw [← Equiv.prod_comp (Equiv.swap a b)]
        simp only [Equiv.swap_apply_self]
    _ = everywhere U x (y ∘ Equiv.swap a b) := rfl
    _ = (everywhere U * exchange a b : Op ι) x y := by
        have hz : ∀ z : ι → Bool, z ∘ Equiv.swap a b = y ↔ z = y ∘ Equiv.swap a b := fun z =>
          ⟨fun h => by rw [← h, hs], fun h => by rw [h, hs]⟩
        simp [mul_apply, exchange, hz]

/-- A unitary operator that takes `A` to `A'` takes the expectations of the one to those of
the other. -/
theorem expect_intertwined {A A' U : Op ι} (hU : IsUnitary U) (h : A' * U = U * A) (ψ : State ι) :
    expect A' (U *ᵥ ψ) = expect A ψ := by
  have hconj : Uᴴ * A' * U = A := by
    rw [Matrix.mul_assoc, h, ← Matrix.mul_assoc, show Uᴴ * U = 1 from hU, Matrix.one_mul]
  rw [expect_mulVec, hconj]

/-! ### Pairs of Pauli matrices -/

/-- The action of a pair of Pauli matrices. -/
theorem pair_mulVec (p : Pauli) {a b : ι} (h : a ≠ b) (ψ : State ι) (x : ι → Bool) :
    ((onQubit a p.op * onQubit b p.op) *ᵥ ψ) x =
      p.op (x a) (x a ^^ p.flips) * (p.op (x b) (x b ^^ p.flips) *
        ψ (Function.update (Function.update x a (x a ^^ p.flips)) b (x b ^^ p.flips))) := by
  have hone : ∀ (q : ι) (φ : State ι) (y : ι → Bool), (onQubit q p.op *ᵥ φ) y =
      p.op (y q) (y q ^^ p.flips) * φ (Function.update y q (y q ^^ p.flips)) := by
    intro q φ y
    rw [onQubit_mulVec, Fintype.sum_bool]
    cases p <;> cases y q <;> simp [Pauli.op, mat2, Pauli.flips]
  rw [← mulVec_mulVec, hone, hone, Function.update_of_ne h.symm]

theorem sum_pairs_eq_exchange {a b : ι} (h : a ≠ b) :
    onQubit a Pauli.X.op * onQubit b Pauli.X.op + onQubit a Pauli.Y.op * onQubit b Pauli.Y.op +
      onQubit a Pauli.Z.op * onQubit b Pauli.Z.op = exchange a b + exchange a b - 1 := by
  rw [Matrix.ext_iff_mulVec]
  intro ψ
  funext x
  have hswap : x ∘ Equiv.swap a b = Function.update (Function.update x a (x b)) b (x a) := by
    funext q
    by_cases hb : q = b
    · subst hb
      simp
    · by_cases ha : q = a
      · subst ha
        simp [hb]
      · simp [ha, hb, Equiv.swap_apply_of_ne_of_ne]
  have hself : Function.update (Function.update x a (x a)) b (x b) = x := by simp
  rw [add_mulVec, add_mulVec, sub_mulVec, add_mulVec, one_mulVec]
  simp only [Pi.add_apply, Pi.sub_apply, pair_mulVec _ h, exchange_mulVec, hswap]
  -- equal bits exchange to themselves, different bits are both flipped
  cases ha : x a <;> cases hb : x b <;> rw [ha, hb] at hself <;>
    simp [Pauli.op, mat2, Pauli.flips, hself, ← mul_assoc] <;> ring

end Qubits
