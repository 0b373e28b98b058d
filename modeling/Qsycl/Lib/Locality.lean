/-
# Operators that act on some of the qubits

An operator acts on a set of qubits if it keeps the others and does not depend
on them. Its entries then are those of an operator on the set alone, and
operators that act on disjoint sets commute (`ActsOn.comm`).
-/
import Qsycl.Lib.Qubits

namespace Qubits

open Matrix

variable {ι : Type*}

/-- The operator keeps the qubits outside `S` and does not depend on them. -/
structure ActsOn (S : Finset ι) (A : Op ι) : Prop where
  eq_zero : ∀ {x y : ι → Bool} {q : ι}, q ∉ S → x q ≠ y q → A x y = 0
  congr : ∀ {x y x' y' : ι → Bool}, (∀ q ∈ S, x q = x' q ∧ y q = y' q) →
    (∀ q ∉ S, x q = y q ∧ x' q = y' q) → A x y = A x' y'

variable {S T : Finset ι} {A B : Op ι}

/-! ### Commutation -/

variable [Fintype ι] [DecidableEq ι]

/-- Between `x` and `z` there is one state that `A` on `S` reaches from `x` and
`B` on `T` takes to `z`: that of `z` on `S` and of `x` elsewhere. -/
theorem ActsOn.mul_apply (hA : ActsOn S A) (hB : ActsOn T B) (hd : Disjoint S T) (x z : ι → Bool) :
    (A * B) x z = A x (S.piecewise z x) * B (S.piecewise z x) z := by
  rw [Matrix.mul_apply]
  refine Finset.sum_eq_single _ (fun y _ hy => ?_) fun h => absurd (Finset.mem_univ _) h
  obtain ⟨q, hq⟩ := Function.ne_iff.mp hy
  by_cases hS : q ∈ S
  · rw [Finset.piecewise_eq_of_mem _ _ _ hS] at hq
    rw [hB.eq_zero (Finset.disjoint_left.mp hd hS) hq, mul_zero]
  · rw [Finset.piecewise_eq_of_notMem _ _ _ hS] at hq
    rw [hA.eq_zero hS hq.symm, zero_mul]

omit [Fintype ι] in
/-- On the way from `x` to `z` the operator on `S` has the same entry whether it
is applied first or last. -/
theorem ActsOn.entry_eq (hA : ActsOn S A) (hd : Disjoint S T) {x z : ι → Bool}
    (hxz : ∀ q ∉ S, q ∉ T → x q = z q) : A x (S.piecewise z x) = A (T.piecewise z x) z := by
  refine hA.congr (fun q hq => ?_) fun q hq => ?_
  · have hT : q ∉ T := Finset.disjoint_left.mp hd hq
    exact ⟨(Finset.piecewise_eq_of_notMem _ _ _ hT).symm, Finset.piecewise_eq_of_mem _ _ _ hq⟩
  · refine ⟨(Finset.piecewise_eq_of_notMem _ _ _ hq).symm, ?_⟩
    by_cases hT : q ∈ T
    · exact Finset.piecewise_eq_of_mem _ _ _ hT
    · rw [Finset.piecewise_eq_of_notMem _ _ _ hT, hxz q hq hT]

/-- **Operators on disjoint sets of qubits commute.** -/
theorem ActsOn.comm (hA : ActsOn S A) (hB : ActsOn T B) (hd : Disjoint S T) : A * B = B * A := by
  ext x z
  rw [hA.mul_apply hB hd, hB.mul_apply hA hd.symm]
  by_cases hxz : ∀ q ∉ S, q ∉ T → x q = z q
  · rw [hA.entry_eq hd hxz, hB.entry_eq hd.symm fun q hT hS => hxz q hS hT, mul_comm]
  · -- a qubit that both keep is not that of `z`
    push Not at hxz
    obtain ⟨q, hS, hT, hq⟩ := hxz
    have hSq : S.piecewise z x q ≠ z q := by rwa [Finset.piecewise_eq_of_notMem _ _ _ hS]
    have hTq : T.piecewise z x q ≠ z q := by rwa [Finset.piecewise_eq_of_notMem _ _ _ hT]
    rw [hB.eq_zero hT hSq, hA.eq_zero hS hTq, mul_zero, mul_zero]

/-! ### The operators of the gates -/

omit [Fintype ι] [DecidableEq ι] in
/-- Where pairs of states agree on `S` and each is equal elsewhere, they differ at the same qubits. -/
theorem eq_iff_of_agree {x y x' y' : ι → Bool} (hin : ∀ q ∈ S, x q = x' q ∧ y q = y' q)
    (hout : ∀ q ∉ S, x q = y q ∧ x' q = y' q) (r : ι) : x r = y r ↔ x' r = y' r := by
  by_cases hr : r ∈ S
  · rw [(hin r hr).1, (hin r hr).2]
  · exact iff_of_true (hout r hr).1 (hout r hr).2

omit [DecidableEq ι] in
theorem actsOn_one : ActsOn S (1 : Op ι) := by
  refine ⟨fun _ hxy => one_apply_ne (Function.ne_iff.mpr ⟨_, hxy⟩), fun {x y x' y'} hin hout => ?_⟩
  have hiff : x = y ↔ x' = y' := by
    rw [funext_iff, funext_iff]
    exact forall_congr' (eq_iff_of_agree hin hout)
  simp only [one_apply, hiff]

theorem actsOn_onQubit {q : ι} (hq : q ∈ S) (U : Op1) : ActsOn S (onQubit q U) := by
  refine ⟨fun {x y r} hr hxy => onQubit_apply_eq_zero (fun h : r = q => hr (h ▸ hq)) U hxy,
    fun {x y x' y'} hin hout => ?_⟩
  have hiff : Function.update x q (y q) = y ↔ Function.update x' q (y' q) = y' := by
    simp only [Function.update_eq_iff, true_and]
    exact forall₂_congr fun r _ => eq_iff_of_agree hin hout r
  rw [onQubit_apply, onQubit_apply]
  exact if_congr hiff (by rw [(hin q hq).1, (hin q hq).2]) rfl

theorem actsOn_mux {c t : ι} (hc : c ∈ S) (ht : t ∈ S) (U₀ U₁ : Op1) : ActsOn S (mux c t U₀ U₁) := by
  refine ⟨fun hr hxy => ?_, fun hin hout => ?_⟩
  · rw [mux, of_apply, (actsOn_onQubit ht U₁).eq_zero hr hxy, (actsOn_onQubit ht U₀).eq_zero hr hxy, ite_self]
  · rw [mux, of_apply, of_apply, (hin c hc).1, (actsOn_onQubit ht U₁).congr hin hout,
      (actsOn_onQubit ht U₀).congr hin hout]

theorem actsOn_exchange {a b : ι} (ha : a ∈ S) (hb : b ∈ S) : ActsOn S (exchange a b) := by
  have hkeep : ∀ r ∉ S, Equiv.swap a b r = r := fun r hr =>
    Equiv.swap_apply_of_ne_of_ne (fun h => hr (h ▸ ha)) fun h => hr (h ▸ hb)
  have hstay : ∀ r ∈ S, Equiv.swap a b r ∈ S := by
    intro r hr
    rw [Equiv.swap_apply_def]
    split_ifs
    · exact hb
    · exact ha
    · exact hr
  refine ⟨fun {x y r} hr hxy => ?_, fun {x y x' y'} hin hout => ?_⟩
  · rw [exchange, of_apply, if_neg fun h => hxy ?_]
    rw [← h, Function.comp_apply, hkeep r hr]
  · have hiff : x ∘ Equiv.swap a b = y ↔ x' ∘ Equiv.swap a b = y' := by
      simp only [funext_iff, Function.comp_apply]
      refine forall_congr' fun r => ?_
      by_cases hr : r ∈ S
      · rw [(hin _ (hstay r hr)).1, (hin r hr).2]
      · rw [hkeep r hr]
        exact iff_of_true (hout r hr).1 (hout r hr).2
    simp only [exchange, of_apply, hiff]

end Qubits
