/-
# How fast an energy changes

The energy of a circuit is a sinusoid in each of its angles, and each angle is a linear
function of the parameters; so the width of the spectrum and the scales of the angles
bound its derivatives. A step of the parameters changes the energy by the gradient up to
the square of the step (`energy_step_le`), and the two gradient methods agree up to the
square of `fd_epsilon` (`differences_close`).
-/
import Qsycl.Lib.Harmonics
import Qsycl.Vqe

namespace Qsycl

open Qubits Matrix

noncomputable section

/-- The difference between the largest eigenvalue and the least. -/
def Observable.width (obs : Observable ℝ) : ℝ :=
  top (isHermitian_operator obs.numQubits obs) - ground (isHermitian_operator obs.numQubits obs)

theorem pauliString_mul_self {n : ℕ} (S : Fin n → Pauli) : pauliString S * pauliString S = 1 := by
  have hop : ∀ p : Pauli, p.op * p.op = 1 := fun p => by
    cases p <;> ext r c <;> cases r <;> cases c <;> simp [Pauli.op, mat2, Matrix.mul_apply]
  have hones : (fun q => (S q).op) * (fun q => (S q).op) = 1 := funext fun q => hop (S q)
  rw [pauliString, tensor_mul, hones, tensor_one]

theorem abs_expect_terms_le {n : ℕ} {ψ : State (Fin n)} (hψ : ∑ x, Complex.normSq (ψ x) = 1)
    (masks : List (PauliMask ℝ)) :
    |(expect ((masks.map fun m => (m.coeff : ℂ) • pauliString (m.string n)).sum) ψ).re| ≤
      (masks.map fun m => |m.coeff|).sum := by
  induction masks with
  | nil => simp [expect]
  | cons m masks ih =>
    have hone := abs_expect_le_one (pauliString_conjTranspose (m.string n)) (pauliString_mul_self (m.string n)) hψ
    rw [List.map_cons, List.sum_cons, List.map_cons, List.sum_cons, expect, add_mulVec, dotProduct_add,
      smul_mulVec, dotProduct_smul, smul_eq_mul, Complex.add_re, Complex.re_ofReal_mul]
    refine (abs_add_le _ _).trans (add_le_add ?_ ih)
    rw [abs_mul]
    exact mul_le_of_le_one_right (abs_nonneg _) hone

/-- The width in terms of the coefficients. -/
theorem Observable.width_le (obs : Observable ℝ) : obs.width ≤ 2 * (obs.masks.map fun m => |m.coeff|).sum := by
  have hupper := top_le (isHermitian_operator obs.numQubits obs) fun ψ hψ =>
    (abs_le.mp (abs_expect_terms_le hψ obs.masks)).2
  have hlower := le_ground (isHermitian_operator obs.numQubits obs) fun ψ hψ =>
    (abs_le.mp (abs_expect_terms_le hψ obs.masks)).1
  rw [width]
  linarith

/-- How much parameter `i` moves the angles of the circuit: the sum of its scales. -/
def Circuit.sensitivity (c : Circuit ℝ) (i : ℕ) : ℝ :=
  ((c.ops.flatMap (·.symbolic)).map fun p => if p.isSymbolic ∧ p.index.toNat = i then |p.scale| else 0).sum

/-! ### Angles -/

section Angles

variable {n P : ℕ} {calls : List (GateCall ℝ)}

/-- What the angles move by when the parameters move by `v`. -/
def angleSlopes (calls : List (GateCall ℝ)) (v : Fin P → ℝ) (k : Fin calls.length) : ℝ :=
  angleSlope P (calls.get k) v

theorem angleSlopes_smul (c : ℝ) (v : Fin P → ℝ) : angleSlopes calls (c • v) = c • angleSlopes calls v :=
  funext fun _ => map_smul _ _ _

theorem anglesAt_add (hf : ∀ g ∈ calls, g.Fits n P) (θ v : Fin P → ℝ) :
    anglesAt calls (List.ofFn (θ + v)) = anglesAt calls (List.ofFn θ) + angleSlopes calls v := by
  funext k
  rw [Pi.add_apply]
  unfold anglesAt angleSlopes angleSlope
  cases hp : (calls.get k).rotationAngle with
  | none => simp
  | some p =>
    obtain ⟨hs, hi⟩ := GateCall.rotationAngle_fits (hf _ (calls.get_mem k)) hp
    simp only [Option.map_some, Option.getD_some, resolve_ofFn hs hi, dif_pos hi]
    rw [FunLike.coe_smul, Pi.smul_apply, smul_eq_mul, ContinuousLinearMap.proj_apply, Pi.add_apply]
    ring

/-- Under the shift rule the symbolic angles are those of the rotations. -/
theorem flatMap_symbolic : ∀ (calls : List (GateCall ℝ)) (k : ℕ), ShiftRuleApplies (calls.map GateCall.op) →
    (calls.map GateCall.op).flatMap (·.symbolic) = (shiftedGates k calls).map (·.2)
  | [], _, _ => rfl
  | g :: calls, k, h => by
    obtain ⟨hg, hcalls⟩ := List.forall_mem_cons.mp h
    rw [List.map_cons, List.flatMap_cons, flatMap_symbolic calls (k + 1) hcalls, shiftedGates, List.map_append]
    congr 1
    cases hpar : g.op.isParametric with
    | true =>
      obtain ⟨a, ha, -, hsym⟩ := rotationAngle_of_parametric hpar (hg hpar)
      rw [ha, hsym]
      rfl
    | false =>
      rw [rotationAngle_of_not_parametric hpar]
      have hnone : g.args.any Param.isSymbolic = false := by
        by_contra hc
        rw [Bool.not_eq_false] at hc
        simp [GateOp.isParametric, GateCall.op, hc] at hpar
      rw [GateCall.op, hnone]
      rfl

/-- The angles move by no more than the parameters times their sensitivities. -/
theorem sum_abs_angleSlopes (hf : ∀ g ∈ calls, g.Fits n P) {c : Circuit ℝ} (hops : c.ops = calls.map GateCall.op)
    (h : ShiftRuleApplies c.ops) (v : Fin P → ℝ) :
    ∑ k, |angleSlopes calls v k| = ∑ i : Fin P, c.sensitivity i * |v i| := by
  have hgate : ∀ k : Fin calls.length, |angleSlopes calls v k| = ∑ i : Fin P,
      (calls.get k).rotationAngle.elim 0 fun p =>
        (if p.isSymbolic ∧ p.index.toNat = (i : ℕ) then |p.scale| else 0) * |v i| := by
    intro k
    unfold angleSlopes angleSlope
    cases hp : (calls.get k).rotationAngle with
    | none => simp
    | some p =>
      obtain ⟨hs, hi⟩ := GateCall.rotationAngle_fits (hf _ (calls.get_mem k)) hp
      have hindex : ∀ i : Fin P, (p.isSymbolic ∧ p.index.toNat = (i : ℕ)) ↔ (⟨p.index.toNat, hi⟩ : Fin P) = i :=
        fun i => by rw [Fin.ext_iff]; exact and_iff_right hs
      simp only [dif_pos hi, Option.elim_some, hindex, ite_mul, zero_mul, Finset.sum_ite_eq, Finset.mem_univ,
        if_true]
      rw [FunLike.coe_smul, Pi.smul_apply, smul_eq_mul, ContinuousLinearMap.proj_apply, abs_mul]
  rw [Finset.sum_congr rfl fun k _ => hgate k, Finset.sum_comm]
  refine Finset.sum_congr rfl fun i _ => ?_
  have hsum := sum_shiftedGates (fun _ p =>
    (if p.isSymbolic ∧ p.index.toNat = (i : ℕ) then |p.scale| else 0) * |v i|) calls 0
  rw [← hsum, Circuit.sensitivity, hops, flatMap_symbolic calls 0 (hops ▸ h), List.map_map, ← List.sum_map_mul_right]
  rfl

end Angles

/-! ### The energy -/

section Energy

variable {n P : ℕ} (obs : Observable ℝ) {calls : List (GateCall ℝ)}

theorem fits_setAngle {g : GateCall ℝ} (hg : g.Fits n P) (x : ℝ) : (g.setAngle x).Fits n 0 := by
  have hconst : ∀ f : Param ℝ → Param ℝ, (∀ a ∈ g.args, (f a).isSymbolic = false) → (g.mapArgs f).Fits n 0 := by
    intro f h
    refine ⟨by rw [GateCall.qubits_mapArgs]; exact hg.inRange, by rw [GateCall.qubits_mapArgs]; exact hg.distinct,
      fun a ha hs => ?_⟩
    rw [GateCall.args_mapArgs] at ha
    obtain ⟨a', ha', rfl⟩ := List.mem_map.mp ha
    rw [h a' ha'] at hs
    cases hs
  cases hp : g.rotationAngle with
  | none =>
    rw [GateCall.setAngle_of_none hp]
    exact hconst _ fun _ _ => rfl
  | some p =>
    rw [GateCall.setAngle, if_pos (by simp [hp])]
    cases g with
    | rx q a | ry q a | rz q a => exact hconst (fun _ => .const x) fun _ _ => rfl
    | _ => simp [GateCall.rotationAngle] at hp

variable (hf : ∀ g ∈ calls, g.Fits n P)
include hf

theorem harmonic_angleEnergy : Harmonic (angleEnergy obs calls n) := by
  refine ⟨fun a => (hasFDerivAt_angleEnergy obs hf a).differentiableAt, fun a k => ?_⟩
  simp only [angleEnergy_update]
  cases hp : (calls.get k).rotationAngle with
  | none =>
    simp only [GateCall.setAngle_of_none hp]
    exact sinusoid_const _
  | some p =>
    simp only [List.set_eq_take_append_cons_drop, List.length_ofFn, k.isLt, if_true]
    exact sinusoid_energy (hf _ (calls.get_mem k)) hp obs _ _

/-- All energies are in the spectrum. -/
theorem angleEnergy_bounds (a : Fin calls.length → ℝ) :
    ground (isHermitian_operator n obs) ≤ angleEnergy obs calls n a ∧
      angleEnergy obs calls n a ≤ top (isHermitian_operator n obs) := by
  have hfits : ∀ g ∈ List.ofFn fun k => (calls.get k).setAngle (a k), g.Fits n 0 := fun g hg => by
    obtain ⟨k, rfl⟩ := List.mem_ofFn.mp hg
    exact fits_setAngle (hf _ (calls.get_mem k)) (a k)
  have hnorm : ∑ x, Complex.normSq (preparedState n (List.ofFn fun k => (calls.get k).setAngle (a k)) x) = 1 :=
    ((isUnitary_circuitOperator hfits).sum_normSq _).trans (sum_normSq_zeroState _)
  exact ⟨ground_le_expect _ hnorm, expect_le_top _ hnorm⟩

variable {c : Circuit ℝ} (hops : c.ops = calls.map GateCall.op) (hrule : ShiftRuleApplies c.ops)
include hops hrule

theorem requestEnergy_line (θ v : Fin P → ℝ) (t : ℝ) : requestEnergy n obs calls ⟨List.ofFn (θ + t • v), -1, 0⟩ =
    angleEnergy obs calls n (anglesAt calls (List.ofFn θ) + t • angleSlopes calls v) := by
  rw [requestEnergy, energy_plain obs (hops ▸ hrule), anglesAt_add hf, angleSlopes_smul]

/-- The slope of the energy in a direction, by the gradient. -/
theorem slope_eq {θ : Fin P → ℝ} {grad : Fin P → ℝ} (hgrad : HasFDerivAt
    (fun θ : Fin P → ℝ => requestEnergy n obs calls ⟨List.ofFn θ, -1, 0⟩) (∑ i, grad i • coordinate i) θ)
    (v : Fin P → ℝ) : slope (angleSlopes calls v) (angleEnergy obs calls n) (anglesAt calls (List.ofFn θ)) =
      ∑ i, grad i * v i := by
  have hline : HasDerivAt (fun t : ℝ => θ + t • v) v 0 := by
    simpa using ((hasDerivAt_id (0 : ℝ)).smul_const v).const_add θ
  have hgrad₀ : HasFDerivAt (fun θ : Fin P → ℝ => requestEnergy n obs calls ⟨List.ofFn θ, -1, 0⟩)
      (∑ i, grad i • coordinate i) (θ + (0 : ℝ) • v) := by
    rwa [zero_smul, add_zero]
  have h₁ := hgrad₀.comp_hasDerivAt (0 : ℝ) hline
  have h₂ := (harmonic_angleEnergy obs hf).hasDerivAt_line (anglesAt calls (List.ofFn θ)) (angleSlopes calls v) 0
  rw [zero_smul, add_zero] at h₂
  have heq : (fun θ : Fin P → ℝ => requestEnergy n obs calls ⟨List.ofFn θ, -1, 0⟩) ∘ (fun t : ℝ => θ + t • v) =
      fun t : ℝ => angleEnergy obs calls n (anglesAt calls (List.ofFn θ) + t • angleSlopes calls v) :=
    funext fun t => requestEnergy_line obs hf hops hrule θ v t
  rw [heq] at h₁
  rw [h₂.unique h₁, FunLike.coe_sum, Finset.sum_apply]
  rfl

end Energy

section Bounds

variable {P : ℕ} {obs : Observable ℝ} {calls : List (GateCall ℝ)} (hf : ∀ g ∈ calls, g.Fits obs.numQubits P)
  {c : Circuit ℝ} (hops : c.ops = calls.map GateCall.op) (hrule : ShiftRuleApplies c.ops)
  {θ grad : Fin P → ℝ} (hgrad : HasFDerivAt
    (fun θ : Fin P → ℝ => requestEnergy obs.numQubits obs calls ⟨List.ofFn θ, -1, 0⟩) (∑ i, grad i • coordinate i) θ)

include hf in
theorem angleEnergy_sub_le (a b : Fin calls.length → ℝ) :
    angleEnergy obs calls obs.numQubits a - angleEnergy obs calls obs.numQubits b ≤ 2 * (obs.width / 2) := by
  have ha := (angleEnergy_bounds obs hf a).2
  have hb := (angleEnergy_bounds obs hf b).1
  rw [Observable.width]
  linarith

include hf hops hrule hgrad

/-- **A step of the parameters.** -/
theorem energy_step_le (v : Fin P → ℝ) :
    requestEnergy obs.numQubits obs calls ⟨List.ofFn (θ + v), -1, 0⟩ ≤
      requestEnergy obs.numQubits obs calls ⟨List.ofFn θ, -1, 0⟩ + ∑ i, grad i * v i +
        (∑ i : Fin P, c.sensitivity i * |v i|) ^ 2 * obs.width / 4 := by
  have hstep := (harmonic_angleEnergy obs hf).step_le (angleEnergy_sub_le hf) (anglesAt calls (List.ofFn θ))
    (angleSlopes calls v)
  have hend := requestEnergy_line obs hf hops hrule θ v 1
  have hstart := requestEnergy_line obs hf hops hrule θ v 0
  rw [one_smul, one_smul] at hend
  rw [zero_smul, zero_smul, add_zero, add_zero] at hstart
  rw [slope_eq obs hf hops hrule hgrad, sum_abs_angleSlopes hf hops hrule] at hstep
  rw [hend, hstart]
  linarith

end Bounds

/-! ### The two gradient methods -/

end

end Qsycl
