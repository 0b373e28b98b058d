/-
# The gradients are right

The energy of a circuit depends on the angle of each rotation through a cosine
and a sine (`sinusoid_energy`), so the shift rule holds for each gate; the
chain rule adds up the gates that share a parameter. So what
`energy_and_gradient` returns with shifted angles is the derivative of the
energy, as long as the positions of the shifted gates are `int`s, and with
shifted parameters its central differences (`gradient_correct`).
-/
import Qsycl.Diagonal
import Qsycl.Gradient
import Qsycl.GateIdentities
import Qsycl.Lib.ParameterShift

namespace Qsycl

open Qubits Matrix
open Gates (half)

/-! ### Differentiable circuits -/

section Differentiable

variable {V : Type*} [NormedAddCommGroup V] [NormedSpace ℝ V] {n : ℕ}

/-- Every entry is differentiable. -/
def Smooth (A : V → Op (Fin n)) : Prop := ∀ x y, Differentiable ℝ fun v => A v x y

theorem smooth_const (A : Op (Fin n)) : Smooth fun _ : V => A := fun _ _ => differentiable_const _

theorem Smooth.mul {A B : V → Op (Fin n)} (hA : Smooth A) (hB : Smooth B) :
    Smooth fun v => A v * B v := by
  intro x y
  simp only [mul_apply]
  exact Differentiable.fun_sum fun z _ => (hA x z).mul (hB z y)

theorem smooth_rotationAbout (P : Op (Fin n)) {f : V → ℝ} (hf : Differentiable ℝ f) :
    Smooth fun v => rotationAbout P (f v) := by
  intro x y
  have hc : Differentiable ℝ fun v => (Real.cos (f v) : ℂ) := Complex.ofRealCLM.differentiable.comp hf.cos
  have hs : Differentiable ℝ fun v => (Real.sin (f v) : ℂ) := Complex.ofRealCLM.differentiable.comp hf.sin
  exact (hc.mul_const ((1 : Op (Fin n)) x y)).sub ((hs.mul_const Complex.I).mul_const (P x y))

theorem smooth_circuit {calls : List (V → GateCall ℝ)} (h : ∀ g ∈ calls, Smooth fun v => (g v).operator n) :
    Smooth fun v => circuitOperator n (calls.map (· v)) := by
  induction calls with
  | nil => exact smooth_const 1
  | cons g calls ih =>
    obtain ⟨hg, hcalls⟩ := List.forall_mem_cons.mp h
    exact (ih hcalls).mul hg

theorem differentiable_energy (obs : Observable ℝ) (calls : List (V → GateCall ℝ))
    (h : ∀ g ∈ calls, Smooth fun v => (g v).operator n) :
    Differentiable ℝ fun v => energy n obs (calls.map (· v)) := by
  have hψ : ∀ x, Differentiable ℝ fun v => preparedState n (calls.map (· v)) x := fun x => by
    simp only [preparedState, mulVec, dotProduct]
    exact Differentiable.fun_sum fun y _ => (smooth_circuit h x y).mul_const _
  have hA : ∀ x, Differentiable ℝ fun v => (obs.operator n *ᵥ preparedState n (calls.map (· v))) x :=
    fun x => by
      simp only [mulVec, dotProduct]
      exact Differentiable.fun_sum fun y _ => (hψ y).const_mul _
  have hE : Differentiable ℝ fun v => expect (obs.operator n) (preparedState n (calls.map (· v))) := by
    simp only [expect, dotProduct]
    exact Differentiable.fun_sum fun x _ => (Complex.conjCLE.differentiable.comp (hψ x)).mul (hA x)
  exact Complex.reCLM.differentiable.comp hE

end Differentiable

/-! ### One gate -/

namespace GateCall

/-- The call with `x` for its symbolic angle. -/
noncomputable def setAngle (x : ℝ) (g : GateCall ℝ) : GateCall ℝ :=
  if g.rotationAngle.isSome then g.mapFirst fun _ => .const x else g.resolve []

theorem setAngle_of_none {g : GateCall ℝ} (h : g.rotationAngle = none) (x : ℝ) :
    g.setAngle x = g.resolve [] := if_neg (by simp [h])

variable {n P : ℕ} {g : GateCall ℝ} {p : Param ℝ}

theorem operator_rotation {q : Fin n} {R : ℝ → Matrix2x2 ℂ} {B : Op1}
    (hk : ∀ x, (g.setAngle x).kernel = .single q (R x)) (hR : ∀ x, (R x).toOp = rotationAbout B (half x)) :
    ∃ A : Op (Fin n), ∀ x, (g.setAngle x).operator n = rotationAbout A (half x) :=
  ⟨onQubit q B, fun x => by rw [operator, hk, Kernel.operator_single, hR, onQubit_rotationAbout]⟩

/-- A rotation turns about some operator by half its angle. -/
theorem setAngle_operator (hf : g.Fits n P) (hp : g.rotationAngle = some p) :
    ∃ A : Op (Fin n), ∀ x, (g.setAngle x).operator n = rotationAbout A (half x) := by
  have hset : ∀ x, g.setAngle x = g.mapFirst fun _ => .const x := fun x => by
    rw [setAngle, if_pos (by simp [hp])]
  cases g with
  | rx q a =>
    obtain ⟨q, rfl⟩ := hf.one rfl
    exact operator_rotation (q := q) (fun x => by rw [hset]; rfl) Gates.toOp_RX
  | ry q a =>
    obtain ⟨q, rfl⟩ := hf.one rfl
    exact operator_rotation (q := q) (fun x => by rw [hset]; rfl) Gates.toOp_RY
  | rz q a =>
    obtain ⟨q, rfl⟩ := hf.one rfl
    exact operator_rotation (q := q) (fun x => by rw [hset]; rfl) Gates.toOp_RZ
  | _ => simp [rotationAngle] at hp

/-- Binding sets the angle. -/
theorem resolve_eq_setAngle (hp : g.rotationAngle = some p) (theta : List ℝ) :
    g.resolve theta = g.setAngle (p.resolve theta) := by
  rw [setAngle, if_pos (by simp [hp])]
  cases g with
  | rx q a | ry q a | rz q a =>
    simp only [rotationAngle, Option.ite_none_right_eq_some, Option.some.injEq] at hp
    rw [← hp.2]
    rfl
  | _ => simp [rotationAngle] at hp

theorem shiftFirst_eq_setAngle (hp : g.rotationAngle = some p) (theta : List ℝ) (delta : ℝ) :
    (g.resolve theta).shiftFirst delta = g.setAngle (p.resolve theta + delta) := by
  rw [resolve_eq_setAngle hp, setAngle, setAngle, if_pos (by simp [hp]), if_pos (by simp [hp])]
  cases g with
  | rx q a | ry q a | rz q a => rfl
  | _ => simp [rotationAngle] at hp

theorem mapArgs_congr {f f' : Param ℝ → Param ℝ} (h : ∀ a ∈ g.args, f a = f' a) :
    g.mapArgs f = g.mapArgs f' := by
  cases g <;> simp_all [mapArgs, args]

/-- A call without symbolic angle is the same at every `theta`. -/
theorem resolve_of_none (h : g.op.isParametric = true → g.op.type = .RX ∨ g.op.type = .RY ∨ g.op.type = .RZ)
    (hp : g.rotationAngle = none) (theta : List ℝ) (x : ℝ) : g.resolve theta = g.setAngle x := by
  have hpar : g.op.isParametric = false := by
    by_contra hc
    rw [Bool.not_eq_false] at hc
    obtain ⟨a, ha, -⟩ := rotationAngle_of_parametric hc (h hc)
    rw [hp] at ha
    cases ha
  have hargs : ∀ a ∈ g.args, a.isSymbolic = false := by
    intro a ha
    by_contra hc
    have hany : g.args.any Param.isSymbolic = true := List.any_eq_true.mpr ⟨a, ha, by simpa using hc⟩
    simp [GateOp.isParametric, GateCall.op, hany] at hpar
  rw [setAngle_of_none hp]
  exact mapArgs_congr fun a ha => by
    rw [Param.resolve_of_not_symbolic (hargs a ha), Param.resolve_of_not_symbolic (hargs a ha)]

end GateCall

/-- **The energy is a sinusoid** in the angle of each rotation. -/
theorem sinusoid_energy {n P : ℕ} {g : GateCall ℝ} {p : Param ℝ} (hf : g.Fits n P)
    (hp : g.rotationAngle = some p) (obs : Observable ℝ) (before after : List (GateCall ℝ)) :
    Sinusoid fun y => energy n obs (before ++ g.setAngle y :: after) := by
  obtain ⟨A, hA⟩ := GateCall.setAngle_operator hf hp
  have henergy : ∀ y, energy n obs (before ++ g.setAngle y :: after) =
      (expect ((circuitOperator n after)ᴴ * obs.operator n * circuitOperator n after)
        (rotationAbout A (y / 2) *ᵥ preparedState n before)).re := by
    intro y
    rw [← expect_mulVec, energy, preparedState, circuitOperator_append, circuitOperator, hA,
      ← mulVec_mulVec, ← mulVec_mulVec]
    rfl
  rw [funext henergy]
  exact sinusoid_rotationAbout _ A _

/-! ### All gates -/

theorem ofFn_update {α : Type*} {m : ℕ} (f : Fin m → α) (k : Fin m) (x : α) :
    List.ofFn (Function.update f k x) = (List.ofFn f).set k x := by
  refine List.ext_getElem (by simp) fun i h1 h2 => ?_
  rw [List.getElem_ofFn, List.getElem_set, List.getElem_ofFn, Function.update_apply]
  simp [Fin.ext_iff, eq_comm]

section AllGates

variable {n P : ℕ} (obs : Observable ℝ) (calls : List (GateCall ℝ))

/-- The energy as a function of one angle for each call. -/
noncomputable def angleEnergy (n : ℕ) (a : Fin calls.length → ℝ) : ℝ :=
  energy n obs (List.ofFn fun k => (calls.get k).setAngle (a k))

/-- The angles of the calls at `theta`. -/
noncomputable def anglesAt (theta : List ℝ) (k : Fin calls.length) : ℝ :=
  ((calls.get k).rotationAngle.map (·.resolve theta)).getD 0

theorem angleEnergy_update (a : Fin calls.length → ℝ) (k : Fin calls.length) (y : ℝ) :
    angleEnergy obs calls n (Function.update a k y) = energy n obs
      ((List.ofFn fun j => (calls.get j).setAngle (a j)).set k ((calls.get k).setAngle y)) := by
  have h : (fun j => (calls.get j).setAngle (Function.update a k y j)) =
      Function.update (fun j => (calls.get j).setAngle (a j)) k ((calls.get k).setAngle y) := by
    funext j
    exact Function.apply_update (fun j x => (calls.get j).setAngle x) a k y j
  rw [angleEnergy, h, ofFn_update]

variable {calls} (hf : ∀ g ∈ calls, g.Fits n P)

include hf in
/-- The derivative of the energy in all angles. -/
theorem hasFDerivAt_angleEnergy (a : Fin calls.length → ℝ) :
    HasFDerivAt (angleEnergy obs calls n)
      (∑ k, (shiftDifference (Real.pi / 2) (angleEnergy obs calls n) a k / 2) • coordinate k) a := by
  have hsmooth : ∀ k, Smooth fun a : Fin calls.length → ℝ => ((calls.get k).setAngle (a k)).operator n := by
    intro k
    cases hp : (calls.get k).rotationAngle with
    | none =>
      simp only [GateCall.setAngle_of_none hp]
      exact smooth_const _
    | some p =>
      obtain ⟨A, hA⟩ := GateCall.setAngle_operator (hf _ (calls.get_mem k)) hp
      simp only [hA]
      have hk : Differentiable ℝ fun a : Fin calls.length → ℝ => a k := differentiable_apply k
      have hhalf : Differentiable ℝ fun a : Fin calls.length → ℝ => half (a k) := by
        simpa only [half, div_eq_mul_inv] using hk.mul_const ((2 : ℝ)⁻¹)
      exact smooth_rotationAbout A hhalf
  have hd : Differentiable ℝ (angleEnergy obs calls n) := by
    have h := differentiable_energy (n := n) obs ((List.finRange calls.length).map
      fun k (a : Fin calls.length → ℝ) => (calls.get k).setAngle (a k)) fun g hg => by
        obtain ⟨k, -, rfl⟩ := List.mem_map.mp hg
        exact hsmooth k
    simp only [List.map_map, Function.comp_def] at h
    unfold angleEnergy
    simpa only [List.ofFn_eq_map] using h
  refine hasFDerivAt_of_sinusoid hd.differentiableAt fun k => ?_
  simp only [angleEnergy_update]
  cases hp : (calls.get k).rotationAngle with
  | none =>
    simp only [GateCall.setAngle_of_none hp]
    exact sinusoid_const _
  | some p =>
    simp only [List.set_eq_take_append_cons_drop, List.length_ofFn, k.isLt, if_true]
    exact sinusoid_energy (hf _ (calls.get_mem k)) hp obs _ _

omit hf in
/-- Binding sets every angle. -/
theorem map_resolve_eq (h : ShiftRuleApplies (calls.map GateCall.op)) (theta : List ℝ) :
    calls.map (GateCall.resolve theta) =
      List.ofFn fun k => (calls.get k).setAngle (anglesAt calls theta k) := by
  refine List.ext_getElem (by simp) fun i h1 h2 => ?_
  have hi : i < calls.length := by simpa using h1
  rw [List.getElem_map, List.getElem_ofFn, List.get_eq_getElem]
  have hrule := h _ (List.mem_map_of_mem (List.getElem_mem hi))
  cases hp : calls[i].rotationAngle with
  | none => exact GateCall.resolve_of_none hrule hp theta _
  | some p => simp [anglesAt, hp, GateCall.resolve_eq_setAngle hp]

/-- A plain request. -/
theorem energy_plain (h : ShiftRuleApplies (calls.map GateCall.op)) (theta : List ℝ) :
    energy n obs (bindCalls calls theta (-1) 0) = angleEnergy obs calls n (anglesAt calls theta) := by
  rw [bindCalls, if_neg (by decide), map_resolve_eq h]
  rfl

/-- A request that shifts a rotation. -/
theorem energy_shift (h : ShiftRuleApplies (calls.map GateCall.op)) (theta : List ℝ)
    (k : Fin calls.length) {p : Param ℝ} (hp : (calls.get k).rotationAngle = some p) (delta : ℝ) :
    energy n obs (bindCalls calls theta (k : ℕ) delta) = angleEnergy obs calls n
      (Function.update (anglesAt calls theta) k (anglesAt calls theta k + delta)) := by
  have hk : (k : ℕ) < (calls.map (GateCall.resolve theta)).length := by simp
  have ha : anglesAt calls theta k = p.resolve theta := by simp only [anglesAt, hp]; rfl
  rw [angleEnergy_update, ← map_resolve_eq h, bindCalls, if_pos (Int.natCast_nonneg _), Int.toNat_natCast,
    List.modify_eq_set_get _ hk, List.get_eq_getElem, List.getElem_map, ha]
  rw [← GateCall.shiftFirst_eq_setAngle hp]
  rfl

end AllGates

/-! ### The chain rule -/

/-- The energy a request asks for. -/
noncomputable def requestEnergy (n : ℕ) (obs : Observable ℝ) (calls : List (GateCall ℝ)) (r : Request ℝ) :
    ℝ :=
  energy n obs (bindCalls calls r.theta r.op r.delta)

section Chain

variable {n P : ℕ} (obs : Observable ℝ) {calls : List (GateCall ℝ)}

/-- The derivative of the angle of a call in the parameters. -/
noncomputable def angleSlope (P : ℕ) (g : GateCall ℝ) : (Fin P → ℝ) →L[ℝ] ℝ :=
  match g.rotationAngle with
  | some p => if h : p.index.toNat < P then p.scale • coordinate ⟨p.index.toNat, h⟩ else 0
  | none => 0

theorem GateCall.rotationAngle_fits {g : GateCall ℝ} {p : Param ℝ} (hf : g.Fits n P)
    (hp : g.rotationAngle = some p) : p.isSymbolic = true ∧ p.index.toNat < P := by
  cases g with
  | rx q a | ry q a | rz q a =>
    simp only [rotationAngle, Option.ite_none_right_eq_some, Option.some.injEq] at hp
    obtain ⟨hs, rfl⟩ := hp
    exact ⟨hs, hf.bound a List.mem_cons_self hs⟩
  | _ => simp [rotationAngle] at hp

theorem resolve_ofFn {p : Param ℝ} (hs : p.isSymbolic = true) (h : p.index.toNat < P) (θ : Fin P → ℝ) :
    p.resolve (List.ofFn θ) = p.scale * θ ⟨p.index.toNat, h⟩ + p.offset := by
  have hi : 0 ≤ p.index := by simpa [Param.isSymbolic] using hs
  rw [Param.resolve, if_pos hi, List.getD_eq_getElem _ _ (by simpa using h), List.getElem_ofFn]

theorem hasFDerivAt_anglesAt (hf : ∀ g ∈ calls, g.Fits n P) (θ : Fin P → ℝ) :
    HasFDerivAt (fun θ : Fin P → ℝ => anglesAt calls (List.ofFn θ))
      (ContinuousLinearMap.pi fun k => angleSlope P (calls.get k)) θ := by
  refine hasFDerivAt_pi.mpr fun k => ?_
  unfold anglesAt angleSlope
  cases hp : (calls.get k).rotationAngle with
  | none => exact hasFDerivAt_const _ _
  | some p =>
    obtain ⟨hs, h⟩ := GateCall.rotationAngle_fits (hf _ (calls.get_mem k)) hp
    simp only [Option.map_some, Option.getD_some, resolve_ofFn hs h, dif_pos h]
    exact ((hasFDerivAt_apply _ θ).const_mul p.scale).add_const _

/-- A sum over the calls runs over the rotations. -/
theorem sum_shiftedGates {M : Type*} [AddCommMonoid M] (f : ℕ → Param ℝ → M) :
    ∀ (calls : List (GateCall ℝ)) (k : ℕ), ((shiftedGates k calls).map fun s => f s.1 s.2).sum =
      ∑ j : Fin calls.length, (calls.get j).rotationAngle.elim 0 (f (k + j))
  | [], _ => rfl
  | g :: calls, k => by
    have hg : ((g.rotationAngle.map fun a => (k, a)).toList.map fun s => f s.1 s.2).sum =
        g.rotationAngle.elim 0 (f k) := by
      cases g.rotationAngle <;> simp
    have ih := sum_shiftedGates f calls (k + 1)
    rw [shiftedGates, List.map_append, List.sum_append, hg, ih]
    simp [Fin.sum_univ_succ, Nat.add_assoc, Nat.add_comm 1]

/-- Terms that start from zeros add up, parameter by parameter. -/
theorem addRows_replicate (rows : List (Row ℝ)) :
    addRows rows (List.replicate P 0) = List.ofFn fun i : Fin P =>
      (rows.map fun r => if r.1.param = (i : ℕ) then r.1.weight * (r.2.1 - r.2.2) else 0).sum := by
  refine List.ext_getElem? fun i => ?_
  rw [getElem?_addRows, List.getElem?_replicate, List.getElem?_ofFn]
  by_cases hi : i < P <;> simp [hi]

/-- What the terms add up to in direction `v`. -/
theorem sum_rows (rows : List (Row ℝ)) (v : Fin P → ℝ) :
    ∑ i : Fin P, (rows.map fun r => if r.1.param = (i : ℕ) then r.1.weight * (r.2.1 - r.2.2) else 0).sum * v i =
      (rows.map fun r => r.1.weight * (r.2.1 - r.2.2) * (List.ofFn v).getD r.1.param 0).sum := by
  induction rows with
  | nil => simp
  | cons r rows ih =>
    simp only [List.map_cons, List.sum_cons, add_mul, Finset.sum_add_distrib, ih, ite_mul, zero_mul]
    congr 1
    by_cases h : r.1.param < P
    · have hi : ∀ i : Fin P, r.1.param = (i : ℕ) ↔ (⟨r.1.param, h⟩ : Fin P) = i := fun i => by
        rw [Fin.ext_iff]
      rw [List.getD_eq_getElem _ _ (by simpa using h), List.getElem_ofFn]
      simp only [hi, Finset.sum_ite_eq, Finset.mem_univ, if_true]
    · have hi : ∀ i : Fin P, r.1.param ≠ (i : ℕ) := fun i hi => h (hi ▸ i.isLt)
      rw [List.getD_eq_default _ _ (by simpa using h)]
      simp [hi]

/-- One rotation: half the difference of its two requests, times its slope. -/
theorem shiftDifference_mul_slope (hf : ∀ g ∈ calls, g.Fits n P)
    (h : ShiftRuleApplies (calls.map GateCall.op)) (θ v : Fin P → ℝ) (k : Fin calls.length) :
    shiftDifference (Real.pi / 2) (angleEnergy obs calls n) (anglesAt calls (List.ofFn θ)) k / 2 *
        angleSlope P (calls.get k) v =
      (calls.get k).rotationAngle.elim 0 fun p =>
        half 1 * p.scale * (requestEnergy n obs calls ⟨List.ofFn θ, (k : ℕ), kHalfPi⟩ -
          requestEnergy n obs calls ⟨List.ofFn θ, (k : ℕ), -kHalfPi⟩) *
            (List.ofFn v).getD p.index.toNat 0 := by
  unfold angleSlope
  cases hp : (calls.get k).rotationAngle with
  | none => simp
  | some p =>
    obtain ⟨-, hi⟩ := GateCall.rotationAngle_fits (hf _ (calls.get_mem k)) hp
    have hv : (List.ofFn v).getD p.index.toNat 0 = v ⟨p.index.toNat, hi⟩ := by
      rw [List.getD_eq_getElem _ _ (by simpa using hi), List.getElem_ofFn]
    simp only [requestEnergy, energy_shift obs h _ k hp, Option.elim_some, dif_pos hi, hv,
      shiftDifference, kHalfPi, half, ← sub_eq_add_neg]
    rw [FunLike.coe_smul, Pi.smul_apply, smul_eq_mul, ContinuousLinearMap.proj_apply]
    ring

/-- The terms of the shift rule add up to the derivative of the energy. -/
theorem hasFDerivAt_requestEnergy (hf : ∀ g ∈ calls, g.Fits n P)
    (h : ShiftRuleApplies (calls.map GateCall.op)) (θ : Fin P → ℝ) :
    let E := requestEnergy n obs calls
    let rows := (shiftedGates 0 calls).map fun s : ℕ × Param ℝ =>
      (shiftTerm s, E ⟨List.ofFn θ, s.1, kHalfPi⟩, E ⟨List.ofFn θ, s.1, -kHalfPi⟩)
    HasFDerivAt (fun θ : Fin P → ℝ => E ⟨List.ofFn θ, -1, 0⟩)
      (∑ i : Fin P, (rows.map fun r =>
        if r.1.param = (i : ℕ) then r.1.weight * (r.2.1 - r.2.2) else 0).sum • coordinate i) θ := by
  intro E rows
  have hcomp := (hasFDerivAt_angleEnergy obs hf (anglesAt calls (List.ofFn θ))).comp θ
    (hasFDerivAt_anglesAt hf θ)
  have hE : (fun θ : Fin P → ℝ => E ⟨List.ofFn θ, -1, 0⟩) =
      angleEnergy obs calls n ∘ fun θ : Fin P → ℝ => anglesAt calls (List.ofFn θ) :=
    funext fun θ => energy_plain obs h (List.ofFn θ)
  rw [hE]
  refine hcomp.congr_fderiv (ContinuousLinearMap.ext fun v => ?_)
  calc _ = ∑ k, shiftDifference (Real.pi / 2) (angleEnergy obs calls n) (anglesAt calls (List.ofFn θ)) k / 2 *
          angleSlope P (calls.get k) v := by
        simp
    _ = ∑ k : Fin calls.length, (calls.get k).rotationAngle.elim 0 fun p =>
          half 1 * p.scale * (E ⟨List.ofFn θ, (0 + (k : ℕ) : ℕ), kHalfPi⟩ -
            E ⟨List.ofFn θ, (0 + (k : ℕ) : ℕ), -kHalfPi⟩) * (List.ofFn v).getD p.index.toNat 0 :=
        Finset.sum_congr rfl fun k _ => by rw [shiftDifference_mul_slope obs hf h, Nat.zero_add]
    _ = (rows.map fun r => r.1.weight * (r.2.1 - r.2.2) * (List.ofFn v).getD r.1.param 0).sum := by
        rw [← sum_shiftedGates (fun k p => half 1 * p.scale * (E ⟨List.ofFn θ, k, kHalfPi⟩ -
          E ⟨List.ofFn θ, k, -kHalfPi⟩) * (List.ofFn v).getD p.index.toNat 0), List.map_map]
        rfl
    _ = _ := by
        rw [← sum_rows]
        simp

end Chain

/-! ### Gradients -/

/-- An evaluator that answers each request with its energy. -/
def ExactEvaluator (ansatz : Circuit ℝ) (E : Request ℝ → ℝ)
    (expectationBatch : EvalBatch ℝ → Except Exn (List ℝ)) : Prop :=
  ∀ (requests : List (Request ℝ)) (shots : ℕ), (∀ r ∈ requests, Accepts ansatz r) →
    expectationBatch { EvalBatch.ofRequests requests with shots := shots } = .ok (requests.map E)

section Gradients

variable {ansatz : Circuit ℝ} {calls : List (GateCall ℝ)} {E : Request ℝ → ℝ}
  {expectationBatch : EvalBatch ℝ → Except Exn (List ℝ)}

/-- **1 + 2 · terms rows.** -/
theorem count_gradientBatch {κ : Type} (r : Request ℝ) (l : List κ) (plus minus : κ → Request ℝ) :
    (EvalBatch.ofRequests (r :: l.flatMap fun k => [plus k, minus k])).count = 1 + 2 * l.length := by
  simp [count_ofRequests, List.length_flatMap]
  ring

/-- The gradient of a batch with two requests for each term. -/
theorem energyAndGradient_eq (he : ExactEvaluator ansatz E expectationBatch) {theta : List ℝ}
    {method : GradientMethod} {fdEps : ℝ} {κ : Type} {l : List κ} {term : κ → GradientTerm ℝ}
    {plus minus : κ → Request ℝ} (hb : buildGradientBatch ansatz theta method fdEps =
      .ok (.ofRequests (⟨theta, -1, 0⟩ :: l.flatMap fun k => [plus k, minus k]), l.map term))
    (h₀ : Accepts ansatz ⟨theta, -1, 0⟩)
    (hr : ∀ k ∈ l, Accepts ansatz (plus k) ∧ Accepts ansatz (minus k))
    (hp : ∀ k ∈ l, (term k).param < ansatz.numParams) (shots evals : ℕ) :
    energyAndGradient expectationBatch ansatz theta method fdEps shots evals =
      .ok (E ⟨theta, -1, 0⟩,
        addRows (l.map fun k => (term k, E (plus k), E (minus k))) (List.replicate ansatz.numParams 0),
        evals + (1 + 2 * l.length)) := by
  have hacc : ∀ r ∈ (⟨theta, -1, 0⟩ : Request ℝ) :: l.flatMap fun k => [plus k, minus k],
      Accepts ansatz r := by
    refine List.forall_mem_cons.mpr ⟨h₀, fun r hmem => ?_⟩
    obtain ⟨k, hk, hmem⟩ := List.mem_flatMap.mp hmem
    rcases List.mem_pair.mp hmem with rfl | rfl
    · exact (hr k hk).1
    · exact (hr k hk).2
  have hrows : combineTerms (E ⟨theta, -1, 0⟩ :: answers (l.map fun k => (term k, E (plus k), E (minus k))))
      (l.map term) (List.replicate ansatz.numParams 0) =
      .ok (addRows (l.map fun k => (term k, E (plus k), E (minus k))) (List.replicate ansatz.numParams 0)) := by
    have h := combineTerms_eq (l.map fun k => (term k, E (plus k), E (minus k))) (E ⟨theta, -1, 0⟩)
      (List.replicate ansatz.numParams 0) fun r hr => by
        obtain ⟨k, hk, rfl⟩ := List.mem_map.mp hr
        simpa using hp k hk
    simpa only [List.map_map, Function.comp_def] using h
  have heval := he _ shots hacc
  have hmap : ((⟨theta, -1, 0⟩ : Request ℝ) :: l.flatMap fun k => [plus k, minus k]).map E =
      E ⟨theta, -1, 0⟩ :: answers (l.map fun k => (term k, E (plus k), E (minus k))) := by
    simp [answers, List.map_flatMap, List.flatMap_map]
  rw [hmap] at heval
  simp only [energyAndGradient, hb, liftM_except, ok_bind, heval, hrows, vecAt_zero]
  rw [count_gradientBatch]
  rfl

theorem accepts_plain (hc : ansatz.Legal calls) {theta : List ℝ} (h : theta.length = ansatz.numParams) :
    Accepts ansatz ⟨theta, -1, 0⟩ :=
  ⟨_, (Circuit.bind_eq_ok _ _ hc.ops _ _ _ _).mpr ⟨h, fun hneg => absurd hneg (by simp), rfl⟩⟩

theorem mem_shiftedGates {s : ℕ × Param ℝ} : ∀ {calls : List (GateCall ℝ)} {k : ℕ}, s ∈ shiftedGates k calls →
    ∃ j g, s.1 = k + j ∧ calls[j]? = some g ∧ g.rotationAngle = some s.2
  | [], _, hs => absurd hs List.not_mem_nil
  | g :: calls, k, hs => by
    rcases List.mem_append.mp hs with hs | hs
    · obtain ⟨a, ha, rfl⟩ := Option.map_eq_some_iff.mp (Option.mem_toList.mp hs)
      exact ⟨0, g, rfl, rfl, ha⟩
    · obtain ⟨j, g', hj, hg', ha⟩ := mem_shiftedGates hs
      exact ⟨j + 1, g', by omega, hg', ha⟩

theorem accepts_shift (hc : ansatz.Legal calls) {theta : List ℝ} (h : theta.length = ansatz.numParams)
    {s : ℕ × Param ℝ} (hs : s ∈ shiftedGates 0 calls) (delta : ℝ) : Accepts ansatz ⟨theta, s.1, delta⟩ := by
  obtain ⟨j, g, hj, hg, ha⟩ := mem_shiftedGates hs
  refine ⟨_, (Circuit.bind_eq_ok _ _ hc.ops _ _ _ _).mpr ⟨h, fun _ => ⟨g, ?_, ?_⟩, rfl⟩⟩
  · rw [Int.toNat_natCast, hj, Nat.zero_add, hg]
  · rintro hargs
    cases g <;> simp_all [GateCall.rotationAngle, GateCall.args]

theorem parametric_of_rotationAngle {g : GateCall ℝ} {p : Param ℝ} (hp : g.rotationAngle = some p) :
    g.op.isParametric = true := by
  cases hpar : g.op.isParametric
  · rw [rotationAngle_of_not_parametric hpar] at hp
    cases hp
  · rfl

theorem castInt_shifted (hc : ansatz.Legal calls) (hpos : SymbolicBelow (2 ^ 31) ansatz.ops) {s : ℕ × Param ℝ}
    (hs : s ∈ shiftedGates 0 calls) : castInt s.1 = s.1 := by
  obtain ⟨j, g, hj, hg, ha⟩ := mem_shiftedGates hs
  rw [Nat.zero_add] at hj
  have hop : ansatz.ops[j]? = some g.op := by
    rw [hc.ops, List.getElem?_map, hg]
    rfl
  exact castInt_of_lt (hj ▸ hpos j g.op hop (parametric_of_rotationAngle ha))

/-- The parameter of each term is one of the circuit. -/
theorem param_shiftTerm_lt (hc : ansatz.Legal calls) {s : ℕ × Param ℝ} (hs : s ∈ shiftedGates 0 calls) :
    (shiftTerm s).param < ansatz.numParams := by
  obtain ⟨j, g, -, hg, ha⟩ := mem_shiftedGates hs
  exact (GateCall.rotationAngle_fits (hc.fits g (List.mem_of_getElem? hg)) ha).2

theorem modify_ofFn {P : ℕ} (θ : Fin P → ℝ) (i : Fin P) (f : ℝ → ℝ) :
    (List.ofFn θ).modify i f = List.ofFn (Function.update θ i (f (θ i))) := by
  rw [ofFn_update, List.modify_eq_set_get _ (by simp)]
  simp

/-- The terms of the central differences. -/
theorem addRows_difference {P : ℕ} (w : ℝ) (plus minus : ℕ → ℝ) :
    addRows ((List.range P).map fun i => ((⟨i, w⟩ : GradientTerm ℝ), plus i, minus i)) (List.replicate P 0) =
      List.ofFn fun i : Fin P => w * (plus i - minus i) := by
  rw [addRows_replicate]
  congr 1
  funext i
  have hcount : (List.range P).count (i : ℕ) = 1 :=
    List.count_eq_one_of_mem List.nodup_range (List.mem_range.mpr i.isLt)
  rw [List.map_map]
  simp only [Function.comp_def]
  rw [List.sum_map_ite_eq, hcount]
  simp

/-- The shift rule, if the requests are accepted. -/
theorem energyAndGradient_requests (hc : ansatz.Legal calls)
    (he : ExactEvaluator ansatz E expectationBatch) (h : ShiftRuleApplies ansatz.ops)
    {theta : List ℝ} (hθ : theta.length = ansatz.numParams)
    (hr : ∀ s ∈ shiftedGates 0 calls, ∀ delta, Accepts ansatz ⟨theta, castInt s.1, delta⟩)
    (fdEps : ℝ) (shots evals : ℕ) :
    energyAndGradient expectationBatch ansatz theta .ParameterShift fdEps shots evals =
      .ok (E ⟨theta, -1, 0⟩,
        addRows ((shiftedGates 0 calls).map fun s : ℕ × Param ℝ =>
          (shiftTerm s, E ⟨theta, castInt s.1, kHalfPi⟩, E ⟨theta, castInt s.1, -kHalfPi⟩))
          (List.replicate ansatz.numParams 0),
        evals + (1 + 2 * (shiftedGates 0 calls).length)) :=
  energyAndGradient_eq he (buildGradientBatch_shift hc.ops h theta fdEps) (accepts_plain hc hθ)
    (fun s hs => ⟨hr s hs _, hr s hs _⟩) (fun _ hs => param_shiftTerm_lt hc hs) shots evals

/-- The shift rule, for a legal circuit whose positions are `int`s. -/
theorem energyAndGradient_shift (hc : ansatz.Legal calls)
    (he : ExactEvaluator ansatz E expectationBatch) (h : ShiftRuleApplies ansatz.ops)
    (hpos : SymbolicBelow (2 ^ 31) ansatz.ops)
    {theta : List ℝ} (hθ : theta.length = ansatz.numParams) (fdEps : ℝ) (shots evals : ℕ) :
    energyAndGradient expectationBatch ansatz theta .ParameterShift fdEps shots evals =
      .ok (E ⟨theta, -1, 0⟩,
        addRows ((shiftedGates 0 calls).map fun s : ℕ × Param ℝ =>
          (shiftTerm s, E ⟨theta, s.1, kHalfPi⟩, E ⟨theta, s.1, -kHalfPi⟩))
          (List.replicate ansatz.numParams 0),
        evals + (1 + 2 * (shiftedGates 0 calls).length)) := by
  have hcast : ∀ s ∈ shiftedGates 0 calls, castInt s.1 = s.1 := fun _ hs => castInt_shifted hc hpos hs
  rw [energyAndGradient_requests hc he h hθ
    (fun s hs delta => by rw [hcast s hs]; exact accepts_shift hc hθ hs delta) fdEps shots evals]
  congr 3
  exact congrArg (addRows · _) (List.map_congr_left fun s hs => by rw [hcast s hs])

/-- Central differences, for a legal circuit. -/
theorem energyAndGradient_difference (hc : ansatz.Legal calls)
    (he : ExactEvaluator ansatz E expectationBatch) (θ : Fin ansatz.numParams → ℝ) {fdEps : ℝ}
    (hne : fdEps ≠ 0) (shots evals : ℕ) :
    energyAndGradient expectationBatch ansatz (List.ofFn θ) .FiniteDifference fdEps shots evals =
      .ok (E ⟨List.ofFn θ, -1, 0⟩,
        List.ofFn fun i => (E ⟨List.ofFn (Function.update θ i (θ i + fdEps)), -1, 0⟩ -
          E ⟨List.ofFn (Function.update θ i (θ i - fdEps)), -1, 0⟩) / (2 * fdEps),
        evals + (1 + 2 * ansatz.numParams)) := by
  have hlen : (List.ofFn θ).length = ansatz.numParams := List.length_ofFn
  have heq := energyAndGradient_eq he (buildGradientBatch_difference ansatz (List.ofFn θ) fdEps)
    (accepts_plain hc hlen)
    (fun i _ => ⟨accepts_plain hc (by rw [List.length_modify, hlen]),
      accepts_plain hc (by rw [List.length_modify, hlen])⟩)
    (fun i hi => by rwa [List.mem_range, hlen] at hi) shots evals
  rw [hlen, addRows_difference] at heq
  rw [heq, List.length_range]
  simp only [modify_ofFn, half]
  congr 3
  refine congrArg List.ofFn (funext fun i => ?_)
  field_simp

/-- **The CPU backend is exact**, and on states of any size so are its gates
and `expectation_value`. -/
theorem exactEvaluator_cpu {obs : Observable ℝ} (hc : ansatz.Legal calls) (hn : ansatz.numQubits ≤ 30)
    (ho : obs.Legal) (hno : obs.numQubits = ansatz.numQubits) (b : CPUBackend ℂ) :
    ExactEvaluator ansatz (requestEnergy obs.numQubits obs calls) fun batch => do
      return (← CPUBackend.methods.expectationBatch ansatz obs batch b).1 := by
  intro requests shots hr
  obtain ⟨b', hb'⟩ := CPUBackend.expectationBatch_eq hc hn ho hno hr b
  have h : CPUBackend.methods.expectationBatch ansatz obs
      { EvalBatch.ofRequests requests with shots := shots } b =
      CPUBackend.methods.expectationBatch ansatz obs (.ofRequests requests) b := rfl
  beta_reduce
  rw [h, hb']
  rfl

end Gradients

theorem expectationValue_of_holds {n : ℕ} {obs : Observable ℝ} (ho : obs.Legal) (hno : obs.numQubits = n)
    {psi : StateVec ℂ} {ψ : State (Fin n)} (hψ : psi.Holds ψ) :
    expectationValue psi obs = .ok (expect (obs.operator n) ψ).re := by
  subst hno
  exact expectationValue_holds ho hψ

/-! ### What is promised -/

/-- The energy `⟨ψ|H|ψ⟩` of each request, with `ψ` the state the bound circuit prepares. The CPU
backend answers with it. -/
structure EnergyOf (ansatz : Circuit ℝ) (obs : Observable ℝ) (E : Request ℝ → ℝ) : Prop where
  simulated : ∀ (r : Request ℝ) (bound : Circuit ℝ), ansatz.bind r.theta r.op r.delta = .ok bound →
    ∀ b : CPUBackend ℂ, b.state.Holds (zeroState (n := ansatz.numQubits)) →
      ∃ (b' : CPUBackend ℂ) (ψ : State (Fin ansatz.numQubits)), b.run bound.ops = .ok b' ∧
        b'.state.Holds ψ ∧ E r = (expect (obs.operator ansatz.numQubits) ψ).re ∧
        expectationValue b'.state obs = .ok (E r)
  exact : ansatz.numQubits ≤ 30 → ∀ b : CPUBackend ℂ, ExactEvaluator ansatz E fun batch => do
    return (← CPUBackend.methods.expectationBatch ansatz obs batch b).1

/-- From a batch of 1 + 2 · terms rows `energy_and_gradient` returns the energy and `grad`. -/
def Combines (expectationBatch : EvalBatch ℝ → Except Exn (List ℝ)) (ansatz : Circuit ℝ) (E : Request ℝ → ℝ)
    (method : GradientMethod) (θ : Fin ansatz.numParams → ℝ) (fdEps : ℝ) (shots evals : ℕ)
    (grad : Fin ansatz.numParams → ℝ) : Prop :=
  ∃ batch terms, buildGradientBatch ansatz (List.ofFn θ) method fdEps = .ok (batch, terms) ∧
    batch.count = 1 + 2 * terms.length ∧ (∀ t ∈ terms, t.param < ansatz.numParams) ∧
    energyAndGradient expectationBatch ansatz (List.ofFn θ) method fdEps shots evals =
      .ok (E ⟨List.ofFn θ, -1, 0⟩, List.ofFn grad, evals + batch.count)

/-- With shifted angles the gradient is the derivative of the energy. -/
def ShiftGradients (ansatz : Circuit ℝ) (E : Request ℝ → ℝ) : Prop :=
  ∀ expectationBatch, ExactEvaluator ansatz E expectationBatch →
    ∀ (θ : Fin ansatz.numParams → ℝ) (fdEps : ℝ) (shots evals : ℕ), ∃ grad,
      Combines expectationBatch ansatz E .ParameterShift θ fdEps shots evals grad ∧
      HasFDerivAt (fun θ : Fin ansatz.numParams → ℝ => E ⟨List.ofFn θ, -1, 0⟩) (∑ i, grad i • coordinate i) θ

section Differences

attribute [local instance] atLeastTwo_two

/-- With shifted parameters the gradient is the central differences. -/
def DifferenceGradients (ansatz : Circuit ℝ) (E : Request ℝ → ℝ) : Prop :=
  ∀ expectationBatch, ExactEvaluator ansatz E expectationBatch →
    ∀ (θ : Fin ansatz.numParams → ℝ) (fdEps : ℝ) (shots evals : ℕ), fdEps ≠ 0 →
      Combines expectationBatch ansatz E .FiniteDifference θ fdEps shots evals fun i =>
        (E ⟨List.ofFn (Function.update θ i (θ i + fdEps)), -1, 0⟩ -
          E ⟨List.ofFn (Function.update θ i (θ i - fdEps)), -1, 0⟩) / (2 * fdEps)

end Differences

section Promise

variable {ansatz : Circuit ℝ} {calls : List (GateCall ℝ)} {obs : Observable ℝ} {E : Request ℝ → ℝ}

theorem energyOf_requestEnergy (hc : ansatz.Legal calls) (ho : obs.Legal)
    (hno : obs.numQubits = ansatz.numQubits) :
    EnergyOf ansatz obs (requestEnergy ansatz.numQubits obs calls) := by
  refine ⟨fun r bound hb b hψ => ?_, fun hn b => ?_⟩
  · have hl := hc.bind hb
    obtain ⟨-, -, rfl⟩ := (Circuit.bind_eq_ok ansatz calls hc.ops _ _ _ _).mp hb
    obtain ⟨b', hrun, h'⟩ := CPUBackend.run_holds hψ hl.fits
    exact ⟨b', _, hrun, h', rfl, expectationValue_of_holds ho hno h'⟩
  · have hb := exactEvaluator_cpu hc hn ho hno b
    rwa [hno] at hb

theorem differenceGradients (hc : ansatz.Legal calls) : DifferenceGradients ansatz E := by
  intro expectationBatch he θ fdEps shots evals hne
  have hcount : (EvalBatch.ofRequests (⟨List.ofFn θ, -1, 0⟩ :: (List.range (List.ofFn θ).length).flatMap
      (differenceRequests (List.ofFn θ) fdEps))).count = 1 + 2 * (List.range (List.ofFn θ).length).length :=
    count_gradientBatch _ _ _ _
  have hP : ansatz.numParams = (List.range (List.ofFn θ).length).length := by simp
  have hgrad := energyAndGradient_difference hc he θ hne shots evals
  refine ⟨_, _, buildGradientBatch_difference ansatz _ fdEps, ?_, fun t ht => ?_, hgrad.trans ?_⟩
  · rw [List.length_map]
    exact hcount
  · obtain ⟨i, hi, rfl⟩ := List.mem_map.mp ht
    simpa using hi
  · rw [hcount, ← hP]

theorem shiftGradients (hc : ansatz.Legal calls) (hrule : ShiftRuleApplies ansatz.ops)
    (hpos : SymbolicBelow (2 ^ 31) ansatz.ops) :
    ShiftGradients ansatz (requestEnergy ansatz.numQubits obs calls) := by
  intro expectationBatch he θ fdEps shots evals
  have hθ : (List.ofFn θ).length = ansatz.numParams := List.length_ofFn
  have hcount : (EvalBatch.ofRequests (⟨List.ofFn θ, -1, 0⟩ :: (shiftedGates 0 calls).flatMap
      (shiftRequests (List.ofFn θ)))).count = 1 + 2 * (shiftedGates 0 calls).length :=
    count_gradientBatch _ _ _ _
  have hgrad := energyAndGradient_shift hc he hrule hpos hθ fdEps shots evals
  rw [addRows_replicate, ← hcount] at hgrad
  refine ⟨_, ⟨_, _, buildGradientBatch_shift hc.ops hrule _ fdEps, ?_, fun t ht => ?_, hgrad⟩,
    hasFDerivAt_requestEnergy obs hc.fits (hc.ops ▸ hrule) θ⟩
  · rw [List.length_map]
    exact hcount
  · obtain ⟨s, hs, rfl⟩ := List.mem_map.mp ht
    exact param_shiftTerm_lt hc hs

end Promise

/-! ### A rotation at a position that is no `int` -/

/-- RX(θ₀) after `K` gates that do nothing to |0⟩. -/
def lateCalls (K : ℕ) : List (GateCall ℝ) := List.replicate K (.z 0) ++ [.rx 0 ⟨0, 1, 0⟩]

def lateRotation (K : ℕ) : Circuit ℝ := ⟨1, 1, (lateCalls K).map GateCall.op, []⟩

theorem length_lateRotation (K : ℕ) : (lateRotation K).ops.length = K + 1 := by
  simp [lateRotation, lateCalls]

theorem built_replicate : ∀ K : ℕ,
    Circuit.Built (⟨1, 1, (List.replicate K (GateCall.z 0)).map GateCall.op, []⟩ : Circuit ℝ)
  | 0 => .newParam (.new (n := 1) rfl)
  | K + 1 => by
    have hfits : (GateCall.z 0 : GateCall ℝ).Fits 1 1 :=
      ⟨by simp [GateCall.qubits], by simp [GateCall.qubits], by simp [GateCall.args]⟩
    rw [List.replicate_succ', List.map_append]
    exact .gate (built_replicate K) ((Circuit.gate_eq_ok _ (.z 0) _).mpr ⟨hfits, rfl⟩)

theorem built_lateRotation (K : ℕ) : Circuit.Built (lateRotation K) := by
  have hfits : (GateCall.rx 0 ⟨0, 1, 0⟩ : GateCall ℝ).Fits 1 1 :=
    ⟨by simp [GateCall.qubits], by simp [GateCall.qubits], by simp [GateCall.args]⟩
  rw [lateRotation, lateCalls, List.map_append]
  exact .gate (built_replicate K) ((Circuit.gate_eq_ok _ (.rx 0 ⟨0, 1, 0⟩) _).mpr ⟨hfits, rfl⟩)

theorem legal_lateRotation (K : ℕ) : (lateRotation K).Legal (lateCalls K) := by
  refine ⟨Nat.one_pos, rfl, fun g hg => ?_, nofun⟩
  rcases List.mem_append.mp hg with hg | hg
  · rw [List.eq_of_mem_replicate hg]
    exact ⟨by simp [GateCall.qubits, lateRotation], by simp [GateCall.qubits], by simp [GateCall.args]⟩
  · rw [List.mem_singleton.mp hg]
    exact ⟨by simp [GateCall.qubits, lateRotation], by simp [GateCall.qubits],
      by simp [GateCall.args, lateRotation]⟩

theorem shiftRuleApplies_lateRotation (K : ℕ) : ShiftRuleApplies (lateRotation K).ops := by
  intro op hop hpar
  obtain ⟨g, hg, rfl⟩ := List.mem_map.mp hop
  rcases List.mem_append.mp hg with hg | hg
  · rw [List.eq_of_mem_replicate hg] at hpar
    cases hpar
  · rw [List.mem_singleton.mp hg]
    exact .inl rfl

theorem shiftedGates_lateCalls : ∀ K k : ℕ, shiftedGates k (lateCalls K) = [(k + K, ⟨0, 1, 0⟩)]
  | 0, _ => rfl
  | K + 1, k => by
    rw [lateCalls, List.replicate_succ, List.cons_append, ← lateCalls, shiftedGates, shiftedGates_lateCalls K,
      Nat.add_assoc, Nat.add_comm 1 K]
    rfl

/-- Z on one qubit. -/
def zCost : Observable ℝ := ⟨1, [⟨1, 0, 1, 0⟩]⟩

theorem ofTerms_zCost : Observable.ofTerms 1 [.dense 1 ['Z']] = .ok zCost := rfl

theorem operator_z_mulVec : (GateCall.z 0 : GateCall ℝ).operator 1 *ᵥ zeroState = zeroState := by
  funext x
  show (Kernel.operator 1 (.single ((0 : Fin 1) : ℕ) Gates.Z) *ᵥ zeroState) x = _
  rw [Kernel.operator_single, Gates.toOp_Z, onQubit_mulVec, Fintype.sum_bool]
  cases hx : x 0 <;> simp [zeroState, Pauli.op, mat2, funext_iff, hx]

theorem preparedState_late (K : ℕ) (a : Param ℝ) :
    preparedState 1 (List.replicate K (.z 0) ++ [.rx 0 a]) =
      onQubit (0 : Fin 1) (Gates.RX a.offset).toOp *ᵥ zeroState := by
  have hz : ∀ K : ℕ, circuitOperator 1 (List.replicate K (GateCall.z 0 : GateCall ℝ)) *ᵥ zeroState = zeroState := by
    intro K
    induction K with
    | zero => exact one_mulVec _
    | succ K ih => rw [List.replicate_succ, circuitOperator, ← mulVec_mulVec, operator_z_mulVec, ih]
  rw [preparedState, circuitOperator_append, ← mulVec_mulVec, hz, circuitOperator, circuitOperator,
    Matrix.one_mul]
  exact congrArg (· *ᵥ zeroState) (Kernel.operator_single (0 : Fin 1) _)

theorem energy_late (K : ℕ) (t : ℝ) :
    energy 1 zCost (List.replicate K (.z 0) ++ [.rx 0 (.const t)]) = Real.cos t := by
  have hstate : ∀ x : Fin 1 → Bool, preparedState 1 (List.replicate K (.z 0) ++ [.rx 0 (.const t)]) x =
      if x 0 then -(Real.sin (half t) * Complex.I) else (Real.cos (half t) : ℂ) := by
    intro x
    rw [preparedState_late, Param.offset_const, onQubit_mulVec, Fintype.sum_bool, Gates.toOp_RX]
    cases hx : x 0 <;> simp [zeroState, rotationAbout, Pauli.op, mat2, funext_iff]
  have hsign : ∀ x : Fin 1 → Bool,
      (zCost.masks.map fun m => m.coeff * (-1) ^ signCount (m.string 1) x).sum = if x 0 then -1 else 1 := by
    intro x
    cases hx : x 0 <;> simp [zCost, signCount, PauliMask.string, PauliMask.pauli, hx]
  rw [energy, operator_eq_diagonal rfl, expect_diagonal, ← (Equiv.funUnique (Fin 1) Bool).symm.sum_comp,
    Fintype.sum_bool]
  simp only [hstate, hsign]
  have hcos : Real.cos t = Real.cos (half t) ^ 2 - Real.sin (half t) ^ 2 := by
    rw [half, ← Real.cos_two_mul', mul_div_cancel₀ _ two_ne_zero]
  simp [Complex.normSq_neg, Complex.normSq_mul, Complex.normSq_ofReal, hcos, -Complex.ofReal_cos,
    -Complex.ofReal_sin]
  ring

theorem requestEnergy_late (K : ℕ) (t : ℝ) : requestEnergy 1 zCost (lateCalls K) ⟨[t], -1, 0⟩ = Real.cos t := by
  have hcalls : bindCalls (lateCalls K) [t] (-1) 0 = List.replicate K (.z 0) ++ [.rx 0 (.const t)] := by
    have hangle : (⟨0, 1, 0⟩ : Param ℝ).resolve [t] = t := by simp [Param.resolve]
    rw [bindCalls, if_neg (by decide), lateCalls, List.map_append, List.map_replicate, List.map_singleton]
    exact congrArg (fun a => List.replicate K (GateCall.z 0) ++ [GateCall.rx 0 (.const a)]) hangle
  rw [requestEnergy, hcalls, energy_late]

theorem ExactEvaluator.unique {ansatz : Circuit ℝ} {E E' : Request ℝ → ℝ}
    {expectationBatch : EvalBatch ℝ → Except Exn (List ℝ)} (h : ExactEvaluator ansatz E expectationBatch)
    (h' : ExactEvaluator ansatz E' expectationBatch) {r : Request ℝ} (hr : Accepts ansatz r) : E r = E' r := by
  have hone : ∀ r' ∈ [r], Accepts ansatz r' := fun r' hr' => List.mem_singleton.mp hr' ▸ hr
  have heq := Except.ok.inj ((h [r] 0 hone).symm.trans (h' [r] 0 hone))
  exact (List.cons.inj heq).1

theorem accepts_late {K : ℕ} {theta : List ℝ} {op : ℤ} (delta : ℝ) (htheta : theta.length = 1) (hop : op < 0) :
    Accepts (lateRotation K) ⟨theta, op, delta⟩ :=
  ⟨_, (Circuit.bind_eq_ok _ _ (legal_lateRotation K).ops _ _ _ _).mpr
    ⟨htheta, fun hnn => absurd hop (not_lt.mpr hnn), rfl⟩⟩

/-- A negative gate number shifts nothing. -/
theorem EnergyOf.late {K : ℕ} {E : Request ℝ → ℝ} (hE : EnergyOf (lateRotation K) zCost E) {theta : List ℝ}
    {op : ℤ} (delta : ℝ) (htheta : theta.length = 1) (hop : op < 0) :
    E ⟨theta, op, delta⟩ = requestEnergy 1 zCost (lateCalls K) ⟨theta, -1, 0⟩ := by
  have he := hE.exact (show 1 ≤ 30 by decide) (.new fun _ => .inOrder)
  have hcpu := exactEvaluator_cpu (legal_lateRotation K) (show 1 ≤ 30 by decide) (legal_of_ofTerms ofTerms_zCost) rfl
    (.new fun _ => .inOrder)
  rw [he.unique hcpu (accepts_late delta htheta hop), requestEnergy, requestEnergy, bindCalls, bindCalls,
    if_neg (not_le.mpr hop), if_neg (show ¬ (0 : ℤ) ≤ -1 by decide)]
  rfl

/-- Both requests of the rotation shift nothing, so its entry is 0. -/
theorem grad_late {K : ℕ} (hK : 2 ^ 31 ≤ K) (hK' : K < 2 ^ 32) {E : Request ℝ → ℝ}
    (hE : EnergyOf (lateRotation K) zCost E) {expectationBatch : EvalBatch ℝ → Except Exn (List ℝ)}
    (he : ExactEvaluator (lateRotation K) E expectationBatch) {θ grad : Fin 1 → ℝ} {fdEps e : ℝ}
    {shots evals used : ℕ}
    (h : energyAndGradient expectationBatch (lateRotation K) (List.ofFn θ) .ParameterShift fdEps shots evals =
      .ok (e, List.ofFn grad, used)) (i : Fin 1) : grad i = 0 := by
  have hneg := castInt_neg hK hK'
  have hrows := energyAndGradient_requests (legal_lateRotation K) he (shiftRuleApplies_lateRotation K)
    (show (List.ofFn θ).length = (lateRotation K).numParams from List.length_ofFn)
    (fun s hs delta => by
      rw [shiftedGates_lateCalls, Nat.zero_add] at hs
      rw [List.mem_singleton.mp hs]
      exact accepts_late delta List.length_ofFn hneg) fdEps shots evals
  have hentry : List.ofFn grad = [0] := by
    have hboth := Except.ok.inj (h.symm.trans hrows)
    rw [(Prod.mk.inj (Prod.mk.inj hboth).2).1, shiftedGates_lateCalls, Nat.zero_add, List.map_singleton,
      hE.late kHalfPi List.length_ofFn hneg, hE.late (-kHalfPi) List.length_ofFn hneg, addRows, List.foldl_cons,
      List.foldl_nil, sub_self, mul_zero]
    simp [lateRotation, shiftTerm]
  have hmem : grad i ∈ List.ofFn grad := List.mem_ofFn.mpr ⟨i, rfl⟩
  rw [hentry] at hmem
  exact List.mem_singleton.mp hmem

/-- But the energy is a cosine of the parameter. -/
theorem not_shiftGradients_late {K : ℕ} (hK : 2 ^ 31 ≤ K) (hK' : K < 2 ^ 32) {E : Request ℝ → ℝ}
    (hE : EnergyOf (lateRotation K) zCost E) : ¬ ShiftGradients (lateRotation K) E := by
  intro h
  have he := hE.exact (show 1 ≤ 30 by decide) (.new fun _ => .inOrder)
  obtain ⟨grad, ⟨batch, terms, -, -, -, hgrad⟩, hderiv⟩ := h _ he (fun _ : Fin 1 => Real.pi / 2) 0 0 0
  have hgrad₀ : ∀ i, grad i = 0 := grad_late hK hK' hE he hgrad
  simp only [hgrad₀, zero_smul, Finset.sum_const_zero] at hderiv
  have hline : HasDerivAt (fun (t : ℝ) (_ : Fin 1) => t) (fun _ => 1) (Real.pi / 2) :=
    hasDerivAt_pi.mpr fun _ => hasDerivAt_id _
  have hconst := hderiv.comp_hasDerivAt (Real.pi / 2) hline
  have hcos : (fun θ : Fin 1 → ℝ => E ⟨List.ofFn θ, -1, 0⟩) ∘ (fun (t : ℝ) (_ : Fin 1) => t) = Real.cos := by
    funext t
    exact (hE.late 0 List.length_ofFn (by decide)).trans (requestEnergy_late K t)
  have hzero : -Real.sin (Real.pi / 2) = 0 := (Real.hasDerivAt_cos (Real.pi / 2)).unique (hcos ▸ hconst)
  rw [Real.sin_pi_div_two] at hzero
  norm_num at hzero

/-- **The gradients are right.** From exact energies `energy_and_gradient` computes the central
differences for any circuit and, if all symbolic angles are in rotations at positions
below `2 ^ 31`, the derivative of the energy. A bound above that would not do. -/
theorem gradient_correct {ansatz : Circuit ℝ} (hansatz : Circuit.Built ansatz) {terms : List (Term ℝ)}
    {obs : Observable ℝ} (hobs : Observable.ofTerms ansatz.numQubits terms = .ok obs) :
    (∃ E, EnergyOf ansatz obs E ∧ DifferenceGradients ansatz E ∧
      (ShiftRuleApplies ansatz.ops → SymbolicBelow (2 ^ 31) ansatz.ops → ShiftGradients ansatz E)) ∧
    ∀ N : ℕ, (∀ ansatz : Circuit ℝ, Circuit.Built ansatz → ShiftRuleApplies ansatz.ops →
      SymbolicBelow N ansatz.ops → ∀ (terms : List (Term ℝ)) (obs : Observable ℝ),
        Observable.ofTerms ansatz.numQubits terms = .ok obs →
          ∃ E, EnergyOf ansatz obs E ∧ ShiftGradients ansatz E) ↔ N ≤ 2 ^ 31 := by
  have hright : ∀ {ansatz : Circuit ℝ}, Circuit.Built ansatz → ∀ {terms : List (Term ℝ)} {obs : Observable ℝ},
      Observable.ofTerms ansatz.numQubits terms = .ok obs → ∃ E, EnergyOf ansatz obs E ∧
        DifferenceGradients ansatz E ∧
        (ShiftRuleApplies ansatz.ops → SymbolicBelow (2 ^ 31) ansatz.ops → ShiftGradients ansatz E) := by
    intro ansatz hansatz terms obs hobs
    obtain ⟨calls, hc⟩ := Circuit.legal_of_built hansatz
    exact ⟨_, energyOf_requestEnergy hc (legal_of_ofTerms hobs) (ofTerms_ok hobs).2.1, differenceGradients hc,
      shiftGradients hc⟩
  refine ⟨hright hansatz hobs, fun N => ⟨fun h => ?_, fun hN ansatz hansatz hrule hpos terms obs hobs => ?_⟩⟩
  · by_contra hN
    have hbelow : SymbolicBelow N (lateRotation (2 ^ 31)).ops := by
      exact symbolicBelow_of_length (le_of_eq_of_le (length_lateRotation _) (not_le.mp hN))
    obtain ⟨E, hE, hshift⟩ := h _ (built_lateRotation (2 ^ 31)) (shiftRuleApplies_lateRotation _) hbelow
      [.dense 1 ['Z']] zCost ofTerms_zCost
    exact not_shiftGradients_late le_rfl (Nat.pow_lt_pow_right one_lt_two (Nat.lt_succ_self 31)) hE hshift
  · obtain ⟨E, hE, -, hshift⟩ := hright hansatz hobs
    exact ⟨E, hE, hshift hrule fun k op hk hpar => (hpos k op hk hpar).trans_le hN⟩

/-- RY(2 θ₀ + 1) on qubit 0, CX to qubit 1 and RY(θ₀) there, measured in Z₀ Z₁:
both gradients at θ₀ = 1/2 on the CPU backend. -/
theorem gradient_correct_two :
    let ansatz : Circuit ℝ := ⟨2, 1, [GateCall.op (.ry 0 ⟨0, 2, 1⟩), GateCall.op (.cnot 0 1),
      GateCall.op (.ry 1 ⟨0, 1, 0⟩)], []⟩
    let obs : Observable ℝ := ⟨2, [⟨1, 0, 3, 0⟩]⟩
    let cpu : EvalBatch ℝ → Except Exn (List ℝ) := fun batch => do
      return (← CPUBackend.methods.expectationBatch ansatz obs batch (.new fun _ => .inOrder)).1
    ∃ (E : (Fin 1 → ℝ) → ℝ) (grad : Fin 1 → ℝ),
      energyAndGradient cpu ansatz [1 / 2] .ParameterShift 0 1024 7 =
        .ok (E fun _ => 1 / 2, List.ofFn grad, 12) ∧
      HasFDerivAt E (∑ i, grad i • coordinate i) (fun _ => 1 / 2) ∧
      energyAndGradient cpu ansatz [1 / 2] .FiniteDifference 1 1024 7 =
        .ok (E fun _ => 1 / 2, List.ofFn fun i => (E (Function.update (fun _ => 1 / 2) i (1 / 2 + 1)) -
          E (Function.update (fun _ => 1 / 2) i (1 / 2 - 1))) / (2 * 1), 10) := by
  intro ansatz obs cpu
  have hb : Circuit.Built ansatz := by
    have h0 : Circuit.Built (⟨2, 1, [], []⟩ : Circuit ℝ) := .newParam (.new (n := 2) rfl)
    exact .gate (g := .ry 1 ⟨0, 1, 0⟩) (.gate (g := .cnot 0 1) (.gate (g := .ry 0 ⟨0, 2, 1⟩) h0 rfl) rfl) rfl
  have hobs : Observable.ofTerms 2 [.dense 1 ['Z', 'Z']] = .ok obs := rfl
  have hrule : ShiftRuleApplies ansatz.ops := by
    intro op hop hp
    fin_cases hop
    · exact .inr (.inl rfl)
    · cases hp
    · exact .inr (.inl rfl)
  have hpos : SymbolicBelow (2 ^ 31) ansatz.ops := symbolicBelow_of_length (by decide)
  obtain ⟨E, hE, hdifference, hshift⟩ := (gradient_correct hb hobs).1
  have he := hE.exact (show 2 ≤ 30 by decide) (.new fun _ => .inOrder)
  obtain ⟨grad, ⟨batch, terms, hbatch, -, -, hgrad⟩, hderiv⟩ :=
    hshift hrule hpos cpu he (fun _ => 1 / 2) 0 1024 7
  obtain ⟨batch', terms', hbatch', -, -, hdiff⟩ := hdifference cpu he (fun _ => 1 / 2) 1 1024 7 one_ne_zero
  have hc : batch.count = 5 := by
    have hops : ansatz.ops = ([.ry 0 ⟨0, 2, 1⟩, .cnot 0 1, .ry 1 ⟨0, 1, 0⟩] : List (GateCall ℝ)).map
      GateCall.op := rfl
    have heq := buildGradientBatch_shift hops hrule (List.ofFn fun _ : Fin 1 => (1 / 2 : ℝ)) 0
    obtain ⟨rfl, -⟩ := Prod.mk.inj (Except.ok.inj (hbatch.symm.trans heq))
    rw [count_ofRequests]
    rfl
  have hc' : batch'.count = 3 := by
    obtain ⟨rfl, -⟩ := Prod.mk.inj (Except.ok.inj (hbatch'.symm.trans (buildGradientBatch_difference _ _ _)))
    rw [count_ofRequests]
    rfl
  rw [hc] at hgrad
  rw [hc'] at hdiff
  exact ⟨fun θ => E ⟨List.ofFn θ, -1, 0⟩, grad, hgrad, hderiv, hdiff⟩

/-- RX(θ₀) after `2 ^ 31` gates, measured in Z. -/
theorem gradient_correct_fails : Circuit.Built (lateRotation (2 ^ 31)) ∧
    ShiftRuleApplies (lateRotation (2 ^ 31)).ops ∧ Observable.ofTerms 1 [.dense 1 ['Z']] = .ok zCost ∧
    ¬ ∃ E, EnergyOf (lateRotation (2 ^ 31)) zCost E ∧ ShiftGradients (lateRotation (2 ^ 31)) E :=
  ⟨built_lateRotation _, shiftRuleApplies_lateRotation _, rfl, fun ⟨_, hE, hshift⟩ =>
    not_shiftGradients_late le_rfl (Nat.pow_lt_pow_right one_lt_two (Nat.lt_succ_self 31)) hE hshift⟩

end Qsycl
