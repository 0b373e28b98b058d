/-
# Gradient descent goes down

With gradients by the shift rule and a learning rate of at most 4 over the width of the
spectrum and the squares of the sensitivities, no iteration raises the energy
(`descent_step`). So the history that `VQA::minimize` reports is sorted; and as every
iteration but the last two lowers the energy by the tolerance, the width bounds the number
of iterations (`descends`).
-/
import Qsycl.Curvature

namespace Qsycl

open Qubits Runs

noncomputable section

/-- Gradient descent with gradients by the shift rule, with a learning rate that the
curvature of the energy allows. -/
structure VQAOptions.Descends (opt : VQAOptions) (ansatz : Circuit ℝ) (H : Observable ℝ) : Prop where
  optimizer : opt.optimizer = .GradientDescent
  gradient : opt.gradient = .ParameterShift
  rate : 0 ≤ opt.learningRate
  small : opt.learningRate * (∑ i : Fin ansatz.numParams, ansatz.sensitivity i ^ 2) * H.width ≤ 4

/-- What an optimization reports that starts at the energy `first`. -/
structure Descent (opt : VQAOptions) (width first : ℝ) (res : VQAResult) : Prop where
  sorted : res.history.Pairwise (· ≥ ·)
  below : ∀ e ∈ res.history, res.energy ≤ e
  first : res.energy ≤ first
  iterations : 0 < opt.tolerance → res.iterations ≤ width / opt.tolerance + 2
  converged : 0 < opt.tolerance → width / opt.tolerance + 2 < opt.maxIterations → res.converged = true

section Step

variable {ansatz : Circuit ℝ} {calls : List (GateCall ℝ)} {H : Observable ℝ} {opt : VQAOptions}

/-- **One step down.** -/
theorem descent_step (hf : ∀ g ∈ calls, g.Fits H.numQubits ansatz.numParams)
    (hops : ansatz.ops = calls.map GateCall.op) (hrule : ShiftRuleApplies ansatz.ops) (hopt : opt.Descends ansatz H)
    {θ grad : Fin ansatz.numParams → ℝ} (hgrad : HasFDerivAt (fun θ : Fin ansatz.numParams → ℝ =>
      requestEnergy H.numQubits H calls ⟨List.ofFn θ, -1, 0⟩) (∑ i, grad i • coordinate i) θ) :
    requestEnergy H.numQubits H calls ⟨List.ofFn (θ + -opt.learningRate • grad), -1, 0⟩ ≤
      requestEnergy H.numQubits H calls ⟨List.ofFn θ, -1, 0⟩ := by
  have hstep := energy_step_le hf hops hrule hgrad (-opt.learningRate • grad)
  have hrate := hopt.rate
  obtain ⟨Q, hQ⟩ : ∃ Q, Q = ∑ i, grad i ^ 2 := ⟨_, rfl⟩
  obtain ⟨S, hS⟩ : ∃ S, S = ∑ i : Fin ansatz.numParams, ansatz.sensitivity i ^ 2 := ⟨_, rfl⟩
  have hQ0 : 0 ≤ Q := hQ ▸ Finset.sum_nonneg fun i _ => sq_nonneg _
  have hsmall : opt.learningRate * S * H.width ≤ 4 := hS ▸ hopt.small
  have hslope : ∑ i, grad i * (-opt.learningRate • grad) i = -opt.learningRate * Q := by
    rw [hQ, Finset.mul_sum]
    refine Finset.sum_congr rfl fun i _ => ?_
    rw [Pi.smul_apply, smul_eq_mul]
    ring
  have hsize : (∑ i : Fin ansatz.numParams, ansatz.sensitivity i * |(-opt.learningRate • grad) i|) ^ 2 ≤
      S * (opt.learningRate ^ 2 * Q) := by
    refine (Finset.sum_mul_sq_le_sq_mul_sq _ _ _).trans (le_of_eq ?_)
    rw [← hS, hQ, Finset.mul_sum _ _ (opt.learningRate ^ 2)]
    congr 1
    refine Finset.sum_congr rfl fun i _ => ?_
    rw [sq_abs, Pi.smul_apply, smul_eq_mul]
    ring
  have hwidth : 0 ≤ H.width := by
    have h := angleEnergy_sub_le hf (fun _ => 0) (fun _ => 0)
    rw [sub_self] at h
    linarith
  have hcurve := mul_le_mul_of_nonneg_right hsize hwidth
  have hgain : S * (opt.learningRate ^ 2 * Q) * H.width ≤ 4 * (opt.learningRate * Q) :=
    calc S * (opt.learningRate ^ 2 * Q) * H.width = opt.learningRate * S * H.width * (opt.learningRate * Q) := by ring
      _ ≤ 4 * (opt.learningRate * Q) := mul_le_mul_of_nonneg_right hsmall (mul_nonneg hrate hQ0)
  rw [hslope] at hstep
  linarith

end Step

/-! ### The loop -/

section Loop

variable {ansatz : Circuit ℝ} {calls : List (GateCall ℝ)} {H : Observable ℝ}
  {evaluate : EvalBatch ℝ → Except Exn (List ℝ)} {opt : VQAOptions} {rng : ℕ → ℕ → ℕ} {start : List ℝ}

/-- The energy at some parameters. -/
def energyAt (H : Observable ℝ) (calls : List (GateCall ℝ)) (theta : List ℝ) : ℝ :=
  requestEnergy H.numQubits H calls ⟨theta, -1, 0⟩

/-- What holds after iteration `k`. -/
structure Descended (H : Observable ℝ) (calls : List (GateCall ℝ)) (P : ℕ) (start : List ℝ) (k : ℕ)
    (s : HostState) : Prop extends Sized P s where
  iterations : s.res.iterations = k
  sorted : s.res.history.Pairwise (· ≥ ·)
  below : ∀ e ∈ s.res.history, energyAt H calls s.theta ≤ e
  start : energyAt H calls s.theta ≤ energyAt H calls start

/-- The loop goes on: each iteration after the first has lowered the energy by `tol`. -/
def Running (energy hi tol : ℝ) (k : ℕ) (s : HostState) : Prop :=
  0 < k → energy ≤ s.prev ∧ s.prev ≤ hi ∧ ((k : ℝ) - 1) * tol ≤ hi - s.prev

/-- The loop was stopped. -/
def Stopped (width tol : ℝ) (k : ℕ) (s : HostState) : Prop :=
  s.res.converged = true ∧ ((k : ℝ) - 1) * tol ≤ width + tol

theorem zipWith_ofFn {m : ℕ} (f : ℝ → ℝ → ℝ) (a b : Fin m → ℝ) :
    List.zipWith f (List.ofFn a) (List.ofFn b) = List.ofFn fun i => f (a i) (b i) :=
  List.ext_getElem (by simp) fun i _ _ => by simp

/-- The gradient of a step, and where the step ends. -/
theorem exists_descent (hc : ansatz.Legal calls) (hno : H.numQubits = ansatz.numQubits)
    (he : ExactEvaluator ansatz (requestEnergy H.numQubits H calls) evaluate)
    (hsize : ansatz.ops.length ≤ 2 ^ 31) (hrule : ShiftRuleApplies ansatz.ops) (hopt : opt.Descends ansatz H)
    {theta : List ℝ} (hθ : theta.length = ansatz.numParams) (evals : ℕ) : ∃ g evals',
      energyAndGradient evaluate ansatz theta .ParameterShift opt.fdEpsilon opt.shots evals =
        .ok (energyAt H calls theta, g, evals') ∧ g.length = ansatz.numParams ∧
      energyAt H calls (List.zipWith (fun t g => t - opt.learningRate * g) theta g) ≤ energyAt H calls theta := by
  have hf : ∀ g ∈ calls, g.Fits H.numQubits ansatz.numParams := hno ▸ hc.fits
  obtain ⟨θ, rfl⟩ : ∃ θ : Fin ansatz.numParams → ℝ, theta = List.ofFn θ := by
    rw [← hθ]
    exact ⟨theta.get, (List.ofFn_get theta).symm⟩
  have hshift := energyAndGradient_shift hc he hrule (symbolicBelow_of_length hsize) hθ opt.fdEpsilon opt.shots evals
  have hstep := descent_step hf hc.ops hrule hopt (hasFDerivAt_requestEnergy H hf (hc.ops ▸ hrule) θ)
  rw [addRows_replicate] at hshift
  refine ⟨_, _, hshift, List.length_ofFn, ?_⟩
  refine le_trans (le_of_eq ?_) hstep
  rw [energyAt, zipWith_ofFn]
  congr 3
  funext i
  rw [Pi.add_apply, Pi.smul_apply, smul_eq_mul, neg_mul, ← sub_eq_add_neg]

theorem hostStep_descends (hc : ansatz.Legal calls) (hno : H.numQubits = ansatz.numQubits)
    (he : ExactEvaluator ansatz (requestEnergy H.numQubits H calls) evaluate)
    (hsize : ansatz.ops.length ≤ 2 ^ 31) (hrule : ShiftRuleApplies ansatz.ops) (hopt : opt.Descends ansatz H)
    (k : ℕ) {s : HostState} (hs : Sized ansatz.numParams s) : Yields (hostStep rng evaluate ansatz opt k s) fun r =>
      Sized ansatz.numParams r.1 ∧ r.1.res.history = s.res.history ∧ r.1.prev = s.prev ∧
        r.2 = energyAt H calls s.theta ∧ energyAt H calls r.1.theta ≤ energyAt H calls s.theta := by
  obtain ⟨g, evals, hgrad, hlen, hdown⟩ := exists_descent hc hno he hsize hrule hopt hs.theta s.res.evaluations
  have hspsa : opt.optimizer ≠ .SPSA := by rw [hopt.optimizer]; decide
  have hadam : opt.optimizer ≠ .Adam := by rw [hopt.optimizer]; decide
  unfold hostStep
  rw [if_neg hspsa, hopt.gradient]
  refine Yields.bind (Q := fun r => r = (energyAt H calls s.theta, g, evals))
    ⟨_, rfl, fun log => (exec_energyAndGradient _ _ _ _ _ log).trans hgrad⟩ ?_
  rintro _ rfl
  simp only [if_neg hadam]
  refine .pure ⟨⟨?_, hs.m, hs.v⟩, rfl, rfl, rfl, hdown⟩
  rw [List.length_zipWith, hs.theta, hlen, min_self]

/-- **One iteration.** -/
theorem hostBody_descends (hc : ansatz.Legal calls) (hno : H.numQubits = ansatz.numQubits)
    (he : ExactEvaluator ansatz (requestEnergy H.numQubits H calls) evaluate)
    (hsize : ansatz.ops.length ≤ 2 ^ 31) (hrule : ShiftRuleApplies ansatz.ops) (hopt : opt.Descends ansatz H)
    {lo hi : ℝ}
    (hE : ∀ theta : List ℝ, theta.length = ansatz.numParams → lo ≤ energyAt H calls theta ∧ energyAt H calls theta ≤ hi)
    (k : ℕ) {s : HostState} (hs : Descended H calls ansatz.numParams start k s)
    (hrun : Running (energyAt H calls s.theta) hi opt.tolerance k s) :
    Yields (hostBody rng evaluate ansatz opt k s) fun r =>
      Descended H calls ansatz.numParams start (k + 1) r.1 ∧
      (r.2 = true → Stopped (hi - lo) opt.tolerance (k + 1) r.1) ∧
      (r.2 = false → Running (energyAt H calls r.1.theta) hi opt.tolerance (k + 1) r.1) := by
  refine (hostStep_descends hc hno he hsize hrule hopt k hs.toSized).bind ?_
  rintro ⟨s', e⟩ ⟨hsized, hhistory, hprev, rfl, hdown⟩
  obtain ⟨hlo, hhi⟩ := hE s.theta hs.theta
  have hsorted : (s'.res.history ++ [energyAt H calls s.theta]).Pairwise (· ≥ ·) := by
    rw [hhistory, List.pairwise_append]
    exact ⟨hs.sorted, List.pairwise_singleton _ _, fun a ha b hb => List.mem_singleton.mp hb ▸ hs.below a ha⟩
  have hbelow : ∀ x ∈ s'.res.history ++ [energyAt H calls s.theta], energyAt H calls s'.theta ≤ x := by
    rw [hhistory]
    intro x hx
    rcases List.mem_append.mp hx with hx | hx
    · exact hdown.trans (hs.below x hx)
    · exact List.mem_singleton.mp hx ▸ hdown
  have hstart := hdown.trans hs.start
  dsimp only at hprev ⊢
  rw [hprev]
  by_cases hstop : k > 0 ∧ |energyAt H calls s.theta - s.prev| < opt.tolerance
  · rw [if_pos hstop]
    refine .pure ⟨⟨⟨hsized.theta, hsized.m, hsized.v⟩, rfl, hsorted, hbelow, hstart⟩, fun _ => ⟨rfl, ?_⟩, nofun⟩
    obtain ⟨hle, -, hcount⟩ := hrun hstop.1
    push_cast
    linarith
  · rw [if_neg hstop]
    refine .pure ⟨⟨⟨hsized.theta, hsized.m, hsized.v⟩, rfl, hsorted, hbelow, hstart⟩, nofun, fun _ _ =>
      ⟨hdown, hhi, ?_⟩⟩
    push_cast
    rcases Nat.eq_zero_or_pos k with rfl | hk
    · have hzero : ((0 : ℕ) : ℝ) + 1 - 1 = 0 := by norm_num
      rw [hzero, zero_mul]
      exact sub_nonneg.mpr hhi
    · -- the iteration lowered the energy by the tolerance
      obtain ⟨hle, -, hcount⟩ := hrun hk
      have htol : opt.tolerance ≤ s.prev - energyAt H calls s.theta := by
        have habs := not_lt.mp fun h => hstop ⟨hk, h⟩
        rwa [abs_sub_comm, abs_of_nonneg (sub_nonneg.mpr hle)] at habs
      linarith

variable (rng) in
/-- **A whole optimization.** -/
theorem hostLoop_descends (hc : ansatz.Legal calls) (hno : H.numQubits = ansatz.numQubits)
    (he : ExactEvaluator ansatz (requestEnergy H.numQubits H calls) evaluate)
    (hsize : ansatz.ops.length ≤ 2 ^ 31) (hrule : ShiftRuleApplies ansatz.ops) (hopt : opt.Descends ansatz H)
    {lo hi : ℝ}
    (hE : ∀ theta : List ℝ, theta.length = ansatz.numParams → lo ≤ energyAt H calls theta ∧ energyAt H calls theta ≤ hi)
    (hstart : start.length = ansatz.numParams) : Yields (hostLoop rng evaluate ansatz opt start .new) fun res =>
      res.theta.length = ansatz.numParams ∧ res.energy = energyAt H calls res.theta ∧
        Descent opt (hi - lo) (energyAt H calls start) res := by
  have hnew : Descended H calls ansatz.numParams start 0
      ⟨start, List.replicate ansatz.numParams 0, List.replicate ansatz.numParams 0, 0, 0, .new⟩ :=
    ⟨⟨hstart, List.length_replicate, List.length_replicate⟩, rfl, .nil, nofun, le_rfl⟩
  refine (Yields.loop_until (I := fun k s => Descended H calls ansatz.numParams start k s ∧
      Running (energyAt H calls s.theta) hi opt.tolerance k s)
    (J := fun k s => Descended H calls ansatz.numParams start k s ∧ Stopped (hi - lo) opt.tolerance k s)
    (fun k s hs => ?_) opt.maxIterations 0 _ ⟨hnew, nofun⟩).bind fun s hs => ?_
  · obtain ⟨r, ⟨hd, hstop, hgo⟩, hexec⟩ := hostBody_descends hc hno he hsize hrule hopt hE k hs.1 hs.2
    exact ⟨r, ⟨fun h => ⟨hd, hstop h⟩, fun h => ⟨hd, hgo h⟩⟩, hexec⟩
  · obtain ⟨k, hd, hend⟩ : ∃ k, Descended H calls ansatz.numParams start k s ∧
        (Stopped (hi - lo) opt.tolerance k s ∨ k = opt.maxIterations ∧
          (0 < opt.tolerance → ((k : ℝ) - 1) * opt.tolerance ≤ hi - lo)) := by
      rcases hs with ⟨hd, hrun⟩ | ⟨m, -, hd, hstop⟩
      · refine ⟨_, hd, .inr ⟨Nat.zero_add _, fun htol => ?_⟩⟩
        obtain ⟨hlo, hhi⟩ := hE s.theta hd.theta
        rcases Nat.eq_zero_or_pos (0 + opt.maxIterations) with hk | hk
        · rw [hk, Nat.cast_zero]
          linarith
        · obtain ⟨hle, -, hcount⟩ := hrun hk
          linarith
      · exact ⟨m, hd, .inl hstop⟩
    have heval := evaluate_plain hc he [s.theta] (by simp [hd.theta]) opt.shots
    refine Yields.bind (Q := fun e => e = [energyAt H calls s.theta]) ⟨_, rfl, fun _ => heval⟩ ?_
    rintro _ rfl
    refine Yields.bind (Q := fun e => e = energyAt H calls s.theta) (.lift rfl rfl) ?_
    rintro _ rfl
    refine .pure ⟨hd.theta, rfl, hd.sorted, hd.below, hd.start, fun htol => ?_, fun htol hmany => ?_⟩
    · show (s.res.iterations : ℝ) ≤ _
      rw [hd.iterations, ← sub_le_iff_le_add, le_div_iff₀ htol]
      rcases hend with hstop | ⟨-, hcount⟩
      · linarith [hstop.2]
      · linarith [hcount htol]
    · rcases hend with hstop | ⟨rfl, hcount⟩
      · exact hstop.1
      · have hfew := (le_div_iff₀ htol).mpr (hcount htol)
        linarith

end Loop

/-- **Descent.** On a simulator, for an ansatz of the API of at most 2^31 gates whose symbolic
angles are all in rotations, gradient descent with the shift rule and a learning rate that
is not negative and that the curvature allows returns, on the host or on the device: the
history does not increase, the energy at the returned parameters, which is what the
simulator answers there, is at most all of it and at most the energy at the start, and with
a positive tolerance it converges within `width / tolerance + 2` iterations if it may make
more. -/
theorem descends (rng : ℕ → ℕ → ℕ) {opt : VQAOptions} {ansatz : Circuit ℝ} (hansatz : Circuit.Built ansatz)
    (hn : ansatz.numQubits ≤ 30) (hsize : ansatz.ops.length ≤ 2 ^ 31) (hrule : ShiftRuleApplies ansatz.ops)
    {terms : List (Term ℝ)} {H : Observable ℝ} (hobs : Observable.ofTerms ansatz.numQubits terms = .ok H)
    {evaluate : EvalBatch ℝ → Except Exn (List ℝ)} (hsim : SimulatorBatches ansatz H evaluate)
    {runNativeVqa : VQAOptions → List ℝ → VQAResult → Optimization (Bool × List ℝ × VQAResult)}
    (hnative : NativeVqa rng evaluate ansatz runNativeVqa) (hopt : opt.Descends ansatz H) {theta : List ℝ}
    (hθ : theta.length = ansatz.numParams) :
    ∃ (res : VQAResult) (log : List (EvalBatch ℝ)) (first : ℝ),
      exec (minimize rng evaluate ansatz opt runNativeVqa theta) [] = (.ok res, log) ∧
      evaluate (finalBatch theta opt.shots) = .ok [first] ∧
      evaluate (finalBatch res.theta opt.shots) = .ok [res.energy] ∧ Descent opt H.width first res := by
  obtain ⟨calls, hc⟩ := Circuit.legal_of_built hansatz
  have ho := legal_of_ofTerms hobs
  have hno := (ofTerms_ok hobs).2.1
  have he := hsim.exact hc hn hsize ho hno
  obtain ⟨res, ⟨hlen, henergy, hdescent⟩, hexec⟩ := hostLoop_descends rng hc hno he hsize hrule hopt
    (fun theta h => requestEnergy_bounds hc hno (accepts_plain hc h)) hθ
  have hloop : ∀ log, exec (hostLoop rng evaluate ansatz opt theta .new) log =
      (.ok res, log ++ (exec (hostLoop rng evaluate ansatz opt theta .new) []).2) := fun log => by
    rw [writes_hostLoop theta .new log, hexec]
  obtain ⟨native, hmin⟩ := exec_minimize_eq opt rng hsim.answers hnative hθ hloop
  refine ⟨{ res with usedNative := native }, _, energyAt H calls theta, hmin [], ?_, ?_,
    ⟨hdescent.sorted, hdescent.below, hdescent.first, hdescent.iterations, hdescent.converged⟩⟩
  · exact evaluate_plain hc he [theta] (by simp [hθ]) opt.shots
  · rw [henergy]
    exact evaluate_plain hc he [res.theta] (by simp [hlen]) opt.shots

/-- Learning rate 1 and tolerance 1/100 for RY(θ₀) and the Hamiltonian Z. -/
theorem descends_one :
    let ansatz : Circuit ℝ := ⟨1, 1, [GateCall.op (.ry 0 ⟨0, 1, 0⟩)], []⟩
    let H : Observable ℝ := ⟨1, [⟨1, 0, 1, 0⟩]⟩
    let evaluate : EvalBatch ℝ → Except Exn (List ℝ) := fun batch => do
      return (← CPUBackend.methods.expectationBatch ansatz H batch (.new fun _ => .inOrder)).1
    let opt : VQAOptions :=
      ⟨.GradientDescent, .ParameterShift, 1, 0.9, 0.999, 1e-8, 0.1, 1, 1000, 0.01, 42, false, 1024⟩
    ∃ (res : VQAResult) (log : List (EvalBatch ℝ)) (first : ℝ),
      exec (minimize (fun seed i => seed + i) evaluate ansatz opt (fun _ theta res => pure (false, theta, res))
        [1 / 2]) [] = (.ok res, log) ∧
      evaluate (finalBatch [1 / 2] 1024) = .ok [first] ∧
      evaluate (finalBatch res.theta 1024) = .ok [res.energy] ∧ Descent opt H.width first res := by
  intro ansatz H evaluate opt
  have hb : Circuit.Built ansatz :=
    .gate (c := ⟨1, 1, [], []⟩) (g := .ry 0 ⟨0, 1, 0⟩) (.newParam (.new (n := 1) rfl)) rfl
  have hrule : ShiftRuleApplies ansatz.ops := by
    intro op hop hp
    fin_cases hop
    exact .inr (.inl rfl)
  have hobs : Observable.ofTerms 1 [.dense 1 ['Z']] = .ok H := rfl
  have hsens : ∑ i : Fin ansatz.numParams, ansatz.sensitivity i ^ 2 = 1 := by
    have hone : ansatz.sensitivity 0 = 1 := by
      simp [Circuit.sensitivity, ansatz, GateCall.op, GateCall.args, Param.isSymbolic]
    show ∑ i : Fin 1, ansatz.sensitivity i ^ 2 = 1
    rw [Fin.sum_univ_one]
    show ansatz.sensitivity 0 ^ 2 = 1
    rw [hone, one_pow]
  have hwidth : H.width ≤ 2 := by
    have h := H.width_le
    simpa [H] using h
  have hopt : opt.Descends ansatz H := by
    refine ⟨rfl, rfl, zero_le_one, ?_⟩
    rw [hsens]
    show 1 * 1 * H.width ≤ 4
    linarith
  exact descends (fun seed i => seed + i) hb (by decide) (by decide) hrule hobs (.host (.new fun _ => .inOrder))
    .declines hopt rfl

end

end Qsycl
