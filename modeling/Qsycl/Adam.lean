/-
# How far Adam moves

Adam divides an average of the gradients by the root of an average of their
squares. The first is bounded by the second (`Averages.sq_average_le`), so that
an iteration moves no parameter by more than `stepBound`, whatever energies the
evaluator answers with, and the parameters that `VQA::minimize` returns are
within that distance for each iteration of where it started (`adam_stays_near`).
-/
import Qsycl.Lib.Averages
import Qsycl.OptimizersAgree

namespace Qsycl

open Runs Averages

noncomputable section

/-- The options for which the averages are comparable and no step divides by zero. -/
structure VQAOptions.Decays (opt : VQAOptions) : Prop where
  adam : opt.optimizer = .Adam
  beta1 : 0 ≤ opt.beta1 ∧ opt.beta1 < 1
  beta2 : opt.beta1 ^ 2 < opt.beta2 ∧ opt.beta2 < 1
  epsilon : 0 < opt.epsilon
  rate : 0 ≤ opt.learningRate
  fdEpsilon : opt.gradient = .FiniteDifference → opt.fdEpsilon ≠ 0

/-- The distance of one iteration. -/
def stepBound (opt : VQAOptions) : ℝ := opt.learningRate * (√(factor opt.beta1 opt.beta2) / (1 - opt.beta1))

/-- The entries of `theta` and `start` are at most `d` apart. -/
def Within (d : ℝ) (theta start : List ℝ) : Prop :=
  theta.length = start.length ∧
    ∀ (i : ℕ) (t t₀ : ℝ), theta[i]? = some t → start[i]? = some t₀ → |t - t₀| ≤ d

/-- The averages of each gradient entry are comparable. -/
def Comparable (opt : VQAOptions) (m v : List ℝ) : Prop :=
  ∀ (i : ℕ) (a b : ℝ), m[i]? = some a → v[i]? = some b → a ^ 2 ≤ factor opt.beta1 opt.beta2 * b

/-- The invariant at the head of iteration `k`. -/
structure Near (opt : VQAOptions) (start : List ℝ) (k : ℕ) (s : HostState) : Prop where
  moments : s.m.length = start.length ∧ s.v.length = start.length
  averages : Comparable opt s.m s.v
  theta : Within (k * stepBound opt) s.theta start
  iterations : s.res.iterations = k

/-- The averages stay comparable. -/
theorem Comparable.adamUpdate {opt : VQAOptions} (hopt : opt.Decays) {s : HostState} (h : Comparable opt s.m s.v)
    (k : ℕ) (g : List ℝ) : Comparable opt (adamUpdate opt k s g).m (adamUpdate opt k s g).v := by
  intro i m v hm hv
  obtain ⟨m₀, x, hm₀, hx, rfl⟩ := List.getElem?_zipWith_eq_some.mp hm
  obtain ⟨v₀, x', hv₀, hx', rfl⟩ := List.getElem?_zipWith_eq_some.mp hv
  obtain rfl : x = x' := Option.some.inj (hx.symm.trans hx')
  have hstep := sq_average_le hopt.beta2.1 hopt.beta2.2 (x := x) (h i m₀ v₀ hm₀ hv₀)
  rwa [average, average, ← mul_assoc (1 - opt.beta2)] at hstep

/-- A later power is the smaller one. -/
theorem rpow_succ_le {b : ℝ} (h0 : 0 ≤ b) (h1 : b < 1) (k : ℕ) : b ^ ((k : ℝ) + 1) ≤ b := by
  have hexp : (1 : ℝ) ≤ (k : ℝ) + 1 := by linarith [(Nat.cast_nonneg k : (0 : ℝ) ≤ k)]
  rcases h0.eq_or_lt with rfl | h0
  · rw [Real.zero_rpow (by positivity)]
  · simpa using Real.rpow_le_rpow_of_exponent_ge h0 h1.le hexp

/-- The step of one parameter. -/
theorem abs_step_le {opt : VQAOptions} (hopt : opt.Decays) (k : ℕ) {m v : ℝ}
    (h : m ^ 2 ≤ factor opt.beta1 opt.beta2 * v) :
    |opt.learningRate * (m / (1 - opt.beta1 ^ ((k : ℝ) + 1))) /
      (√(v / (1 - opt.beta2 ^ ((k : ℝ) + 1))) + opt.epsilon)| ≤ stepBound opt := by
  obtain ⟨hb0, hb1⟩ := hopt.beta1
  have hpos : 0 < opt.beta2 := (sq_nonneg _).trans_lt hopt.beta2.1
  have h1t := rpow_succ_le hb0 hb1 k
  have h2t := rpow_succ_le hpos.le hopt.beta2.2 k
  have h2t' : 0 ≤ opt.beta2 ^ ((k : ℝ) + 1) := Real.rpow_nonneg hpos.le _
  have hc₁ : 0 < 1 - opt.beta1 ^ ((k : ℝ) + 1) := by linarith
  have hc₂ : 0 < 1 - opt.beta2 ^ ((k : ℝ) + 1) := by linarith [hopt.beta2.2]
  have hquot := quotient_le (factor_nonneg hopt.beta2.1 hopt.beta2.2) h hc₁ hc₂ (by linarith) hopt.epsilon.le
  rw [mul_div_assoc, abs_mul, abs_of_nonneg hopt.rate, stepBound]
  refine mul_le_mul_of_nonneg_left (hquot.trans ?_) hopt.rate
  -- the correction of the first average is at least `1 - beta1`
  exact div_le_div_of_nonneg_left (Real.sqrt_nonneg _) (by linarith) (by linarith)

/-- **One Adam update** moves every parameter by one step. -/
theorem Near.within_adamUpdate {opt : VQAOptions} (hopt : opt.Decays) {start g : List ℝ} {k : ℕ} {s : HostState}
    (hs : Near opt start k s) (hg : g.length = start.length) :
    Within ((k + 1 : ℕ) * stepBound opt) (adamUpdate opt k s g).theta start := by
  obtain ⟨hm, hv⟩ := hs.moments
  refine ⟨by simp [adamUpdate, hs.theta.1, hm, hv, hg], fun i t t₀ ht ht₀ => ?_⟩
  obtain ⟨t₁, d, ht₁, hd, rfl⟩ := List.getElem?_zipWith_eq_some.mp ht
  obtain ⟨m, v, hm', hv', rfl⟩ := List.getElem?_zipWith_eq_some.mp hd
  have hstep := abs_step_le hopt k (hs.averages.adamUpdate hopt k g i m v hm' hv')
  have hnear := hs.theta.2 i t₁ t₀ ht₁ ht₀
  rw [sub_right_comm]
  refine (abs_sub _ _).trans ?_
  push_cast
  linarith

section Runs

variable {rng : ℕ → ℕ → ℕ} {evaluate : EvalBatch ℝ → Except Exn (List ℝ)} {ansatz : Circuit ℝ}
  {opt : VQAOptions} {start : List ℝ}

/-- The gradient has an entry for each parameter. -/
theorem length_gradient (theta : List ℝ) (method : GradientMethod) (fdEps : ℝ) (shots evals : ℕ) :
    Triple (fun _ => True) (energyAndGradient (submit evaluate) ansatz theta method fdEps shots evals)
      (fun r _ => r.2.1.length = ansatz.numParams) (fun _ _ => True) := by
  refine (Triple.fact _).bind fun r => ?_
  refine (Triple.fact _).bind fun e => ?_
  refine Triple.bind (R := fun grad _ => grad.length = ansatz.numParams) (.lift (fun grad hgrad _ _ => ?_)
    fun _ _ _ _ => trivial) fun grad => ?_
  · rw [length_combineTerms hgrad, List.length_replicate]
  · exact (Triple.fact _).bind fun _ => .pure _ fun _ h => h

/-- **One iteration.** -/
theorem near_hostBody (hopt : opt.Decays) (hstart : start.length = ansatz.numParams) (k : ℕ) (s : HostState) :
    Triple (fun _ => Near opt start k s) (hostBody rng evaluate ansatz opt k s)
      (fun r _ => Near opt start (k + 1) r.1) (fun _ _ => True) := by
  intro log hs
  have hadam : opt.optimizer ≠ .SPSA := by rw [hopt.adam]; decide
  have hstep : Triple (fun _ => True) (hostStep rng evaluate ansatz opt k s)
      (fun r _ => Within ((k + 1 : ℕ) * stepBound opt) r.1.theta start ∧ Comparable opt r.1.m r.1.v ∧
        r.1.m.length = start.length ∧ r.1.v.length = start.length) (fun _ _ => True) := by
    unfold hostStep
    rw [if_neg hadam]
    refine (length_gradient _ _ _ _ _).bind ?_
    rintro ⟨e, g, evals⟩
    simp only [if_pos hopt.adam]
    refine .pure _ fun _ (hg : g.length = ansatz.numParams) => ?_
    have hnear : Near opt start k { s with res := { s.res with evaluations := evals } } :=
      ⟨hs.moments, hs.averages, hs.theta, hs.iterations⟩
    refine ⟨hnear.within_adamUpdate hopt (hg.trans hstart.symm), hs.averages.adamUpdate hopt k g, ?_, ?_⟩
    · simp [adamUpdate, hs.moments.1, hg, hstart]
    · simp [adamUpdate, hs.moments.2, hg, hstart]
  refine Triple.bind hstep (fun r => ?_) log trivial
  by_cases hstop : k > 0 ∧ |r.2 - r.1.prev| < opt.tolerance
  · simp only [if_pos hstop]
    exact .pure _ fun _ ⟨hθ, hc, hl⟩ => ⟨hl, hc, hθ, rfl⟩
  · simp only [if_neg hstop]
    exact .pure _ fun _ ⟨hθ, hc, hl⟩ => ⟨hl, hc, hθ, rfl⟩

/-- **A whole optimization.** -/
theorem near_hostLoop (hopt : opt.Decays) (hstart : start.length = ansatz.numParams) :
    Triple (fun _ => True) (hostLoop rng evaluate ansatz opt start .new)
      (fun res _ => Within (res.iterations * stepBound opt) res.theta start) (fun _ _ => True) := by
  have hzero : Near opt start 0
      ⟨start, List.replicate ansatz.numParams 0, List.replicate ansatz.numParams 0, 0, 0, .new⟩ := by
    refine ⟨by simp [hstart], fun i m v hm hv => ?_, ⟨rfl, fun i t t₀ ht ht₀ => ?_⟩, rfl⟩
    · rw [(List.mem_replicate.mp (List.mem_of_getElem? hm)).2, (List.mem_replicate.mp (List.mem_of_getElem? hv)).2]
      simp
    · obtain rfl : t = t₀ := Option.some.inj (ht.symm.trans ht₀)
      simp
  refine Triple.bind (R := fun s _ => ∃ k, Near opt start k s) ?_ fun s => ?_
  · exact (Triple.loop (fun k s => near_hostBody hopt hstart k s) _ 0 _).mono (fun _ _ => hzero) (fun _ _ h => h)
      fun _ _ h => h
  · refine (Triple.fact _).bind fun e => ?_
    refine (Triple.fact _).bind fun energy => ?_
    refine .pure _ fun _ ⟨k, hs⟩ => ?_
    show Within (s.res.iterations * stepBound opt) s.theta start
    rw [hs.iterations]
    exact hs.theta

end Runs

/-- **Adam stays near.** With decays for which the averages compare, whatever the evaluator
answers, the parameters that an optimization returns, on the host or on the device, are at
most `stepBound` for each iteration away from those it started with. -/
theorem adam_stays_near {evaluate : EvalBatch ℝ → Except Exn (List ℝ)} (rng : ℕ → ℕ → ℕ) {ansatz : Circuit ℝ}
    {opt : VQAOptions} (hopt : opt.Decays) (hhost : opt.preferNative = false) {theta : List ℝ}
    (htheta : theta.length = ansatz.numParams) {q : Native.OptimizerQueue} (hq : q.allocated = true)
    (runNativeVqa : VQAOptions → List ℝ → VQAResult → Optimization (Bool × List ℝ × VQAResult)) :
    (∀ log res log', exec (minimize rng evaluate ansatz opt runNativeVqa theta) log = (.ok res, log') →
      Within (res.iterations * stepBound opt) res.theta theta) ∧
    (Native.Answers evaluate → ∀ log ran theta' res log',
      exec (Native.runNativeVqaCore rng evaluate ansatz opt q theta .new) log = (.ok (ran, theta', res), log') →
        theta' = res.theta ∧ Within (res.iterations * stepBound opt) res.theta theta) := by
  have hhostRun : ∀ log res log', exec (minimize rng evaluate ansatz opt runNativeVqa theta) log = (.ok res, log') →
      Within (res.iterations * stepBound opt) res.theta theta := fun log res log' h => by
    unfold minimize at h
    rw [if_neg (not_not.mpr htheta), hhost] at h
    exact (near_hostLoop hopt htheta).of_ok trivial h
  refine ⟨hhostRun, fun hlen log ran theta' res log' h => ?_⟩
  obtain ⟨res', h', heq⟩ := (Native.runNativeVqaCore_agrees hlen hhost htheta hq runNativeVqa).of_ok h
  obtain ⟨-, rfl, rfl⟩ : ran = true ∧ theta' = res'.theta ∧ res = res' := by simpa using heq
  exact ⟨rfl, hhostRun _ _ _ h'⟩

/-- One iteration with the default decays on RY(θ₀), with the sum of each row as its energy. -/
theorem adam_stays_near_one :
    let ansatz : Circuit ℝ := ⟨1, 1, [GateCall.op (.ry 0 ⟨0, 1, 0⟩)], []⟩
    let opt : VQAOptions := ⟨.Adam, .FiniteDifference, 0.1, 0.9, 0.999, 1e-8, 0.1, 1, 1, 0, 42, false, 1024⟩
    let evaluate : EvalBatch ℝ → Except Exn (List ℝ) := fun batch =>
      .ok ((List.range batch.count).map fun i => (batch.thetaOf i).sum)
    ∃ res log, exec (minimize (fun seed i => seed + i) evaluate ansatz opt
        (fun _ theta res => pure (false, theta, res)) [1 / 2]) [] = (.ok res, log) ∧
      Within (res.iterations * stepBound opt) res.theta [1 / 2] := by
  intro ansatz opt evaluate
  have hopt : opt.Decays :=
    ⟨rfl, by norm_num [opt], by norm_num [opt], by norm_num [opt], by norm_num [opt], fun _ => by norm_num [opt]⟩
  obtain ⟨res, log, h⟩ : ∃ res log, exec (minimize (fun seed i => seed + i) evaluate ansatz opt
      (fun _ theta res => pure (false, theta, res)) [1 / 2]) [] = (.ok res, log) := ⟨_, _, rfl⟩
  exact ⟨res, log, h, (adam_stays_near (q := ⟨true, fun _ => .inOrder, fun _ => 0⟩) (fun seed i => seed + i) hopt rfl
    rfl rfl fun _ theta res => pure (false, theta, res)).1 _ _ _ h⟩

end

end Qsycl
