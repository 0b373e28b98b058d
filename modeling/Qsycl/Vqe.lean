/-
# VQE from start to answer

`vqe` (`algorithms.cpp`) picks the starting points, runs `VQA::minimize` from
each of them and keeps the result of the least energy. On an evaluator that
answers with the energies of the bound circuits every optimization returns, and
what it notes on the way are energies of states or means of two of them. So
nothing that is reported lies below the ground energy of the Hamiltonian or
above its largest eigenvalue, whatever the optimizer does (`vqe_variational`).
-/
import Qsycl.GradientCorrect
import Qsycl.Lib.Spectrum
import Qsycl.NativeCorrect
import Qsycl.OptimizersAgree
import Qsycl.Restarts
import Qsycl.Runtime

namespace Qsycl

open Qubits Runs Ieee Matrix
open Gates (half)

structure VQEOptions where
  vqa : VQAOptions
  restarts : ℕ
  seed : ℕ
  initialPoint : List ℝ
  initRange : ℝ

structure VQEResult where
  best : VQAResult
  bestRestart : ℕ
  restartEnergies : List (Value ℝ)
  totalEvaluations : ℕ

noncomputable section

def finiteResults : ResultView VQAResult (Value ℝ) :=
  ⟨.new, fun res => .finite res.energy, (·.evaluations), .posInf⟩

section Driver

variable {σ : Type} (randomParameters : ℕ → ℕ → ℝ → ℝ → List ℝ)
  (minimize : Circuit ℝ → Observable ℝ → List ℝ → VQAOptions → Run Exn σ VQAResult)

/-- The starting points for a circuit of `P` parameters. -/
def vqeStarts (options : VQEOptions) (P : ℕ) : List (List ℝ) :=
  (List.range (max options.restarts 1)).map fun r =>
    if r = 0 ∧ options.initialPoint ≠ [] then options.initialPoint
    else randomParameters P ((options.seed + r) % 2 ^ 64) (-options.initRange) options.initRange

def vqe (ansatz : Circuit ℝ) (hamiltonian : Observable ℝ) (options : VQEOptions) : Run Exn σ VQEResult :=
  if options.initialPoint ≠ [] ∧ options.initialPoint.length ≠ ansatz.numParams then
    throw ⟨.invalidArgument, s!"vqe: initial_point has {options.initialPoint.length} entries but the " ++
      s!"ansatz has {ansatz.numParams} parameters"⟩
  else do
    let s ← runRestarts finiteResults (minimize ansatz hamiltonian) options.vqa ansatz hamiltonian
      options.restarts (vqeStarts randomParameters options ansatz.numParams)
    return ⟨s.best, s.bestRestart, s.energies, s.evaluations⟩

end Driver

/-! ### Optimizations on an exact evaluator -/

section Exact

variable {ansatz : Circuit ℝ} {calls : List (GateCall ℝ)} {E : Request ℝ → ℝ}
  {evaluate : EvalBatch ℝ → Except Exn (List ℝ)} {opt : VQAOptions} {rng : ℕ → ℕ → ℕ} {lo hi : ℝ}

/-- Noting the batches does not change a gradient. -/
theorem exec_energyAndGradient (theta : List ℝ) (method : GradientMethod) (fdEps : ℝ) (shots evals : ℕ)
    (log : List (EvalBatch ℝ)) :
    (exec (energyAndGradient (submit evaluate) ansatz theta method fdEps shots evals) log).1 =
      energyAndGradient evaluate ansatz theta method fdEps shots evals := by
  refine fst_exec_bind (fun _ => rfl) (fun r log => ?_) log
  refine fst_exec_bind (fun _ => rfl) (fun e log => ?_) log
  refine fst_exec_bind (fun _ => rfl) (fun grad log => ?_) log
  refine fst_exec_bind (fun _ => rfl) (fun _ log => ?_) log
  rfl

theorem length_addRows {R : Type} [Ring R] (rows : List (Row R)) (grad : List R) :
    (addRows rows grad).length = grad.length := by
  induction rows generalizing grad with
  | nil => rfl
  | cons r rows ih => exact (ih _).trans (by rw [List.length_modify])

/-- The gradient methods that apply to a circuit. -/
def MethodApplies (ansatz : Circuit ℝ) (opt : VQAOptions) : Prop :=
  opt.optimizer ≠ .SPSA → opt.gradient = .ParameterShift → ShiftRuleApplies ansatz.ops

/-- The options for which no step divides by zero. -/
structure VQAOptions.Divides (opt : VQAOptions) : Prop where
  beta1 : opt.optimizer = .Adam → 0 ≤ opt.beta1 ∧ opt.beta1 < 1
  beta2 : opt.optimizer = .Adam → 0 ≤ opt.beta2 ∧ opt.beta2 < 1
  epsilon : opt.optimizer = .Adam → 0 < opt.epsilon
  spsaC : opt.optimizer = .SPSA → opt.spsaC ≠ 0
  fdEpsilon : opt.optimizer ≠ .SPSA → opt.gradient = .FiniteDifference → opt.fdEpsilon ≠ 0

/-- What iteration `k` divides by. -/
inductive Divisor (opt : VQAOptions) (k : ℕ) : ℝ → Prop
  | mean : opt.optimizer = .Adam → Divisor opt k (1 - opt.beta1 ^ ((k : ℝ) + 1))
  | square : opt.optimizer = .Adam → Divisor opt k (1 - opt.beta2 ^ ((k : ℝ) + 1))
  | root (v : ℝ) : opt.optimizer = .Adam →
      Divisor opt k (√(v / (1 - opt.beta2 ^ ((k : ℝ) + 1))) + opt.epsilon)
  | step : opt.optimizer = .SPSA → Divisor opt k ((((k + 1 : ℕ) : ℝ) + 0.1 * opt.maxIterations) ^ (0.602 : ℝ))
  | perturbation : opt.optimizer = .SPSA → Divisor opt k (((k : ℝ) + 1) ^ (0.101 : ℝ))
  | delta (d : ℝ) : opt.optimizer = .SPSA → d = 1 ∨ d = -1 →
      Divisor opt k (((2 : ℕ) : ℝ) * spsaPerturbation opt k * d)
  | difference : opt.optimizer ≠ .SPSA → opt.gradient = .FiniteDifference → Divisor opt k opt.fdEpsilon

/-- A later power of a decay is below 1. -/
theorem one_sub_decay_pos {b : ℝ} (h : 0 ≤ b ∧ b < 1) (k : ℕ) : 0 < 1 - b ^ ((k : ℝ) + 1) :=
  sub_pos.mpr (Real.rpow_lt_one h.1 h.2 (by positivity))

theorem Divisor.ne_zero (hopt : opt.Divides) {k : ℕ} {x : ℝ} (h : Divisor opt k x) : x ≠ 0 := by
  cases h with
  | mean hadam => exact (one_sub_decay_pos (hopt.beta1 hadam) k).ne'
  | square hadam => exact (one_sub_decay_pos (hopt.beta2 hadam) k).ne'
  | root v hadam => exact (add_pos_of_nonneg_of_pos (Real.sqrt_nonneg _) (hopt.epsilon hadam)).ne'
  | step => positivity
  | perturbation => positivity
  | delta d hspsa hd =>
    have hpow : ((k : ℝ) + 1) ^ (0.101 : ℝ) ≠ 0 := by positivity
    have hck : spsaPerturbation opt k ≠ 0 := div_ne_zero (hopt.spsaC hspsa) hpow
    have hd : d ≠ 0 := by rcases hd with rfl | rfl <;> norm_num
    exact mul_ne_zero (mul_ne_zero (by norm_num) hck) hd
  | difference hspsa hgradient => exact hopt.fdEpsilon hspsa hgradient

theorem energyAndGradient_exact (hc : ansatz.Legal calls) (he : ExactEvaluator ansatz E evaluate)
    (hsize : ansatz.ops.length ≤ 2 ^ 31) {method : GradientMethod}
    (hmethod : method = .ParameterShift → ShiftRuleApplies ansatz.ops)
    {theta : List ℝ} (hθ : theta.length = ansatz.numParams) (fdEps : ℝ) (shots evals : ℕ) :
    ∃ g evals', energyAndGradient evaluate ansatz theta method fdEps shots evals =
      .ok (E ⟨theta, -1, 0⟩, g, evals') ∧ g.length = ansatz.numParams := by
  cases method with
  | ParameterShift =>
    refine ⟨_, _, energyAndGradient_shift hc he (hmethod rfl) (symbolicBelow_of_length hsize) hθ fdEps
      shots evals, ?_⟩
    rw [length_addRows, List.length_replicate]
  | FiniteDifference =>
    refine ⟨_, _, energyAndGradient_eq he (buildGradientBatch_difference ansatz theta fdEps)
      (accepts_plain hc hθ) (fun i _ => ⟨accepts_plain hc (by rw [List.length_modify, hθ]),
        accepts_plain hc (by rw [List.length_modify, hθ])⟩)
      (fun i hi => by rwa [List.mem_range, hθ] at hi) shots evals, ?_⟩
    rw [length_addRows, List.length_replicate]

/-- The vectors of a state have one entry for each parameter. -/
structure Sized (P : ℕ) (s : HostState) : Prop where
  theta : s.theta.length = P
  m : s.m.length = P
  v : s.v.length = P

/-- Sizes, and what the history holds. -/
structure Bounded (P : ℕ) (lo hi : ℝ) (s : HostState) : Prop extends Sized P s where
  history : ∀ e ∈ s.res.history, lo ≤ e ∧ e ≤ hi

/-- The evaluator answers a batch of circuits without shifts. -/
theorem evaluate_plain (hc : ansatz.Legal calls) (he : ExactEvaluator ansatz E evaluate)
    (thetas : List (List ℝ)) (h : ∀ theta ∈ thetas, theta.length = ansatz.numParams) (shots : ℕ) :
    evaluate { EvalBatch.ofRequests (thetas.map fun theta => ⟨theta, -1, 0⟩) with shots := shots } =
      .ok (thetas.map fun theta => E ⟨theta, -1, 0⟩) := by
  rw [he _ shots fun r hr => ?_, List.map_map]
  · rfl
  · obtain ⟨theta, htheta, rfl⟩ := List.mem_map.mp hr
    exact accepts_plain hc (h theta htheta)

/-- **One step** notes an energy, or the mean of two. -/
theorem hostStep_exact (hc : ansatz.Legal calls) (he : ExactEvaluator ansatz E evaluate)
    (hE : ∀ r, Accepts ansatz r → lo ≤ E r ∧ E r ≤ hi) (hsize : ansatz.ops.length ≤ 2 ^ 31)
    (hmethod : MethodApplies ansatz opt) (k : ℕ)
    {s : HostState} (hs : Sized ansatz.numParams s) : Yields (hostStep rng evaluate ansatz opt k s)
      fun r => Sized ansatz.numParams r.1 ∧ r.1.res.history = s.res.history ∧ lo ≤ r.2 ∧ r.2 ≤ hi := by
  unfold hostStep
  by_cases hspsa : opt.optimizer = .SPSA
  · rw [if_pos hspsa]
    have hdelta : (spsaDelta (rng opt.seed) s.drawn ansatz.numParams).length = ansatz.numParams :=
      Native.length_spsaDelta _ _ _
    have hlen : ∀ f : ℝ → ℝ → ℝ, (List.zipWith f s.theta
        (spsaDelta (rng opt.seed) s.drawn ansatz.numParams)).length = ansatz.numParams := fun f => by
      rw [List.length_zipWith, hs.theta, hdelta, min_self]
    let tp := List.zipWith (fun t d => t + spsaPerturbation opt k * d) s.theta
      (spsaDelta (rng opt.seed) s.drawn ansatz.numParams)
    let tm := List.zipWith (fun t d => t - spsaPerturbation opt k * d) s.theta
      (spsaDelta (rng opt.seed) s.drawn ansatz.numParams)
    have heval := evaluate_plain hc he [tp, tm] (by simp [tp, tm, hlen]) opt.shots
    obtain ⟨hp₁, hp₂⟩ := hE _ (accepts_plain hc (hlen _) : Accepts ansatz ⟨tp, -1, 0⟩)
    obtain ⟨hm₁, hm₂⟩ := hE _ (accepts_plain hc (hlen _) : Accepts ansatz ⟨tm, -1, 0⟩)
    refine Yields.bind (Q := fun r => r = [E ⟨tp, -1, 0⟩, E ⟨tm, -1, 0⟩]) ⟨_, rfl, fun _ => heval⟩ ?_
    rintro _ rfl
    refine Yields.bind (Q := fun x => x = E ⟨tp, -1, 0⟩) (.lift rfl rfl) ?_
    rintro _ rfl
    refine Yields.bind (Q := fun x => x = E ⟨tm, -1, 0⟩) (.lift rfl rfl) ?_
    rintro _ rfl
    refine .pure ⟨⟨hlen _, hs.m, hs.v⟩, rfl, ?_, ?_⟩ <;> simp only [half] <;> linarith
  · rw [if_neg hspsa]
    obtain ⟨g, evals, hgrad, hg⟩ := energyAndGradient_exact hc he hsize (hmethod hspsa) hs.theta opt.fdEpsilon
      opt.shots s.res.evaluations
    refine Yields.bind (Q := fun r => r = (E ⟨s.theta, -1, 0⟩, g, evals))
      ⟨_, rfl, fun log => (exec_energyAndGradient _ _ _ _ _ log).trans hgrad⟩ ?_
    rintro _ rfl
    have hbounds := hE _ (accepts_plain hc hs.theta)
    have hmin : ∀ (f : ℝ → ℝ → ℝ) {l : List ℝ}, l.length = ansatz.numParams →
        (List.zipWith f l g).length = ansatz.numParams := fun f l hl => by
      rw [List.length_zipWith, hl, hg, min_self]
    by_cases hadam : opt.optimizer = .Adam
    · simp only [if_pos hadam]
      refine .pure ⟨⟨?_, hmin _ hs.m, hmin _ hs.v⟩, rfl, hbounds⟩
      rw [adamUpdate, List.length_zipWith, List.length_zipWith, hmin _ hs.m, hmin _ hs.v, hs.theta, min_self,
        min_self]
    · simp only [if_neg hadam]
      exact .pure ⟨⟨hmin _ hs.theta, hs.m, hs.v⟩, rfl, hbounds⟩

/-- **One iteration.** -/
theorem hostBody_exact (hc : ansatz.Legal calls) (he : ExactEvaluator ansatz E evaluate)
    (hE : ∀ r, Accepts ansatz r → lo ≤ E r ∧ E r ≤ hi) (hsize : ansatz.ops.length ≤ 2 ^ 31)
    (hmethod : MethodApplies ansatz opt) (k : ℕ)
    {s : HostState} (hs : Bounded ansatz.numParams lo hi s) : Yields (hostBody rng evaluate ansatz opt k s)
      fun r => Bounded ansatz.numParams lo hi r.1 := by
  refine (hostStep_exact hc he hE hsize hmethod k hs.toSized).bind ?_
  rintro ⟨s', e⟩ ⟨hsized, hhistory, hbounds⟩
  have hbounded : ∀ x ∈ s'.res.history ++ [e], lo ≤ x ∧ x ≤ hi := by
    rw [hhistory]
    intro x hx
    rcases List.mem_append.mp hx with hx | hx
    · exact hs.history x hx
    · rw [List.mem_singleton.mp hx]
      exact hbounds
  by_cases hstop : k > 0 ∧ |e - s'.prev| < opt.tolerance
  · simp only [if_pos hstop]
    exact .pure ⟨⟨hsized.theta, hsized.m, hsized.v⟩, hbounded⟩
  · simp only [if_neg hstop]
    exact .pure ⟨⟨hsized.theta, hsized.m, hsized.v⟩, hbounded⟩

/-- What an optimization on an exact evaluator returns. -/
structure ExactResult (P : ℕ) (E : Request ℝ → ℝ) (lo hi : ℝ) (res : VQAResult) : Prop where
  theta : res.theta.length = P
  energy : res.energy = E ⟨res.theta, -1, 0⟩
  history : ∀ e ∈ res.history, lo ≤ e ∧ e ≤ hi

variable (opt rng) in
/-- **A whole optimization.** -/
theorem hostLoop_exact (hc : ansatz.Legal calls) (he : ExactEvaluator ansatz E evaluate)
    (hE : ∀ r, Accepts ansatz r → lo ≤ E r ∧ E r ≤ hi) (hsize : ansatz.ops.length ≤ 2 ^ 31)
    (hmethod : MethodApplies ansatz opt)
    {theta : List ℝ} (hθ : theta.length = ansatz.numParams) :
    Yields (hostLoop rng evaluate ansatz opt theta .new) (ExactResult ansatz.numParams E lo hi) := by
  refine (Yields.loop (fun k s hs => hostBody_exact hc he hE hsize hmethod k hs) opt.maxIterations 0 _
    ⟨⟨hθ, List.length_replicate, List.length_replicate⟩, fun e he => absurd he List.not_mem_nil⟩).bind ?_
  intro s hs
  have heval := evaluate_plain hc he [s.theta] (by simp [hs.theta]) opt.shots
  refine Yields.bind (Q := fun e => e = [E ⟨s.theta, -1, 0⟩]) ⟨_, rfl, fun _ => heval⟩ ?_
  rintro _ rfl
  refine Yields.bind (Q := fun e => e = E ⟨s.theta, -1, 0⟩) (.lift rfl rfl) ?_
  rintro _ rfl
  exact .pure ⟨hs.theta, rfl, hs.history⟩

/-! ### The batches of an optimization -/

theorem writes_submit (batch : EvalBatch ℝ) : Writes (submit evaluate batch) :=
  (Writes.append [batch]).bind fun _ => .lift _

theorem writes_hostStep (k : ℕ) (s : HostState) : Writes (hostStep rng evaluate ansatz opt k s) := by
  unfold hostStep
  by_cases hspsa : opt.optimizer = .SPSA
  · rw [if_pos hspsa]
    exact (writes_submit _).bind fun r => (Writes.lift _).bind fun r0 => (Writes.lift _).bind fun r1 => .pure _
  · rw [if_neg hspsa]
    refine Writes.bind ?_ fun r => ?_
    · exact (Writes.lift _).bind fun batch => (writes_submit _).bind fun e => (Writes.lift _).bind fun g =>
        (Writes.lift _).bind fun _ => .pure _
    · by_cases hadam : opt.optimizer = .Adam
      · simp only [if_pos hadam]
        exact .pure _
      · simp only [if_neg hadam]
        exact .pure _

theorem writes_hostBody (k : ℕ) (s : HostState) : Writes (hostBody rng evaluate ansatz opt k s) := by
  refine (writes_hostStep k s).bind fun r => ?_
  by_cases hstop : k > 0 ∧ |r.2 - r.1.prev| < opt.tolerance
  · simp only [if_pos hstop]
    exact .pure _
  · simp only [if_neg hstop]
    exact .pure _

theorem writes_hostLoop (theta : List ℝ) (res : VQAResult) :
    Writes (hostLoop rng evaluate ansatz opt theta res) :=
  (Writes.loop writes_hostBody _ _ _).bind fun _ => (writes_submit _).bind fun _ => (Writes.lift _).bind
    fun _ => .pure _

variable (opt rng) in
/-- The optimization on the host: from every log the same result, with the rows it submitted. -/
theorem exec_hostLoop (hc : ansatz.Legal calls) (he : ExactEvaluator ansatz E evaluate)
    (hE : ∀ r, Accepts ansatz r → lo ≤ E r ∧ E r ≤ hi) (hsize : ansatz.ops.length ≤ 2 ^ 31)
    (hmethod : MethodApplies ansatz opt)
    {theta : List ℝ} (hθ : theta.length = ansatz.numParams) :
    ∃ res batches, ExactResult ansatz.numParams E lo hi res ∧ res.evaluations = Native.rows batches ∧
      ∀ log, exec (hostLoop rng evaluate ansatz opt theta .new) log = (.ok res, log ++ batches) := by
  obtain ⟨res, hres, hexec⟩ := hostLoop_exact opt rng hc he hE hsize hmethod hθ
  have hempty : exec (hostLoop rng evaluate ansatz opt theta .new) [] =
      (.ok res, (exec (hostLoop rng evaluate ansatz opt theta .new) []).2) := Prod.ext (hexec []) rfl
  refine ⟨res, _, hres, ((Native.accounted_hostLoop theta).of_ok rfl hempty).evaluations, fun log => ?_⟩
  rw [writes_hostLoop theta .new log, hexec]

/-- The `run_native_vqa` of a backend: the default, or that of the simulators. -/
inductive NativeVqa (rng : ℕ → ℕ → ℕ) (evaluate : EvalBatch ℝ → Except Exn (List ℝ)) (ansatz : Circuit ℝ) :
    (VQAOptions → List ℝ → VQAResult → Optimization (Bool × List ℝ × VQAResult)) → Prop
  | declines : NativeVqa rng evaluate ansatz fun _ theta res => pure (false, theta, res)
  | runs (q : Native.OptimizerQueue) : q.allocated = true → NativeVqa rng evaluate ansatz fun opt theta res =>
      Native.runNativeVqaCore rng evaluate ansatz opt q theta res

variable (opt rng) in
/-- `VQA::minimize` returns what its loop returns, on the host or on the device. -/
theorem exec_minimize_eq (hlen : Native.Answers evaluate) {runNativeVqa}
    (hnative : NativeVqa rng evaluate ansatz runNativeVqa) {theta : List ℝ} (hθ : theta.length = ansatz.numParams)
    {res : VQAResult} {batches : List (EvalBatch ℝ)}
    (hexec : ∀ log, exec (hostLoop rng evaluate ansatz opt theta .new) log = (.ok res, log ++ batches)) :
    ∃ native, ∀ log, exec (minimize rng evaluate ansatz opt runNativeVqa theta) log =
      (.ok { res with usedNative := native }, log ++ batches) := by
  unfold minimize
  rw [if_neg (not_not.mpr hθ)]
  by_cases hprefer : opt.preferNative = true
  · rw [if_pos hprefer]
    cases hnative with
    | declines => exact ⟨res.usedNative, hexec⟩
    | runs q hq =>
      -- the device follows the host, which does not look at `preferNative`
      have hagree := @Native.runNativeVqaCore_agrees rng evaluate ansatz { opt with preferNative := false } hlen rfl
        theta hθ q hq fun _ theta res => pure (false, theta, res)
      have hcore : ∀ log, exec (Native.runNativeVqaCore rng evaluate ansatz opt q theta .new) log =
          (.ok (true, res.theta, res), log ++ batches) := fun log => by
        have h := hagree.exec_eq log
        have hmin : minimize rng evaluate ansatz { opt with preferNative := false }
            (fun _ theta res => pure (false, theta, res)) theta =
              hostLoop rng evaluate ansatz opt theta .new := by
          unfold minimize
          rw [if_neg (not_not.mpr hθ)]
          rfl
        rw [hmin, exec_bind, hexec] at h
        exact h
      refine ⟨true, fun log => ?_⟩
      rw [exec_bind, hcore]
      rfl
  · rw [if_neg hprefer]
    exact ⟨res.usedNative, hexec⟩

variable (opt rng) in
/-- **`VQA::minimize`** on an exact evaluator. -/
theorem exec_minimize (hc : ansatz.Legal calls) (he : ExactEvaluator ansatz E evaluate)
    (hlen : Native.Answers evaluate) (hE : ∀ r, Accepts ansatz r → lo ≤ E r ∧ E r ≤ hi)
    (hsize : ansatz.ops.length ≤ 2 ^ 31) (hmethod : MethodApplies ansatz opt)
    {runNativeVqa} (hnative : NativeVqa rng evaluate ansatz runNativeVqa)
    {theta : List ℝ} (hθ : theta.length = ansatz.numParams) :
    ∃ res batches, ExactResult ansatz.numParams E lo hi res ∧ res.evaluations = Native.rows batches ∧
      ∀ log, exec (minimize rng evaluate ansatz opt runNativeVqa theta) log = (.ok res, log ++ batches) := by
  obtain ⟨res, batches, hres, hrows, hexec⟩ := exec_hostLoop opt rng hc he hE hsize hmethod hθ
  obtain ⟨native, hmin⟩ := exec_minimize_eq opt rng hlen hnative hθ hexec
  exact ⟨{ res with usedNative := native }, batches, ⟨hres.theta, hres.energy, hres.history⟩, hrows, hmin⟩

/-! ### Restarts -/

variable {base : VQAOptions}
  {runNativeVqa : VQAOptions → List ℝ → VQAResult → Optimization (Bool × List ℝ × VQAResult)}

variable (rng base) in
/-- The optimizations from restart `r` on. -/
theorem restarted_exact (hc : ansatz.Legal calls) (he : ExactEvaluator ansatz E evaluate)
    (hlen : Native.Answers evaluate) (hE : ∀ r, Accepts ansatz r → lo ≤ E r ∧ E r ≤ hi)
    (hsize : ansatz.ops.length ≤ 2 ^ 31) (hmethod : MethodApplies ansatz base)
    (hnative : NativeVqa rng evaluate ansatz runNativeVqa)
    {starts : List (List ℝ)} (hstarts : ∀ theta ∈ starts, theta.length = ansatz.numParams) :
    ∀ (m r : ℕ) (log : List (EvalBatch ℝ)), r + m ≤ starts.length → ∃ results log',
      Restarted (fun theta opt => minimize rng evaluate ansatz opt runNativeVqa theta) base starts r results log log' ∧
      results.length = m ∧ (∀ res ∈ results, ExactResult ansatz.numParams E lo hi res) ∧
      Native.rows log' = Native.rows log + (results.map (·.evaluations)).sum
  | 0, r, log, _ => ⟨[], log, .nil, rfl, by simp, by simp⟩
  | m + 1, r, log, hm => by
    have hr : r < starts.length := by omega
    obtain ⟨res, batches, hres, hrows, hexec⟩ := exec_minimize
      { base with seed := (base.seed + r) % 2 ^ 64 } rng hc he hlen hE hsize hmethod hnative
      (hstarts _ (List.getElem_mem hr))
    obtain ⟨results, log', hrest, hcount, hall, hsum⟩ :=
      restarted_exact hc he hlen hE hsize hmethod hnative hstarts m (r + 1) (log ++ batches) (by omega)
    refine ⟨res :: results, log', .cons (List.getElem?_eq_getElem hr) (hexec log) hrest, by simp [hcount],
      List.forall_mem_cons.mpr ⟨hres, hall⟩, ?_⟩
    rw [hsum, List.map_cons, List.sum_cons, hrows, Native.rows, Native.rows, Native.rows, List.map_append,
      List.sum_append, add_assoc]

end Exact

/-- What `run_restarts` does with results of finite energy. -/
theorem exec_runRestarts {σ : Type} {minimize : List ℝ → VQAOptions → Run Exn σ VQAResult} {base : VQAOptions}
    {starts : List (List ℝ)} {ansatz : Circuit ℝ} {H : Observable ℝ} {results : List VQAResult} {s s' : σ}
    (hvqa : checkVQA ansatz H = .ok ()) (hne : results ≠ []) (h : Restarted minimize base starts 0 results s s') :
    ∃ sweep, exec (runRestarts finiteResults minimize base ansatz H results.length starts) s = (.ok sweep, s') ∧
      sweep.Reports finiteResults results := by
  have hswept := swept (V := finiteResults) results
  have hrun := exec_restarts finiteResults h (.posInf, ⟨finiteResults.new, 0, [], 0⟩)
  obtain ⟨res, hres⟩ := List.exists_mem_of_ne_nil results hne
  have hfinite : (finiteResults.energy res).key < ⊤ := Value.key_lt_top.mpr (.inr ⟨res.energy, rfl⟩)
  have hkey := (hswept.le res hres).trans_lt hfinite
  generalize results.zipIdx.foldl (takeResult finiteResults) (.posInf, ⟨finiteResults.new, 0, [], 0⟩) = out at *
  have hinfinity : finiteResults.infinity = .posInf := rfl
  have hlt : out.1 < .posInf := (Value.lt_iff_key out.1 (by simp)).mpr hkey
  refine ⟨out.2, ?_, hswept.reports hkey rfl⟩
  rw [runRestarts, if_neg fun h0 => hne (List.length_eq_zero_iff.mp h0), hvqa, hinfinity,
    List.range_eq_range', exec_bind, exec_lift]
  dsimp only
  rw [exec_bind, hrun]
  dsimp only
  rw [if_pos hlt]
  rfl

/-! ### The driver -/

/-- What `vqe` reports of optimizations whose energies are within `lo` and `hi`. -/
structure VqeAnswer (evaluate : EvalBatch ℝ → Except Exn (List ℝ)) (lo hi : ℝ) (options : VQEOptions)
    (out : VQEResult) (log : List (EvalBatch ℝ)) : Prop where
  energy : evaluate (finalBatch out.best.theta options.vqa.shots) = .ok [out.best.energy]
  restarts : out.restartEnergies.length = options.restarts
  selected : out.restartEnergies[out.bestRestart]? = some (.finite out.best.energy)
  least : ∀ e ∈ out.restartEnergies, ∃ x, e = .finite x ∧ out.best.energy ≤ x ∧ lo ≤ x ∧ x ≤ hi
  history : ∀ e ∈ out.best.history, lo ≤ e ∧ e ≤ hi
  evaluations : out.totalEvaluations = Native.rows log

theorem length_vqeStarts {randomParameters : ℕ → ℕ → ℝ → ℝ → List ℝ} (options : VQEOptions) {P : ℕ}
    (hrandom : ∀ seed lo hi, (randomParameters P seed lo hi).length = P)
    (hpoint : options.initialPoint ≠ [] → options.initialPoint.length = P) :
    ∀ theta ∈ vqeStarts randomParameters options P, theta.length = P := by
  intro theta htheta
  obtain ⟨r, -, rfl⟩ := List.mem_map.mp htheta
  split
  · rename_i h
    exact hpoint h.2
  · exact hrandom _ _ _

/-- **`vqe` on an exact evaluator** returns, and its answer is the best of the restarts. -/
theorem exec_vqe {ansatz : Circuit ℝ} {calls : List (GateCall ℝ)} {H : Observable ℝ} {E : Request ℝ → ℝ}
    {evaluate : EvalBatch ℝ → Except Exn (List ℝ)} {rng : ℕ → ℕ → ℕ} {lo hi : ℝ} {options : VQEOptions}
    {randomParameters : ℕ → ℕ → ℝ → ℝ → List ℝ}
    {runNativeVqa : VQAOptions → List ℝ → VQAResult → Optimization (Bool × List ℝ × VQAResult)}
    (hc : ansatz.Legal calls) (hvqa : checkVQA ansatz H = .ok ()) (he : ExactEvaluator ansatz E evaluate)
    (hlen : Native.Answers evaluate) (hE : ∀ r, Accepts ansatz r → lo ≤ E r ∧ E r ≤ hi)
    (hsize : ansatz.ops.length ≤ 2 ^ 31) (hmethod : MethodApplies ansatz options.vqa)
    (hnative : NativeVqa rng evaluate ansatz runNativeVqa)
    (hrandom : ∀ seed lo hi, (randomParameters ansatz.numParams seed lo hi).length = ansatz.numParams)
    (hpoint : options.initialPoint ≠ [] → options.initialPoint.length = ansatz.numParams)
    (hrestarts : options.restarts ≠ 0) : ∃ out log,
      exec (vqe randomParameters (fun ansatz _ theta opt => minimize rng evaluate ansatz opt runNativeVqa theta)
        ansatz H options) [] = (.ok out, log) ∧ VqeAnswer evaluate lo hi options out log ∧
      (options.restarts = 1 → options.initialPoint ≠ [] → options.vqa.seed < 2 ^ 64 →
        exec (minimize rng evaluate ansatz options.vqa runNativeVqa options.initialPoint) [] = (.ok out.best, log)) := by
  have hstarts := length_vqeStarts options hrandom hpoint
  have hcount : (vqeStarts randomParameters options ansatz.numParams).length = options.restarts := by
    rw [vqeStarts, List.length_map, List.length_range, max_eq_left (Nat.one_le_iff_ne_zero.mpr hrestarts)]
  obtain ⟨results, log, hrestarted, hresults, hall, hrows⟩ := restarted_exact rng options.vqa
    hc he hlen hE hsize hmethod hnative hstarts options.restarts 0 [] (by omega)
  have hne : results ≠ [] := by
    rintro rfl
    exact hrestarts hresults.symm
  obtain ⟨sweep, hsweep, hreports⟩ := exec_runRestarts hvqa hne hrestarted
  have hmem : sweep.best ∈ results := List.mem_of_getElem? hreports.selected
  have hbest := hall _ hmem
  refine ⟨⟨sweep.best, sweep.bestRestart, sweep.energies, sweep.evaluations⟩, log, ?_, ?_, fun h1 hp hseed => ?_⟩
  · rw [vqe, if_neg fun h => h.2 (hpoint h.1), exec_bind, ← hresults, hsweep]
    rfl
  · refine ⟨?_, ?_, ?_, fun e hmem => ?_, hbest.history, ?_⟩
    · rw [hbest.energy]
      exact evaluate_plain hc he [sweep.best.theta] (by simp [hbest.theta]) options.vqa.shots
    · exact (congrArg List.length hreports.energies).trans ((List.length_map _).trans hresults)
    · show sweep.energies[sweep.bestRestart]? = _
      rw [hreports.energies, List.getElem?_map, hreports.selected]
      rfl
    · obtain ⟨res, hres, rfl⟩ := List.mem_map.mp (hreports.energies ▸ hmem)
      obtain ⟨x, hx, hleast⟩ := hreports.least
      obtain rfl : sweep.best.energy = x := Value.finite.inj hx
      have hbounds := hE _ (accepts_plain hc (hall res hres).theta)
      rw [← (hall res hres).energy] at hbounds
      exact ⟨res.energy, rfl, hleast res hres res.energy rfl, hbounds⟩
    · refine hreports.evaluations.trans ?_
      rw [hrows]
      simp [Native.rows, finiteResults]
  · rw [h1] at hresults
    obtain ⟨res, rfl⟩ := List.length_eq_one_iff.mp hresults
    obtain rfl : sweep.best = res := List.mem_singleton.mp hmem
    cases hrestarted with
    | cons hstart hexec hrest =>
      cases hrest
      have hpoint : (vqeStarts randomParameters options ansatz.numParams)[0]? = some options.initialPoint := by
        simp [vqeStarts, h1, hp]
      obtain rfl := Option.some.inj (hpoint.symm.trans hstart)
      rwa [Nat.add_zero, Nat.mod_eq_of_lt hseed] at hexec

/-! ### The simulators -/

/-- The `expectation_batch` of a simulator: one circuit after another, or all rows on a device. -/
inductive SimulatorBatches (ansatz : Circuit ℝ) (H : Observable ℝ) : (EvalBatch ℝ → Except Exn (List ℝ)) → Prop
  | host (b : CPUBackend ℂ) : SimulatorBatches ansatz H fun batch => do
      return (← CPUBackend.methods.expectationBatch ansatz H batch b).1
  | device (q : Native.Device) : q.allocated = true →
      SimulatorBatches ansatz H fun batch => Native.expectationBatch q ansatz H batch

theorem length_mapRows {σ : Type} {f : ℕ → σ → Except Exn (ℝ × σ)} : ∀ {rows : List ℕ} {s : σ} {out : List ℝ × σ},
    mapRows f rows s = .ok out → out.1.length = rows.length
  | [], _, _, h => by rw [← Except.ok.inj h]; rfl
  | i :: rows, s, out, h => by
    obtain ⟨⟨e, s₁⟩, -, h⟩ := bind_eq_ok.mp h
    obtain ⟨⟨es, s₂⟩, hrest, h⟩ := bind_eq_ok.mp h
    rw [← Except.ok.inj h, List.length_cons, List.length_cons, length_mapRows hrest]

variable {ansatz : Circuit ℝ} {calls : List (GateCall ℝ)} {H : Observable ℝ}
  {evaluate : EvalBatch ℝ → Except Exn (List ℝ)}

theorem SimulatorBatches.answers (h : SimulatorBatches ansatz H evaluate) : Native.Answers evaluate := by
  intro batch e he
  cases h with
  | host b =>
    obtain ⟨⟨es, b'⟩, hbatch, he⟩ := bind_eq_ok.mp he
    obtain rfl : es = e := Except.ok.inj he
    rw [Backend.expectationBatch] at hbatch
    split at hbatch
    · cases hbatch
    split at hbatch
    · cases hbatch
    · rw [length_mapRows hbatch, List.length_range]
  | device q hq =>
    simp only [Native.expectationBatch] at he
    split at he
    · cases he
    split at he
    · cases he
    split at he
    · rename_i hzero
      rw [← Except.ok.inj he, hzero]
      rfl
    obtain ⟨prog, -, he⟩ := bind_eq_ok.mp he
    split at he
    · cases he
    obtain ⟨sop, -, he⟩ := bind_eq_ok.mp he
    obtain ⟨sval, -, he⟩ := bind_eq_ok.mp he
    rw [← Except.ok.inj he, Native.runBatch, List.length_map, List.length_range]

theorem SimulatorBatches.exact (h : SimulatorBatches ansatz H evaluate) (hc : ansatz.Legal calls)
    (hn : ansatz.numQubits ≤ 30) (hsize : ansatz.ops.length ≤ 2 ^ 31) (ho : H.Legal)
    (hno : H.numQubits = ansatz.numQubits) :
    ExactEvaluator ansatz (requestEnergy H.numQubits H calls) evaluate := by
  cases h with
  | host b => exact exactEvaluator_cpu hc hn ho hno b
  | device q hq =>
    exact fun requests shots hr =>
      Native.expectationBatch_eq hc ho hno (Native.angledBelow_of_length hsize) hr hq

theorem isHermitian_operator (n : ℕ) (obs : Observable ℝ) : (obs.operator n).IsHermitian := by
  rw [Observable.operator]
  induction obs.masks with
  | nil => exact Matrix.isHermitian_zero
  | cons m masks ih =>
    rw [List.map_cons, List.sum_cons]
    refine Matrix.IsHermitian.add ?_ ih
    rw [Matrix.IsHermitian, conjTranspose_smul, pauliString_conjTranspose, Complex.star_def, Complex.conj_ofReal]

/-- The energies of requests lie within the spectrum. -/
theorem requestEnergy_bounds (hc : ansatz.Legal calls) (hno : H.numQubits = ansatz.numQubits) {r : Request ℝ}
    (hr : Accepts ansatz r) : ground (isHermitian_operator H.numQubits H) ≤ requestEnergy H.numQubits H calls r ∧
      requestEnergy H.numQubits H calls r ≤ top (isHermitian_operator H.numQubits H) := by
  obtain ⟨bound, hb⟩ := hr
  have hfits := (hc.bind hb).fits
  rw [hc.numQubits_bind hb, ← hno] at hfits
  have hnorm : ∑ x, Complex.normSq (preparedState H.numQubits (bindCalls calls r.theta r.op r.delta) x) = 1 :=
    ((isUnitary_circuitOperator hfits).sum_normSq _).trans (sum_normSq_zeroState _)
  exact ⟨ground_le_expect _ hnorm, expect_le_top _ hnorm⟩

/-- **The variational principle.** On a simulator, with an ansatz of the API of at most 2^31
gates that has parameters, a gradient method that applies to it and options for which no
step divides by zero, `vqe` returns from all starting points. It reports the least of the
final energies, which is what the simulator answers at the reported parameters, and the
rows that were evaluated; and the final energies and the history lie between the least and
the largest eigenvalue of the Hamiltonian. From one given starting point it is
`VQA::minimize`. -/
theorem vqe_variational (rng : ℕ → ℕ → ℕ) (randomParameters : ℕ → ℕ → ℝ → ℝ → List ℝ) (options : VQEOptions)
    (hansatz : Circuit.Built ansatz) (hn : ansatz.numQubits ≤ 30) (hsize : ansatz.ops.length ≤ 2 ^ 31)
    (hparams : ansatz.numParams ≠ 0) {terms : List (Term ℝ)}
    (hobs : Observable.ofTerms ansatz.numQubits terms = .ok H) (hsim : SimulatorBatches ansatz H evaluate)
    {runNativeVqa : VQAOptions → List ℝ → VQAResult → Optimization (Bool × List ℝ × VQAResult)}
    (hnative : NativeVqa rng evaluate ansatz runNativeVqa)
    (hrandom : ∀ seed lo hi, (randomParameters ansatz.numParams seed lo hi).length = ansatz.numParams)
    (hmethod : MethodApplies ansatz options.vqa) (hopt : options.vqa.Divides)
    (hpoint : options.initialPoint ≠ [] → options.initialPoint.length = ansatz.numParams)
    (hrestarts : options.restarts ≠ 0) : ∃ out log,
      exec (vqe randomParameters (fun ansatz _ theta opt => minimize rng evaluate ansatz opt runNativeVqa theta)
        ansatz H options) [] = (.ok out, log) ∧
      VqeAnswer evaluate (ground (isHermitian_operator H.numQubits H)) (top (isHermitian_operator H.numQubits H))
        options out log ∧
      (options.restarts = 1 → options.initialPoint ≠ [] → options.vqa.seed < 2 ^ 64 →
        exec (minimize rng evaluate ansatz options.vqa runNativeVqa options.initialPoint) [] = (.ok out.best, log)) ∧
      ∀ k x, Divisor options.vqa k x → x ≠ 0 := by
  obtain ⟨calls, hc⟩ := Circuit.legal_of_built hansatz
  have ho := legal_of_ofTerms hobs
  have hno := (ofTerms_ok hobs).2.1
  have hvqa : checkVQA ansatz H = .ok () := by
    rw [checkVQA, if_neg (not_not.mpr hno), if_neg hparams]
    rfl
  obtain ⟨out, log, hrun, hanswer, hone⟩ := exec_vqe hc hvqa (hsim.exact hc hn hsize ho hno) hsim.answers
    (fun r hr => requestEnergy_bounds hc hno hr) hsize hmethod hnative hrandom hpoint hrestarts
  exact ⟨out, log, hrun, hanswer, hone, fun k x hx => hx.ne_zero hopt⟩

/-- Two restarts of Adam on RY(θ₀) for the Hamiltonian Z, with central differences. -/
theorem vqe_variational_two :
    let ansatz : Circuit ℝ := ⟨1, 1, [GateCall.op (.ry 0 ⟨0, 1, 0⟩)], []⟩
    let H : Observable ℝ := ⟨1, [⟨1, 0, 1, 0⟩]⟩
    let evaluate : EvalBatch ℝ → Except Exn (List ℝ) := fun batch => do
      return (← CPUBackend.methods.expectationBatch ansatz H batch (.new fun _ => .inOrder)).1
    let options : VQEOptions :=
      ⟨⟨.Adam, .FiniteDifference, 0.1, 0.9, 0.999, 1e-8, 0.1, 0.001, 20, 0, 42, true, 1024⟩, 2, 1234, [1], Real.pi⟩
    ∃ out log, exec (vqe (fun P _ _ hi => List.replicate P hi) (fun ansatz _ theta opt =>
        minimize (fun seed i => seed + i) evaluate ansatz opt (fun _ theta res => pure (false, theta, res)) theta)
          ansatz H options) [] = (.ok out, log) ∧
      VqeAnswer evaluate (ground (isHermitian_operator H.numQubits H)) (top (isHermitian_operator H.numQubits H))
        options out log := by
  intro ansatz H evaluate options
  have hb : Circuit.Built ansatz :=
    .gate (c := ⟨1, 1, [], []⟩) (g := .ry 0 ⟨0, 1, 0⟩) (.newParam (.new (n := 1) rfl)) rfl
  have hobs : Observable.ofTerms 1 [.dense 1 ['Z']] = .ok H := rfl
  obtain ⟨out, log, hrun, hanswer, -⟩ := vqe_variational (fun seed i => seed + i)
    (fun P _ _ hi => List.replicate P hi) options hb (by decide) (by decide) (by decide) hobs
    (.host (.new fun _ => .inOrder)) .declines (fun _ _ _ => List.length_replicate) (fun _ h => nomatch h)
    ⟨fun _ => by norm_num [options], fun _ => by norm_num [options], fun _ => by norm_num [options],
      fun h => by simp [options] at h, fun _ _ => by norm_num [options]⟩
    (fun _ => rfl) (by decide)
  exact ⟨out, log, hrun, hanswer⟩

end

end Qsycl
