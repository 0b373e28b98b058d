/-
# Host and native optimizers agree

A native state tracks a host state if the arrays on the device hold the host's
vectors (`Tracks`). One iteration of both loops submits the same batch and
leaves such states again (`nativeBody_agrees`), so the two loops return the
same result (`optimizers_agree`).
-/
import Qsycl.Optimizers

namespace Qsycl

open WorkItems Runs
open Gates (half)

namespace Native

/-! ### The device arrays -/

section Arrays

variable {P : ℕ} (memory : Buffer × ℕ → ℝ)

theorem copyOut_copyIn (buffer : Buffer) {values : List ℝ} (h : values.length = P) :
    copyOut buffer P (copyIn buffer values memory) = values := by
  refine List.ext_getElem (by simp [copyOut, h]) fun i h1 h2 => ?_
  simp [copyOut, copyIn, h2]

theorem copyOut_copyIn_of_ne {buffer buffer' : Buffer} (h : buffer' ≠ buffer) (values : List ℝ) :
    copyOut buffer' P (copyIn buffer values memory) = copyOut buffer' P memory := by
  simp [copyOut, copyIn, h]

theorem zipWith_copyOut (f : ℝ → ℝ → ℝ) (buffer buffer' : Buffer) :
    List.zipWith f (copyOut buffer P memory) (copyOut buffer' P memory) =
      (List.range P).map fun i => f (memory (buffer, i)) (memory (buffer', i)) := by
  simp [copyOut, List.zipWith_map, List.zipWith_self]

/-- What a launch leaves in an array. -/
theorem copyOut_launch {item : ℕ → Access (Buffer × ℕ) ℝ}
    (h : ∀ i m, ∀ k ∈ (item i).trace m, k.2 = i) (q : Queue) (buffer : Buffer) :
    copyOut buffer P (q.launch P item memory) =
      (List.range P).map fun i => (item i).exec memory (buffer, i) :=
  List.map_congr_left fun _ hi => q.launch_column h memory (List.mem_range.mp hi) buffer

theorem trace_sgdItem (lr : ℝ) (i : ℕ) (m : Buffer × ℕ → ℝ) : ∀ k ∈ (sgdItem lr i).trace m, k.2 = i := by
  simp [sgdItem, Access.trace]

theorem trace_adamItem (lr b1 b2 b1t b2t eps : ℝ) (i : ℕ) (m : Buffer × ℕ → ℝ) :
    ∀ k ∈ (adamItem lr b1 b2 b1t b2t eps i).trace m, k.2 = i := by
  simp [adamItem, Access.trace]

variable {P : ℕ} (s : NativeState)

theorem sgdStep_theta (lr : ℝ) : copyOut .theta P (sgdStep P lr s).memory =
    List.zipWith (fun t g => t - lr * g) (copyOut .theta P s.memory) (copyOut .grad P s.memory) := by
  unfold sgdStep
  rw [copyOut_launch _ (trace_sgdItem lr), zipWith_copyOut]
  simp [sgdItem, Access.exec]

theorem sgdStep_of_ne (lr : ℝ) {buffer : Buffer} (h : buffer ≠ .theta) :
    copyOut buffer P (sgdStep P lr s).memory = copyOut buffer P s.memory := by
  unfold sgdStep
  rw [copyOut_launch _ (trace_sgdItem lr)]
  simp [sgdItem, Access.exec, copyOut, h]

section Adam

variable (lr b1 b2 eps : ℝ) (k : ℕ)

theorem adamStep_m : copyOut .m P (adamStep P lr b1 b2 eps k s).memory =
    List.zipWith (fun m g => b1 * m + (1 - b1) * g) (copyOut .m P s.memory) (copyOut .grad P s.memory) := by
  unfold adamStep
  rw [copyOut_launch _ (trace_adamItem lr b1 b2 _ _ eps), zipWith_copyOut]
  simp [adamItem, Access.exec]

theorem adamStep_v : copyOut .v P (adamStep P lr b1 b2 eps k s).memory =
    List.zipWith (fun v g => b2 * v + (1 - b2) * g * g) (copyOut .v P s.memory)
      (copyOut .grad P s.memory) := by
  unfold adamStep
  rw [copyOut_launch _ (trace_adamItem lr b1 b2 _ _ eps), zipWith_copyOut]
  simp [adamItem, Access.exec]

/-- The kernel takes its step with the moments it has just stored. -/
theorem adamStep_theta : copyOut .theta P (adamStep P lr b1 b2 eps k s).memory =
    List.zipWith (· - ·) (copyOut .theta P s.memory)
      (List.zipWith (fun m v => lr * (m / (1 - b1 ^ ((k : ℝ) + 1))) /
          (Real.sqrt (v / (1 - b2 ^ ((k : ℝ) + 1))) + eps))
        (copyOut .m P (adamStep P lr b1 b2 eps k s).memory)
        (copyOut .v P (adamStep P lr b1 b2 eps k s).memory)) := by
  rw [zipWith_copyOut]
  unfold adamStep
  rw [copyOut_launch _ (trace_adamItem lr b1 b2 _ _ eps), copyOut, List.zipWith_map, List.zipWith_self]
  refine List.map_congr_left fun i hi => ?_
  have hcell := fun b => s.queue.launch_column (trace_adamItem lr b1 b2 (1 - b1 ^ ((k + 1 : ℕ) : ℝ))
    (1 - b2 ^ ((k + 1 : ℕ) : ℝ)) eps) s.memory (List.mem_range.mp hi) b
  simp only [hcell]
  simp [adamItem, Access.exec]

end Adam

end Arrays

/-! ### One iteration -/

/-- The device holds the vectors of the host. -/
structure Holds (P : ℕ) (opt : VQAOptions) (s : HostState) (d : NativeState) : Prop where
  theta : copyOut .theta P d.memory = s.theta
  moments : opt.optimizer = .Adam → copyOut .m P d.memory = s.m ∧ copyOut .v P d.memory = s.v
  drawn : d.drawn = s.drawn
  prev : d.prev = s.prev
  result : d.result = s.res

/-- And the host's copy is that of the device. -/
structure Tracks (P : ℕ) (opt : VQAOptions) (s : HostState) (d : NativeState) : Prop
    extends Holds P opt s d where
  copy : d.theta = s.theta

section Step

variable {P : ℕ} {opt : VQAOptions} {s : HostState} {d : NativeState}

/-- A gradient step on both sides. -/
theorem Holds.sgd {s' : HostState} {d' : NativeState} {g : List ℝ} (lr : ℝ) (h : Holds P opt s d)
    (hg : g.length = P) (hd : d'.memory = copyIn .grad g d.memory)
    (htheta : s'.theta = List.zipWith (fun t g => t - lr * g) s.theta g)
    (hm : s'.m = s.m) (hv : s'.v = s.v) (hdrawn : d'.drawn = s'.drawn) (hprev : d'.prev = s'.prev)
    (hres : d'.result = s'.res) : Holds P opt s' (sgdStep P lr d') where
  theta := by
    rw [sgdStep_theta, hd, copyOut_copyIn _ _ hg, copyOut_copyIn_of_ne _ (by decide), h.theta, htheta]
  moments hadam := by
    obtain ⟨h1, h2⟩ := h.moments hadam
    rw [sgdStep_of_ne _ _ (by decide), sgdStep_of_ne _ _ (by decide), hd,
      copyOut_copyIn_of_ne _ (by decide), copyOut_copyIn_of_ne _ (by decide), h1, h2, hm, hv]
    exact ⟨rfl, rfl⟩
  drawn := hdrawn
  prev := hprev
  result := hres

/-- An Adam step on both sides. -/
theorem Holds.adam {s' : HostState} {d' : NativeState} {g : List ℝ} {k : ℕ} (h : Holds P opt s d)
    (hadam : opt.optimizer = .Adam) (hg : g.length = P) (hd : d'.memory = copyIn .grad g d.memory)
    (htheta : s'.theta = s.theta) (hm : s'.m = s.m) (hv : s'.v = s.v) (hdrawn : d'.drawn = s'.drawn)
    (hprev : d'.prev = s'.prev) (hres : d'.result = s'.res) :
    Holds P opt (adamUpdate opt k s' g)
      (adamStep P opt.learningRate opt.beta1 opt.beta2 opt.epsilon k d') := by
  obtain ⟨h1, h2⟩ := h.moments hadam
  have hm' : copyOut .m P (adamStep P opt.learningRate opt.beta1 opt.beta2 opt.epsilon k d').memory =
      (adamUpdate opt k s' g).m := by
    rw [adamStep_m, hd, copyOut_copyIn _ _ hg, copyOut_copyIn_of_ne _ (by decide), h1, ← hm]
    rfl
  have hv' : copyOut .v P (adamStep P opt.learningRate opt.beta1 opt.beta2 opt.epsilon k d').memory =
      (adamUpdate opt k s' g).v := by
    rw [adamStep_v, hd, copyOut_copyIn _ _ hg, copyOut_copyIn_of_ne _ (by decide), h2, ← hv]
    rfl
  refine ⟨?_, fun _ => ⟨hm', hv'⟩, hdrawn, hprev, hres⟩
  rw [adamStep_theta, hm', hv', hd, copyOut_copyIn_of_ne _ (by decide), h.theta, ← htheta]
  rfl

end Step

section Agreement

variable {rng : ℕ → ℕ → ℕ} {evaluate : EvalBatch ℝ → Except Exn (List ℝ)} {ansatz : Circuit ℝ}
  {opt : VQAOptions}

/-- Every answer has one energy for each request. -/
def Answers (evaluate : EvalBatch ℝ → Except Exn (List ℝ)) : Prop :=
  ∀ batch e, evaluate batch = .ok e → e.length = batch.count

theorem submit_agrees (hlen : Answers evaluate) (batch : EvalBatch ℝ) :
    Agree (fun r r' => r = r' ∧ r.length = batch.count) (submit evaluate batch) (submit evaluate batch) := by
  intro log
  refine ⟨?_, rfl⟩
  have hexec : (exec (submit evaluate batch) log).1 = evaluate batch := rfl
  rw [hexec]
  cases he : evaluate batch with
  | ok e => exact .ok ⟨rfl, hlen batch e he⟩
  | error e => exact .error e

theorem lift_agrees {α : Type} (x : Except Exn α) : Agree (fun a b => a = b ∧ x = .ok a)
    (liftM x : Optimization α) (liftM x) := by
  intro log
  refine ⟨?_, rfl⟩
  rw [exec_lift]
  cases x with
  | ok a => exact .ok ⟨rfl, rfl⟩
  | error e => exact .error e

/-- The native loop reads the energy before it combines the gradient. -/
theorem gradient_agrees (hlen : Answers evaluate) (theta : List ℝ) (evals : ℕ) :
    Agree (fun r r' => r = r' ∧ r.2.1.length = ansatz.numParams)
      (energyAndGradient (submit evaluate) ansatz theta opt.gradient opt.fdEpsilon opt.shots evals)
      (gradientOnHost evaluate ansatz opt theta evals) := by
  refine (lift_agrees _).bind ?_
  rintro ⟨batch, terms⟩ _ ⟨rfl, hbatch⟩
  refine (submit_agrees hlen _).bind ?_
  rintro en _ ⟨rfl, hen⟩
  obtain ⟨e, he⟩ : ∃ e, vecAt en 0 = .ok e := by
    cases en with
    | nil => exact absurd hen (count_buildGradientBatch hbatch).ne
    | cons e en => exact ⟨e, rfl⟩
  rw [he]
  refine (lift_agrees _).bind ?_
  rintro grad _ ⟨rfl, hgrad⟩
  exact .pure ⟨rfl, by rw [length_combineTerms hgrad, List.length_replicate]⟩

theorem length_spsaDelta (rng : ℕ → ℕ) (drawn P : ℕ) : (spsaDelta rng drawn P).length = P := by
  simp [spsaDelta]

/-- **One step** of both loops. -/
theorem nativeStep_agrees (hlen : Answers evaluate) (k : ℕ) {s : HostState} {d : NativeState}
    (h : Tracks ansatz.numParams opt s d) :
    Agree (fun r r' => Holds ansatz.numParams opt r.1 r'.1 ∧ r.2 = r'.2)
      (hostStep rng evaluate ansatz opt k s) (nativeStep rng evaluate ansatz opt k d) := by
  unfold hostStep nativeStep
  by_cases hspsa : opt.optimizer = .SPSA
  · rw [if_pos hspsa, if_pos hspsa, h.copy, h.drawn]
    refine (submit_agrees hlen _).bind ?_
    rintro r _ ⟨rfl, -⟩
    refine (Agree.refl _).bind ?_
    rintro r0 _ rfl
    refine (Agree.refl _).bind ?_
    rintro r1 _ rfl
    refine .pure ⟨h.toHolds.sgd _ ?_ rfl ?_ rfl rfl rfl h.prev ?_, rfl⟩
    · rw [List.length_map, length_spsaDelta]
    · rw [List.zipWith_map_right]
      simp only [mul_div_assoc]
    · rw [h.result]
  · rw [if_neg hspsa, if_neg hspsa, h.copy]
    rw [h.result]
    refine (gradient_agrees hlen _ _).bind ?_
    rintro ⟨e, g, evals⟩ _ ⟨rfl, hg⟩
    by_cases hadam : opt.optimizer = .Adam
    · simp only [if_pos hadam]
      exact .pure ⟨h.toHolds.adam hadam hg rfl rfl rfl rfl h.drawn h.prev rfl, rfl⟩
    · simp only [if_neg hadam]
      exact .pure ⟨h.toHolds.sgd _ hg rfl rfl rfl rfl h.drawn h.prev rfl, rfl⟩

/-- **One iteration** of both loops. -/
theorem nativeBody_agrees (hlen : Answers evaluate) (k : ℕ) {s : HostState} {d : NativeState}
    (h : Tracks ansatz.numParams opt s d) :
    Agree (fun r r' => Tracks ansatz.numParams opt r.1 r'.1 ∧ r.2 = r'.2)
      (hostBody rng evaluate ansatz opt k s) (nativeBody rng evaluate ansatz opt k d) := by
  unfold hostBody nativeBody
  refine (nativeStep_agrees hlen k h).bind ?_
  rintro ⟨s', e⟩ ⟨d', _⟩ ⟨h', rfl⟩
  have h' : Holds ansatz.numParams opt s' d' := h'
  simp only [h'.prev, h'.result]
  by_cases hstop : k > 0 ∧ |e - s'.prev| < opt.tolerance
  · rw [if_pos hstop, if_pos hstop]
    exact .pure ⟨⟨⟨h'.theta, h'.moments, h'.drawn, rfl, rfl⟩, h'.theta⟩, rfl⟩
  · rw [if_neg hstop, if_neg hstop]
    exact .pure ⟨⟨⟨h'.theta, h'.moments, h'.drawn, rfl, rfl⟩, h'.theta⟩, rfl⟩

theorem start_tracks {theta : List ℝ} (htheta : theta.length = ansatz.numParams)
    (memory : Buffer × ℕ → ℝ) (queue : Queue) (res : VQAResult) :
    Tracks ansatz.numParams opt
      ⟨theta, List.replicate ansatz.numParams 0, List.replicate ansatz.numParams 0, 0, 0, res⟩
      ⟨theta, startMemory ansatz opt memory theta, queue, 0, 0, res⟩ := by
  refine ⟨⟨?_, fun hadam => ?_, rfl, rfl, rfl⟩, rfl⟩
  · show copyOut .theta _ (startMemory ansatz opt memory theta) = theta
    unfold startMemory
    split
    · rw [copyOut_copyIn_of_ne _ (by decide), copyOut_copyIn_of_ne _ (by decide), copyOut_copyIn _ _ htheta]
    · exact copyOut_copyIn _ _ htheta
  · show copyOut .m _ (startMemory ansatz opt memory theta) = _ ∧
      copyOut .v _ (startMemory ansatz opt memory theta) = _
    unfold startMemory
    rw [if_pos hadam, copyOut_copyIn_of_ne _ (by decide), copyOut_copyIn _ _ List.length_replicate,
      copyOut_copyIn _ _ List.length_replicate]
    exact ⟨rfl, rfl⟩

/-- **The whole runs** agree. -/
theorem runNativeVqaCore_agrees (hlen : Answers evaluate) (hhost : opt.preferNative = false)
    {theta : List ℝ} (htheta : theta.length = ansatz.numParams) {q : OptimizerQueue}
    (hq : q.allocated = true)
    (runNativeVqa : VQAOptions → List ℝ → VQAResult → Optimization (Bool × List ℝ × VQAResult)) :
    Agree (fun res r => r = (true, res.theta, res))
      (minimize rng evaluate ansatz opt runNativeVqa theta)
      (runNativeVqaCore rng evaluate ansatz opt q theta .new) := by
  unfold minimize runNativeVqaCore
  rw [if_neg (not_not.mpr htheta), if_neg (not_not.mpr htheta), hhost, hq]
  show Agree _ (hostLoop rng evaluate ansatz opt theta .new) _
  refine (Agree.loop (fun k s d h => nativeBody_agrees hlen k h) opt.maxIterations 0 _ _
    (start_tracks htheta q.memory q.queue .new)).bind ?_
  intro s d h
  rw [h.copy, h.result]
  refine (submit_agrees hlen _).bind ?_
  rintro out _ ⟨rfl, hout⟩
  cases out with
  | nil => cases hout
  | cons e out => exact .pure rfl

end Agreement

/-! ### What a run counts -/

section Counts

variable {rng : ℕ → ℕ → ℕ} {evaluate : EvalBatch ℝ → Except Exn (List ℝ)} {ansatz : Circuit ℝ}
  {opt : VQAOptions}

/-- The rows of the batches. -/
def rows (log : List (EvalBatch ℝ)) : ℕ := (log.map (·.count)).sum

/-- At the head of iteration `k`. -/
structure Counted (k : ℕ) (s : HostState) (log : List (EvalBatch ℝ)) : Prop where
  evaluations : s.res.evaluations = rows log
  history : s.res.history.length = k
  iterations : s.res.iterations = k

theorem submit_ok (evals : ℕ) (batch : EvalBatch ℝ) :
    Triple (fun log => evals = rows log) (submit evaluate batch)
      (fun e log => evaluate batch = .ok e ∧ evals + batch.count = rows log) (fun _ _ => True) := by
  rintro log rfl
  have hexec : exec (submit evaluate batch) log = (evaluate batch, log ++ [batch]) := rfl
  rw [hexec]
  cases evaluate batch with
  | ok e => simp [After, rows]
  | error e => trivial

theorem rows_submit (evals : ℕ) (batch : EvalBatch ℝ) :
    Triple (fun log => evals = rows log) (submit evaluate batch)
      (fun _ log => evals + batch.count = rows log) (fun _ _ => True) :=
  (submit_ok evals batch).mono (fun _ h => h) (fun _ _ h => h.2) fun _ _ h => h

theorem rows_lift {α : Type} (x : Except Exn α) (P : List (EvalBatch ℝ) → Prop) :
    Triple P (liftM x : Optimization α) (fun _ => P) (fun _ _ => True) :=
  .lift (fun _ _ _ h => h) fun _ _ _ _ => trivial

theorem rows_energyAndGradient (theta : List ℝ) (method : GradientMethod) (fdEps : ℝ) (shots evals : ℕ) :
    Triple (fun log => evals = rows log)
      (energyAndGradient (submit evaluate) ansatz theta method fdEps shots evals)
      (fun r log => r.2.2 = rows log) (fun _ _ => True) := by
  refine (rows_lift _ _).bind fun r => ?_
  refine (rows_submit _ _).bind fun e => ?_
  refine (rows_lift _ _).bind fun grad => ?_
  exact (rows_lift _ _).bind fun e₀ => .pure _ fun _ h => h

theorem counted_hostStep (k : ℕ) (s : HostState) :
    Triple (Counted k s) (hostStep rng evaluate ansatz opt k s) (fun r => Counted k r.1)
      (fun _ _ => True) := by
  intro log hlog
  suffices h : Triple (fun log => s.res.evaluations = rows log) (hostStep rng evaluate ansatz opt k s)
      (fun r => Counted k r.1) (fun _ _ => True) from h log hlog.evaluations
  unfold hostStep
  split
  · refine (rows_submit _ _).bind fun r => ?_
    refine (rows_lift _ _).bind fun r0 => ?_
    refine (rows_lift _ _).bind fun r1 => ?_
    exact .pure _ fun log' h => ⟨h, hlog.history, hlog.iterations⟩
  · refine (rows_energyAndGradient _ _ _ _ _).bind ?_
    rintro ⟨e, g, evals⟩
    by_cases hadam : opt.optimizer = .Adam
    · simp only [if_pos hadam]
      exact .pure _ fun log' h => ⟨h, hlog.history, hlog.iterations⟩
    · simp only [if_neg hadam]
      exact .pure _ fun log' h => ⟨h, hlog.history, hlog.iterations⟩

theorem counted_hostBody (k : ℕ) (s : HostState) :
    Triple (Counted k s) (hostBody rng evaluate ansatz opt k s) (fun r => Counted (k + 1) r.1)
      (fun _ _ => True) := by
  refine (counted_hostStep k s).bind ?_
  rintro ⟨s', e⟩
  by_cases hstop : k > 0 ∧ |e - s'.prev| < opt.tolerance
  · simp only [if_pos hstop]
    exact .pure _ fun log h => ⟨h.evaluations, by simp [h.history], rfl⟩
  · simp only [if_neg hstop]
    exact .pure _ fun log h => ⟨h.evaluations, by simp [h.history], rfl⟩

/-- The bookkeeping of a result. -/
structure Accounted (evaluate : EvalBatch ℝ → Except Exn (List ℝ)) (opt : VQAOptions) (res : VQAResult)
    (log : List (EvalBatch ℝ)) : Prop where
  evaluations : res.evaluations = rows log
  history : res.history.length = res.iterations
  energy : ∃ e, evaluate (finalBatch res.theta opt.shots) = .ok e ∧ e[0]? = some res.energy

theorem accounted_hostLoop (theta : List ℝ) :
    Triple (fun log => log = []) (hostLoop rng evaluate ansatz opt theta .new)
      (Accounted evaluate opt) (fun _ _ => True) := by
  refine Triple.bind (R := fun s log => ∃ k, Counted k s log) (fun log hlog => ?_) fun s => ?_
  · subst hlog
    exact Triple.loop (fun k s => counted_hostBody k s) _ 0 _ [] ⟨rfl, rfl, rfl⟩
  · rintro log ⟨k, h⟩
    have hrest : Triple (fun log => s.res.evaluations = rows log) (do
        let energy ← checkedAt (← submit evaluate (finalBatch s.theta opt.shots)) 0
        return { s.res with theta := s.theta, energy := energy, evaluations := s.res.evaluations + 1 })
        (Accounted evaluate opt) (fun _ _ => True) := by
      refine (submit_ok _ _).bind fun e => ?_
      refine Triple.bind (.lift (Q := fun x log => e[0]? = some x ∧
        evaluate (finalBatch s.theta opt.shots) = .ok e ∧ s.res.evaluations + 1 = rows log)
        (fun x hx log' h' => ⟨?_, h'⟩) fun _ _ _ _ => trivial) fun x => ?_
      · unfold checkedAt at hx
        split at hx
        · rename_i y hy
          rw [hy, Except.ok.inj hx]
        · cases hx
      · exact .pure _ fun log' h' => ⟨h'.2.2, h.history.trans h.iterations.symm, e, h'.2.1, h'.1⟩
    exact hrest log h.evaluations

end Counts

/-- **The optimizers agree.** For every evaluator with one answer for each request,
`minimize` on the host and `run_native_vqa_core` submit the same batches and end
alike: with the same exception or with the same result. In a result of either,
the evaluations are the rows submitted, the history has an entry for each
iteration, and the energy is the evaluator's at the returned parameters. -/
theorem optimizers_agree {evaluate : EvalBatch ℝ → Except Exn (List ℝ)} (hlen : Answers evaluate)
    (rng : ℕ → ℕ → ℕ) {ansatz : Circuit ℝ} {opt : VQAOptions} (hhost : opt.preferNative = false)
    {theta : List ℝ} (htheta : theta.length = ansatz.numParams) {q : OptimizerQueue}
    (hq : q.allocated = true)
    (runNativeVqa : VQAOptions → List ℝ → VQAResult → Optimization (Bool × List ℝ × VQAResult)) :
    (∀ log, exec (runNativeVqaCore rng evaluate ansatz opt q theta .new) log = exec (do
      let res ← minimize rng evaluate ansatz opt runNativeVqa theta
      return (true, res.theta, res)) log) ∧
    (∀ res log, exec (minimize rng evaluate ansatz opt runNativeVqa theta) [] = (.ok res, log) →
      Accounted evaluate opt res log) ∧
    ∀ ran theta' res log,
      exec (runNativeVqaCore rng evaluate ansatz opt q theta .new) [] = (.ok (ran, theta', res), log) →
        theta' = res.theta ∧ Accounted evaluate opt res log := by
  have hagree : Agree (fun res r => r = (true, res.theta, res))
      (minimize rng evaluate ansatz opt runNativeVqa theta)
      (runNativeVqaCore rng evaluate ansatz opt q theta .new) :=
    runNativeVqaCore_agrees hlen hhost htheta hq runNativeVqa
  have hloop : minimize rng evaluate ansatz opt runNativeVqa theta =
      hostLoop rng evaluate ansatz opt theta .new := by
    unfold minimize
    rw [if_neg (not_not.mpr htheta), hhost]
    rfl
  have hhostRun : ∀ res log, exec (minimize rng evaluate ansatz opt runNativeVqa theta) [] = (.ok res, log) →
      Accounted evaluate opt res log := fun res log h => by
    rw [hloop] at h
    exact (accounted_hostLoop theta).of_ok rfl h
  refine ⟨hagree.exec_eq, hhostRun, fun ran theta' res log h => ?_⟩
  obtain ⟨res', h', heq⟩ := hagree.of_ok h
  obtain ⟨-, rfl, rfl⟩ : ran = true ∧ theta' = res'.theta ∧ res = res' := by simpa using heq
  exact ⟨rfl, hhostRun _ log h'⟩

/-- One iteration of SPSA on RY(θ₀), with the sum of each row as its energy. -/
theorem optimizers_agree_two :
    let ansatz : Circuit ℝ := ⟨1, 1, [GateCall.op (.ry 0 ⟨0, 1, 0⟩)], []⟩
    let opt : VQAOptions := ⟨.SPSA, .ParameterShift, 1, 0, 0, 0, 1, 1, 1, 0, 42, false, 1024⟩
    let evaluate : EvalBatch ℝ → Except Exn (List ℝ) := fun batch =>
      .ok ((List.range batch.count).map fun i => (batch.thetaOf i).sum)
    let q : OptimizerQueue := ⟨true, fun _ => .inOrder, fun _ => 0⟩
    ∃ res log, exec (minimize (fun seed i => seed + i) evaluate ansatz opt
        (fun _ theta res => pure (false, theta, res)) [1 / 2]) [] = (.ok res, log) ∧
      exec (runNativeVqaCore (fun seed i => seed + i) evaluate ansatz opt q [1 / 2] .new) [] =
        (.ok (true, res.theta, res), log) ∧
      Accounted evaluate opt res log := by
  intro ansatz opt evaluate q
  have hlen : Answers evaluate := fun batch e he => by
    rw [← Except.ok.inj he]
    simp
  have htheta : [(1 / 2 : ℝ)].length = ansatz.numParams := rfl
  obtain ⟨hrun, hacc, -⟩ := optimizers_agree hlen (fun seed i => seed + i)
    (rfl : opt.preferNative = false) htheta (rfl : q.allocated = true)
    fun _ theta res => pure (false, theta, res)
  obtain ⟨res, log, h⟩ : ∃ res log, exec (minimize (fun seed i => seed + i) evaluate ansatz opt
      (fun _ theta res => pure (false, theta, res)) [1 / 2]) [] = (.ok res, log) := ⟨_, _, rfl⟩
  refine ⟨res, log, h, ?_, hacc res log h⟩
  rw [hrun, exec_bind, h]
  rfl

end Native

end Qsycl
