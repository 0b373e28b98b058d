/-
# The device buffers of the native optimizer

`native::expectation_batch` and `run_native_vqa_core` allocate their buffers one
by one, check that none is null, and free them at the end. The first frees them
on each of its paths. The second does not where it is left by an exception from
inside the loop: then its two or, for Adam, four buffers of one double for each
parameter stay allocated. That is all that stays: after any sequence of calls on
a device, the blocks left on it are the buffers of the optimizations whose loop
threw (`calls_leak`).
-/
import Qsycl.Lib.DeviceMemory
import Qsycl.NativeCorrect
import Qsycl.OptimizersAgree

namespace Qsycl

open Runs DeviceMemory

namespace Native

noncomputable section

/-! ### The functions with their allocations -/

/-- What throws in the source. -/
def thrown {α : Type} (x : Except Exn α) : Code Unit Exn α := liftM (x.mapError Stop.exn)

/-- What has no defined meaning in the source where the model has an error. -/
def defined {α : Type} (x : Except Exn α) : Code Unit Exn α := liftM (x.mapError fun _ => (Stop.fault : Stop Exn))

/-- The buffers, without those that stay null as they would have no cells. -/
def batchSizes (dim B P T : ℕ) : List ℕ :=
  [B * dim] ++ (if P = 0 then [] else [B * P]) ++ [B, B] ++ (if T = 0 then [] else [T]) ++ [B]

def expectationBatchOn (A : Allocator Unit) (q : Device) (ansatz : Circuit ℝ) (obs : Observable ℝ)
    (batch : EvalBatch ℝ) : Code Unit Exn (List ℝ) :=
  if obs.numQubits ≠ ansatz.numQubits then
    throw (.exn ⟨.invalidArgument, "native::expectation_batch: observable/ansatz qubit mismatch"⟩)
  else if batch.count ≠ 0 ∧ batch.numParams ≠ ansatz.numParams then
    throw (.exn ⟨.invalidArgument, "native::expectation_batch: batch parameter count mismatch"⟩)
  else if batch.count = 0 then return []
  else do
    let B := batch.count
    let prog ← thrown (compile ansatz)
    let ptrs ← mallocs A (batchSizes (1 <<< ansatz.numQubits) B batch.numParams obs.masks.length)
    if ptrs.any Option.isNone then do
      frees ptrs
      throw (.exn ⟨.runtimeError, "native::expectation_batch: sycl::malloc_device failed (out of device memory?)"⟩)
    else do
      let sop ← defined ((List.range B).mapM batch.opOf)
      let sval ← defined ((List.range B).mapM batch.deltaOf)
      let dev : DeviceBatch :=
        ⟨1 <<< ansatz.numQubits, batch.numParams, (batch.thetas.getD · 0), (sop.getD · (-1)), (sval.getD · 0)⟩
      let out := runBatch q B dev prog obs.masks
      frees ptrs
      return out

section Core

variable (rng : ℕ → ℕ → ℕ) (evaluate : EvalBatch ℝ → Except Exn (List ℝ)) (ansatz : Circuit ℝ) (opt : VQAOptions)

/-- The optimizer's buffers. -/
def optimizerSizes : List ℕ := List.replicate (if opt.optimizer = .Adam then 4 else 2) ansatz.numParams

/-- The loop of `run_native_vqa_core`. -/
def coreLoop (q : OptimizerQueue) (theta : List ℝ) (result : VQAResult) : Except Exn NativeState :=
  (exec (loop (nativeBody rng evaluate ansatz opt) opt.maxIterations 0
    ⟨theta, startMemory ansatz opt q.memory theta, q.queue, 0, 0, result⟩) []).1

def runNativeVqaCoreOn (A : Allocator Unit) (q : OptimizerQueue) (theta : List ℝ) (result : VQAResult) :
    Code Unit Exn (Bool × List ℝ × VQAResult) :=
  if theta.length ≠ ansatz.numParams then
    throw (.exn ⟨.invalidArgument, "native::run_native_vqa: theta0 size != ansatz.num_params()"⟩)
  else do
    let ptrs ← mallocs A (optimizerSizes ansatz opt)
    if ptrs.any Option.isNone then do
      frees ptrs
      throw (.exn ⟨.runtimeError, "native::run_native_vqa: sycl::malloc_device failed (out of device memory?)"⟩)
    else do
      let s ← thrown (coreLoop rng evaluate ansatz opt q theta result)
      frees ptrs
      let last ← thrown (evaluate (finalBatch s.theta opt.shots))
      let energy ← defined (vecAt last 0)
      return (true, s.theta,
        { s.result with theta := s.theta, energy := energy, evaluations := s.result.evaluations + 1 })

end Core

/-! ### Calls on one device -/

/-- A call of either function. -/
inductive Call
  | expectationBatch (q : Device) (ansatz : Circuit ℝ) (obs : Observable ℝ) (batch : EvalBatch ℝ)
  | runNativeVqa (rng : ℕ → ℕ → ℕ) (evaluate : EvalBatch ℝ → Except Exn (List ℝ)) (ansatz : Circuit ℝ)
    (opt : VQAOptions) (q : OptimizerQueue) (theta : List ℝ) (result : VQAResult)

/-- What a call answers. -/
inductive Answer
  | energies (e : List ℝ)
  | optimized (ran : Bool) (theta : List ℝ) (result : VQAResult)

namespace Call

def onDevice (A : Allocator Unit) : Call → Code Unit Exn Answer
  | expectationBatch q ansatz obs batch => .energies <$> expectationBatchOn A q ansatz obs batch
  | runNativeVqa rng evaluate ansatz opt q theta result =>
    (fun r => .optimized r.1 r.2.1 r.2.2) <$> runNativeVqaCoreOn rng evaluate ansatz opt A q theta result

/-- The call where allocations are a flag. -/
def answer (granted : Bool) : Call → Except Exn Answer
  | expectationBatch q ansatz obs batch =>
    (Native.expectationBatch { q with allocated := granted } ansatz obs batch).map .energies
  | runNativeVqa rng evaluate ansatz opt q theta result =>
    (exec (runNativeVqaCore rng evaluate ansatz opt { q with allocated := granted } theta result) []).1.map
      fun r => .optimized r.1 r.2.1 r.2.2

/-- The sizes of the buffers that the call leaves behind. -/
def leaks (granted : Bool) : Call → List ℕ
  | expectationBatch _ _ _ _ => []
  | runNativeVqa rng evaluate ansatz opt q theta result =>
    if granted ∧ theta.length = ansatz.numParams ∧ (coreLoop rng evaluate ansatz opt q theta result).isOk = false then
      optimizerSizes ansatz opt
    else []

end Call

/-- What a caller sees that catches exceptions; nothing if a call has no defined meaning. -/
def deviceRun (A : Allocator Unit) : List Call → Heap Unit → Option (List (Except Exn Answer) × Heap Unit)
  | [], d => some ([], d)
  | call :: calls, d =>
    match exec (call.onDevice A) d with
    | (.error .fault, _) => none
    | (.error (.exn e), d') => (deviceRun A calls d').map fun r => (.error e :: r.1, r.2)
    | (.ok x, d') => (deviceRun A calls d').map fun r => (.ok x :: r.1, r.2)

/-- The batches are built with `add`, and an evaluator has one energy for each request. -/
def Call.Valid : Call → Prop
  | expectationBatch _ _ _ batch => ∃ (requests : List (Request ℝ)) (P shots : ℕ),
      (∀ r ∈ requests, r.theta.length = P) ∧ batch = { EvalBatch.ofRequests requests with shots := shots }
  | runNativeVqa _ evaluate _ _ _ _ _ => Answers evaluate

/-! ### Each function -/

section Functions

variable {others : ℕ → Option (Block Unit)} {l : List (ℕ × Block Unit)} {d : Heap Unit} (A : Allocator Unit)

theorem exec_thrown_bind {α β : Type} (x : Except Exn α) (f : α → Code Unit Exn β) (d : Heap Unit) :
    exec (thrown x >>= f) d = match x with
      | .ok a => exec (f a) d
      | .error e => (.error (.exn e), d) := by
  rw [exec_bind]
  cases x <;> rfl

/-- The pointers of a request: all of its blocks, or too few. -/
theorem mallocs_cases (sizes : List ℕ) (hd : Owns others l d) : ∃ ptrs new d',
    exec (mallocs A sizes : Code Unit Exn (List (Option ℕ))) d = (.ok ptrs, d') ∧ Owns others (l ++ new) d' ∧
    (ptrs.any Option.isNone = false → new.map (fun x => x.2.size) = sizes) ∧
    ∃ d'', exec (frees ptrs : Code Unit Exn Unit) d' = (.ok (), d'') ∧ Owns others l d'' := by
  obtain ⟨ptrs, new, d', hrun, hd', hptrs, hsizes⟩ := mallocs_spec (ε := Exn) A sizes hd
  obtain ⟨d'', hfrees, hd''⟩ := frees_spec (ε := Exn) (hd'.perm List.perm_append_comm) hptrs
  refine ⟨ptrs, new, d', hrun, hd', fun hany => hsizes ?_, d'', hfrees, hd''⟩
  rw [List.all_eq_true]
  intro p hp
  have h := List.any_eq_false.mp hany p hp
  simpa [Option.isSome_iff_ne_none] using h

/-- `expectation_batch` frees what it allocates. -/
theorem expectationBatchOn_spec (hd : Owns others l d) (q : Device) (ansatz : Circuit ℝ) (obs : Observable ℝ)
    {batch : EvalBatch ℝ} {sop : List ℤ} {sval : List ℝ}
    (hsop : (List.range batch.count).mapM batch.opOf = .ok sop)
    (hsval : (List.range batch.count).mapM batch.deltaOf = .ok sval) : ∃ granted d',
    exec (expectationBatchOn A q ansatz obs batch) d =
      ((Native.expectationBatch { q with allocated := granted } ansatz obs batch).mapError Stop.exn, d') ∧
    Owns others l d' := by
  unfold expectationBatchOn
  by_cases hqubits : obs.numQubits ≠ ansatz.numQubits
  · rw [if_pos hqubits]
    refine ⟨true, d, ?_, hd⟩
    simp [Native.expectationBatch, hqubits]
    rfl
  rw [if_neg hqubits]
  by_cases hparams : batch.count ≠ 0 ∧ batch.numParams ≠ ansatz.numParams
  · rw [if_pos hparams]
    refine ⟨true, d, ?_, hd⟩
    simp [Native.expectationBatch, hqubits, hparams]
    rfl
  rw [if_neg hparams]
  by_cases hempty : batch.count = 0
  · rw [if_pos hempty]
    refine ⟨true, d, ?_, hd⟩
    simp [Native.expectationBatch, hqubits, hempty]
    rfl
  rw [if_neg hempty]
  have hparams : batch.numParams = ansatz.numParams := by
    by_contra hne
    exact hparams ⟨hempty, hne⟩
  dsimp only
  rw [exec_thrown_bind]
  cases hprog : compile ansatz with
  | error e =>
    refine ⟨true, d, ?_, hd⟩
    simp [Native.expectationBatch, hqubits, hparams, hempty, hprog]
    rfl
  | ok prog =>
    obtain ⟨ptrs, new, d₁, hmallocs, -, -, d₂, hfrees, hd₂⟩ :=
      mallocs_cases A (batchSizes (1 <<< ansatz.numQubits) batch.count batch.numParams obs.masks.length) hd
    dsimp only
    rw [exec_bind, hmallocs]
    dsimp only
    by_cases hnull : ptrs.any Option.isNone = true
    · rw [if_pos hnull, exec_bind, hfrees]
      refine ⟨false, d₂, ?_, hd₂⟩
      simp [Native.expectationBatch, hqubits, hparams, hempty, hprog]
      rfl
    · refine ⟨true, d₂, ?_, hd₂⟩
      have hdefined : ∀ {α β : Type} (a : α) (f : α → Code Unit Exn β),
          exec (defined (.ok a) >>= f) d₁ = exec (f a) d₁ := fun _ _ => rfl
      rw [if_neg hnull, hsop, hdefined, hsval, hdefined, exec_bind, hfrees]
      simp [Native.expectationBatch, hqubits, hparams, hempty, hprog, hsop, hsval]
      rfl

/-- The batches of a valid call can be read. -/
theorem rows_defined {requests : List (Request ℝ)} {P : ℕ} (h : ∀ r ∈ requests, r.theta.length = P) (shots : ℕ) :
    let batch := { EvalBatch.ofRequests requests with shots := shots }
    (List.range batch.count).mapM batch.opOf = .ok (requests.map (·.op)) ∧
      (List.range batch.count).mapM batch.deltaOf = .ok (requests.map (·.delta)) := by
  intro batch
  have hcount : batch.count = requests.length := congrArg EvalBatch.count (ofRequests_eq h)
  rw [hcount]
  exact ⟨mapM_column (-1) fun i r hi => (ofRequests_request h hi).2.1,
    mapM_column 0 fun i r hi => (ofRequests_request h hi).2.2⟩

/-- `run_native_vqa_core` frees what it allocates, unless its loop throws. -/
theorem runNativeVqaCoreOn_spec (hd : Owns others l d) (rng : ℕ → ℕ → ℕ)
    {evaluate : EvalBatch ℝ → Except Exn (List ℝ)} (hlen : Answers evaluate) (ansatz : Circuit ℝ) (opt : VQAOptions)
    (q : OptimizerQueue) (theta : List ℝ) (result : VQAResult) : ∃ granted leaked d',
    exec (runNativeVqaCoreOn rng evaluate ansatz opt A q theta result) d =
      ((exec (runNativeVqaCore rng evaluate ansatz opt { q with allocated := granted } theta result) []).1.mapError
        Stop.exn, d') ∧
    Owns others (l ++ leaked) d' ∧
    leaked.map (fun x => x.2.size) = Call.leaks granted (.runNativeVqa rng evaluate ansatz opt q theta result) := by
  unfold runNativeVqaCoreOn runNativeVqaCore
  by_cases htheta : theta.length ≠ ansatz.numParams
  · rw [if_pos htheta]
    refine ⟨true, [], d, ?_, by rwa [List.append_nil], ?_⟩
    · rw [if_pos htheta]
      rfl
    · rw [Call.leaks, if_neg fun h => htheta h.2.1]
      rfl
  rw [if_neg htheta]
  obtain ⟨ptrs, new, d₁, hmallocs, hd₁, hsizes, d₂, hfrees, hd₂⟩ := mallocs_cases A (optimizerSizes ansatz opt) hd
  rw [exec_bind, hmallocs]
  dsimp only
  by_cases hnull : ptrs.any Option.isNone = true
  · refine ⟨false, [], d₂, ?_, by rwa [List.append_nil], ?_⟩
    · rw [if_pos hnull, exec_bind, hfrees, if_neg htheta]
      rfl
    · rw [Call.leaks, if_neg fun h => Bool.false_ne_true h.1]
      rfl
  have hgranted : ptrs.any Option.isNone = false := Bool.not_eq_true _ ▸ hnull
  rw [if_neg hnull, exec_thrown_bind]
  rcases hloop : exec (loop (nativeBody rng evaluate ansatz opt) opt.maxIterations 0
    ⟨theta, startMemory ansatz opt q.memory theta, q.queue, 0, 0, result⟩) [] with ⟨r, log⟩
  have hcore : coreLoop rng evaluate ansatz opt q theta result = r := congrArg Prod.fst hloop
  cases r with
  | error e =>
    -- the exception leaves the loop past the calls of `free`
    refine ⟨true, new, d₁, ?_, hd₁, ?_⟩
    · rw [hcore, if_neg htheta]
      show _ = (Except.mapError Stop.exn (exec (loop _ _ _ _ >>= _) []).1, d₁)
      rw [exec_bind, hloop]
      rfl
    · rw [hsizes hgranted, Call.leaks, if_pos ⟨rfl, not_not.mp htheta, by rw [hcore]; rfl⟩]
  | ok s =>
    refine ⟨true, [], d₂, ?_, by rwa [List.append_nil], ?_⟩
    · rw [hcore, if_neg htheta]
      show _ = (Except.mapError Stop.exn (exec (loop _ _ _ _ >>= _) []).1, d₂)
      rw [exec_bind, hloop]
      dsimp only
      rw [exec_bind, hfrees]
      have hsubmit : exec (submit evaluate (finalBatch s.theta opt.shots)) log =
          (evaluate (finalBatch s.theta opt.shots), log ++ [finalBatch s.theta opt.shots]) := rfl
      dsimp only
      rw [exec_thrown_bind, exec_bind, hsubmit]
      cases hlast : evaluate (finalBatch s.theta opt.shots) with
      | error e => rfl
      | ok last =>
        cases last with
        | nil => cases hlen _ _ hlast
        | cons e last => rfl
    · rw [Call.leaks, if_neg fun h => ?_]
      · rfl
      · rw [hcore] at h
        cases h.2.2

/-- **One call** leaves what it leaks. -/
theorem call_leaks {call : Call} (hv : call.Valid) (hd : Owns others l d) : ∃ granted leaked d',
    exec (call.onDevice A) d = ((call.answer granted).mapError Stop.exn, d') ∧ Owns others (l ++ leaked) d' ∧
    leaked.map (fun x => x.2.size) = call.leaks granted := by
  have hmap : ∀ {α β : Type} (f : α → β) (r : Except Exn α),
      (r.mapError (Stop.exn (ε := Exn))).map f = (r.map f).mapError Stop.exn := fun f r => by cases r <;> rfl
  cases call with
  | expectationBatch q ansatz obs batch =>
    obtain ⟨requests, P, shots, hP, rfl⟩ := hv
    obtain ⟨hsop, hsval⟩ := rows_defined hP shots
    obtain ⟨granted, d', hrun, hd'⟩ := expectationBatchOn_spec A hd q ansatz obs hsop hsval
    refine ⟨granted, [], d', ?_, by rwa [List.append_nil], rfl⟩
    rw [Call.onDevice, Call.answer, exec_map, hrun, ← hmap]
  | runNativeVqa rng evaluate ansatz opt q theta result =>
    obtain ⟨granted, leaked, d', hrun, hd', hleaked⟩ := runNativeVqaCoreOn_spec A hd rng hv ansatz opt q theta result
    refine ⟨granted, leaked, d', ?_, hd', hleaked⟩
    rw [Call.onDevice, Call.answer, exec_map, hrun, ← hmap]

end Functions

/-! ### Runs -/

/-- **Every run**, from a device that holds `l` besides the other blocks. -/
theorem deviceRun_leaks (A : Allocator Unit) {others : ℕ → Option (Block Unit)} : ∀ {calls : List Call}
    {l : List (ℕ × Block Unit)} {d : Heap Unit}, (∀ call ∈ calls, call.Valid) → Owns others l d →
    ∃ (grants : List Bool) (leaked : List (ℕ × Block Unit)) (d' : Heap Unit), grants.length = calls.length ∧
      deviceRun A calls d = some ((calls.zip grants).map fun x => x.1.answer x.2, d') ∧
      Owns others (l ++ leaked) d' ∧
      leaked.map (fun x => x.2.size) = (calls.zip grants).flatMap fun x => x.1.leaks x.2
  | [], l, d, _, hd => ⟨[], [], d, rfl, rfl, by rwa [List.append_nil], rfl⟩
  | call :: calls, l, d, hv, hd => by
    obtain ⟨granted, leaked, d₁, hcall, hd₁, hsize⟩ := call_leaks A (hv call List.mem_cons_self) hd
    obtain ⟨grants, leaked', d', hlen, hrun, hd', hsize'⟩ :=
      deviceRun_leaks A (fun x hx => hv x (List.mem_cons_of_mem _ hx)) hd₁
    refine ⟨granted :: grants, leaked ++ leaked', d', congrArg (· + 1) hlen, ?_, by rwa [← List.append_assoc], ?_⟩
    · rw [deviceRun, hcall]
      cases hanswer : call.answer granted with
      | error e => simp [Except.mapError, hrun, hanswer]
      | ok x => simp [Except.mapError, hrun, hanswer]
    · rw [List.map_append, hsize, hsize', List.zip_cons_cons, List.flatMap_cons]

/-- **What stays allocated.** In any sequence of calls on a device, whatever its allocator
answers, every call has a defined meaning, and the caller sees the answers of the functions
whose allocations are a flag. The blocks left on the device besides those of others are the
buffers of the optimizations whose loop was left by an exception, one for each, in order. -/
theorem calls_leak (A : Allocator Unit) {calls : List Call} (hv : ∀ call ∈ calls, call.Valid) (d : Heap Unit) :
    ∃ (grants : List Bool) (leaked : List (ℕ × Block Unit)) (d' : Heap Unit), grants.length = calls.length ∧
      deviceRun A calls d = some ((calls.zip grants).map fun x => x.1.answer x.2, d') ∧
      Owns d.blocks leaked d' ∧
      leaked.map (fun x => x.2.size) = (calls.zip grants).flatMap fun x => x.1.leaks x.2 :=
  deviceRun_leaks A hv (owns_nil.mpr rfl)

/-- Adam on RY(θ₀), with an evaluator that throws. -/
theorem calls_leak_one :
    let call := Call.runNativeVqa (fun seed i => seed + i) (fun _ => .error ⟨.runtimeError, "lost"⟩)
      ⟨1, 1, [GateCall.op (.ry 0 ⟨0, 1, 0⟩)], []⟩
      ⟨.Adam, .FiniteDifference, 0.1, 0.9, 0.999, 1e-8, 0.1, 0.001, 20, 0, 42, true, 1024⟩
      ⟨true, fun _ => .inOrder, fun _ => 0⟩ [1 / 2] .new
    ∃ (granted : Bool) (leaked : List (ℕ × Block Unit)) (d' : Heap Unit),
      deviceRun (.bump ()) [call] ⟨fun _ => none, 0⟩ = some ([call.answer granted], d') ∧
      Owns (fun _ => none) leaked d' ∧ leaked.map (fun x => x.2.size) = call.leaks granted := by
  intro call
  have hv : ∀ c ∈ [call], c.Valid := fun c hc => by
    rw [List.mem_singleton.mp hc]
    exact fun _ _ h => nomatch h
  obtain ⟨grants, leaked, d', hlen, hrun, hheld, hsizes⟩ := calls_leak (.bump ()) hv ⟨fun _ => none, 0⟩
  obtain ⟨granted, rfl⟩ : ∃ g, grants = [g] := List.length_eq_one_iff.mp hlen
  refine ⟨granted, leaked, d', hrun, hheld, ?_⟩
  rw [hsizes]
  exact List.append_nil _

end

end Native

end Qsycl
