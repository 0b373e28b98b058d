/-
# The optimizers

`VQA::minimize` (`vqa.cpp`) drives one of three optimizers from the host.
`run_native_vqa_core` (`native_vqa.cpp`) does so with the parameters in device
memory, where a kernel makes each step and from where they are copied back.
Both submit batches to an evaluator; the state of a run is the list of the
batches it has submitted. The outputs of `std::mt19937_64` are a sequence of
words for each seed, and a division by zero, which C++ answers with an infinity
or a NaN, is 0 here.
-/
import Qsycl.Gradient
import Qsycl.Lib.Runs
import Qsycl.Lib.WorkItems

namespace Qsycl

open WorkItems Runs
open Gates (half)

inductive OptimizerKind
  | GradientDescent | Adam | SPSA
  deriving DecidableEq, Repr

structure VQAOptions where
  optimizer : OptimizerKind
  gradient : GradientMethod
  learningRate : ℝ
  beta1 : ℝ
  beta2 : ℝ
  epsilon : ℝ
  spsaC : ℝ
  fdEpsilon : ℝ
  maxIterations : ℕ
  tolerance : ℝ
  seed : ℕ
  preferNative : Bool
  shots : ℕ

structure VQAResult where
  theta : List ℝ
  energy : ℝ
  iterations : ℕ
  evaluations : ℕ
  history : List ℝ
  converged : Bool
  usedNative : Bool

noncomputable def VQAResult.new : VQAResult := ⟨[], 0, 0, 0, [], false, false⟩

/-- Code that submits batches. -/
abbrev Optimization := Run Exn (List (EvalBatch ℝ))

/-- Notes the batch and evaluates it. -/
noncomputable def submit (evaluate : EvalBatch ℝ → Except Exn (List ℝ)) (batch : EvalBatch ℝ) :
    Optimization (List ℝ) := do
  modify (· ++ [batch])
  evaluate batch

noncomputable section

/-! ### SPSA -/

/-- The step size `ak` of iteration `k`. -/
def spsaStep (opt : VQAOptions) (k : ℕ) : ℝ :=
  opt.learningRate / (((k + 1 : ℕ) : ℝ) + 0.1 * opt.maxIterations) ^ (0.602 : ℝ)

def spsaPerturbation (opt : VQAOptions) (k : ℕ) : ℝ := opt.spsaC / ((k : ℝ) + 1) ^ (0.101 : ℝ)

/-- `delta`: a sign for each of the next `P` outputs of the generator. -/
def spsaDelta (rng : ℕ → ℕ) (drawn P : ℕ) : List ℝ :=
  (List.range P).map fun i => if rng (drawn + i) &&& 1 ≠ 0 then 1 else -1

def spsaBatch (theta delta : List ℝ) (ck : ℝ) (shots : ℕ) : EvalBatch ℝ :=
  let tp := List.zipWith (fun t d => t + ck * d) theta delta
  let tm := List.zipWith (fun t d => t - ck * d) theta delta
  { (EvalBatch.empty.add tp (-1) 0).add tm (-1) 0 with shots := shots }

def finalBatch (theta : List ℝ) (shots : ℕ) : EvalBatch ℝ :=
  { EvalBatch.empty.add theta (-1) 0 with shots := shots }

/-! ### The host loop -/

/-- `v.at(i)`. -/
def checkedAt {α : Type} (v : List α) (i : ℕ) : Except Exn α :=
  match v[i]? with
  | some x => .ok x
  | none => .error ⟨.outOfRange, "vector::at"⟩

/-- The variables of the loop; `drawn` counts the outputs of `rng`. -/
structure HostState where
  theta : List ℝ
  m : List ℝ
  v : List ℝ
  drawn : ℕ
  prev : ℝ
  res : VQAResult

section Host

variable (rng : ℕ → ℕ → ℕ) (evaluate : EvalBatch ℝ → Except Exn (List ℝ)) (ansatz : Circuit ℝ)
  (opt : VQAOptions)

/-- The Adam update of iteration `k`. -/
def adamUpdate (k : ℕ) (s : HostState) (g : List ℝ) : HostState :=
  let b1t := 1 - opt.beta1 ^ ((k : ℝ) + 1)
  let b2t := 1 - opt.beta2 ^ ((k : ℝ) + 1)
  let m := List.zipWith (fun m g => opt.beta1 * m + (1 - opt.beta1) * g) s.m g
  let v := List.zipWith (fun v g => opt.beta2 * v + (1 - opt.beta2) * g * g) s.v g
  let step := List.zipWith
    (fun m v => opt.learningRate * (m / b1t) / (Real.sqrt (v / b2t) + opt.epsilon)) m v
  { s with theta := List.zipWith (· - ·) s.theta step, m := m, v := v }

/-- The part of the loop body that moves `theta`. -/
def hostStep (k : ℕ) (s : HostState) : Optimization (HostState × ℝ) := do
  if opt.optimizer = .SPSA then
    let ak := spsaStep opt k
    let ck := spsaPerturbation opt k
    let delta := spsaDelta (rng opt.seed) s.drawn ansatz.numParams
    let r ← submit evaluate (spsaBatch s.theta delta ck opt.shots)
    let r0 ← vecAt r 0
    let r1 ← vecAt r 1
    return ({ s with
      theta := List.zipWith (fun t d => t - ak * (r0 - r1) / (((2 : ℕ) : ℝ) * ck * d)) s.theta delta
      drawn := s.drawn + ansatz.numParams
      res := { s.res with evaluations := s.res.evaluations + 2 } }, half 1 * (r0 + r1))
  else
    let (e, g, evaluations) ← energyAndGradient (submit evaluate) ansatz s.theta opt.gradient
      opt.fdEpsilon opt.shots s.res.evaluations
    let s := { s with res := { s.res with evaluations := evaluations } }
    if opt.optimizer = .Adam then
      return (adamUpdate opt k s g, e)
    else
      return ({ s with theta := List.zipWith (fun t g => t - opt.learningRate * g) s.theta g }, e)

/-- The loop body, and whether it breaks. -/
def hostBody (k : ℕ) (s : HostState) : Optimization (HostState × Bool) := do
  let (s, e) ← hostStep rng evaluate ansatz opt k s
  let res := { s.res with history := s.res.history ++ [e], iterations := k + 1 }
  if k > 0 ∧ |e - s.prev| < opt.tolerance then
    return ({ s with res := { res with converged := true } }, true)
  else
    return ({ s with res := res, prev := e }, false)

def hostLoop (theta : List ℝ) (res : VQAResult) : Optimization VQAResult := do
  let zeros := List.replicate ansatz.numParams 0
  let s ← loop (hostBody rng evaluate ansatz opt) opt.maxIterations 0 ⟨theta, zeros, zeros, 0, 0, res⟩
  let energy ← checkedAt (← submit evaluate (finalBatch s.theta opt.shots)) 0
  return { s.res with theta := s.theta, energy := energy, evaluations := s.res.evaluations + 1 }

/-- `VQA::minimize` on a backend with the given `run_native_vqa`, which returns
whether it ran and leaves `theta` and `res`. -/
def minimize (runNativeVqa : VQAOptions → List ℝ → VQAResult → Optimization (Bool × List ℝ × VQAResult))
    (theta : List ℝ) : Optimization VQAResult :=
  if theta.length ≠ ansatz.numParams then
    throw ⟨.invalidArgument, "VQA::minimize: theta0 size != number of ansatz parameters"⟩
  else do
    let r ← if opt.preferNative then runNativeVqa opt theta .new else pure (false, theta, .new)
    if r.1 then return { r.2.2 with usedNative := true }
    else hostLoop rng evaluate ansatz opt r.2.1 r.2.2

end Host

/-! ### The native loop -/

namespace Native

/-- The arrays on the device; `m` and `v` are for Adam. -/
inductive Buffer
  | theta | grad | m | v
  deriving DecidableEq, Repr

/-- The optimizer's queue as the loop finds it: whether its allocations succeed,
the order of the launches, and what fresh memory holds. -/
structure OptimizerQueue where
  allocated : Bool
  queue : Queue
  memory : Buffer × ℕ → ℝ

def copyIn (buffer : Buffer) (values : List ℝ) (memory : Buffer × ℕ → ℝ) : Buffer × ℕ → ℝ :=
  fun cell => if cell.1 = buffer then (values[cell.2]?).getD (memory cell) else memory cell

def copyOut (buffer : Buffer) (P : ℕ) (memory : Buffer × ℕ → ℝ) : List ℝ :=
  (List.range P).map fun i => memory (buffer, i)

def sgdItem (lr : ℝ) (i : ℕ) : Access (Buffer × ℕ) ℝ :=
  .load (.theta, i) fun theta => .load (.grad, i) fun grad =>
    .store (.theta, i) (theta - lr * grad) .done

def adamItem (lr b1 b2 b1t b2t eps : ℝ) (i : ℕ) : Access (Buffer × ℕ) ℝ :=
  .load (.m, i) fun m => .load (.grad, i) fun grad =>
    .store (.m, i) (b1 * m + (1 - b1) * grad) <|
  .load (.v, i) fun v => .load (.grad, i) fun grad =>
    .store (.v, i) (b2 * v + (1 - b2) * grad * grad) <|
  .load (.m, i) fun m => .load (.v, i) fun v => .load (.theta, i) fun theta =>
    let mhat := m / b1t
    let vhat := v / b2t
    .store (.theta, i) (theta - lr * mhat / (Real.sqrt vhat + eps)) .done

/-- The variables of the loop: the host's copy of `theta`, the device memory and
the launches still to come. -/
structure NativeState where
  theta : List ℝ
  memory : Buffer × ℕ → ℝ
  queue : Queue
  drawn : ℕ
  prev : ℝ
  result : VQAResult

def sgdStep (P : ℕ) (lr : ℝ) (s : NativeState) : NativeState :=
  { s with memory := s.queue.launch P (sgdItem lr) s.memory, queue := s.queue.next }

def adamStep (P : ℕ) (lr b1 b2 eps : ℝ) (k : ℕ) (s : NativeState) : NativeState :=
  let b1t := 1 - b1 ^ ((k + 1 : ℕ) : ℝ)
  let b2t := 1 - b2 ^ ((k + 1 : ℕ) : ℝ)
  { s with memory := s.queue.launch P (adamItem lr b1 b2 b1t b2t eps) s.memory, queue := s.queue.next }

section Loop

variable (rng : ℕ → ℕ → ℕ) (evaluate : EvalBatch ℝ → Except Exn (List ℝ)) (ansatz : Circuit ℝ)
  (opt : VQAOptions)

/-- The energy, `grad` and the evaluations so far, in the loop's own code. -/
def gradientOnHost (theta : List ℝ) (evaluations : ℕ) : Optimization (ℝ × List ℝ × ℕ) := do
  let (batch, terms) ← buildGradientBatch ansatz theta opt.gradient opt.fdEpsilon
  let en ← submit evaluate { batch with shots := opt.shots }
  let e ← vecAt en 0
  let grad ← combineTerms en terms (List.replicate ansatz.numParams 0)
  return (e, grad, evaluations + batch.count)

def nativeStep (k : ℕ) (s : NativeState) : Optimization (NativeState × ℝ) := do
  if opt.optimizer = .SPSA then
    let ak := spsaStep opt k
    let ck := spsaPerturbation opt k
    let delta := spsaDelta (rng opt.seed) s.drawn ansatz.numParams
    let r ← submit evaluate (spsaBatch s.theta delta ck opt.shots)
    let r0 ← vecAt r 0
    let r1 ← vecAt r 1
    let ghat := delta.map fun d => (r0 - r1) / (((2 : ℕ) : ℝ) * ck * d)
    let s := { s with
      memory := copyIn .grad ghat s.memory
      drawn := s.drawn + ansatz.numParams
      result := { s.result with evaluations := s.result.evaluations + 2 } }
    return (sgdStep ansatz.numParams ak s, half 1 * (r0 + r1))
  else
    let (e, grad, evaluations) ← gradientOnHost evaluate ansatz opt s.theta s.result.evaluations
    let s := { s with
      memory := copyIn .grad grad s.memory
      result := { s.result with evaluations := evaluations } }
    if opt.optimizer = .Adam then
      return (adamStep ansatz.numParams opt.learningRate opt.beta1 opt.beta2 opt.epsilon k s, e)
    else
      return (sgdStep ansatz.numParams opt.learningRate s, e)

def nativeBody (k : ℕ) (s : NativeState) : Optimization (NativeState × Bool) := do
  let (s, e) ← nativeStep rng evaluate ansatz opt k s
  let s := { s with theta := copyOut .theta ansatz.numParams s.memory }
  let result := { s.result with history := s.result.history ++ [e], iterations := k + 1 }
  if k > 0 ∧ |e - s.prev| < opt.tolerance then
    return ({ s with result := { result with converged := true } }, true)
  else
    return ({ s with result := result, prev := e }, false)

/-- The memory after the allocations, `memcpy` and `memset`. -/
def startMemory (memory : Buffer × ℕ → ℝ) (theta : List ℝ) : Buffer × ℕ → ℝ :=
  let memory := copyIn .theta theta memory
  if opt.optimizer = .Adam then
    copyIn .v (List.replicate ansatz.numParams 0) (copyIn .m (List.replicate ansatz.numParams 0) memory)
  else memory

/-- `run_native_vqa_core`; `theta` and `result` are passed by reference. -/
def runNativeVqaCore (q : OptimizerQueue) (theta : List ℝ) (result : VQAResult) :
    Optimization (Bool × List ℝ × VQAResult) :=
  if theta.length ≠ ansatz.numParams then
    throw ⟨.invalidArgument, "native::run_native_vqa: theta0 size != ansatz.num_params()"⟩
  else if !q.allocated then
    throw ⟨.runtimeError, "native::run_native_vqa: sycl::malloc_device failed (out of device memory?)"⟩
  else do
    let s ← loop (nativeBody rng evaluate ansatz opt) opt.maxIterations 0
      ⟨theta, startMemory ansatz opt q.memory theta, q.queue, 0, 0, result⟩
    let energy ← vecAt (← submit evaluate (finalBatch s.theta opt.shots)) 0
    return (true, s.theta,
      { s.result with theta := s.theta, energy := energy, evaluations := s.result.evaluations + 1 })

end Loop

end Native

end

end Qsycl
