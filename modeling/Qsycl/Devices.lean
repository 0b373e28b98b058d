/-
# The same program on either simulator

A client makes calls of a `QuantumRuntime` one after another and catches what
they throw. `CPUBackend` keeps the state vector on the host, `GPUBackend` on the
device; their launches run the work-items in different orders and their
exceptions have different texts. For circuits and observables of the API, while
device memory lasts, the client sees the same answers from both, call by call,
if it asks for the state only after a circuit was run (`devices_agree`).
-/
import Qsycl.Readout

namespace Qsycl

open Runs Qubits Matrix WorkItems

/-! ### The methods that read the state -/

/-- The elements of a `std::vector`. -/
def StateVec.toList {α : Type} (v : StateVec α) : List α := (List.range v.size).map v.cell

/-- A simulator whose state vector can be read. -/
structure StateSimulator (φ : Type) extends Simulator φ (List ℕ) where
  getState : φ → Except Exn (StateVec ℂ)
  probabilities : φ → Except Exn (StateVec ℝ)

noncomputable section

section Simulators

variable {γ : Type} (draw : StateVec ℝ → γ → ℕ × γ)

def CPUSimulator.stateSimulator : StateSimulator (CPUSimulator γ) where
  toSimulator := CPUSimulator.simulator draw
  getState s := return s.backend.getState
  probabilities s := return s.backend.probabilities

def GPUSimulator.stateSimulator (allocated : ℕ → Bool) : StateSimulator (GPUSimulator γ) where
  toSimulator := GPUSimulator.simulator draw allocated
  getState s := s.backend.getState
  probabilities s := s.backend.probabilities

end Simulators

namespace QuantumRuntime

variable {φ : Type} (S : StateSimulator φ)

def expectation (circuit : Circuit ℝ) (obs : Observable ℝ) : Run Exn (QuantumRuntime φ) ℝ := do
  run S.toSimulator circuit
  let s ← get
  let psi ← S.getState s.backend
  expectationValue psi obs

def stateVector : Run Exn (QuantumRuntime φ) (List ℂ) := do
  let s ← get
  let psi ← S.getState s.backend
  return psi.toList

def stateProbabilities : Run Exn (QuantumRuntime φ) (List ℝ) := do
  let s ← get
  let probs ← S.probabilities s.backend
  return probs.toList

end QuantumRuntime

/-! ### Sessions -/

/-- A call of the runtime. -/
inductive RuntimeCall
  | run (circuit : Circuit ℝ)
  | sample (circuit : Circuit ℝ) (shots : ℕ)
  | sampleCounts (circuit : Circuit ℝ) (shots : ℕ)
  | expectation (circuit : Circuit ℝ) (obs : Observable ℝ)
  | stateVector
  | probabilities

/-- What a call returns. -/
inductive Response
  | done
  | outcomes (values : List ℕ)
  | counts (histogram : List (Bytes × ℕ))
  | value (e : ℝ)
  | amplitudes (psi : List ℂ)
  | weights (probs : List ℝ)

section Session

variable {φ : Type} (S : StateSimulator φ)

def RuntimeCall.perform : RuntimeCall → Run Exn (QuantumRuntime φ) Response
  | run circuit => (fun _ => .done) <$> QuantumRuntime.run S.toSimulator circuit
  | sample circuit shots => .outcomes <$> QuantumRuntime.sample S.toSimulator circuit shots
  | sampleCounts circuit shots => .counts <$> QuantumRuntime.sampleCounts S.toSimulator circuit shots
  | expectation circuit obs => .value <$> QuantumRuntime.expectation S circuit obs
  | stateVector => .amplitudes <$> QuantumRuntime.stateVector S
  | probabilities => .weights <$> QuantumRuntime.stateProbabilities S

/-- What a client sees that catches exceptions. -/
def session : List RuntimeCall → QuantumRuntime φ → List (Except Exn Response)
  | [], _ => []
  | call :: calls, rt =>
    let r := exec (call.perform S) rt
    r.1 :: session calls r.2

end Session

/-- Equal answers, or exceptions of the same class. -/
inductive Alike {α : Type} : Except Exn α → Except Exn α → Prop
  | same (x : Except Exn α) : Alike x x
  | error {e e' : Exn} : e.kind = e'.kind → Alike (.error e) (.error e')

/-- The circuits that a simulator runs. -/
def Circuit.runs (circuit : Circuit ℝ) : Bool := !circuit.isParametric && circuit.numQubits ≤ 30

/-- The call prepares a state if it does not throw. -/
def RuntimeCall.runs : RuntimeCall → Bool
  | run circuit | sample circuit _ | sampleCounts circuit _ | expectation circuit _ => circuit.runs
  | stateVector | probabilities => false

/-- The circuits and observables of a call are those of the API. -/
def RuntimeCall.Valid : RuntimeCall → Prop
  | run circuit | sample circuit _ | sampleCounts circuit _ => circuit.Built
  | expectation circuit obs => circuit.Built ∧ obs.Legal
  | stateVector | probabilities => True

/-- The state is asked for only after a call that prepares one. -/
def QueriesAfterRun : Bool → List RuntimeCall → Prop
  | _, [] => True
  | started, .stateVector :: calls | started, .probabilities :: calls =>
    started = true ∧ QueriesAfterRun started calls
  | started, call :: calls => QueriesAfterRun (started || call.runs) calls

/-! ### The GPU backend's state -/

/-- The device holds the state `ψ`. -/
def GPUBackend.Holds {n : ℕ} (b : GPUBackend ℂ) (ψ : State (Fin n)) : Prop :=
  ∃ state, b.stateDev = some state ∧ StateVec.Holds ⟨b.dim, state⟩ ψ

namespace GPUBackend

variable {n P : ℕ}

/-- **A gate multiplies by its operator**, as on the CPU backend. -/
theorem applyGate_holds {b : GPUBackend ℂ} {ψ : State (Fin n)} (h : b.Holds ψ) {g : GateCall ℝ} (hg : g.Fits n P) :
    ∃ b', b.applyGate g.op = .ok b' ∧ b'.Holds (g.operator n *ᵥ ψ) := by
  obtain ⟨state, hs, hψ⟩ := h
  have hk := hg.kernel
  obtain ⟨state', hlaunch, hcell⟩ := GPUBackend.parallelFor_meets (Kernel.meets hk) hs
  have hdim : b.dim = 2 ^ n := hψ.size
  refine ⟨{ b with queue := b.queue.next, stateDev := some state' }, ?_, state', rfl, hψ.kernel hk hcell⟩
  rw [applyGate, dispatchGate_op]
  cases hgk : g.kernel with
  | single q m =>
    rw [hgk] at hlaunch
    refine Eq.trans ?_ hlaunch
    show b.applySingleQubitMatrix q m = _
    rw [applySingleQubitMatrix, hdim]
    rfl
  | controlled c t m =>
    rw [hgk] at hlaunch
    refine Eq.trans ?_ hlaunch
    show b.applyControlledMatrix c t m = _
    rw [applyControlledMatrix, hdim]
    rfl
  | swap a d =>
    rw [hgk] at hlaunch
    refine Eq.trans ?_ hlaunch
    show b.applySwapGate a d = _
    rw [applySwapGate, hdim]
    rfl

end GPUBackend

/-! ### Both backends hold one state -/

/-- The lists that both backends give a client for one state. -/
theorem StateVec.Holds.toList {n : ℕ} {v : StateVec ℂ} {ψ : State (Fin n)} (h : v.Holds ψ) :
    v.toList = (List.range (2 ^ n)).map fun j => ψ (bits n j) := by
  rw [StateVec.toList, h.size]
  refine List.map_congr_left fun j hj => ?_
  rw [← h.cell, index_bits (List.mem_range.mp hj)]

/-- `expectation_value` only looks at the state. -/
theorem StateVec.Holds.expectationValue_congr {n : ℕ} {v v' : StateVec ℂ} {ψ : State (Fin n)} (h : v.Holds ψ)
    (h' : v'.Holds ψ) {obs : Observable ℝ} (ho : obs.Legal) : expectationValue v obs = expectationValue v' obs := by
  by_cases hn : n = obs.numQubits
  · subst hn
    rw [expectationValue_holds ho h, expectationValue_holds ho h']
  · have hsize : ∀ {w : StateVec ℂ}, w.Holds ψ → w.size ≠ 1 <<< obs.numQubits := fun hw heq => by
      rw [hw.size, Nat.one_shiftLeft] at heq
      exact hn (Nat.pow_right_injective le_rfl heq)
    rw [expectationValue, expectationValue, if_pos (hsize h), if_pos (hsize h')]

variable {γ : Type} {draw : StateVec ℝ → γ → ℕ × γ} {allocated : ℕ → Bool}

/-- `discrete_distribution` reads the weights it is given. -/
def ReadsWeights (draw : StateVec ℝ → γ → ℕ × γ) : Prop :=
  ∀ p p' : StateVec ℝ, p.size = p'.size → (∀ i < p.size, p.cell i = p'.cell i) → draw p = draw p'

/-- Once started, both backends hold the same state; and their generators will draw the same. -/
structure Mirrors (started : Bool) (c : QuantumRuntime (CPUSimulator γ)) (g : QuantumRuntime (GPUSimulator γ)) :
    Prop where
  rng : c.backend.rng = g.backend.rng
  state : started = true → ∃ (n : ℕ) (ψ : State (Fin n)), c.backend.backend.state.Holds ψ ∧ g.backend.backend.Holds ψ

namespace QuantumRuntime

/-- The gates of a run on the GPU backend, on the state they act on. -/
theorem gates_gpu (draw : StateVec ℝ → γ → ℕ × γ) (allocated : ℕ → Bool) {n P : ℕ} (rng : γ) (m : ℕ) :
    ∀ {calls : List (GateCall ℝ)} {b : GPUBackend ℂ} {ψ : State (Fin n)}, b.Holds ψ →
      (∀ g ∈ calls, g.Fits n P) → ∃ b', b'.Holds (circuitOperator n calls *ᵥ ψ) ∧
      exec ((calls.map GateCall.op).forM fun op => onBackend ((GPUSimulator.simulator draw allocated).applyGate op))
        ⟨⟨b, rng⟩, m⟩ = (.ok (), ⟨⟨b', rng⟩, m⟩)
  | [], b, ψ, h, _ => ⟨b, by rwa [circuitOperator, one_mulVec], rfl⟩
  | g :: calls, b, ψ, h, hf => by
    obtain ⟨b₁, hb₁, h₁⟩ := GPUBackend.applyGate_holds h (hf g List.mem_cons_self)
    obtain ⟨b', h', hgates⟩ := gates_gpu draw allocated rng m h₁ fun g hg => hf g (List.mem_cons_of_mem _ hg)
    refine ⟨b', by rwa [circuitOperator, ← mulVec_mulVec], ?_⟩
    have hstep : exec (onBackend ((GPUSimulator.simulator draw allocated).applyGate g.op))
        (⟨⟨b, rng⟩, m⟩ : QuantumRuntime (GPUSimulator γ)) = (.ok (), ⟨⟨b₁, rng⟩, m⟩) := by
      unfold onBackend GPUSimulator.simulator GPUSimulator.applyGate
      rw [exec_zoom, exec_get_bind]
      rw [exec_bind, exec_lift, hb₁]
      rfl
    show exec (onBackend _ >>= fun _ => (calls.map GateCall.op).forM _) _ = _
    rw [exec_bind, hstep]
    exact hgates

/-- **A run on the GPU backend prepares the state** of the circuit. -/
theorem run_gpu_prepares (draw : StateVec ℝ → γ → ℕ × γ) {circuit : Circuit ℝ} {calls : List (GateCall ℝ)}
    (hc : circuit.Legal calls)
    (hbound : circuit.isParametric = false) (hn : circuit.numQubits ≤ 30)
    (ha : allocated circuit.numQubits = true) (rt : QuantumRuntime (GPUSimulator γ)) :
    ∃ b, exec (run (GPUSimulator.simulator draw allocated) circuit) rt =
        (.ok (), ⟨⟨b, rt.backend.rng⟩, circuit.numQubits⟩) ∧
      b.Holds (preparedState circuit.numQubits calls) := by
  have hpos := hc.pos
  let b₀ : GPUBackend ℂ := ⟨rt.backend.backend.queue, some (Function.update (fun _ => 0) 0 1), 1 <<< circuit.numQubits,
    circuit.numQubits⟩
  have hzero : b₀.Holds (zeroState (n := circuit.numQubits)) :=
    ⟨_, rfl, Nat.one_shiftLeft _, funext fun x => by
      simp only [view, zeroState, Function.update_apply, index_eq_zero]⟩
  have hinit : exec (onBackend ((GPUSimulator.simulator draw allocated).initializeState circuit.numQubits))
      { rt with numQubits := circuit.numQubits } = (.ok (), ⟨⟨b₀, rt.backend.rng⟩, circuit.numQubits⟩) := by
    have hok : GPUBackend.initializeState true circuit.numQubits rt.backend.backend = (.ok (), b₀) := by
      unfold GPUBackend.initializeState
      rw [if_neg (by omega)]
      rfl
    unfold onBackend GPUSimulator.simulator GPUSimulator.initializeState
    rw [exec_zoom, exec_get_bind]
    rw [ha, hok]
    rfl
  obtain ⟨b, hb, hgates⟩ := gates_gpu draw allocated rt.backend.rng circuit.numQubits hzero hc.fits
  refine ⟨b, ?_, hb⟩
  unfold run
  rw [hbound, if_neg Bool.false_ne_true, exec_modify_bind]
  rw [exec_bind, hinit, hc.ops]
  exact hgates

/-- **A circuit that runs** does on both, and leaves them in one state. -/
theorem run_works (draw : StateVec ℝ → γ → ℕ × γ) {circuit : Circuit ℝ} (hb : circuit.Built)
    (hruns : circuit.runs = true) (ha : ∀ n ≤ 30, allocated n = true) {started : Bool} {c : QuantumRuntime (CPUSimulator γ)}
    {g : QuantumRuntime (GPUSimulator γ)} (h : Mirrors started c g) : ∃ c' g',
      exec (run (CPUSimulator.simulator draw) circuit) c = (.ok (), c') ∧
      exec (run (GPUSimulator.simulator draw allocated) circuit) g = (.ok (), g') ∧ Mirrors true c' g' := by
  obtain ⟨calls, hl⟩ := Circuit.legal_of_built hb
  obtain ⟨hbound, hn⟩ : circuit.isParametric = false ∧ circuit.numQubits ≤ 30 := by
    simpa [Circuit.runs] using hruns
  obtain ⟨b, hcpu, hholds⟩ := run_prepares draw hl hbound hn c
  obtain ⟨b', hgpu, hholds'⟩ := run_gpu_prepares draw hl hbound hn (ha _ hn) g
  exact ⟨_, _, hcpu, hgpu, h.rng, fun _ => ⟨_, _, hholds, hholds'⟩⟩

/-- **A circuit that does not run** throws from both, which keep their states. -/
theorem run_fails {circuit : Circuit ℝ} (hruns : circuit.runs = false) {started : Bool}
    {c : QuantumRuntime (CPUSimulator γ)} {g : QuantumRuntime (GPUSimulator γ)} (h : Mirrors started c g) :
    ∃ e e' c' g', e.kind = e'.kind ∧ exec (run (CPUSimulator.simulator draw) circuit) c = (.error e, c') ∧
      exec (run (GPUSimulator.simulator draw allocated) circuit) g = (.error e', g') ∧ Mirrors started c' g' := by
  cases hbound : circuit.isParametric with
  | true =>
    unfold run
    rw [hbound, if_pos rfl, if_pos rfl]
    exact ⟨_, _, c, g, rfl, rfl, rfl, h⟩
  | false =>
    have hn : 30 < circuit.numQubits := by simpa [Circuit.runs, hbound] using hruns
    unfold run
    rw [hbound, if_neg Bool.false_ne_true, if_neg Bool.false_ne_true, exec_modify_bind]
    rw [exec_modify_bind]
    -- the range check comes before anything is changed
    have hcpu : ∀ rt, exec (onBackend ((CPUSimulator.simulator draw).initializeState circuit.numQubits)) rt = (.error
        ⟨.invalidArgument, "CPUBackend: num_qubits must be in [1, 30] for this reference implementation"⟩, rt) :=
      fun rt => by
        unfold onBackend CPUSimulator.simulator
        rw [exec_zoom, CPUSimulator.exec_onBackend, CPUBackend.initializeState, if_pos (.inr hn)]
        rfl
    have hgpu : ∀ rt, exec (onBackend ((GPUSimulator.simulator draw allocated).initializeState circuit.numQubits)) rt =
        (.error ⟨.invalidArgument, "GPUBackend: num_qubits must be in [1, 30]"⟩, rt) := fun rt => by
      unfold onBackend GPUSimulator.simulator GPUSimulator.initializeState GPUBackend.initializeState
      rw [exec_zoom, exec_get_bind, if_pos (.inr hn)]
      rfl
    rw [exec_bind, exec_bind, hcpu, hgpu]
    refine ⟨_, _, _, _, ?_, rfl, rfl, h.rng, h.state⟩
    rfl

theorem shotLoop_congr {probs probs' : StateVec ℝ} (hdraw : draw probs = draw probs') (which : List ℕ) :
    ∀ shots, shotLoop draw probs which shots = shotLoop draw probs' which shots
  | 0 => rfl
  | shots + 1 => by rw [shotLoop, shotLoop, hdraw, shotLoop_congr hdraw which shots]

/-- **The samples of one state.** -/
theorem sample_agrees (hreads : ReadsWeights draw) {n : ℕ} {ψ : State (Fin n)} {b : CPUBackend ℂ} {b' : GPUBackend ℂ}
    (hc : b.state.Holds ψ) (hg : b'.Holds ψ) {qubits : List ℕ} (hq : qubits.isEmpty = false) (shots : ℕ) (rng : γ) :
    ∃ r rng', exec (CPUSimulator.sample draw qubits shots) ⟨b, rng⟩ = (r, ⟨b, rng'⟩) ∧
      exec (GPUSimulator.sample draw qubits shots) ⟨b', rng⟩ = (r, ⟨b', rng'⟩) := by
  obtain ⟨state, hs, hg⟩ := hg
  have hprobs : b'.probabilities = .ok ⟨b'.dim, fun i => Complex.normSq (state i)⟩ := by
    rw [GPUBackend.probabilities, GPUBackend.getState, hs]
    rfl
  have hdraw : draw b.probabilities = draw ⟨b'.dim, fun i => Complex.normSq (state i)⟩ := by
    refine hreads _ _ (hc.size.trans hg.size.symm) fun i hi => ?_
    have hi : i < 2 ^ n := hc.size ▸ hi
    have hcell := (hc.cell (bits n i)).trans (hg.cell (bits n i)).symm
    rw [index_bits hi] at hcell
    exact congrArg Complex.normSq hcell
  unfold CPUSimulator.sample GPUSimulator.sample
  rw [exec_get_bind, exec_get_bind, hq, if_neg Bool.false_ne_true]
  rw [exec_bind, exec_lift, hprobs]
  dsimp only
  rw [exec_zoom, exec_zoom, shotLoop_congr hdraw]
  exact ⟨_, _, rfl, rfl⟩

end QuantumRuntime

/-! ### Calls -/

open QuantumRuntime

theorem exec_map_error {σ α β : Type} {x : Run Exn σ α} {s s' : σ} {e : Exn} (h : exec x s = (.error e, s'))
    (f : α → β) : exec (f <$> x) s = (.error e, s') := by
  rw [exec_map, h]
  rfl

theorem exec_bind_error {σ α β : Type} {x : Run Exn σ α} {s s' : σ} {e : Exn} (h : exec x s = (.error e, s'))
    (f : α → Run Exn σ β) : exec (x >>= f) s = (.error e, s') := by
  rw [exec_bind, h]

/-- A call throws what its run throws. -/
theorem perform_error {φ : Type} {S : StateSimulator φ} {circuit : Circuit ℝ} {rt rt' : QuantumRuntime φ} {e : Exn}
    (h : exec (QuantumRuntime.run S.toSimulator circuit) rt = (.error e, rt')) :
    exec ((RuntimeCall.run circuit).perform S) rt = (.error e, rt') ∧
    (∀ shots, exec ((RuntimeCall.sample circuit shots).perform S) rt = (.error e, rt')) ∧
    (∀ shots, exec ((RuntimeCall.sampleCounts circuit shots).perform S) rt = (.error e, rt')) ∧
    ∀ obs, exec ((RuntimeCall.expectation circuit obs).perform S) rt = (.error e, rt') :=
  ⟨exec_map_error h _, fun _ => exec_map_error (exec_bind_error h _) _,
    fun _ => exec_map_error (exec_bind_error (exec_bind_error h _) _) _,
    fun _ => exec_map_error (exec_bind_error h _) _⟩

/-- Two calls that both answer alike. -/
def AnswerAlike (started : Bool) (x : Run Exn (QuantumRuntime (CPUSimulator γ)) Response)
    (y : Run Exn (QuantumRuntime (GPUSimulator γ)) Response) (c : QuantumRuntime (CPUSimulator γ))
    (g : QuantumRuntime (GPUSimulator γ)) : Prop :=
  Alike (exec x c).1 (exec y g).1 ∧ Mirrors started (exec x c).2 (exec y g).2

theorem AnswerAlike.of_errors {started : Bool} {x : Run Exn (QuantumRuntime (CPUSimulator γ)) Response}
    {y : Run Exn (QuantumRuntime (GPUSimulator γ)) Response} {c c' : QuantumRuntime (CPUSimulator γ)}
    {g g' : QuantumRuntime (GPUSimulator γ)} {e e' : Exn} (hkind : e.kind = e'.kind) (hx : exec x c = (.error e, c'))
    (hy : exec y g = (.error e', g')) (h : Mirrors started c' g') : AnswerAlike started x y c g := by
  unfold AnswerAlike
  rw [hx, hy]
  exact ⟨.error hkind, h⟩

/-- The samples of a circuit that runs. -/
theorem exec_sample_agrees (hreads : ReadsWeights draw) (ha : ∀ n ≤ 30, allocated n = true) {circuit : Circuit ℝ}
    (hb : circuit.Built) (hruns : circuit.runs = true) (shots : ℕ) {started : Bool}
    {c : QuantumRuntime (CPUSimulator γ)} {g : QuantumRuntime (GPUSimulator γ)} (h : Mirrors started c g) :
    ∃ r c' g', exec (QuantumRuntime.sample (CPUSimulator.simulator draw) circuit shots) c = (r, c') ∧
      exec (QuantumRuntime.sample (GPUSimulator.simulator draw allocated) circuit shots) g = (r, g') ∧
      Mirrors true c' g' := by
  obtain ⟨calls, hl⟩ := Circuit.legal_of_built hb
  obtain ⟨hbound, hn⟩ : circuit.isParametric = false ∧ circuit.numQubits ≤ 30 := by
    simpa [Circuit.runs] using hruns
  obtain ⟨b, hcpu, hholds⟩ := run_prepares draw hl hbound hn c
  obtain ⟨b', hgpu, hholds'⟩ := run_gpu_prepares draw hl hbound hn (ha _ hn) g
  obtain ⟨r, rng, hc, hg⟩ := sample_agrees hreads hholds hholds' hl.readout_ne_nil shots c.backend.rng
  refine ⟨r, ⟨⟨b, rng⟩, circuit.numQubits⟩, ⟨⟨b', rng⟩, circuit.numQubits⟩, ?_, ?_, rfl,
    fun _ => ⟨_, _, hholds, hholds'⟩⟩
  · unfold QuantumRuntime.sample
    rw [exec_bind, hcpu]
    dsimp only
    rw [exec_get_bind]
    exact congrArg (fun x => (x.1, (⟨x.2, circuit.numQubits⟩ : QuantumRuntime (CPUSimulator γ)))) hc
  · unfold QuantumRuntime.sample
    rw [exec_bind, hgpu]
    dsimp only
    rw [exec_get_bind, ← h.rng]
    exact congrArg (fun x => (x.1, (⟨x.2, circuit.numQubits⟩ : QuantumRuntime (GPUSimulator γ)))) hg

theorem exec_sampleCounts_of_sample {φ : Type} {B : Simulator φ (List ℕ)} {circuit : Circuit ℝ} {shots : ℕ}
    {rt rt' : QuantumRuntime φ} {r : Except Exn (List ℕ)}
    (h : exec (QuantumRuntime.sample B circuit shots) rt = (r, rt')) :
    exec (QuantumRuntime.sampleCounts B circuit shots) rt = (r >>= fun raw =>
      countShots (if circuit.measured.isEmpty then circuit.numQubits else circuit.measured.length) raw [], rt') := by
  unfold QuantumRuntime.sampleCounts
  dsimp only
  rw [exec_bind, h]
  rcases r with e | raw <;> rfl

theorem AnswerAlike.of_results {α : Type} {started : Bool} {x : Run Exn (QuantumRuntime (CPUSimulator γ)) α}
    {y : Run Exn (QuantumRuntime (GPUSimulator γ)) α} {c c' : QuantumRuntime (CPUSimulator γ)}
    {g g' : QuantumRuntime (GPUSimulator γ)} {r : Except Exn α} (f : α → Response) (hx : exec x c = (r, c'))
    (hy : exec y g = (r, g')) (h : Mirrors started c' g') : AnswerAlike started (f <$> x) (f <$> y) c g := by
  unfold AnswerAlike
  rw [exec_map, exec_map, hx, hy]
  exact ⟨.same _, h⟩

/-! What the queries read, on any simulator. -/

section Reads

variable {φ : Type} {S : StateSimulator φ} {rt rt' : QuantumRuntime φ}

theorem exec_stateVector {psi : StateVec ℂ} (h : S.getState rt.backend = .ok psi) :
    exec (stateVector S) rt = (.ok psi.toList, rt) := by
  unfold stateVector
  rw [exec_get_bind, exec_bind, exec_lift, h]
  rfl

theorem exec_stateProbabilities {probs : StateVec ℝ} (h : S.probabilities rt.backend = .ok probs) :
    exec (stateProbabilities S) rt = (.ok probs.toList, rt) := by
  unfold stateProbabilities
  rw [exec_get_bind, exec_bind, exec_lift, h]
  rfl

theorem exec_expectation {circuit : Circuit ℝ} {psi : StateVec ℂ}
    (hrun : exec (QuantumRuntime.run S.toSimulator circuit) rt = (.ok (), rt'))
    (h : S.getState rt'.backend = .ok psi) (obs : Observable ℝ) :
    exec (QuantumRuntime.expectation S circuit obs) rt = (expectationValue psi obs, rt') := by
  unfold QuantumRuntime.expectation
  rw [exec_bind, hrun]
  dsimp only
  rw [exec_get_bind, exec_bind, exec_lift, h]
  rfl

end Reads

/-- The amplitudes and the weights of one state. -/
theorem queries_agree {c : QuantumRuntime (CPUSimulator γ)} {g : QuantumRuntime (GPUSimulator γ)}
    (h : Mirrors true c g) :
    (∃ psi, exec (stateVector (CPUSimulator.stateSimulator draw)) c = (.ok psi, c) ∧
      exec (stateVector (GPUSimulator.stateSimulator draw allocated)) g = (.ok psi, g)) ∧
    ∃ probs, exec (stateProbabilities (CPUSimulator.stateSimulator draw)) c = (.ok probs, c) ∧
      exec (stateProbabilities (GPUSimulator.stateSimulator draw allocated)) g = (.ok probs, g) := by
  obtain ⟨n, ψ, hc, state, hs, hg⟩ := h.state rfl
  have hget : g.backend.backend.getState = .ok ⟨g.backend.backend.dim, state⟩ := by
    rw [GPUBackend.getState, hs]
    rfl
  have hprobs : g.backend.backend.probabilities =
      .ok ⟨g.backend.backend.dim, fun i => Complex.normSq (state i)⟩ := by
    rw [GPUBackend.probabilities, hget]
    rfl
  have hweights : c.backend.backend.probabilities.toList =
      StateVec.toList ⟨g.backend.backend.dim, fun i => Complex.normSq (state i)⟩ := by
    have hlists := congrArg (List.map Complex.normSq) (hc.toList.trans hg.toList.symm)
    rwa [StateVec.toList, StateVec.toList, List.map_map, List.map_map] at hlists
  refine ⟨⟨_, exec_stateVector rfl, ?_⟩, ⟨_, exec_stateProbabilities rfl, ?_⟩⟩
  · rw [exec_stateVector hget, hg.toList, ← hc.toList]
    rfl
  · rw [exec_stateProbabilities hprobs, ← hweights]

/-- The expectation in a state that both have just prepared. -/
theorem expectation_agrees (ha : ∀ n ≤ 30, allocated n = true) {circuit : Circuit ℝ} (hb : circuit.Built)
    (hruns : circuit.runs = true) {obs : Observable ℝ} (ho : obs.Legal) {started : Bool}
    {c : QuantumRuntime (CPUSimulator γ)} {g : QuantumRuntime (GPUSimulator γ)} (h : Mirrors started c g) :
    ∃ r c' g', exec (QuantumRuntime.expectation (CPUSimulator.stateSimulator draw) circuit obs) c = (r, c') ∧
      exec (QuantumRuntime.expectation (GPUSimulator.stateSimulator draw allocated) circuit obs) g = (r, g') ∧
      Mirrors true c' g' := by
  obtain ⟨c', g', hc, hg, h'⟩ := run_works draw hb hruns ha h
  obtain ⟨n, ψ, hcpu, state, hs, hgpu⟩ := h'.state rfl
  have hget : g'.backend.backend.getState = .ok ⟨g'.backend.backend.dim, state⟩ := by
    rw [GPUBackend.getState, hs]
    rfl
  refine ⟨expectationValue c'.backend.backend.state obs, c', g', ?_, ?_, h'⟩
  · exact exec_expectation (S := CPUSimulator.stateSimulator draw) hc rfl obs
  · rw [hcpu.expectationValue_congr hgpu ho]
    exact exec_expectation (S := GPUSimulator.stateSimulator draw allocated) hg hget obs

/-! ### Runs of calls -/

/-- **One call** is answered alike, and the states agree again. -/
theorem perform_agrees (hreads : ReadsWeights draw) (ha : ∀ n ≤ 30, allocated n = true) {call : RuntimeCall}
    (hv : call.Valid) {started : Bool} (hq : QueriesAfterRun started [call])
    {c : QuantumRuntime (CPUSimulator γ)} {g : QuantumRuntime (GPUSimulator γ)} (h : Mirrors started c g) :
    AnswerAlike (started || call.runs) (call.perform (CPUSimulator.stateSimulator draw))
      (call.perform (GPUSimulator.stateSimulator draw allocated)) c g := by
  -- a circuit that is refused leaves both as they were
  have hfails : ∀ {circuit : Circuit ℝ}, circuit.runs = false → ∃ e e' c' g', e.kind = e'.kind ∧
      exec (QuantumRuntime.run (CPUSimulator.stateSimulator draw).toSimulator circuit) c = (.error e, c') ∧
      exec (QuantumRuntime.run (GPUSimulator.stateSimulator draw allocated).toSimulator circuit) g =
        (.error e', g') ∧ Mirrors (started || false) c' g' := fun hruns => by
    rw [Bool.or_false]
    exact run_fails hruns h
  cases call with
  | run circuit =>
    cases hruns : circuit.runs with
    | false =>
      obtain ⟨e, e', c', g', hk, hc, hg, h'⟩ := hfails hruns
      rw [RuntimeCall.runs, hruns]
      exact .of_errors hk (perform_error hc).1 (perform_error hg).1 h'
    | true =>
      obtain ⟨c', g', hc, hg, h'⟩ := run_works draw hv hruns ha h
      rw [RuntimeCall.runs, hruns, Bool.or_true]
      exact .of_results _ hc hg h'
  | sample circuit shots =>
    cases hruns : circuit.runs with
    | false =>
      obtain ⟨e, e', c', g', hk, hc, hg, h'⟩ := hfails hruns
      rw [RuntimeCall.runs, hruns]
      exact .of_errors hk ((perform_error hc).2.1 shots) ((perform_error hg).2.1 shots) h'
    | true =>
      obtain ⟨r, c', g', hc, hg, h'⟩ := exec_sample_agrees hreads ha hv hruns shots h
      rw [RuntimeCall.runs, hruns, Bool.or_true]
      exact .of_results _ hc hg h'
  | sampleCounts circuit shots =>
    cases hruns : circuit.runs with
    | false =>
      obtain ⟨e, e', c', g', hk, hc, hg, h'⟩ := hfails hruns
      rw [RuntimeCall.runs, hruns]
      exact .of_errors hk ((perform_error hc).2.2.1 shots) ((perform_error hg).2.2.1 shots) h'
    | true =>
      obtain ⟨r, c', g', hc, hg, h'⟩ := exec_sample_agrees hreads ha hv hruns shots h
      rw [RuntimeCall.runs, hruns, Bool.or_true]
      exact .of_results _ (exec_sampleCounts_of_sample hc) (exec_sampleCounts_of_sample hg) h'
  | expectation circuit obs =>
    cases hruns : circuit.runs with
    | false =>
      obtain ⟨e, e', c', g', hk, hc, hg, h'⟩ := hfails hruns
      rw [RuntimeCall.runs, hruns]
      exact .of_errors hk ((perform_error hc).2.2.2 obs) ((perform_error hg).2.2.2 obs) h'
    | true =>
      obtain ⟨r, c', g', hc, hg, h'⟩ := expectation_agrees ha hv.1 hruns hv.2 h
      rw [RuntimeCall.runs, hruns, Bool.or_true]
      exact .of_results _ hc hg h'
  | stateVector =>
    obtain ⟨rfl, -⟩ := hq
    obtain ⟨psi, hc, hg⟩ := (queries_agree h).1
    exact .of_results _ hc hg h
  | probabilities =>
    obtain ⟨rfl, -⟩ := hq
    obtain ⟨probs, hc, hg⟩ := (queries_agree h).2
    exact .of_results _ hc hg h

/-- The first call of a session, and the others after it. -/
theorem QueriesAfterRun.cons {started : Bool} {call : RuntimeCall} {calls : List RuntimeCall}
    (h : QueriesAfterRun started (call :: calls)) :
    QueriesAfterRun started [call] ∧ QueriesAfterRun (started || call.runs) calls := by
  cases call with
  | stateVector | probabilities => exact ⟨⟨h.1, trivial⟩, by simpa [RuntimeCall.runs] using h.2⟩
  | _ => exact ⟨trivial, h⟩

theorem session_agrees (hreads : ReadsWeights draw) (ha : ∀ n ≤ 30, allocated n = true) :
    ∀ {calls : List RuntimeCall}, (∀ call ∈ calls, call.Valid) → ∀ {started : Bool},
      QueriesAfterRun started calls → ∀ {c : QuantumRuntime (CPUSimulator γ)}
      {g : QuantumRuntime (GPUSimulator γ)}, Mirrors started c g →
      List.Forall₂ Alike (session (CPUSimulator.stateSimulator draw) calls c)
        (session (GPUSimulator.stateSimulator draw allocated) calls g)
  | [], _, _, _, _, _, _ => .nil
  | call :: calls, hv, started, hq, c, g, h => by
    obtain ⟨hfirst, hrest⟩ := hq.cons
    obtain ⟨halike, hmirrors⟩ := perform_agrees hreads ha (hv call List.mem_cons_self) hfirst h
    exact .cons halike (session_agrees hreads ha (fun x hx => hv x (List.mem_cons_of_mem _ hx)) hrest hmirrors)

/-- **The two simulators are interchangeable**: a client that builds its
circuits and observables with the API, and asks for the state only after a run,
gets the same answers from both, and exceptions of the same class; whatever
state the two were in before, if the generators were in the same one. -/
theorem devices_agree (hreads : ReadsWeights draw) (ha : ∀ n ≤ 30, allocated n = true) {calls : List RuntimeCall}
    (hv : ∀ call ∈ calls, call.Valid) (hq : QueriesAfterRun false calls) {c : QuantumRuntime (CPUSimulator γ)}
    {g : QuantumRuntime (GPUSimulator γ)} (hrng : c.backend.rng = g.backend.rng) :
    List.Forall₂ Alike (session (CPUSimulator.stateSimulator draw) calls c)
      (session (GPUSimulator.stateSimulator draw allocated) calls g) :=
  session_agrees hreads ha hv hq ⟨hrng, nofun⟩

theorem devices_agree_hadamard : List.Forall₂ Alike
    (session (CPUSimulator.stateSimulator drawFirst) [.sample hadamardCircuit 2, .stateVector] idle)
    (session (GPUSimulator.stateSimulator drawFirst fun _ => true)
      [.sample hadamardCircuit 2, .stateVector] idleGpu) := by
  have hv : ∀ call ∈ [RuntimeCall.sample hadamardCircuit 2, .stateVector], call.Valid := by
    rintro call (_ | ⟨_, _ | ⟨_, ⟨⟩⟩⟩)
    exacts [built_hadamardCircuit, trivial]
  have hq : QueriesAfterRun false [RuntimeCall.sample hadamardCircuit 2, .stateVector] :=
    show QueriesAfterRun true [.stateVector] from ⟨rfl, trivial⟩
  exact devices_agree (fun _ _ _ _ => rfl) (fun _ _ => rfl) hv hq rfl

end

end Qsycl
