/-
# The runtime

`QuantumRuntime` (`runtime.cpp`) runs a circuit on a backend, gate by gate, and
turns the samples of the backend into a histogram. The backend is a
`Simulator`; `CPUBackend` is one, with the generator of its samples.

After a run on the CPU backend the probabilities are those of a unitary
circuit: they are not negative and sum to 1 (`probabilities_run`).
-/
import Qsycl.GateIdentities
import Qsycl.QpuBackend
import Qsycl.Json

namespace Qsycl

open Runs Qubits

/-! ### The CPU backend as a simulator -/

/-- A shift of an `unsigned long long`; by 64 or more it is undefined. -/
def shiftLeft64 (x k : ℕ) : Except Exn ℕ :=
  if 64 ≤ k then throw ⟨.undefined, "shift past the width"⟩ else return (x <<< k) % 2 ^ 64

def shiftRight64 (x k : ℕ) : Except Exn ℕ :=
  if 64 ≤ k then throw ⟨.undefined, "shift past the width"⟩ else return x >>> k

/-- The CPU backend with the generator of its samples. -/
structure CPUSimulator (γ : Type) where
  backend : CPUBackend ℂ
  rng : γ

/-- The bits of an index at the qubits `which`, from bit `k` of the readout on. -/
def packReadout (fullIndex : ℕ) : List ℕ → ℕ → ℕ → Except Exn ℕ
  | [], _, readout => return readout
  | q :: which, k, readout => do
    let mask ← shiftLeft64 1 q
    if fullIndex &&& mask ≠ 0 then do
      let bit ← shiftLeft64 1 k
      packReadout fullIndex which (k + 1) (readout ||| bit)
    else packReadout fullIndex which (k + 1) readout

/-- The shots of a sample: each draws an index from the distribution and reads its bits.
The state is the generator. -/
def shotLoop {γ : Type} (draw : StateVec ℝ → γ → ℕ × γ) (probs : StateVec ℝ) (which : List ℕ) :
    ℕ → Run Exn γ (List ℕ)
  | 0 => return []
  | shots + 1 => do
    let (fullIndex, rng) := draw probs (← get)
    set rng
    let readout ← packReadout fullIndex which 0 0
    let results ← shotLoop draw probs which shots
    return readout :: results

namespace CPUSimulator

variable {γ : Type}

/-- A method of the backend; one that throws has changed nothing. -/
def onBackend (f : CPUBackend ℂ → Except Exn (CPUBackend ℂ)) : Run Exn (CPUSimulator γ) Unit := do
  let s ← get
  let b ← f s.backend
  set { s with backend := b }

variable (draw : StateVec ℝ → γ → ℕ × γ)

noncomputable def sample (qubits : List ℕ) (shots : ℕ) : Run Exn (CPUSimulator γ) (List ℕ) := do
  let s ← get
  let which := if qubits.isEmpty then List.range s.backend.numQubits else qubits
  zoom CPUSimulator.rng (fun rng s => { s with rng := rng }) (shotLoop draw s.backend.probabilities which shots)

/-- `CPUBackend`, whose `discrete_distribution` draws by `draw`. -/
noncomputable def simulator : Simulator (CPUSimulator γ) (List ℕ) where
  initializeState n := onBackend (CPUBackend.initializeState n)
  applyGate op := onBackend (CPUBackend.applyGate op)
  sample := sample draw

end CPUSimulator

/-! ### The runtime -/

/-- The members of the runtime: the backend and the qubit count of the last run. -/
structure QuantumRuntime (φ : Type) where
  backend : φ
  numQubits : ℕ

namespace QuantumRuntime

variable {φ α : Type}

def onBackend (x : Run Exn φ α) : Run Exn (QuantumRuntime φ) α :=
  zoom QuantumRuntime.backend (fun b s => { s with backend := b }) x

section Methods

variable (B : Simulator φ (List ℕ))

def run (circuit : Circuit ℝ) : Run Exn (QuantumRuntime φ) Unit :=
  if circuit.isParametric then
    throw ⟨.invalidArgument,
      "QuantumRuntime::run: circuit has free parameters; call Circuit::bind(theta) first"⟩
  else do
    modify fun s => { s with numQubits := circuit.numQubits }
    onBackend (B.initializeState circuit.numQubits)
    circuit.ops.forM fun op => onBackend (B.applyGate op)

def sample (circuit : Circuit ℝ) (shots : ℕ) : Run Exn (QuantumRuntime φ) (List ℕ) := do
  run B circuit
  let s ← get
  let measured := if circuit.measured.isEmpty then List.range s.numQubits else circuit.measured
  onBackend (B.sample measured shots)

/-- The bits of a value from bit `k - 1` down, as characters. -/
def bitString (value : ℕ) : ℕ → Except Exn Bytes
  | 0 => return []
  | k + 1 => do
    let v ← shiftRight64 value k
    let bits ← bitString value k
    return (if v &&& 1 ≠ 0 then 49 else 48) :: bits

/-- `counts[bits]++`. -/
def increment (bits : Bytes) (counts : List (Bytes × ℕ)) : List (Bytes × ℕ) :=
  SortedMap.insert bits (((counts.lookup bits).getD 0) + 1) counts

def countShots (numReadout : ℕ) : List ℕ → List (Bytes × ℕ) → Except Exn (List (Bytes × ℕ))
  | [], counts => return counts
  | value :: raw, counts => do
    let bits ← bitString value numReadout
    countShots numReadout raw (increment bits counts)

def sampleCounts (circuit : Circuit ℝ) (shots : ℕ) : Run Exn (QuantumRuntime φ) (List (Bytes × ℕ)) := do
  let numReadout := if circuit.measured.isEmpty then circuit.numQubits else circuit.measured.length
  let raw ← sample B circuit shots
  countShots numReadout raw []

end Methods

/-- `probabilities` on the CPU backend. -/
noncomputable def probabilities {γ : Type} (rt : QuantumRuntime (CPUSimulator γ)) : StateVec ℝ :=
  rt.backend.backend.probabilities

end QuantumRuntime

/-! ### Runs on the CPU backend -/

section Runs

variable {γ : Type} (draw : StateVec ℝ → γ → ℕ × γ)

theorem CPUSimulator.exec_onBackend (f : CPUBackend ℂ → Except Exn (CPUBackend ℂ)) (s : CPUSimulator γ) :
    exec (CPUSimulator.onBackend f) s = match f s.backend with
      | .ok b => (.ok (), { s with backend := b })
      | .error e => (.error e, s) := by
  unfold CPUSimulator.onBackend
  rw [exec_get_bind]
  rw [exec_bind, exec_lift]
  cases f s.backend <;> rfl

namespace QuantumRuntime

/-- The gates of a run, on the backend itself. -/
theorem exec_gates : ∀ {ops : List (GateOp ℝ)} {rt : QuantumRuntime (CPUSimulator γ)} {b : CPUBackend ℂ},
    rt.backend.backend.run ops = .ok b →
    exec (ops.forM fun op => onBackend ((CPUSimulator.simulator draw).applyGate op)) rt =
      (.ok (), { rt with backend := { rt.backend with backend := b } })
  | [], _, _, h => by
    cases h
    rfl
  | op :: ops, rt, b, h => by
    obtain ⟨b₁, h₁, h₂⟩ := bind_eq_ok.mp (show rt.backend.backend.applyGate op >>= _ = .ok b from h)
    have hstep : exec (onBackend ((CPUSimulator.simulator draw).applyGate op)) rt =
        (.ok (), { rt with backend := { rt.backend with backend := b₁ } }) := by
      unfold onBackend CPUSimulator.simulator
      rw [exec_zoom, CPUSimulator.exec_onBackend, h₁]
    show exec (onBackend _ >>= fun _ => ops.forM _) rt = _
    rw [exec_bind, hstep]
    exact exec_gates h₂

/-- **A run prepares the state** of the circuit. -/
theorem run_prepares {circuit : Circuit ℝ} {calls : List (GateCall ℝ)} (hc : circuit.Legal calls)
    (hbound : circuit.isParametric = false) (hn : circuit.numQubits ≤ 30)
    (rt : QuantumRuntime (CPUSimulator γ)) :
    ∃ b, exec (run (CPUSimulator.simulator draw) circuit) rt =
        (.ok (), ⟨⟨b, rt.backend.rng⟩, circuit.numQubits⟩) ∧
      b.state.Holds (preparedState circuit.numQubits calls) := by
  obtain ⟨b₀, b, hinit, hrun, hholds⟩ :=
    CPUBackend.prepare_holds (P := circuit.numParams) hc.pos hn hc.fits rt.backend.backend
  rw [← hc.ops] at hrun
  refine ⟨b, ?_, hholds⟩
  have hstart : exec (onBackend ((CPUSimulator.simulator draw).initializeState circuit.numQubits))
      { rt with numQubits := circuit.numQubits } =
        (.ok (), ⟨⟨b₀, rt.backend.rng⟩, circuit.numQubits⟩) := by
    unfold onBackend CPUSimulator.simulator
    rw [exec_zoom, CPUSimulator.exec_onBackend, hinit]
  unfold run
  rw [hbound, if_neg Bool.false_ne_true, exec_modify_bind]
  rw [exec_bind, hstart]
  exact exec_gates draw hrun

/-- A circuit that `bind` returns has no free parameters. -/
theorem isParametric_bind {c bound : Circuit ℝ} {calls : List (GateCall ℝ)} (hc : c.Legal calls)
    {theta : List ℝ} {shiftOp : ℤ} {shift : ℝ} (hb : c.bind theta shiftOp shift = .ok bound) :
    bound.isParametric = false := by
  obtain ⟨-, -, rfl⟩ := (Circuit.bind_eq_ok c calls hc.ops theta shiftOp shift bound).mp hb
  rw [Circuit.isParametric, List.any_eq_false]
  intro op hop
  obtain ⟨g, hg, rfl⟩ := List.mem_map.mp hop
  rw [GateCall.op_of_const (mem_bindCalls hg).1]
  simp [GateOp.isParametric]

/-- A run of a bound circuit prepares the state of its gates at the parameters. -/
theorem run_bound {c bound : Circuit ℝ} {calls : List (GateCall ℝ)} (hc : c.Legal calls) (hn : c.numQubits ≤ 30)
    {theta : List ℝ} {shiftOp : ℤ} {shift : ℝ} (hb : c.bind theta shiftOp shift = .ok bound)
    (rt : QuantumRuntime (CPUSimulator γ)) :
    ∃ b, exec (run (CPUSimulator.simulator draw) bound) rt = (.ok (), ⟨⟨b, rt.backend.rng⟩, c.numQubits⟩) ∧
      b.state.Holds (preparedState c.numQubits (bindCalls calls theta shiftOp shift)) := by
  have hq := hc.numQubits_bind hb
  obtain ⟨b, hrun, hholds⟩ := run_prepares draw (hc.bind hb) (isParametric_bind hc hb) (hq ▸ hn) rt
  rw [hq] at hrun hholds
  exact ⟨b, hrun, hholds⟩

end QuantumRuntime

/-! ### Probabilities -/

/-- The norm of all zeros. -/
theorem sum_normSq_zeroState (n : ℕ) : ∑ x, Complex.normSq (zeroState (n := n) x) = 1 := by
  rw [Finset.sum_eq_single fun _ => false]
  · simp [zeroState]
  · intro x _ hx
    simp [zeroState, hx]
  · exact fun h => absurd (Finset.mem_univ _) h

theorem StateVec.Holds.sum_normSq {n : ℕ} {v : StateVec ℂ} {ψ : State (Fin n)} (h : v.Holds ψ) :
    ∑ j ∈ Finset.range v.size, Complex.normSq (v.cell j) = ∑ x, Complex.normSq (ψ x) := by
  rw [h.size, sum_index]
  exact Finset.sum_congr rfl fun x _ => by rw [h.cell]

/-- **Probabilities.** After a run of a bound circuit of the API on up to 30 qubits, the
entries of `probabilities` are not negative and sum to 1. -/
theorem QuantumRuntime.probabilities_run {circuit : Circuit ℝ} (hc : circuit.Built)
    (hbound : circuit.isParametric = false) (hn : circuit.numQubits ≤ 30)
    (rt : QuantumRuntime (CPUSimulator γ)) :
    ∃ rt', exec (run (CPUSimulator.simulator draw) circuit) rt = (.ok (), rt') ∧
      rt'.probabilities.size = 2 ^ circuit.numQubits ∧
      (∀ i < rt'.probabilities.size, 0 ≤ rt'.probabilities.cell i) ∧
      ∑ i ∈ Finset.range rt'.probabilities.size, rt'.probabilities.cell i = 1 := by
  obtain ⟨calls, hl⟩ := Circuit.legal_of_built hc
  obtain ⟨b, hrun, hholds⟩ := run_prepares draw hl hbound hn rt
  refine ⟨_, hrun, hholds.size, fun i _ => Complex.normSq_nonneg _, ?_⟩
  calc ∑ i ∈ Finset.range b.state.size, Complex.normSq (b.state.cell i)
      = ∑ x, Complex.normSq (preparedState circuit.numQubits calls x) := hholds.sum_normSq
    _ = ∑ x, Complex.normSq (zeroState x) := (isUnitary_circuitOperator hl.fits).sum_normSq _
    _ = 1 := sum_normSq_zeroState _

/-- One qubit with a Hadamard gate. -/
noncomputable def hadamardCircuit : Circuit ℝ := ⟨1, 0, [GateCall.op (.h 0)], []⟩

theorem built_hadamardCircuit : hadamardCircuit.Built :=
  .gate (c := ⟨1, 0, [], []⟩) (g := .h 0) (.new (n := 1) rfl) rfl

theorem QuantumRuntime.probabilities_run_hadamard :
    let rt : QuantumRuntime (CPUSimulator Unit) := ⟨⟨.new fun _ => .inOrder, ()⟩, 0⟩
    ∃ rt', exec (run (CPUSimulator.simulator fun _ rng => (0, rng)) hadamardCircuit) rt = (.ok (), rt') ∧
      rt'.probabilities.size = 2 ∧
      (∀ i < rt'.probabilities.size, 0 ≤ rt'.probabilities.cell i) ∧
      ∑ i ∈ Finset.range rt'.probabilities.size, rt'.probabilities.cell i = 1 :=
  probabilities_run _ built_hadamardCircuit rfl (by decide) _

end Runs

end Qsycl
