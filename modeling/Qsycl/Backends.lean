/-
# The simulator backends

`CPUBackend` and `GPUBackend` hold a state vector and run the kernels on it.
A backend's `queue` fixes the order in which each launch runs its work-items.
The switch of `apply_gate` is the same in both (`dispatchGate`).

On `n` qubits a kernel is an operator (`Kernel.operator`), which describes what
it leaves in the cells of the state vector (`Kernel.view_action`).
-/
import Qsycl.Circuit
import Qsycl.Kernels
import Qsycl.Lib.Basis

namespace Qsycl

open WorkItems Qubits Matrix

/-- A `std::vector` of amplitudes: its size and its cells. -/
structure StateVec (α : Type) where
  size : ℕ
  cell : ℕ → α

/-- The switch of `apply_gate`, over the kernels of a backend. -/
noncomputable def dispatchGate {σ : Type}
    (applySingleQubitMatrix : ℕ → Matrix2x2 ℂ → σ → Except Exn σ)
    (applyControlledMatrix : ℕ → ℕ → Matrix2x2 ℂ → σ → Except Exn σ)
    (applySwapGate : ℕ → ℕ → σ → Except Exn σ) (op : GateOp ℝ) (b : σ) : Except Exn σ := do
  match op.type with
  | .H => applySingleQubitMatrix (← vecAt op.qubits 0) Gates.H b
  | .X => applySingleQubitMatrix (← vecAt op.qubits 0) Gates.X b
  | .Y => applySingleQubitMatrix (← vecAt op.qubits 0) Gates.Y b
  | .Z => applySingleQubitMatrix (← vecAt op.qubits 0) Gates.Z b
  | .S =>
    if op.dagger then applySingleQubitMatrix (← vecAt op.qubits 0) Gates.Sdg b
    else applySingleQubitMatrix (← vecAt op.qubits 0) Gates.S b
  | .T =>
    if op.dagger then applySingleQubitMatrix (← vecAt op.qubits 0) Gates.Tdg b
    else applySingleQubitMatrix (← vecAt op.qubits 0) Gates.T b
  | .U =>
    applySingleQubitMatrix (← vecAt op.qubits 0)
      (Gates.U (← vecAt op.params 0) (← vecAt op.params 1) (← vecAt op.params 2)) b
  | .RX => applySingleQubitMatrix (← vecAt op.qubits 0) (Gates.RX (← vecAt op.params 0)) b
  | .RY => applySingleQubitMatrix (← vecAt op.qubits 0) (Gates.RY (← vecAt op.params 0)) b
  | .RZ => applySingleQubitMatrix (← vecAt op.qubits 0) (Gates.RZ (← vecAt op.params 0)) b
  | .CNOT => applyControlledMatrix (← vecAt op.qubits 0) (← vecAt op.qubits 1) Gates.X b
  | .CZ => applyControlledMatrix (← vecAt op.qubits 0) (← vecAt op.qubits 1) Gates.Z b
  | .CRX =>
    applyControlledMatrix (← vecAt op.qubits 0) (← vecAt op.qubits 1) (Gates.RX (← vecAt op.params 0)) b
  | .CRY =>
    applyControlledMatrix (← vecAt op.qubits 0) (← vecAt op.qubits 1) (Gates.RY (← vecAt op.params 0)) b
  | .CRZ =>
    applyControlledMatrix (← vecAt op.qubits 0) (← vecAt op.qubits 1) (Gates.RZ (← vecAt op.params 0)) b
  | .SWAP => applySwapGate (← vecAt op.qubits 0) (← vecAt op.qubits 1) b
  | .MEASURE => return b

/-! ### The CPU backend -/

structure CPUBackend (α : Type) where
  queue : Queue
  state : StateVec α
  numQubits : ℕ

namespace CPUBackend

variable {α : Type} [Zero α] [One α] [Add α] [Mul α]

/-- The backend as constructed: an empty state vector. -/
def new (queue : Queue) : CPUBackend α := ⟨queue, ⟨0, fun _ => 0⟩, 0⟩

def initializeState (numQubits : ℕ) (b : CPUBackend α) : Except Exn (CPUBackend α) :=
  if numQubits = 0 ∨ 30 < numQubits then
    throw ⟨.invalidArgument,
      "CPUBackend: num_qubits must be in [1, 30] for this reference implementation"⟩
  else
    return { b with numQubits := numQubits, state := ⟨1 <<< numQubits, Function.update (fun _ => 0) 0 1⟩ }

/-- `parallel_for` over the buffer of the state vector. -/
def parallelFor {α : Type} (range : ℕ) (item : ℕ → Access ℕ α) (b : CPUBackend α) : CPUBackend α :=
  { b with queue := b.queue.next, state := ⟨b.state.size, b.queue.launch range item b.state.cell⟩ }

def applySingleQubitMatrix {α : Type} [Add α] [Mul α] (qubit : ℕ) (m : Matrix2x2 α)
    (b : CPUBackend α) : CPUBackend α :=
  b.parallelFor (b.state.size / 2) (singleQubitItem (1 <<< qubit) m)

def applyControlledMatrix {α : Type} [Add α] [Mul α] (control target : ℕ) (m : Matrix2x2 α)
    (b : CPUBackend α) : CPUBackend α :=
  b.parallelFor (b.state.size / 2) (controlledItem (1 <<< control) (1 <<< target) m)

def applySwapGate {α : Type} (qubitA qubitB : ℕ) (b : CPUBackend α) : CPUBackend α :=
  b.parallelFor b.state.size (swapItem (1 <<< qubitA) (1 <<< qubitB))

noncomputable def applyGate : GateOp ℝ → CPUBackend ℂ → Except Exn (CPUBackend ℂ) :=
  dispatchGate (fun q m b => return b.applySingleQubitMatrix q m)
    (fun c t m b => return b.applyControlledMatrix c t m) fun a b d => return d.applySwapGate a b

def getState {α : Type} (b : CPUBackend α) : StateVec α := b.state

/-- `|amplitude|^2` of every basis state. -/
noncomputable def probabilities (b : CPUBackend ℂ) : StateVec ℝ :=
  ⟨b.state.size, fun i => Complex.normSq (b.state.cell i)⟩

end CPUBackend

/-! ### The GPU backend -/

/-- `stateDev` is null until a successful `initialize`. -/
structure GPUBackend (α : Type) where
  queue : Queue
  stateDev : Option (ℕ → α)
  dim : ℕ
  numQubits : ℕ

namespace GPUBackend

variable {α : Type}

def new (queue : Queue) : GPUBackend α := ⟨queue, none, 0, 0⟩

/-- `allocated` says whether `malloc_device` succeeds. The state is freed
before that, so that a failure leaves a null pointer behind. -/
def initializeState [Zero α] [One α] (allocated : Bool) (numQubits : ℕ) (b : GPUBackend α) :
    Except Exn Unit × GPUBackend α :=
  if numQubits = 0 ∨ 30 < numQubits then
    (throw ⟨.invalidArgument, "GPUBackend: num_qubits must be in [1, 30]"⟩, b)
  else
    let b := { b with stateDev := none, numQubits := numQubits, dim := 1 <<< numQubits }
    if allocated then (return (), { b with stateDev := some (Function.update (fun _ => 0) 0 1) })
    else (throw ⟨.runtimeError, "GPUBackend: sycl::malloc_device failed (out of device memory?)"⟩, b)

/-- `parallel_for` over the device memory, after the null check. -/
def parallelFor (range : ℕ) (item : ℕ → Access ℕ α) (b : GPUBackend α) :
    Except Exn (GPUBackend α) :=
  match b.stateDev with
  | none => throw ⟨.runtimeError, "GPUBackend::apply_gate called before initialize()"⟩
  | some state => return { b with queue := b.queue.next, stateDev := some (b.queue.launch range item state) }

def applySingleQubitMatrix [Add α] [Mul α] (qubit : ℕ) (m : Matrix2x2 α) (b : GPUBackend α) :
    Except Exn (GPUBackend α) :=
  b.parallelFor (b.dim / 2) (singleQubitItem (1 <<< qubit) m)

def applyControlledMatrix [Add α] [Mul α] (control target : ℕ) (m : Matrix2x2 α)
    (b : GPUBackend α) : Except Exn (GPUBackend α) :=
  b.parallelFor (b.dim / 2) (controlledItem (1 <<< control) (1 <<< target) m)

def applySwapGate (qubitA qubitB : ℕ) (b : GPUBackend α) : Except Exn (GPUBackend α) :=
  b.parallelFor b.dim (swapItem (1 <<< qubitA) (1 <<< qubitB))

noncomputable def applyGate : GateOp ℝ → GPUBackend ℂ → Except Exn (GPUBackend ℂ) :=
  dispatchGate applySingleQubitMatrix applyControlledMatrix applySwapGate

def getState (b : GPUBackend α) : Except Exn (StateVec α) :=
  match b.stateDev with
  | none => throw ⟨.runtimeError, "GPUBackend::get_state called before initialize()"⟩
  | some state => return ⟨b.dim, state⟩

end GPUBackend

/-! ### Kernels as operators -/

/-- A kernel with its arguments. -/
inductive Kernel
  | single (qubit : ℕ) (m : Matrix2x2 ℂ)
  | controlled (control target : ℕ) (m : Matrix2x2 ℂ)
  | swap (qubitA qubitB : ℕ)

/-- The kernel that executes a gate call. -/
noncomputable def GateCall.kernel : GateCall ℝ → Kernel
  | h q => .single q Gates.H
  | x q => .single q Gates.X
  | y q => .single q Gates.Y
  | z q => .single q Gates.Z
  | s q => .single q Gates.S
  | sdg q => .single q Gates.Sdg
  | t q => .single q Gates.T
  | tdg q => .single q Gates.Tdg
  | u q a b d => .single q (Gates.U a.offset b.offset d.offset)
  | rx q a => .single q (Gates.RX a.offset)
  | ry q a => .single q (Gates.RY a.offset)
  | rz q a => .single q (Gates.RZ a.offset)
  | cnot a b => .controlled a b Gates.X
  | cz a b => .controlled a b Gates.Z
  | swap a b => .swap a b
  | crx a b p => .controlled a b (Gates.RX p.offset)
  | cry a b p => .controlled a b (Gates.RY p.offset)
  | crz a b p => .controlled a b (Gates.RZ p.offset)

/-- The switch runs the kernel of the call. -/
theorem dispatchGate_op {σ : Type} (single : ℕ → Matrix2x2 ℂ → σ → Except Exn σ)
    (controlled : ℕ → ℕ → Matrix2x2 ℂ → σ → Except Exn σ) (swap : ℕ → ℕ → σ → Except Exn σ)
    (g : GateCall ℝ) (b : σ) :
    dispatchGate single controlled swap g.op b = match g.kernel with
      | .single q m => single q m b
      | .controlled c t m => controlled c t m b
      | .swap a d => swap a d b := by
  cases g <;> rfl

/-- A 2x2 matrix as an operator on one qubit. -/
def Matrix2x2.toOp (m : Matrix2x2 ℂ) : Op1 := of m.entry

/-- An operator of qubit `q`, if there is one. -/
def atQubit {n : ℕ} (q : ℕ) (f : Fin n → Op (Fin n)) : Op (Fin n) :=
  if h : q < n then f ⟨q, h⟩ else 1

@[simp] theorem atQubit_val {n : ℕ} (q : Fin n) (f : Fin n → Op (Fin n)) : atQubit (q : ℕ) f = f q :=
  dif_pos q.isLt

/-- The operator of a kernel on `n` qubits. -/
noncomputable def Kernel.operator (n : ℕ) : Kernel → Op (Fin n)
  | single q m => atQubit q fun q => onQubit q m.toOp
  | controlled c t m => atQubit c fun c => atQubit t fun t => Qubits.controlled c t m.toOp
  | swap a b => atQubit a fun a => atQubit b fun b => exchange a b

@[simp] theorem Kernel.operator_single {n : ℕ} (q : Fin n) (m : Matrix2x2 ℂ) :
    (single q m).operator n = onQubit q m.toOp := by
  rw [operator, atQubit_val]

@[simp] theorem Kernel.operator_controlled {n : ℕ} (c t : Fin n) (m : Matrix2x2 ℂ) :
    (controlled c t m).operator n = Qubits.controlled c t m.toOp := by
  rw [operator, atQubit_val, atQubit_val]

@[simp] theorem Kernel.operator_swap {n : ℕ} (a b : Fin n) : (swap a b).operator n = exchange a b := by
  rw [operator, atQubit_val, atQubit_val]

/-- The operator of a gate call on `n` qubits. -/
noncomputable def GateCall.operator (n : ℕ) (g : GateCall ℝ) : Op (Fin n) := g.kernel.operator n

/-- What a kernel leaves in cell `j`. -/
def Kernel.action : Kernel → (ℕ → ℂ) → ℕ → ℂ
  | single q m => matrixAction q m
  | controlled c t m => controlledAction c t m
  | swap a b => swapAction a b

/-- Qubits in range, and two different ones. -/
def Kernel.Fits (n : ℕ) : Kernel → Prop
  | single q _ => q < n
  | controlled c t _ => c < n ∧ t < n ∧ c ≠ t
  | swap a b => a < n ∧ b < n ∧ a ≠ b

theorem GateCall.Fits.kernel {n P : ℕ} {g : GateCall ℝ} (h : g.Fits n P) : g.kernel.Fits n := by
  obtain ⟨hq, hd, -⟩ := h
  cases g <;> simp_all [GateCall.kernel, Kernel.Fits, GateCall.qubits]

/-- The qubit of a call that fits, as a qubit of the register. -/
theorem GateCall.Fits.one {n P q : ℕ} {g : GateCall ℝ} (h : g.Fits n P) (hq : g.qubits = [q]) :
    ∃ i : Fin n, q = i :=
  ⟨⟨q, h.inRange q (by rw [hq]; exact List.mem_singleton_self q)⟩, rfl⟩

/-- The two qubits of a call that fits. -/
theorem GateCall.Fits.two {n P a b : ℕ} {g : GateCall ℝ} (h : g.Fits n P) (hq : g.qubits = [a, b]) :
    ∃ i j : Fin n, i ≠ j ∧ a = i ∧ b = j := by
  have hr := h.inRange
  have hd := h.distinct
  rw [hq] at hr hd
  refine ⟨⟨a, hr a (by simp)⟩, ⟨b, hr b (by simp)⟩, fun he => ?_, rfl, rfl⟩
  simp [Fin.mk.inj_iff.mp he] at hd

theorem view_matrixAction {n : ℕ} (t : Fin n) (m : Matrix2x2 ℂ) (old : ℕ → ℂ) :
    view n (matrixAction t m old) = onQubit t m.toOp *ᵥ view n old := by
  funext x
  rw [onQubit_mulVec, Fintype.sum_bool, add_comm]
  simp only [view, matrixAction, testBit_index, setBit_index]
  rfl

/-- **The action of a kernel is its operator.** -/
theorem Kernel.view_action {n : ℕ} {k : Kernel} (h : k.Fits n) (old : ℕ → ℂ) :
    view n (k.action old) = k.operator n *ᵥ view n old := by
  cases k with
  | single q m =>
    obtain ⟨q, rfl⟩ : ∃ i : Fin n, q = i := ⟨⟨q, h⟩, rfl⟩
    rw [Kernel.operator_single]
    exact view_matrixAction q m old
  | controlled c t m =>
    obtain ⟨hc, ht, -⟩ := h
    obtain ⟨c, rfl⟩ : ∃ i : Fin n, c = i := ⟨⟨c, hc⟩, rfl⟩
    obtain ⟨t, rfl⟩ : ∃ i : Fin n, t = i := ⟨⟨t, ht⟩, rfl⟩
    rw [Kernel.operator_controlled]
    funext x
    rw [controlled_mulVec, ← view_matrixAction]
    simp only [view, Kernel.action, controlledAction, testBit_index]
  | swap a b =>
    obtain ⟨ha, hb, -⟩ := h
    obtain ⟨a, rfl⟩ : ∃ i : Fin n, a = i := ⟨⟨a, ha⟩, rfl⟩
    obtain ⟨b, rfl⟩ : ∃ i : Fin n, b = i := ⟨⟨b, hb⟩, rfl⟩
    rw [Kernel.operator_swap]
    funext x
    rw [exchange_mulVec]
    simp only [view, Kernel.action, swapAction, swapBits_index]

end Qsycl
