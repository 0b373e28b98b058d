/-
# The dispatcher of remote backends

`QPUBackend` (`qpu_backend.cpp`) buffers the gates of a circuit and submits
them as a whole when `sample` is called. Without a device it passes every call
on to a local fallback; when a submission throws, it asks the subclass whether
the device is gone, and then replays the buffer on the fallback.

What a subclass adds is a `Device`: `submit_circuit` and `recheck_device` on a
state of its own, the latter with `device_available_` beside it. What `sample`
returns is of any type `ρ`, the list of the outcomes in the code.
-/
import Qsycl.Evaluation
import Qsycl.Lib.Runs

namespace Qsycl

open Runs

/-- The methods of a local backend that the dispatcher calls. -/
structure Simulator (φ ρ : Type) where
  initializeState : ℕ → Run Exn φ Unit
  applyGate : GateOp ℝ → Run Exn φ Unit
  sample : List ℕ → ℕ → Run Exn φ ρ

namespace Simulator

inductive Call
  | initializeState (numQubits : ℕ)
  | applyGate (op : GateOp ℝ)
  | sample (qubits : List ℕ) (shots : ℕ)

variable {φ ρ : Type} (B : Simulator φ ρ)

/-- The state after a call, which may throw: the object stays in use. -/
def after (s : φ) : Call → φ
  | .initializeState numQubits => (exec (B.initializeState numQubits) s).2
  | .applyGate op => (exec (B.applyGate op) s).2
  | .sample qubits shots => (exec (B.sample qubits shots) s).2

def afterCalls (s : φ) (calls : List Call) : φ := calls.foldl B.after s

end Simulator

/-- What a subclass overrides. `submitCircuit` gets the qubit count, the buffered
gates, the measured qubits and the shots; `recheckDevice` may change
`device_available_`, and may throw when it has. -/
structure Device (δ ρ : Type) where
  submitCircuit : ℕ → List (GateOp ℝ) → List ℕ → ℕ → Run Exn δ ρ
  recheckDevice : Run Exn (δ × Bool) Unit

/-- The members of the dispatcher, with the state of the subclass and that of the
fallback. -/
structure QPUBackend (δ φ : Type) where
  deviceAvailable : Bool
  numQubits : ℕ
  gateBuffer : List (GateOp ℝ)
  device : δ
  fallback : φ

namespace QPUBackend

variable {δ φ ρ α : Type}

def onDevice (x : Run Exn δ α) : Run Exn (QPUBackend δ φ) α :=
  zoom QPUBackend.device (fun d s => { s with device := d }) x

/-- A method of the subclass that sees `device_available_`. -/
def onFlag (x : Run Exn (δ × Bool) α) : Run Exn (QPUBackend δ φ) α :=
  zoom (fun s => (s.device, s.deviceAvailable)) (fun d s => { s with device := d.1, deviceAvailable := d.2 }) x

def onFallback (x : Run Exn φ α) : Run Exn (QPUBackend δ φ) α :=
  zoom QPUBackend.fallback (fun f s => { s with fallback := f }) x

variable (D : Device δ ρ) (F : Simulator φ ρ)

def initializeState (numQubits : ℕ) : Run Exn (QPUBackend δ φ) Unit := do
  modify fun s => { s with numQubits := numQubits, gateBuffer := [] }
  let s ← get
  if s.deviceAvailable then pure () else onFallback (F.initializeState numQubits)

def applyGate (op : GateOp ℝ) : Run Exn (QPUBackend δ φ) Unit := do
  let s ← get
  if s.deviceAvailable then
    modify fun s => { s with gateBuffer := s.gateBuffer ++ [op] } -- buffered, not executed
  else onFallback (F.applyGate op)

def replay (qubits : List ℕ) (shots : ℕ) : Run Exn (QPUBackend δ φ) ρ := do
  let s ← get
  onFallback (F.initializeState s.numQubits)
  s.gateBuffer.forM fun op => onFallback (F.applyGate op)
  onFallback (F.sample qubits shots)

def handleFailure (qubits : List ℕ) (shots : ℕ) (e : Exn) : Run Exn (QPUBackend δ φ) ρ := do
  onFlag D.recheckDevice
  let s ← get
  if s.deviceAvailable then throw e -- device still considered available
  else replay F qubits shots

def sample (qubits : List ℕ) (shots : ℕ) : Run Exn (QPUBackend δ φ) ρ := do
  let s ← get
  if s.deviceAvailable then
    let measured := if qubits.isEmpty then List.range s.numQubits else qubits
    tryCatch (onDevice (D.submitCircuit s.numQubits s.gateBuffer measured shots))
      (handleFailure D F qubits shots)
  else onFallback (F.sample qubits shots)

/-- The dispatcher is a backend itself. -/
def simulator : Simulator (QPUBackend δ φ) ρ := ⟨initializeState F, applyGate F, sample D F⟩

/-! ### What `sample` does -/

section Exec

variable {D F} {s : QPUBackend δ φ} {qubits : List ℕ} {shots : ℕ}

def submission (D : Device δ ρ) (s : QPUBackend δ φ) (qubits : List ℕ) (shots : ℕ) : Run Exn δ ρ :=
  D.submitCircuit s.numQubits s.gateBuffer (if qubits.isEmpty then List.range s.numQubits else qubits) shots

theorem exec_sample_unavailable (h : s.deviceAvailable = false) :
    exec (sample D F qubits shots) s = exec (onFallback (F.sample qubits shots)) s := by
  unfold sample
  rw [exec_get_bind]
  simp only [h, Bool.false_eq_true, if_false]

theorem exec_sample_ok (h : s.deviceAvailable = true) {a : ρ} {d : δ}
    (hr : exec (submission D s qubits shots) s.device = (.ok a, d)) :
    exec (sample D F qubits shots) s = (.ok a, { s with device := d }) := by
  unfold submission at hr
  unfold sample
  rw [exec_get_bind]
  rw [if_pos h, exec_tryCatch, onDevice, exec_zoom, hr]

theorem exec_sample_error (h : s.deviceAvailable = true) {e : Exn} {d : δ}
    (hr : exec (submission D s qubits shots) s.device = (.error e, d)) :
    exec (sample D F qubits shots) s = exec (handleFailure D F qubits shots e) { s with device := d } := by
  unfold submission at hr
  unfold sample
  rw [exec_get_bind]
  rw [if_pos h, exec_tryCatch, onDevice, exec_zoom, hr]

theorem exec_handleFailure (e : Exn) : exec (handleFailure D F qubits shots e) s =
    match exec D.recheckDevice (s.device, s.deviceAvailable) with
    | (.ok _, d, true) => (.error e, { s with deviceAvailable := true, device := d })
    | (.ok _, d, false) => exec (replay F qubits shots) { s with deviceAvailable := false, device := d }
    | (.error e', d, available) => (.error e', { s with deviceAvailable := available, device := d }) := by
  unfold handleFailure
  rw [exec_bind, onFlag, exec_zoom]
  rcases exec D.recheckDevice (s.device, s.deviceAvailable) with ⟨e' | u, d, available⟩
  · rfl
  · cases available <;> rfl

@[simp] theorem device_onFallback (x : Run Exn φ α) : (exec (onFallback x) s).2.device = s.device := rfl

/-- Only `sample` turns to the device. -/
theorem device_initializeState (numQubits : ℕ) : (exec (initializeState F numQubits) s).2.device = s.device := by
  unfold initializeState
  rw [exec_modify_bind]
  rw [exec_get_bind]
  split <;> rfl

theorem device_applyGate (op : GateOp ℝ) : (exec (applyGate F op) s).2.device = s.device := by
  unfold applyGate
  rw [exec_get_bind]
  split <;> rfl

end Exec

end QPUBackend

end Qsycl
