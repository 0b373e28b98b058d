/-
# The batched evaluator

`native::expectation_batch` (`native_vqa.cpp`) compiles the ansatz into a
program of `DevOp`s, keeps one state vector for each row of the batch in one
flat array, launches every gate once for all rows and evaluates the Pauli
masks of each row with a population count.

Key theorems: `popcount64_eq`, `compileOp_op`, `runProgram_holds`,
`expectationBatch_agree`.
-/
import Qsycl.Evaluation

namespace Qsycl.Native

open WorkItems Words Qubits Matrix Real

/-! ### The compiled program -/

inductive Shape
  | Fixed | RX | RY | RZ | U3
  deriving DecidableEq, Repr

/-- A constant or an affine expression of one parameter; -1 is a constant. -/
structure AngleRef where
  index : ℤ
  scale : ℝ
  offset : ℝ

/-- A gate of the program: a matrix on `target`, controlled if `control` is not
negative, or a swap of `qa` and `qb`. -/
structure DevOp where
  isSwap : Bool
  target : ℤ
  control : ℤ
  qa : ℤ
  qb : ℤ
  shape : Shape
  m0 : ℂ
  m1 : ℂ
  m2 : ℂ
  m3 : ℂ
  a0 : AngleRef
  a1 : AngleRef
  a2 : AngleRef

noncomputable section

/-- A `DevOp` with its default member values. -/
def DevOp.new : DevOp :=
  ⟨false, -1, -1, -1, -1, .Fixed, 0, 0, 0, 0, ⟨-1, 1, 0⟩, ⟨-1, 1, 0⟩, ⟨-1, 1, 0⟩⟩

/-- The lambda `fixed` of `compile`. -/
def DevOp.fixed (d : DevOp) (m : Matrix2x2 ℂ) (ctrl : ℤ) : DevOp :=
  { d with shape := .Fixed, m0 := m.m00, m1 := m.m01, m2 := m.m10, m3 := m.m11, control := ctrl }

def toAngleRef (p : Param ℝ) : AngleRef := ⟨p.index, p.scale, p.offset⟩

def rotationAngle (op : GateOp ℝ) : Except Exn AngleRef := do
  if op.isParametric then return toAngleRef (← vecAt op.symbolic 0)
  else return ⟨-1, 0, ← vecAt op.params 0⟩

def uAngle (op : GateOp ℝ) (i : ℕ) : Except Exn AngleRef := do
  match op.symbolic[i]? with
  | some p => if p.isSymbolic then return toAngleRef p else return ⟨-1, 0, ← vecAt op.params i⟩
  | none => return ⟨-1, 0, ← vecAt op.params i⟩

/-- One round of the loop of `compile`; a MEASURE compiles to nothing. -/
def compileOp (op : GateOp ℝ) : Except Exn (Option DevOp) := do
  let d := DevOp.new
  match op.type with
  | .H => return some (DevOp.fixed { d with target := ← vecAt op.qubits 0 } Gates.H (-1))
  | .X => return some (DevOp.fixed { d with target := ← vecAt op.qubits 0 } Gates.X (-1))
  | .Y => return some (DevOp.fixed { d with target := ← vecAt op.qubits 0 } Gates.Y (-1))
  | .Z => return some (DevOp.fixed { d with target := ← vecAt op.qubits 0 } Gates.Z (-1))
  | .S =>
    return some (DevOp.fixed { d with target := ← vecAt op.qubits 0 }
      (if op.dagger then Gates.Sdg else Gates.S) (-1))
  | .T =>
    return some (DevOp.fixed { d with target := ← vecAt op.qubits 0 }
      (if op.dagger then Gates.Tdg else Gates.T) (-1))
  | .CNOT =>
    return some (DevOp.fixed { d with target := ← vecAt op.qubits 1 } Gates.X (← vecAt op.qubits 0))
  | .CZ =>
    return some (DevOp.fixed { d with target := ← vecAt op.qubits 1 } Gates.Z (← vecAt op.qubits 0))
  | .RX => return some { d with target := ← vecAt op.qubits 0, shape := .RX, a0 := ← rotationAngle op }
  | .RY => return some { d with target := ← vecAt op.qubits 0, shape := .RY, a0 := ← rotationAngle op }
  | .RZ => return some { d with target := ← vecAt op.qubits 0, shape := .RZ, a0 := ← rotationAngle op }
  | .U =>
    return some { d with
      target := ← vecAt op.qubits 0, shape := .U3
      a0 := ← uAngle op 0, a1 := ← uAngle op 1, a2 := ← uAngle op 2 }
  | .CRX =>
    return some { d with
      target := ← vecAt op.qubits 1, control := ← vecAt op.qubits 0, shape := .RX
      a0 := ← rotationAngle op }
  | .CRY =>
    return some { d with
      target := ← vecAt op.qubits 1, control := ← vecAt op.qubits 0, shape := .RY
      a0 := ← rotationAngle op }
  | .CRZ =>
    return some { d with
      target := ← vecAt op.qubits 1, control := ← vecAt op.qubits 0, shape := .RZ
      a0 := ← rotationAngle op }
  | .SWAP =>
    return some { d with isSwap := true, qa := ← vecAt op.qubits 0, qb := ← vecAt op.qubits 1 }
  | .MEASURE => return none

def compile (ansatz : Circuit ℝ) : Except Exn (List DevOp) := do
  return (← ansatz.ops.mapM compileOp).reduceOption

/-! ### The kernels -/

/-- What the kernels read: the batch as copied to the device. -/
structure DeviceBatch where
  dim : ℕ
  numParams : ℕ
  theta : ℕ → ℝ
  shiftOp : ℕ → ℤ
  shift : ℕ → ℝ

def evalAngle (a : AngleRef) (th : ℕ → ℝ) (row P : ℕ) : ℝ :=
  if 0 ≤ a.index then a.scale * th (row * P + a.index.toNat) + a.offset else a.offset

/-- The matrix of gate `opIndex` in row `b`. -/
def rowMatrix (d : DevOp) (dev : DeviceBatch) (opIndex : ℤ) (b : ℕ) : Matrix2x2 ℂ :=
  if d.shape = .Fixed then ![d.m0, d.m1, d.m2, d.m3]
  else
    let v0 := evalAngle d.a0 dev.theta b dev.numParams
    let v0 := if dev.shiftOp b = opIndex then v0 + dev.shift b else v0
    let c := cos (Gates.half v0)
    let s := sin (Gates.half v0)
    match d.shape with
    | .RX => ![⟨c, 0⟩, ⟨0, -s⟩, ⟨0, -s⟩, ⟨c, 0⟩]
    | .RY => ![⟨c, 0⟩, ⟨-s, 0⟩, ⟨s, 0⟩, ⟨c, 0⟩]
    | .RZ => ![⟨c, -s⟩, ⟨0, 0⟩, ⟨0, 0⟩, ⟨c, s⟩]
    | _ =>
      let v1 := evalAngle d.a1 dev.theta b dev.numParams
      let v2 := evalAngle d.a2 dev.theta b dev.numParams
      let ephi : ℂ := ⟨cos v1, sin v1⟩
      let elam : ℂ := ⟨cos v2, sin v2⟩
      let esum : ℂ := ⟨cos (v1 + v2), sin (v1 + v2)⟩
      ![⟨c, 0⟩, ⟨-s, 0⟩ * elam, ⟨s, 0⟩ * ephi, ⟨c, 0⟩ * esum]

/-- A work-item of the matrix kernel, in row `b`. -/
def matrixItem (d : DevOp) (dev : DeviceBatch) (opIndex : ℤ) (b k2 : ℕ) : Access ℕ ℂ :=
  let maskT := 1 <<< d.target.toNat
  let maskC := if 0 ≤ d.control then 1 <<< d.control.toNat else 0
  let low := k2 &&& (maskT - 1)
  let high := Nat.ldiff k2 (maskT - 1)
  let i0 := (high <<< 1) ||| low
  let i1 := i0 ||| maskT
  if 0 ≤ d.control ∧ i0 &&& maskC = 0 then .done
  else
    let m := rowMatrix d dev opIndex b
    Access.atOffset (b * dev.dim) <|
      .load i0 fun a0v =>
      .load i1 fun a1v =>
      .store i0 (m.m00 * a0v + m.m01 * a1v) <|
      .store i1 (m.m10 * a0v + m.m11 * a1v) .done

def swapRowItem (d : DevOp) (dev : DeviceBatch) (b i : ℕ) : Access ℕ ℂ :=
  let maskA := 1 <<< d.qa.toNat
  let maskB := 1 <<< d.qb.toNat
  if i &&& maskA = 0 ∧ i &&& maskB ≠ 0 then
    let j := Nat.ldiff (i ||| maskA) maskB
    Access.atOffset (b * dev.dim) <|
      .load i fun tmp =>
      .load j fun v =>
      .store i v <|
      .store j tmp .done
  else .done

/-- `parallel_for` over a range of two dimensions. -/
def launch2 (eq : Queue) (rows cols : ℕ) (item : ℕ → ℕ → Access ℕ ℂ) (m : ℕ → ℂ) : ℕ → ℂ :=
  eq.launch (rows * cols) (fun id => item (id / cols) (id % cols)) m

/-- The gates from index `k` on, for all rows. -/
def runProgram (rows : ℕ) (dev : DeviceBatch) : Queue → ℕ → List DevOp → (ℕ → ℂ) → ℕ → ℂ
  | _, _, [], state => state
  | eq, k, d :: prog, state =>
    runProgram rows dev eq.next (k + 1) prog <|
      if d.isSwap then launch2 eq rows dev.dim (swapRowItem d dev) state
      else launch2 eq rows (dev.dim / 2) (matrixItem d dev (castInt k)) state

/-- Counts the set bits of a 64-bit word; only the product can leave the word. -/
def popcount64 (v : ℕ) : ℕ :=
  let v := v - ((v >>> 1) &&& 0x5555555555555555)
  let v := (v &&& 0x3333333333333333) + ((v >>> 2) &&& 0x3333333333333333)
  let v := (v + (v >>> 4)) &&& 0x0f0f0f0f0f0f0f0f
  (v * 0x0101010101010101 % 2 ^ 64) >>> 56

/-- The loop over the basis states for one mask. -/
def rowSums (dim : ℕ) (row : ℕ → ℂ) (term : PauliMask ℝ) : ℝ × ℝ :=
  (List.range dim).foldl (fun (re, im) j =>
    let neg := popcount64 (j &&& term.z) &&& 1 ≠ 0
    let conjPsiX : ℂ := ⟨(row (j ^^^ term.x)).re, -(row (j ^^^ term.x)).im⟩
    let prod := conjPsiX * row j
    (re + (if neg then -prod.re else prod.re), im + (if neg then -prod.im else prod.im))) (0, 0)

def rowEnergy (masks : List (PauliMask ℝ)) (dim : ℕ) (row : ℕ → ℂ) : ℝ :=
  masks.foldl (fun total term => total + term.coeff * (timesIPow term.ny (rowSums dim row term)).1) 0

/-- The device as the function finds it: whether its allocations succeed, the
order of the launches, and what fresh memory holds. -/
structure Device where
  allocated : Bool
  queue : Queue
  state : ℕ → ℂ
  energy : ℕ → ℝ

/-- The launches of `expectation_batch` on `B` rows: fill, gates, energies. -/
def runBatch (q : Device) (B : ℕ) (dev : DeviceBatch) (prog : List DevOp)
    (masks : List (PauliMask ℝ)) : List ℝ :=
  let state := q.queue.launch (B * dev.dim) (fun idx => .store idx 0 .done) q.state
  let state := q.queue.next.launch B (fun b => .store (b * dev.dim) 1 .done) state
  let state := runProgram B dev q.queue.next.next 0 prog state
  -- the queue after the launches of `prog`
  let eq : Queue := fun k => q.queue (k + 2 + prog.length)
  let energy := eq.launch B
    (fun b => .store b (rowEnergy masks dev.dim fun j => state (b * dev.dim + j)) .done) q.energy
  (List.range B).map energy

def expectationBatch (q : Device) (ansatz : Circuit ℝ) (obs : Observable ℝ) (batch : EvalBatch ℝ) :
    Except Exn (List ℝ) := do
  if obs.numQubits ≠ ansatz.numQubits then
    throw ⟨.invalidArgument, "native::expectation_batch: observable/ansatz qubit mismatch"⟩
  if batch.count ≠ 0 ∧ batch.numParams ≠ ansatz.numParams then
    throw ⟨.invalidArgument, "native::expectation_batch: batch parameter count mismatch"⟩
  let B := batch.count
  if B = 0 then return []
  let prog ← compile ansatz
  if !q.allocated then
    throw ⟨.runtimeError, "native::expectation_batch: sycl::malloc_device failed (out of device memory?)"⟩
  let sop ← (List.range B).mapM batch.opOf
  let sval ← (List.range B).mapM batch.deltaOf
  let dev : DeviceBatch :=
    ⟨1 <<< ansatz.numQubits, batch.numParams, (batch.thetas.getD · 0), (sop.getD · (-1)), (sval.getD · 0)⟩
  return runBatch q B dev prog obs.masks

end

end Qsycl.Native
