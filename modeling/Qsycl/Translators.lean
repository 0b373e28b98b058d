/-
# Translation to remote devices

`to_qasm2` prints a circuit as OpenQASM, `CUNQABackend` sends it as a list of
JSON instructions. Both find the gate from its label and write a controlled
rotation as a sequence of rotations and controlled nots. On the calls of a
circuit the two emit the same gates (`toQasm2Gate_op`, `cunqaGate_op`), and on
every dialect the gates of a circuit multiply to its operator, up to one
scalar (`translation_correct`).
-/
import Qsycl.GateIdentities

namespace Qsycl

open Qubits Matrix

/-- `std::tolower` of every character. -/
def lower (s : String) : String := String.ofList (s.toList.map Char.toLower)

def oneOf (s : String) (options : List String) : Bool := options.any (s == ·)

/-- A gate by its name, as a remote device reads it. -/
structure NamedGate (R : Type) where
  name : String
  angles : List R
  qubits : List ℕ
  deriving DecidableEq, Repr

/-! ### OpenQASM -/

/-- A statement of a program. -/
inductive Qasm (R : Type)
  | openqasm (version : String)
  | includeFile (file : String)
  | qreg (size : ℕ)
  | creg (size : ℕ)
  | gate (g : NamedGate R)
  | measure (qubit clbit : ℕ)
  deriving DecidableEq, Repr

/-- A statement as it is printed; `digits` prints an angle. -/
def Qasm.text {R : Type} (digits : R → String) : Qasm R → String
  | openqasm version => "OPENQASM " ++ version ++ ";\n"
  | includeFile file => "include \"" ++ file ++ "\";\n"
  | qreg size => "qreg q[" ++ toString size ++ "];\n"
  | creg size => "creg c[" ++ toString size ++ "];\n"
  | gate g =>
    g.name ++ (if g.angles.isEmpty then "" else "(" ++ ",".intercalate (g.angles.map digits) ++ ")") ++
      " " ++ ",".intercalate (g.qubits.map fun q => "q[" ++ toString q ++ "]") ++ ";\n"
  | measure qubit clbit => "measure q[" ++ toString qubit ++ "] -> c[" ++ toString clbit ++ "];\n"

section Translators

variable {R : Type} [Neg R] [Div R] [OfNat R 2]

/-- The statements for one operation. -/
def toQasm2Gate (op : GateOp R) : Except Exn (List (NamedGate R)) := do
  let label := lower op.label
  let qasmName := if label == "p" then "u1" else label
  if oneOf label ["id", "x", "y", "z", "h", "s", "sdg", "sx", "sxdg", "t", "tdg"] then
    if op.qubits.isEmpty then
      throw ⟨.runtimeError, "to_qasm2: gate '" ++ op.label ++ "' has no target qubit"⟩
    return [⟨qasmName, [], [← vecAt op.qubits 0]⟩]
  else if oneOf label ["cx", "cy", "cz", "swap", "ch"] then
    if op.qubits.length < 2 then
      throw ⟨.runtimeError, "to_qasm2: gate '" ++ op.label ++ "' needs two qubits"⟩
    return [⟨qasmName, [], [← vecAt op.qubits 0, ← vecAt op.qubits 1]⟩]
  else if oneOf label ["rx", "ry", "rz", "p", "u1"] then
    if op.qubits.isEmpty || op.params.isEmpty then
      throw ⟨.runtimeError, "to_qasm2: gate '" ++ op.label ++ "' needs a qubit and a parameter"⟩
    return [⟨qasmName, [← vecAt op.params 0], [← vecAt op.qubits 0]⟩]
  else if oneOf label ["crx", "cry", "crz"] then
    if decide (op.qubits.length < 2) || op.params.isEmpty then
      throw ⟨.runtimeError, "to_qasm2: gate '" ++ op.label ++ "' needs two qubits and a parameter"⟩
    let control ← vecAt op.qubits 0
    let target ← vecAt op.qubits 1
    let theta ← vecAt op.params 0
    if label == "crz" then
      return [⟨"rz", [theta / 2], [target]⟩, ⟨"cx", [], [control, target]⟩,
        ⟨"rz", [-theta / 2], [target]⟩, ⟨"cx", [], [control, target]⟩]
    else if label == "cry" then
      return [⟨"ry", [theta / 2], [target]⟩, ⟨"cx", [], [control, target]⟩,
        ⟨"ry", [-theta / 2], [target]⟩, ⟨"cx", [], [control, target]⟩]
    else
      return [⟨"h", [], [target]⟩, ⟨"rz", [theta / 2], [target]⟩, ⟨"cx", [], [control, target]⟩,
        ⟨"rz", [-theta / 2], [target]⟩, ⟨"cx", [], [control, target]⟩, ⟨"h", [], [target]⟩]
  else
    throw ⟨.runtimeError, "to_qasm2: gate '" ++ op.label ++
      "' has no known OpenQASM 2.0 translation -- extend to_qasm2()"⟩

/-- The program that `to_qasm2` prints. -/
def qasmProgram (numQubits : ℕ) (gates : List (GateOp R)) (measuredQubits : List ℕ) :
    Except Exn (List (Qasm R)) := do
  let statements ← gates.mapM toQasm2Gate
  return [.openqasm "3.0", .includeFile "qelib1.inc", .qreg numQubits, .creg measuredQubits.length] ++
    statements.flatten.map .gate ++ measuredQubits.zipIdx.map fun m => .measure m.1 m.2

def toQasm2 (digits : R → String) (numQubits : ℕ) (gates : List (GateOp R))
    (measuredQubits : List ℕ) : Except Exn String := do
  return "".intercalate ((← qasmProgram numQubits gates measuredQubits).map (Qasm.text digits))

/-! ### CUNQA -/

/-- An instruction of a task; a key that is not set is `none`. -/
structure Instruction (R : Type) where
  name : String
  qubits : List ℕ
  params : Option (List R)
  clbits : Option (List ℕ)
  deriving DecidableEq, Repr

def gateToInstruction {R : Type} (op : GateOp R) : Except Exn (Instruction R) :=
  let label := lower op.label
  if oneOf label ["id", "x", "y", "z", "h", "s", "sdg", "sx", "sxdg", "t", "tdg"] then
    return ⟨label, op.qubits, none, none⟩
  else if oneOf label ["cx", "cy", "cz", "swap", "ch"] then
    return ⟨label, op.qubits, none, none⟩
  else if oneOf label ["rx", "ry", "rz", "p", "u1"] then
    return ⟨label, op.qubits, some op.params, none⟩
  else
    throw ⟨.runtimeError, "CUNQABackend: gate '" ++ op.label ++
      "' has no known cunqa translation -- extend gate_to_instruction()"⟩

def deconstructGate (op : GateOp R) : Except Exn (List (GateOp R)) := do
  let label := lower op.label
  if label != "crx" && label != "cry" && label != "crz" then return [op]
  if op.qubits.length ≠ 2 then
    throw ⟨.runtimeError, "Malformed " ++ label ++ ": expected 2 qubits"⟩
  if op.params.length ≠ 1 then
    throw ⟨.runtimeError, "Malformed " ++ label ++ ": expected 1 parameter"⟩
  let control ← vecAt op.qubits 0
  let target ← vecAt op.qubits 1
  let theta ← vecAt op.params 0
  let cnot : GateOp R := ⟨.CNOT, [control, target], [], "cx", false, []⟩
  if label == "crz" then
    return [⟨.RZ, [target], [theta / 2], "rz", false, []⟩, cnot,
      ⟨.RZ, [target], [-theta / 2], "rz", false, []⟩, cnot]
  if label == "cry" then
    return [⟨.RY, [target], [theta / 2], "ry", false, []⟩, cnot,
      ⟨.RY, [target], [-theta / 2], "ry", false, []⟩, cnot]
  return [⟨.H, [target], [], "h", false, []⟩, ⟨.RZ, [target], [theta / 2], "rz", false, []⟩, cnot,
    ⟨.RZ, [target], [-theta / 2], "rz", false, []⟩, cnot, ⟨.H, [target], [], "h", false, []⟩]

/-- The qubits that a task reads out. -/
def cunqaMeasured (numQubits : ℕ) (qubits : List ℕ) : List ℕ :=
  if qubits.isEmpty then List.range numQubits else qubits

/-- The `instructions` of the task that `run_on_cunqa` sends. -/
def cunqaInstructions (numQubits : ℕ) (gateBuffer : List (GateOp R)) (qubits : List ℕ) :
    Except Exn (List (Instruction R)) := do
  let instructions ← gateBuffer.mapM fun op => do (← deconstructGate op).mapM gateToInstruction
  return instructions.flatten ++ (cunqaMeasured numQubits qubits).zipIdx.map fun m =>
    ⟨"measure", [m.1], none, some [m.2]⟩

/-! ### The gates of a call -/

/-- The label of a call in lower case. -/
def GateCall.name {R : Type} : GateCall R → String
  | h _ => "h" | x _ => "x" | y _ => "y" | z _ => "z"
  | s _ => "s" | sdg _ => "sdg" | t _ => "t" | tdg _ => "tdg"
  | u _ _ _ _ => "u" | rx _ _ => "rx" | ry _ _ => "ry" | rz _ _ => "rz"
  | cnot _ _ => "cx" | cz _ _ => "cz" | swap _ _ => "swap"
  | crx _ _ _ => "crx" | cry _ _ _ => "cry" | crz _ _ _ => "crz"

/-- A controlled rotation about an axis that X turns around. -/
def sandwich (axis : String) (control target : ℕ) (theta : R) : List (NamedGate R) :=
  [⟨axis, [theta / 2], [target]⟩, ⟨"cx", [], [control, target]⟩,
    ⟨axis, [-theta / 2], [target]⟩, ⟨"cx", [], [control, target]⟩]

/-- The name of a gate that needs no decomposition; there is none for `u`. -/
def remotePlain : GateCall R → Option (NamedGate R)
  | .u _ _ _ _ => none
  | g => some ⟨g.name, g.args.map (·.offset), g.qubits⟩

/-- What both translators write for a call. -/
def remoteGates : GateCall R → Option (List (NamedGate R))
  | .crx a b p => some (⟨"h", [], [b]⟩ :: sandwich "rz" a b p.offset ++ [⟨"h", [], [b]⟩])
  | .cry a b p => some (sandwich "ry" a b p.offset)
  | .crz a b p => some (sandwich "rz" a b p.offset)
  | g => do return [← remotePlain g]

/-- The gates of a circuit, unless one has no name. -/
def remoteCircuit : List (GateCall R) → Option (List (NamedGate R))
  | [] => some []
  | g :: calls => do return (← remoteGates g) ++ (← remoteCircuit calls)

/-- The instruction for a gate. -/
def NamedGate.instruction {R : Type} (g : NamedGate R) : Instruction R :=
  ⟨g.name, g.qubits, if g.angles.isEmpty then none else some g.angles, none⟩

theorem lower_label {R : Type} (g : GateCall R) : lower g.op.label = g.name := by
  cases g <;> simp only [GateCall.op, GateCall.kind, GateCall.name] <;> decide

/-- The labels that the CUNQA decomposition writes are in lower case. -/
theorem lower_name : lower "h" = "h" ∧ lower "ry" = "ry" ∧ lower "rz" = "rz" ∧ lower "cx" = "cx" := by
  decide

theorem toQasm2Gate_op (g : GateCall R) : toQasm2Gate g.op = (remoteGates g).elim
    (.error ⟨.runtimeError, "to_qasm2: gate 'U' has no known OpenQASM 2.0 translation -- extend to_qasm2()"⟩)
    .ok := by
  unfold toQasm2Gate
  rw [lower_label]
  cases g <;> simp [GateCall.name, oneOf, remoteGates, remotePlain, sandwich, GateCall.op,
    GateCall.qubits, GateCall.args, GateCall.kind]
  rfl

omit [Neg R] [Div R] [OfNat R 2] in
/-- A call that is no controlled rotation is one instruction. -/
theorem gateToInstruction_op (g : GateCall R) (h : g.kind.1 ∉ [.CRX, .CRY, .CRZ]) :
    gateToInstruction g.op = (remotePlain g).elim
      (.error ⟨.runtimeError, "CUNQABackend: gate 'U' has no known cunqa translation -- extend gate_to_instruction()"⟩)
      fun g => .ok g.instruction := by
  unfold gateToInstruction
  rw [lower_label]
  cases g <;> first | rfl | simp [GateCall.kind] at h

theorem deconstructGate_op (g : GateCall R) (h : g.kind.1 ∉ [.CRX, .CRY, .CRZ]) :
    deconstructGate g.op = .ok [g.op] := by
  unfold deconstructGate
  rw [lower_label]
  cases g <;> first | rfl | simp [GateCall.kind] at h

theorem cunqaGate_op (g : GateCall R) :
    (do (← deconstructGate g.op).mapM gateToInstruction) = (remoteGates g).elim
      (.error ⟨.runtimeError, "CUNQABackend: gate 'U' has no known cunqa translation -- extend gate_to_instruction()"⟩)
      fun gates => .ok (gates.map NamedGate.instruction) := by
  by_cases h : g.kind.1 ∉ [.CRX, .CRY, .CRZ]
  · rw [deconstructGate_op g h, ok_bind, List.mapM_cons, gateToInstruction_op g h]
    cases g <;> first | rfl | simp [GateCall.kind] at h
  · unfold deconstructGate
    rw [lower_label]
    cases g
    case crx | cry | crz =>
      simp [GateCall.name, remoteGates, GateCall.op, GateCall.qubits, GateCall.args, GateCall.kind,
        gateToInstruction, lower_name, oneOf, sandwich, NamedGate.instruction]
      rfl
    all_goals simp [GateCall.kind] at h

/-- A loop over the operations that translates each call to `remoteGates`
translates a circuit to `remoteCircuit`. -/
theorem mapM_remoteGates {β : Type} {f : GateOp R → Except Exn (List β)} {k : NamedGate R → β} {e : Exn}
    (hf : ∀ g, f g.op = (remoteGates g).elim (.error e) fun gates => .ok (gates.map k)) :
    ∀ {calls : List (GateCall R)} {lists : List (List β)},
      (calls.map GateCall.op).mapM f = .ok lists →
      ∃ gates, remoteCircuit calls = some gates ∧ lists.flatten = gates.map k
  | [], lists, h => by
    obtain rfl := Except.ok.inj h
    exact ⟨[], rfl, rfl⟩
  | g :: calls, lists, h => by
    rw [List.map_cons, List.mapM_cons, hf] at h
    obtain ⟨l, hl, h⟩ := bind_eq_ok.mp h
    obtain ⟨rest, hrest, h⟩ := bind_eq_ok.mp h
    obtain rfl := Except.ok.inj h
    obtain ⟨gates, hgates, hflat⟩ := mapM_remoteGates hf hrest
    cases hg : remoteGates g with
    | none =>
      rw [hg] at hl
      cases hl
    | some gs =>
      rw [hg] at hl
      obtain rfl := Except.ok.inj hl
      refine ⟨gs ++ gates, ?_, ?_⟩
      · rw [remoteCircuit, hg, hgates]
        rfl
      · rw [List.flatten_cons, hflat, List.map_append]

theorem qasmProgram_ok {calls : List (GateCall R)} {n : ℕ} {measured : List ℕ} {program : List (Qasm R)}
    (h : qasmProgram n (calls.map GateCall.op) measured = .ok program) :
    ∃ gates, remoteCircuit calls = some gates ∧
      program = [.openqasm "3.0", .includeFile "qelib1.inc", .qreg n, .creg measured.length] ++
        gates.map .gate ++ measured.zipIdx.map fun m => .measure m.1 m.2 := by
  obtain ⟨statements, hs, h⟩ := bind_eq_ok.mp h
  obtain rfl := Except.ok.inj h
  obtain ⟨gates, hg, hflat⟩ := mapM_remoteGates (k := id)
    (fun g => (toQasm2Gate_op g).trans (by simp only [List.map_id]; rfl)) hs
  exact ⟨gates, hg, by rw [hflat, List.map_id]⟩

theorem cunqaInstructions_ok {calls : List (GateCall R)} {n : ℕ} {qubits : List ℕ}
    {instructions : List (Instruction R)}
    (h : cunqaInstructions n (calls.map GateCall.op) qubits = .ok instructions) :
    ∃ gates, remoteCircuit calls = some gates ∧
      instructions = gates.map NamedGate.instruction ++
        (cunqaMeasured n qubits).zipIdx.map fun m => ⟨"measure", [m.1], none, some [m.2]⟩ := by
  obtain ⟨lists, hs, h⟩ := bind_eq_ok.mp h
  obtain rfl := Except.ok.inj h
  obtain ⟨gates, hg, hflat⟩ := mapM_remoteGates cunqaGate_op hs
  exact ⟨gates, hg, by rw [hflat]⟩

end Translators

/-! ### What the gates mean -/

section Meaning

open Gates (half)

/-- `u1`, the change of phase by `phi`. -/
noncomputable def phaseGate (phi : ℝ) : Op1 := mat2 1 0 0 (Complex.exp (phi * Complex.I))

noncomputable def hadamard : Op1 := ((√(half 1) : ℝ) : ℂ) • mat2 1 1 1 (-1)

/-- The standard gates on one qubit. A rotation is `exp (-i theta / 2 P)`
(`rotationAbout_eq_exp`), `sx` the square root of `x`. -/
noncomputable def oneQubitGate : String → List ℝ → Option Op1
  | "id", [] => some 1
  | "x", [] => some Pauli.X.op
  | "y", [] => some Pauli.Y.op
  | "z", [] => some Pauli.Z.op
  | "h", [] => some hadamard
  | "s", [] => some (phaseGate (half Real.pi))
  | "sdg", [] => some (phaseGate (-half Real.pi))
  | "t", [] => some (phaseGate (half (half Real.pi)))
  | "tdg", [] => some (phaseGate (-half (half Real.pi)))
  | "sx", [] => some (hadamard * phaseGate (half Real.pi) * hadamard)
  | "sxdg", [] => some (hadamard * phaseGate (-half Real.pi) * hadamard)
  | "rx", [theta] => some (rotationAbout Pauli.X.op (half theta))
  | "ry", [theta] => some (rotationAbout Pauli.Y.op (half theta))
  | "rz", [theta] => some (rotationAbout Pauli.Z.op (half theta))
  | "p", [lambda] => some (phaseGate lambda)
  | "u1", [lambda] => some (phaseGate lambda)
  | _, _ => none

/-- The standard gates on two qubits, the control first. -/
noncomputable def twoQubitGate {n : ℕ} (a b : Fin n) : String → List ℝ → Option (Op (Fin n))
  | "cx", [] => some (controlled a b Pauli.X.op)
  | "cy", [] => some (controlled a b Pauli.Y.op)
  | "cz", [] => some (controlled a b Pauli.Z.op)
  | "ch", [] => some (controlled a b hadamard)
  | "swap", [] => some (exchange a b)
  | _, _ => none

/-- Qubit `q` of a register of `n`. -/
def qubitOf (n q : ℕ) : Option (Fin n) := if h : q < n then some ⟨q, h⟩ else none

@[simp] theorem qubitOf_val {n : ℕ} (q : Fin n) : qubitOf n (q : ℕ) = some q := dif_pos q.isLt

/-- The operator of a gate on `n` qubits, if it is a standard gate on
different qubits of the register. -/
noncomputable def NamedGate.operator (n : ℕ) (g : NamedGate ℝ) : Option (Op (Fin n)) :=
  match g.qubits with
  | [q] => do return onQubit (← qubitOf n q) (← oneQubitGate g.name g.angles)
  | [a, b] => do
    let a ← qubitOf n a
    let b ← qubitOf n b
    if a = b then none else twoQubitGate a b g.name g.angles
  | _ => none

/-- A dialect may define a gate up to a scalar of absolute value 1, as
`qelib1.inc` does for `rz`. -/
structure Dialect where
  phase : NamedGate ℝ → ℂ
  norm_phase : ∀ g, ‖phase g‖ = 1

/-- The operator of a sequence of gates, the first one applied first. -/
noncomputable def Dialect.operator (d : Dialect) (n : ℕ) : List (NamedGate ℝ) → Option (Op (Fin n))
  | [] => some 1
  | g :: gates => do return (← d.operator n gates) * d.phase g • (← g.operator n)

/-! ### The translations keep the meaning -/

theorem toOp_hadamard : Gates.H.toOp = hadamard := by
  rw [Gates.toOp_H, hadamard, half, Real.sqrt_div zero_le_one, Real.sqrt_one]

theorem phaseGate_eq (c s phi : ℝ) (hc : Real.cos phi = c) (hs : Real.sin phi = s) :
    phaseGate phi = mat2 1 0 0 ⟨c, s⟩ := by
  rw [phaseGate, Complex.exp_mul_I]
  congr 1
  apply Complex.ext <;> simp [hc, hs, ← Complex.ofReal_cos, ← Complex.ofReal_sin]

theorem toOp_phase : Gates.S.toOp = phaseGate (half Real.pi) ∧
    Gates.Sdg.toOp = phaseGate (-half Real.pi) ∧ Gates.T.toOp = phaseGate (half (half Real.pi)) ∧
    Gates.Tdg.toOp = phaseGate (-half (half Real.pi)) := by
  have h4 : half (half Real.pi) = Real.pi / 4 := by
    rw [half, half]
    ring
  have hr : ∀ (c s : ℝ), Matrix2x2.toOp ![⟨1, 0⟩, ⟨0, 0⟩, ⟨0, 0⟩, ⟨c, s⟩] = mat2 1 0 0 ⟨c, s⟩ :=
    fun c s => toOp_vec _ _ _ _
  refine ⟨?_, ?_, ?_, ?_⟩
  · exact (hr 0 1).trans (phaseGate_eq _ _ _ Real.cos_pi_div_two Real.sin_pi_div_two).symm
  · exact (hr 0 (-1)).trans (phaseGate_eq _ _ _ (by simp [half]) (by simp [half])).symm
  · exact (hr _ _).trans (phaseGate_eq _ _ _ (by rw [h4]) (by rw [h4])).symm
  · exact (hr _ _).trans (phaseGate_eq _ _ _ (by rw [h4, neg_div]) (by rw [h4, neg_div])).symm

theorem NamedGate.operator_one {n : ℕ} (q : Fin n) (name : String) (angles : List ℝ) :
    NamedGate.operator n ⟨name, angles, [(q : ℕ)]⟩ = (oneQubitGate name angles).map (onQubit q) := by
  simp only [NamedGate.operator, qubitOf_val]
  cases oneQubitGate name angles <;> rfl

theorem NamedGate.operator_two {n : ℕ} {a b : Fin n} (h : a ≠ b) (name : String) (angles : List ℝ) :
    NamedGate.operator n ⟨name, angles, [(a : ℕ), (b : ℕ)]⟩ = twoQubitGate a b name angles := by
  simp only [NamedGate.operator, qubitOf_val]
  exact if_neg h

/-- A gate that needs no decomposition means what the simulator does. -/
theorem remotePlain_operator {n P : ℕ} {g : GateCall ℝ} (hg : g.Fits n P)
    (h : g.kind.1 ∉ [.CRX, .CRY, .CRZ]) {r : NamedGate ℝ} (hr : remotePlain g = some r) :
    r.operator n = some (g.operator n) := by
  obtain ⟨hS, hSdg, hT, hTdg⟩ := toOp_phase
  cases g with
  | u => simp [remotePlain] at hr
  | crx => simp [GateCall.kind] at h
  | cry => simp [GateCall.kind] at h
  | crz => simp [GateCall.kind] at h
  | cnot a b | cz a b | swap a b =>
    obtain ⟨a, b, hab, rfl, rfl⟩ := hg.two rfl
    simp only [remotePlain, GateCall.name, GateCall.args, GateCall.qubits, List.map_nil,
      Option.some.injEq] at hr
    subst hr
    simp [NamedGate.operator_two hab, twoQubitGate, GateCall.operator, GateCall.kernel,
      Gates.toOp_X, Gates.toOp_Z]
  | _ q =>
    obtain ⟨q, rfl⟩ := hg.one rfl
    simp only [remotePlain, GateCall.name, GateCall.args, GateCall.qubits, List.map_nil, List.map_cons,
      Option.some.injEq] at hr
    subst hr
    simp [NamedGate.operator_one, oneQubitGate, GateCall.operator, GateCall.kernel, Gates.toOp_X,
      Gates.toOp_Y, Gates.toOp_Z, toOp_hadamard, hS, hSdg, hT, hTdg, Gates.toOp_RX, Gates.toOp_RY,
      Gates.toOp_RZ]

/-- The dialect without scalars. -/
def Dialect.plain : Dialect := ⟨fun _ => 1, fun _ => norm_one⟩

theorem Dialect.operator_cons (d : Dialect) {n : ℕ} {g : NamedGate ℝ} {gates : List (NamedGate ℝ)}
    {U V : Op (Fin n)} (hg : g.operator n = some U) (h : d.operator n gates = some V) :
    d.operator n (g :: gates) = some (V * d.phase g • U) := by
  rw [Dialect.operator, h, hg]
  rfl

theorem Dialect.operator_append (d : Dialect) {n : ℕ} : ∀ {gates gates' : List (NamedGate ℝ)}
    {U V : Op (Fin n)}, d.operator n gates = some U → d.operator n gates' = some V →
    d.operator n (gates ++ gates') = some (V * U)
  | [], gates', U, V, h, h' => by
    rw [Dialect.operator, Option.some.injEq] at h
    rw [List.nil_append, h', ← h, Matrix.mul_one]
  | g :: gates, gates', U, V, h, h' => by
    simp only [Dialect.operator, Option.bind_eq_bind, Option.bind_eq_some_iff] at h
    obtain ⟨W, hW, G, hG, hU⟩ := h
    rw [Option.pure_def, Option.some.injEq] at hU
    rw [List.cons_append, d.operator_cons hG (d.operator_append hW h'), ← hU, Matrix.mul_assoc]

/-- Dialects differ by a scalar of absolute value 1. -/
theorem Dialect.operator_of_plain (d : Dialect) {n : ℕ} : ∀ {gates : List (NamedGate ℝ)}
    {U : Op (Fin n)}, plain.operator n gates = some U →
    ∃ w : ℂ, ‖w‖ = 1 ∧ d.operator n gates = some (w • U)
  | [], U, h => by
    refine ⟨1, norm_one, ?_⟩
    rw [one_smul, ← h]
    rfl
  | g :: gates, U, h => by
    simp only [Dialect.operator, Option.bind_eq_bind, Option.bind_eq_some_iff] at h
    obtain ⟨W, hW, G, hG, hU⟩ := h
    rw [Option.pure_def, Option.some.injEq] at hU
    obtain ⟨w, hw, hd⟩ := d.operator_of_plain hW
    refine ⟨w * d.phase g, by rw [norm_mul, hw, d.norm_phase, one_mul], ?_⟩
    rw [d.operator_cons hG hd, ← hU]
    simp only [plain, one_smul, smul_mul_smul_comm]

theorem plain_cons {n : ℕ} {g : NamedGate ℝ} {gates : List (NamedGate ℝ)} {U V : Op (Fin n)}
    (hg : g.operator n = some U) (h : Dialect.plain.operator n gates = some V) :
    Dialect.plain.operator n (g :: gates) = some (V * U) := by
  rw [Dialect.plain.operator_cons hg h, Dialect.plain, one_smul]

/-- Between two controlled nots a rotation is undone where the control is
clear, and doubled where it is set. -/
theorem sandwich_operator {n : ℕ} {c t : Fin n} (h : c ≠ t) (axis : String) (r : Pauli)
    (haxis : ∀ theta, oneQubitGate axis [theta] = some (rotationAbout r.op (half theta)))
    (hr : Pauli.X.op * r.op * Pauli.X.op = -r.op) (theta : ℝ) :
    Dialect.plain.operator n (sandwich axis (c : ℕ) (t : ℕ) theta) =
      some (controlled c t (rotationAbout r.op (half theta))) := by
  have hrot : ∀ a : ℝ, NamedGate.operator n ⟨axis, [a], [(t : ℕ)]⟩ =
      some (mux c t (rotationAbout r.op (half a)) (rotationAbout r.op (half a))) := by
    intro a
    rw [NamedGate.operator_one, haxis, mux_self]
    rfl
  have hcx : NamedGate.operator n ⟨"cx", [], [(c : ℕ), (t : ℕ)]⟩ = some (mux c t 1 Pauli.X.op) :=
    NamedGate.operator_two h "cx" []
  have hneg : half (-theta / 2) = -half (theta / 2) := by
    unfold half
    ring
  have hhalf : half (theta / 2) + half (theta / 2) = half theta := by
    unfold half
    ring
  rw [sandwich, plain_cons (hrot _) (plain_cons hcx (plain_cons (hrot _) (plain_cons hcx rfl))),
    Matrix.one_mul, mux_mul h, mux_mul h, mux_mul h, hneg, Matrix.one_mul, Matrix.mul_one,
    Pauli.conj_rotationAbout hr, neg_neg, rotationAbout_mul r.op_mul_self, neg_add_cancel,
    rotationAbout_zero, rotationAbout_mul r.op_mul_self, hhalf]
  rfl

/-- **The controlled rotations.** The sequence of each is the controlled
rotation, for every angle and every two qubits. -/
theorem decomposition_operator {n : ℕ} {c t : Fin n} (h : c ≠ t) (theta : Param ℝ) :
    (∃ gates, remoteGates (.crx c t theta) = some gates ∧ Dialect.plain.operator n gates =
      some (controlled c t (Gates.RX theta.offset).toOp)) ∧
    (∃ gates, remoteGates (.cry c t theta) = some gates ∧ Dialect.plain.operator n gates =
      some (controlled c t (Gates.RY theta.offset).toOp)) ∧
    (∃ gates, remoteGates (.crz c t theta) = some gates ∧ Dialect.plain.operator n gates =
      some (controlled c t (Gates.RZ theta.offset).toOp)) := by
  have hz := sandwich_operator h "rz" .Z (fun _ => rfl) Pauli.X_conj_Z theta.offset
  have hy := sandwich_operator h "ry" .Y (fun _ => rfl) Pauli.X_conj_Y theta.offset
  refine ⟨⟨_, rfl, ?_⟩, ⟨_, rfl, ?_⟩, ⟨_, rfl, ?_⟩⟩
  · -- the Hadamards turn the rotation about Z into one about X
    have hh : NamedGate.operator n ⟨"h", [], [(t : ℕ)]⟩ = some (mux c t hadamard hadamard) := by
      rw [NamedGate.operator_one, mux_self]
      rfl
    have hhh : hadamard * hadamard = 1 := by rw [← toOp_hadamard, Gates.H_mul_H]
    have hx : hadamard * Pauli.Z.op * hadamard = Pauli.X.op := by
      rw [← Gates.H_conj_Z, Gates.H_conjTranspose, toOp_hadamard]
    rw [Gates.toOp_RX, List.cons_append, plain_cons hh (Dialect.plain.operator_append hz (plain_cons hh rfl)),
      Matrix.one_mul, controlled, mux_mul h, mux_mul h, Matrix.mul_one, hhh,
      rotationAbout_conj hhh, hx]
    rfl
  · rw [hy, Gates.toOp_RY]
  · rw [hz, Gates.toOp_RZ]

/-- **The gates of a call mean what the simulators do.** -/
theorem remoteGates_operator {n P : ℕ} {g : GateCall ℝ} (hg : g.Fits n P) {gates : List (NamedGate ℝ)}
    (h : remoteGates g = some gates) : Dialect.plain.operator n gates = some (g.operator n) := by
  have hplain : ∀ r, remotePlain g = some r → g.kind.1 ∉ [.CRX, .CRY, .CRZ] →
      Dialect.plain.operator n [r] = some (g.operator n) := by
    intro r hr hk
    rw [plain_cons (remotePlain_operator hg hk hr) rfl, Matrix.one_mul]
  cases g with
  | crx a b p =>
    obtain ⟨a, b, hab, rfl, rfl⟩ := hg.two rfl
    obtain ⟨⟨gates', hg', ho⟩, -, -⟩ := decomposition_operator hab p
    obtain rfl : gates' = gates := Option.some.inj (hg'.symm.trans h)
    rw [ho, GateCall.operator, GateCall.kernel, Kernel.operator_controlled]
  | cry a b p =>
    obtain ⟨a, b, hab, rfl, rfl⟩ := hg.two rfl
    obtain ⟨-, ⟨gates', hg', ho⟩, -⟩ := decomposition_operator hab p
    obtain rfl : gates' = gates := Option.some.inj (hg'.symm.trans h)
    rw [ho, GateCall.operator, GateCall.kernel, Kernel.operator_controlled]
  | crz a b p =>
    obtain ⟨a, b, hab, rfl, rfl⟩ := hg.two rfl
    obtain ⟨-, -, gates', hg', ho⟩ := decomposition_operator hab p
    obtain rfl : gates' = gates := Option.some.inj (hg'.symm.trans h)
    rw [ho, GateCall.operator, GateCall.kernel, Kernel.operator_controlled]
  | u => simp [remoteGates, remotePlain] at h
  | _ =>
    obtain rfl := Option.some.inj h
    exact hplain _ rfl (by simp [GateCall.kind])

theorem remoteCircuit_operator {n P : ℕ} : ∀ {calls : List (GateCall ℝ)} {gates : List (NamedGate ℝ)},
    (∀ g ∈ calls, g.Fits n P) → remoteCircuit calls = some gates →
    Dialect.plain.operator n gates = some (circuitOperator n calls)
  | [], gates, _, h => by
    obtain rfl := Option.some.inj h
    rfl
  | g :: calls, gates, hf, h => by
    simp only [remoteCircuit, Option.bind_eq_bind, Option.bind_eq_some_iff] at h
    obtain ⟨gs, hgs, rest, hrest, hr⟩ := h
    obtain rfl := Option.some.inj hr
    exact Dialect.plain.operator_append (remoteGates_operator (hf g List.mem_cons_self) hgs)
      (remoteCircuit_operator (fun g hg => hf g (List.mem_cons_of_mem _ hg)) hrest)

/-- The gates do on dialect `d` what the simulator does with the operations
`ops`, up to one scalar of absolute value 1. -/
def Dialect.Executes (d : Dialect) (n : ℕ) (gates : List (NamedGate ℝ)) (ops : List (GateOp ℝ)) : Prop :=
  ∃ (U : Op (Fin n)) (w : ℂ), d.operator n gates = some U ∧ ‖w‖ = 1 ∧
    ∀ (b : CPUBackend ℂ) (ψ : State (Fin n)), b.state.Holds ψ →
      ∃ b', b.run ops = .ok b' ∧ b'.state.Holds (w • (U *ᵥ ψ))

theorem remoteCircuit_executes (d : Dialect) {n P : ℕ} {calls : List (GateCall ℝ)}
    {gates : List (NamedGate ℝ)} (hf : ∀ g ∈ calls, g.Fits n P) (h : remoteCircuit calls = some gates) :
    d.Executes n gates (calls.map GateCall.op) := by
  obtain ⟨w, hw, ho⟩ := d.operator_of_plain (remoteCircuit_operator hf h)
  refine ⟨_, w⁻¹, ho, by rw [norm_inv, hw, inv_one], fun b ψ hψ => ?_⟩
  have hw0 : w ≠ 0 := norm_ne_zero_iff.mp (by rw [hw]; exact one_ne_zero)
  rw [smul_mulVec, smul_smul, inv_mul_cancel₀ hw0, one_smul]
  exact CPUBackend.run_holds hψ hf

/-- **Translation preserves meaning.** If the program of a circuit is
printed, it declares its registers, executes the circuit on every dialect and
reads qubit `k` of `measured` into bit `k`; so do the instructions for CUNQA,
which read out every qubit for an empty list. The decompositions of CRX, CRY
and CRZ are the controlled rotations. -/
theorem translation_correct (d : Dialect) {c : Circuit ℝ} (hc : Circuit.Built c) (measured : List ℕ) :
    (∀ program, qasmProgram c.numQubits c.ops measured = .ok program →
      ∃ gates, program =
          [.openqasm "3.0", .includeFile "qelib1.inc", .qreg c.numQubits, .creg measured.length] ++
            gates.map .gate ++ measured.zipIdx.map (fun m => .measure m.1 m.2) ∧
        d.Executes c.numQubits gates c.ops) ∧
    (∀ instructions, cunqaInstructions c.numQubits c.ops measured = .ok instructions →
      ∃ gates, instructions = gates.map NamedGate.instruction ++
          (cunqaMeasured c.numQubits measured).zipIdx.map (fun m => ⟨"measure", [m.1], none, some [m.2]⟩) ∧
        d.Executes c.numQubits gates c.ops) ∧
    ∀ (n : ℕ) (control target : Fin n), control ≠ target → ∀ theta : Param ℝ,
      (∃ gates, toQasm2Gate (GateCall.crx control target theta).op = .ok gates ∧
        Dialect.plain.operator n gates = some (controlled control target (Gates.RX theta.offset).toOp)) ∧
      (∃ gates, toQasm2Gate (GateCall.cry control target theta).op = .ok gates ∧
        Dialect.plain.operator n gates = some (controlled control target (Gates.RY theta.offset).toOp)) ∧
      (∃ gates, toQasm2Gate (GateCall.crz control target theta).op = .ok gates ∧
        Dialect.plain.operator n gates = some (controlled control target (Gates.RZ theta.offset).toOp)) := by
  obtain ⟨calls, hl⟩ := Circuit.legal_of_built hc
  refine ⟨fun program h => ?_, fun instructions h => ?_, fun n control target hct theta => ?_⟩
  · rw [hl.ops] at h ⊢
    obtain ⟨gates, hg, hp⟩ := qasmProgram_ok h
    exact ⟨gates, hp, remoteCircuit_executes d hl.fits hg⟩
  · rw [hl.ops] at h ⊢
    obtain ⟨gates, hg, hi⟩ := cunqaInstructions_ok h
    exact ⟨gates, hi, remoteCircuit_executes d hl.fits hg⟩
  · obtain ⟨⟨gx, hgx, hx⟩, ⟨gy, hgy, hy⟩, gz, hgz, hz⟩ := decomposition_operator hct theta
    exact ⟨⟨gx, by rw [toQasm2Gate_op, hgx]; rfl, hx⟩, ⟨gy, by rw [toQasm2Gate_op, hgy]; rfl, hy⟩,
      gz, by rw [toQasm2Gate_op, hgz]; rfl, hz⟩

theorem translation_correct_two :
    let ops : List (GateOp ℝ) := [GateCall.op (.h 0), GateCall.op (.crz 0 1 (.const 1))]
    (∃ gates, qasmProgram 2 ops [1, 0] = .ok ([.openqasm "3.0", .includeFile "qelib1.inc", .qreg 2,
        .creg 2] ++ gates.map .gate ++ [.measure 1 0, .measure 0 1]) ∧ Dialect.plain.Executes 2 gates ops) ∧
    ∃ gates, cunqaInstructions 2 ops [] = .ok (gates.map NamedGate.instruction ++
        [⟨"measure", [0], none, some [0]⟩, ⟨"measure", [1], none, some [1]⟩]) ∧
      Dialect.plain.Executes 2 gates ops := by
  intro ops
  have h0 : Circuit.Built (⟨2, 0, [], []⟩ : Circuit ℝ) := .new (n := 2) rfl
  have hb : Circuit.Built (⟨2, 0, ops, []⟩ : Circuit ℝ) :=
    .gate (g := .crz 0 1 (.const 1)) (.gate (g := .h 0) h0 rfl) rfl
  have hq : ∃ program, qasmProgram 2 ops [1, 0] = .ok program := by
    rw [qasmProgram, List.mapM_cons, List.mapM_cons, toQasm2Gate_op, toQasm2Gate_op]
    exact ⟨_, rfl⟩
  have hi : ∃ instructions, cunqaInstructions 2 ops [] = .ok instructions := by
    rw [cunqaInstructions, List.mapM_cons, List.mapM_cons, cunqaGate_op, cunqaGate_op]
    exact ⟨_, rfl⟩
  obtain ⟨program, hq⟩ := hq
  obtain ⟨instructions, hi⟩ := hi
  obtain ⟨gates, rfl, he⟩ := (translation_correct Dialect.plain hb [1, 0]).1 program hq
  obtain ⟨gates', rfl, he'⟩ := (translation_correct Dialect.plain hb []).2.1 instructions hi
  exact ⟨⟨gates, hq, he⟩, gates', hi, he'⟩

end Meaning

/-! ### Which circuits have a translation -/

section Portability

variable {R : Type} [Neg R] [Div R] [OfNat R 2]

/-- U is the only gate without a name. -/
theorem remoteGates_eq_none_iff (g : GateCall R) : remoteGates g = none ↔ g.op.type = .U := by
  cases g <;> simp [remoteGates, remotePlain, GateCall.op, GateCall.kind]

/-- An operation that translates its calls to `remoteGates` succeeds on all but U. -/
theorem elim_remoteGates_ok_iff {β : Type} {e : Exn} {f : List (NamedGate R) → β} (g : GateCall R) :
    (∃ b, (remoteGates g).elim (.error e : Except Exn β) (fun gates => .ok (f gates)) = .ok b) ↔
      g.op.type ≠ .U := by
  rw [ne_eq, ← remoteGates_eq_none_iff]
  cases remoteGates g with
  | none => simp
  | some gates => simp

theorem toQasm2_ok_iff (digits : R → String) (n : ℕ) (calls : List (GateCall R)) (measured : List ℕ) :
    (∃ text, toQasm2 digits n (calls.map GateCall.op) measured = .ok text) ↔
      ∀ op ∈ calls.map GateCall.op, op.type ≠ .U := by
  have hgate : ∀ g : GateCall R, (∃ b, toQasm2Gate g.op = .ok b) ↔ g.op.type ≠ .U := fun g => by
    rw [toQasm2Gate_op]
    exact elim_remoteGates_ok_iff (f := id) g
  have hprogram : (∃ text, toQasm2 digits n (calls.map GateCall.op) measured = .ok text) ↔
      ∃ statements, (calls.map GateCall.op).mapM toQasm2Gate = .ok statements := by
    constructor
    · rintro ⟨text, h⟩
      obtain ⟨program, h, -⟩ := bind_eq_ok.mp h
      obtain ⟨statements, h, -⟩ := bind_eq_ok.mp h
      exact ⟨statements, h⟩
    · rintro ⟨statements, h⟩
      exact ⟨_, bind_eq_ok.mpr ⟨_, bind_eq_ok.mpr ⟨statements, h, rfl⟩, rfl⟩⟩
  rw [hprogram, mapM_ok_iff, List.forall_mem_map, List.forall_mem_map]
  exact forall₂_congr fun g _ => hgate g

theorem cunqa_ok_iff (calls : List (GateCall R)) :
    (∀ op ∈ calls.map GateCall.op,
        ∃ instructions, (do (← deconstructGate op).mapM gateToInstruction) = .ok instructions) ↔
      ∀ op ∈ calls.map GateCall.op, op.type ≠ .U := by
  rw [List.forall_mem_map, List.forall_mem_map]
  refine forall₂_congr fun g _ => ?_
  rw [cunqaGate_op]
  exact elim_remoteGates_ok_iff g

end Portability

/-- **Portability.** Both translations of a circuit of the API succeed exactly
if it has no U gate, which every simulator executes. -/
theorem translations_ok_iff {c : Circuit ℝ} (hc : Circuit.Built c) (digits : ℝ → String) (measured : List ℕ) :
    ((∃ text, toQasm2 digits c.numQubits c.ops measured = .ok text) ∧
        ∀ op ∈ c.ops, ∃ instructions, (do (← deconstructGate op).mapM gateToInstruction) = .ok instructions) ↔
      ∀ op ∈ c.ops, op.type ≠ .U := by
  obtain ⟨calls, hl⟩ := Circuit.legal_of_built hc
  rw [hl.ops, toQasm2_ok_iff, cunqa_ok_iff, and_self]

/-- H and CRX. -/
theorem translations_ok_crx :
    let ops : List (GateOp ℝ) := [GateCall.op (.h 0), GateCall.op (.crx 0 1 (.const 1))]
    (∃ text, toQasm2 (fun _ => "1") 2 ops [0] = .ok text) ∧
      ∀ op ∈ ops, ∃ instructions, (do (← deconstructGate op).mapM gateToInstruction) = .ok instructions := by
  intro ops
  have h0 : Circuit.Built (⟨2, 0, [], []⟩ : Circuit ℝ) := .new (n := 2) rfl
  have hb : Circuit.Built (⟨2, 0, ops, []⟩ : Circuit ℝ) :=
    .gate (g := .crx 0 1 (.const 1)) (.gate (g := .h 0) h0 rfl) rfl
  refine (translations_ok_iff hb (fun _ => "1") [0]).mpr fun op hop => ?_
  rcases List.mem_pair.mp hop with rfl | rfl
  · exact nofun
  · exact nofun

/-- A bound circuit that is one U gate runs on the CPU backend, and neither
translation takes it. -/
theorem translations_fail_u :
    let c : Circuit ℝ := ⟨1, 0, [GateCall.op (.u 0 (.const 1) (.const 0) (.const 0))], []⟩
    Circuit.Built c ∧ c.bind [] (-1) 0 = .ok c ∧
      (∃ b₀ b, (CPUBackend.new fun _ => .inOrder).initializeState 1 = .ok b₀ ∧ b₀.run c.ops = .ok b) ∧
      (∀ digits text, toQasm2 digits 1 c.ops [0] ≠ .ok text) ∧
      ¬ ∀ op ∈ c.ops, ∃ instructions, (do (← deconstructGate op).mapM gateToInstruction) = .ok instructions := by
  intro c
  let g : GateCall ℝ := .u 0 (.const 1) (.const 0) (.const 0)
  have h0 : Circuit.Built (⟨1, 0, [], []⟩ : Circuit ℝ) := .new (n := 1) rfl
  have hb : Circuit.Built c := .gate (g := g) h0 rfl
  have hfits : ∀ g' ∈ [g], g'.Fits 1 0 := fun g' hg' => by
    rw [List.mem_singleton.mp hg']
    exact ⟨by simp [g, GateCall.qubits], by simp [g, GateCall.qubits], by simp [g, GateCall.args]⟩
  have hu : ¬ ∀ op ∈ [g].map GateCall.op, op.type ≠ .U := fun h => h _ (List.mem_singleton_self _) rfl
  obtain ⟨b₀, b, hinit, hrun, -⟩ := (CPUBackend.new fun _ => .inOrder).prepare_holds le_rfl (by decide) hfits
  refine ⟨hb, rfl, ⟨b₀, b, hinit, hrun⟩, fun digits text h => hu ?_, fun h => hu ?_⟩
  · exact (toQasm2_ok_iff digits 1 [g] [0]).mp ⟨text, h⟩
  · exact (cunqa_ok_iff [g]).mp h

end Qsycl
