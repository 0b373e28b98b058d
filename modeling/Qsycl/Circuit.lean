/-
# Circuits

The gate sequence that application code builds (`circuit.hpp`, `circuit.cpp`),
and `Circuit.bind`, which resolves the symbolic angles of a circuit and
optionally shifts the first angle of one gate.

Every gate method appends one operation, `GateCall.op`, or throws and leaves
the circuit alone (`gate_eq`). So every circuit built through the API is
`Legal`: each operation is that of some gate call whose qubits are distinct
and below `numQubits` and whose symbolic angles are below `numParams`
(`legal_of_built`). Binding replaces each call by the same call with constant
angles (`bind_ok`).
-/
import Qsycl.Types

namespace Qsycl

/-- The gate sequence recorded so far. -/
structure Circuit (R : Type) where
  numQubits : ℕ
  numParams : ℕ
  ops : List (GateOp R)
  measured : List ℕ
  deriving DecidableEq, Repr

/-- Parameter number `k` of a circuit, whose index is an `int`. -/
def handed {R : Type} [Zero R] [One R] (k : ℕ) : Param R := ⟨castInt k, 1, 0⟩

theorem handed_of_lt {R : Type} [Zero R] [One R] {k : ℕ} (hk : k < 2 ^ 31) :
    (handed k : Param R) = ⟨k, 1, 0⟩ := by
  rw [handed, castInt_of_lt hk]

/-- A number below `2 ^ 31` is an `int`. -/
theorem resolve_handed {R : Type} [Ring R] {k : ℕ} (hk : k < 2 ^ 31) (theta : List R) :
    (handed k : Param R).resolve theta = theta.getD k 0 := by
  rw [handed_of_lt hk, Param.resolve, if_pos (Int.natCast_nonneg k), one_mul, add_zero, Int.toNat_natCast]

theorem toNat_handed_lt {R : Type} [Zero R] [One R] (k : ℕ) : (handed k : Param R).index.toNat < k + 1 :=
  Nat.lt_succ_of_le (toNat_castInt_le k)

namespace Circuit

variable {R : Type}

/-- The constructor `Circuit(num_qubits)`. -/
def new (numQubits : ℕ) : Except Exn (Circuit R) :=
  if numQubits = 0 then
    throw ⟨.invalidArgument, "Circuit must have at least 1 qubit"⟩
  else
    return ⟨numQubits, 0, [], []⟩

def addGate (c : Circuit R) (type : GateType) (qubits : List ℕ) (args : List (Param R))
    (label : String) (dagger : Bool) : Except Exn (Circuit R) :=
  if qubits.any (c.numQubits ≤ ·) then
    throw ⟨.outOfRange, "Qubit index out of range for this circuit"⟩
  else if args.any fun a => a.isSymbolic && c.numParams ≤ a.index.toNat then
    throw ⟨.outOfRange, "Param does not belong to this circuit (use Circuit::new_param())"⟩
  else
    -- the offset is the value at theta = 0, a placeholder for a symbolic angle
    return { c with ops := c.ops ++ [⟨type, qubits, args.map (·.offset), label, dagger,
      if args.any Param.isSymbolic then args else []⟩] }

section Gates

variable (c : Circuit R)

def h (qubit : ℕ) := c.addGate .H [qubit] [] "H" false
def x (qubit : ℕ) := c.addGate .X [qubit] [] "X" false
def y (qubit : ℕ) := c.addGate .Y [qubit] [] "Y" false
def z (qubit : ℕ) := c.addGate .Z [qubit] [] "Z" false
def s (qubit : ℕ) := c.addGate .S [qubit] [] "S" false
def sdg (qubit : ℕ) := c.addGate .S [qubit] [] "SDG" true
def t (qubit : ℕ) := c.addGate .T [qubit] [] "T" false
def tdg (qubit : ℕ) := c.addGate .T [qubit] [] "TDG" true

def u (qubit : ℕ) (theta phi lambda : Param R) := c.addGate .U [qubit] [theta, phi, lambda] "U" false

def rx (qubit : ℕ) (theta : Param R) := c.addGate .RX [qubit] [theta] "RX" false
def ry (qubit : ℕ) (theta : Param R) := c.addGate .RY [qubit] [theta] "RY" false
def rz (qubit : ℕ) (theta : Param R) := c.addGate .RZ [qubit] [theta] "RZ" false

def cnot (control target : ℕ) : Except Exn (Circuit R) :=
  if control = target then throw ⟨.invalidArgument, "CNOT control and target must differ"⟩ else
  c.addGate .CNOT [control, target] [] "CX" false

def cz (control target : ℕ) : Except Exn (Circuit R) :=
  if control = target then throw ⟨.invalidArgument, "CZ control and target must differ"⟩ else
  c.addGate .CZ [control, target] [] "CZ" false

def swap (qubitA qubitB : ℕ) : Except Exn (Circuit R) :=
  if qubitA = qubitB then throw ⟨.invalidArgument, "SWAP qubits must differ"⟩ else
  c.addGate .SWAP [qubitA, qubitB] [] "SWAP" false

def crx (control target : ℕ) (theta : Param R) : Except Exn (Circuit R) :=
  if control = target then throw ⟨.invalidArgument, "CRX control and target must differ"⟩ else
  c.addGate .CRX [control, target] [theta] "CRX" false

def cry (control target : ℕ) (theta : Param R) : Except Exn (Circuit R) :=
  if control = target then throw ⟨.invalidArgument, "CRY control and target must differ"⟩ else
  c.addGate .CRY [control, target] [theta] "CRY" false

def crz (control target : ℕ) (theta : Param R) : Except Exn (Circuit R) :=
  if control = target then throw ⟨.invalidArgument, "CRZ control and target must differ"⟩ else
  c.addGate .CRZ [control, target] [theta] "CRZ" false

/-- Marks a qubit for classical readout. -/
def measure (qubit : ℕ) : Except Exn (Circuit R) :=
  if c.numQubits ≤ qubit then
    throw ⟨.outOfRange, "Qubit index out of range"⟩
  else
    return { c with measured := c.measured ++ [qubit] }

/-- Allocates a fresh symbolic parameter. -/
def newParam [Zero R] [One R] : Param R × Circuit R :=
  (handed c.numParams, { c with numParams := c.numParams + 1 })

/-- Allocates `n` fresh parameters. -/
def newParams [Zero R] [One R] (c : Circuit R) : ℕ → List (Param R) × Circuit R
  | 0 => ([], c)
  | n + 1 =>
    let (p, c) := c.newParam
    let (ps, c) := newParams c n
    (p :: ps, c)

def isParametric : Bool := c.ops.any GateOp.isParametric

end Gates

end Circuit

/-! ### Binding -/

section Bind

variable {R : Type} [Zero R] [Add R] [Mul R]

/-- `params[i] = symbolic[i].resolve(theta)` for every `i < symbolic.size()`. -/
def resolveInto (theta : List R) : List (Param R) → List R → List R
  | a :: symbolic, _ :: params => a.resolve theta :: resolveInto theta symbolic params
  | _, params => params

def GateOp.resolve (theta : List R) (op : GateOp R) : GateOp R :=
  { op with params := resolveInto theta op.symbolic op.params, symbolic := [] }

/-- A fully numeric copy, with every angle at its value at `theta` and `shift`
added to the first angle of gate `shiftOp` if that is not negative. -/
def Circuit.bind (c : Circuit R) (theta : List R) (shiftOp : ℤ) (shift : R) :
    Except Exn (Circuit R) :=
  if theta.length ≠ c.numParams then
    throw ⟨.invalidArgument, "Circuit::bind: expected " ++ toString c.numParams ++
      " parameters, got " ++ toString theta.length⟩
  else
    let ops := c.ops.map (GateOp.resolve theta)
    if 0 ≤ shiftOp then
      match ops[shiftOp.toNat]? with
      | some op =>
        if op.params.isEmpty then
          throw ⟨.outOfRange, "Circuit::bind: shift_op does not refer to a parameterized gate"⟩
        else
          return { c with
            numParams := 0
            ops := ops.modify shiftOp.toNat fun op => { op with params := op.params.modify 0 (· + shift) } }
      | none => throw ⟨.outOfRange, "Circuit::bind: shift_op does not refer to a parameterized gate"⟩
    else
      return { c with numParams := 0, ops := ops }

end Bind

/-! ### Gate calls -/

/-- A gate method with its arguments. -/
inductive GateCall (R : Type)
  | h (qubit : ℕ) | x (qubit : ℕ) | y (qubit : ℕ) | z (qubit : ℕ)
  | s (qubit : ℕ) | sdg (qubit : ℕ) | t (qubit : ℕ) | tdg (qubit : ℕ)
  | u (qubit : ℕ) (theta phi lambda : Param R)
  | rx (qubit : ℕ) (theta : Param R) | ry (qubit : ℕ) (theta : Param R) | rz (qubit : ℕ) (theta : Param R)
  | cnot (control target : ℕ) | cz (control target : ℕ) | swap (qubitA qubitB : ℕ)
  | crx (control target : ℕ) (theta : Param R) | cry (control target : ℕ) (theta : Param R)
  | crz (control target : ℕ) (theta : Param R)
  deriving DecidableEq, Repr

/-- The method a gate call calls. -/
def Circuit.gate {R : Type} (c : Circuit R) : GateCall R → Except Exn (Circuit R)
  | .h q => c.h q
  | .x q => c.x q
  | .y q => c.y q
  | .z q => c.z q
  | .s q => c.s q
  | .sdg q => c.sdg q
  | .t q => c.t q
  | .tdg q => c.tdg q
  | .u q a b d => c.u q a b d
  | .rx q a => c.rx q a
  | .ry q a => c.ry q a
  | .rz q a => c.rz q a
  | .cnot a b => c.cnot a b
  | .cz a b => c.cz a b
  | .swap a b => c.swap a b
  | .crx a b p => c.crx a b p
  | .cry a b p => c.cry a b p
  | .crz a b p => c.crz a b p

namespace GateCall

variable {R : Type}

/-- The qubits of a call, control first. -/
def qubits : GateCall R → List ℕ
  | h q | x q | y q | z q | s q | sdg q | t q | tdg q => [q]
  | u q _ _ _ | rx q _ | ry q _ | rz q _ => [q]
  | cnot a b | cz a b | swap a b => [a, b]
  | crx a b _ | cry a b _ | crz a b _ => [a, b]

/-- The angles of a call. -/
def args : GateCall R → List (Param R)
  | u _ a b d => [a, b, d]
  | rx _ a | ry _ a | rz _ a => [a]
  | crx _ _ a | cry _ _ a | crz _ _ a => [a]
  | _ => []

/-- The type, the label and the dagger flag of a call. -/
def kind : GateCall R → GateType × String × Bool
  | h _ => (.H, "H", false)
  | x _ => (.X, "X", false)
  | y _ => (.Y, "Y", false)
  | z _ => (.Z, "Z", false)
  | s _ => (.S, "S", false)
  | sdg _ => (.S, "SDG", true)
  | t _ => (.T, "T", false)
  | tdg _ => (.T, "TDG", true)
  | u _ _ _ _ => (.U, "U", false)
  | rx _ _ => (.RX, "RX", false)
  | ry _ _ => (.RY, "RY", false)
  | rz _ _ => (.RZ, "RZ", false)
  | cnot _ _ => (.CNOT, "CX", false)
  | cz _ _ => (.CZ, "CZ", false)
  | swap _ _ => (.SWAP, "SWAP", false)
  | crx _ _ _ => (.CRX, "CRX", false)
  | cry _ _ _ => (.CRY, "CRY", false)
  | crz _ _ _ => (.CRZ, "CRZ", false)

/-- The operation a call records. -/
def op (g : GateCall R) : GateOp R :=
  ⟨g.kind.1, g.qubits, g.args.map (·.offset), g.kind.2.1, g.kind.2.2,
    if g.args.any Param.isSymbolic then g.args else []⟩

/-- A call a circuit of `n` qubits and `P` parameters accepts. -/
structure Fits (n P : ℕ) (g : GateCall R) : Prop where
  inRange : ∀ q ∈ g.qubits, q < n
  distinct : g.qubits.Nodup
  bound : ∀ a ∈ g.args, a.isSymbolic = true → a.index.toNat < P

theorem Fits.mono {n P P' : ℕ} {g : GateCall R} (h : g.Fits n P) (hP : P ≤ P') : g.Fits n P' :=
  ⟨h.inRange, h.distinct, fun a ha hs => Nat.lt_of_lt_of_le (h.bound a ha hs) hP⟩

/-- The call with its angles replaced. -/
def mapArgs (f : Param R → Param R) : GateCall R → GateCall R
  | u q a b d => u q (f a) (f b) (f d)
  | rx q a => rx q (f a)
  | ry q a => ry q (f a)
  | rz q a => rz q (f a)
  | crx a b p => crx a b (f p)
  | cry a b p => cry a b (f p)
  | crz a b p => crz a b (f p)
  | g => g

/-- The call with its first angle replaced. -/
def mapFirst (f : Param R → Param R) : GateCall R → GateCall R
  | u q a b d => u q (f a) b d
  | g => g.mapArgs f

@[simp] theorem qubits_mapArgs (f : Param R → Param R) (g : GateCall R) :
    (g.mapArgs f).qubits = g.qubits := by cases g <;> rfl

@[simp] theorem kind_mapArgs (f : Param R → Param R) (g : GateCall R) :
    (g.mapArgs f).kind = g.kind := by cases g <;> rfl

@[simp] theorem args_mapArgs (f : Param R → Param R) (g : GateCall R) :
    (g.mapArgs f).args = g.args.map f := by cases g <;> rfl

@[simp] theorem qubits_mapFirst (f : Param R → Param R) (g : GateCall R) :
    (g.mapFirst f).qubits = g.qubits := by cases g <;> rfl

@[simp] theorem kind_mapFirst (f : Param R → Param R) (g : GateCall R) :
    (g.mapFirst f).kind = g.kind := by cases g <;> rfl

@[simp] theorem args_mapFirst (f : Param R → Param R) (g : GateCall R) :
    (g.mapFirst f).args = g.args.modify 0 f := by cases g <;> rfl

end GateCall

/-! ### The circuits of the API -/

namespace Circuit

variable {R : Type}

theorem addGate_eq_ok (c : Circuit R) (type : GateType) (qubits : List ℕ) (args : List (Param R))
    (label : String) (dagger : Bool) (c' : Circuit R) :
    c.addGate type qubits args label dagger = .ok c' ↔
      (∀ q ∈ qubits, q < c.numQubits) ∧
      (∀ a ∈ args, a.isSymbolic = true → a.index.toNat < c.numParams) ∧
      c' = { c with ops := c.ops ++ [⟨type, qubits, args.map (·.offset), label, dagger,
        if args.any Param.isSymbolic then args else []⟩] } := by
  unfold addGate
  split
  · rename_i h1
    simp only [List.any_eq_true, decide_eq_true_eq] at h1
    obtain ⟨q, hq, hle⟩ := h1
    refine ⟨nofun, fun h => ?_⟩
    exact absurd (h.1 q hq) (by omega)
  · rename_i h1
    split
    · rename_i h2
      simp only [List.any_eq_true, Bool.and_eq_true, decide_eq_true_eq] at h2
      obtain ⟨a, ha, hs, hle⟩ := h2
      refine ⟨nofun, fun h => ?_⟩
      exact absurd (h.2.1 a ha hs) (by omega)
    · rename_i h2
      simp only [List.any_eq_true, decide_eq_true_eq, not_exists, not_and, Nat.not_le,
        Bool.and_eq_true] at h1 h2
      exact ⟨fun h => ⟨h1, h2, (Except.ok.inj h).symm⟩, fun h => h.2.2 ▸ rfl⟩

/-- **What a gate method does.** It accepts the calls that fit, and appends
the operation of the call. -/
theorem gate_eq_ok (c : Circuit R) (g : GateCall R) (c' : Circuit R) :
    c.gate g = .ok c' ↔
      g.Fits c.numQubits c.numParams ∧ c' = { c with ops := c.ops ++ [g.op] } := by
  have key : c.addGate g.kind.1 g.qubits g.args g.kind.2.1 g.kind.2.2 = .ok c' ∧ g.qubits.Nodup ↔
      g.Fits c.numQubits c.numParams ∧ c' = { c with ops := c.ops ++ [g.op] } := by
    rw [addGate_eq_ok]
    exact ⟨fun ⟨⟨h1, h2, h3⟩, h4⟩ => ⟨⟨h1, h4, h2⟩, h3⟩,
      fun ⟨⟨h1, h4, h2⟩, h3⟩ => ⟨⟨h1, h2, h3⟩, h4⟩⟩
  rw [← key]
  cases g <;>
    simp only [gate, h, x, y, z, s, sdg, t, tdg, u, rx, ry, rz, cnot, cz, swap, crx, cry, crz,
      GateCall.kind, GateCall.qubits, GateCall.args, List.nodup_cons, List.nodup_nil,
      List.mem_cons, List.not_mem_nil, or_false, not_false_eq_true, and_true] <;>
    split_ifs <;> simp_all

/-- The circuits that calls of the API build; a call that throws builds
nothing. -/
inductive Built [Ring R] : Circuit R → Prop
  | new {n : ℕ} {c : Circuit R} : Circuit.new n = .ok c → Built c
  | gate {c c' : Circuit R} {g : GateCall R} : Built c → c.gate g = .ok c' → Built c'
  | measure {c c' : Circuit R} {q : ℕ} : Built c → c.measure q = .ok c' → Built c'
  | newParam {c : Circuit R} : Built c → Built c.newParam.2
  | bind {c c' : Circuit R} {theta : List R} {shiftOp : ℤ} {shift : R} :
      Built c → c.bind theta shiftOp shift = .ok c' → Built c'

/-- A well-formed circuit: its operations are those of the calls `calls`, each
of which fits, and its readout is in range. -/
structure Legal (c : Circuit R) (calls : List (GateCall R)) : Prop where
  pos : 0 < c.numQubits
  ops : c.ops = calls.map GateCall.op
  fits : ∀ g ∈ calls, g.Fits c.numQubits c.numParams
  measured : ∀ q ∈ c.measured, q < c.numQubits

end Circuit

/-! ### Binding, call by call -/

section Bind

variable {R : Type} [Ring R]

/-- The call with every angle at its value at `theta`. -/
def GateCall.resolve (theta : List R) (g : GateCall R) : GateCall R :=
  g.mapArgs fun a => .const (a.resolve theta)

/-- The call, of constant angles, with `shift` added to the first one. -/
def GateCall.shiftFirst (shift : R) (g : GateCall R) : GateCall R :=
  g.mapFirst fun a => .const (a.offset + shift)

/-- The calls of the bound circuit. -/
def bindCalls (calls : List (GateCall R)) (theta : List R) (shiftOp : ℤ) (shift : R) :
    List (GateCall R) :=
  let calls := calls.map (GateCall.resolve theta)
  if 0 ≤ shiftOp then calls.modify shiftOp.toNat (GateCall.shiftFirst shift) else calls

theorem resolveInto_map (theta : List R) (f : Param R → R) : ∀ args : List (Param R),
    resolveInto theta args (args.map f) = args.map (Param.resolve · theta)
  | [] => rfl
  | a :: args => by simp [resolveInto, resolveInto_map theta f args]

omit [Ring R] in
/-- A call with constant angles records them as they are. -/
theorem GateCall.op_of_const {g : GateCall R} (h : ∀ a ∈ g.args, a.isSymbolic = false) :
    g.op = ⟨g.kind.1, g.qubits, g.args.map (·.offset), g.kind.2.1, g.kind.2.2, []⟩ := by
  rw [GateCall.op, if_neg]
  rw [List.any_eq_true]
  rintro ⟨a, ha, hs⟩
  simp [h a ha] at hs

theorem GateCall.const_resolve (theta : List R) (g : GateCall R) :
    ∀ a ∈ (g.resolve theta).args, a.isSymbolic = false := by
  simp [GateCall.resolve]

/-- Resolving an operation is recording the call with constant angles. -/
theorem GateCall.resolve_op (theta : List R) (g : GateCall R) :
    g.op.resolve theta = (g.resolve theta).op := by
  have h : resolveInto theta g.op.symbolic g.op.params = g.args.map (Param.resolve · theta) := by
    by_cases hs : g.args.any Param.isSymbolic = true
    · simp only [GateCall.op, hs, if_true]
      exact resolveInto_map theta _ g.args
    · simp only [GateCall.op, hs, if_false, resolveInto, Bool.false_eq_true]
      refine List.map_congr_left fun a ha => ?_
      have hsa : a.isSymbolic = false := by
        by_contra hc
        exact hs (List.any_eq_true.mpr ⟨a, ha, by simpa using hc⟩)
      exact (Param.resolve_of_not_symbolic hsa theta).symm
  rw [GateOp.resolve, h, GateCall.op_of_const (g.const_resolve theta)]
  simp [GateCall.resolve, GateCall.op, Function.comp_def]

theorem GateCall.const_shiftFirst (shift : R) {g : GateCall R}
    (h : ∀ a ∈ g.args, a.isSymbolic = false) :
    ∀ a ∈ (g.shiftFirst shift).args, a.isSymbolic = false := by
  intro a ha
  rw [GateCall.shiftFirst, GateCall.args_mapFirst] at ha
  cases hg : g.args with
  | nil => simp [hg] at ha
  | cons b bs =>
    rw [hg, List.modify_zero_cons, List.mem_cons] at ha
    rcases ha with rfl | ha
    · rfl
    · exact h a (by rw [hg]; exact List.mem_cons_of_mem _ ha)

/-- Adding to the first angle of an operation is recording the shifted call. -/
theorem GateCall.shiftFirst_op (shift : R) {g : GateCall R}
    (h : ∀ a ∈ g.args, a.isSymbolic = false) :
    { g.op with params := g.op.params.modify 0 (· + shift) } = (g.shiftFirst shift).op := by
  rw [GateCall.op_of_const (g.const_shiftFirst shift h), GateCall.op_of_const h]
  cases hg : g.args <;> simp [GateCall.shiftFirst, hg]

theorem modify_map_op : ∀ (calls : List (GateCall R)) (i : ℕ) (shift : R),
    (∀ g ∈ calls, ∀ a ∈ g.args, a.isSymbolic = false) →
    (calls.map GateCall.op).modify i (fun op => { op with params := op.params.modify 0 (· + shift) }) =
      (calls.modify i (GateCall.shiftFirst shift)).map GateCall.op
  | [], i, _, _ => by simp
  | g :: calls, 0, shift, h => by
    simp [← GateCall.shiftFirst_op shift (h g List.mem_cons_self)]
  | g :: calls, i + 1, shift, h => by
    simp [modify_map_op calls i shift fun g hg => h g (List.mem_cons_of_mem _ hg)]

/-- **What binding does**, call by call: it accepts a vector of the right
length and a shifted gate that has an angle. -/
theorem Circuit.bind_eq_ok (c : Circuit R) (calls : List (GateCall R))
    (hc : c.ops = calls.map GateCall.op) (theta : List R) (shiftOp : ℤ) (shift : R)
    (c' : Circuit R) :
    c.bind theta shiftOp shift = .ok c' ↔
      theta.length = c.numParams ∧
      (0 ≤ shiftOp → ∃ g, calls[shiftOp.toNat]? = some g ∧ g.args ≠ []) ∧
      c' = { c with numParams := 0, ops := (bindCalls calls theta shiftOp shift).map GateCall.op } := by
  have hops : c.ops.map (GateOp.resolve theta) =
      (calls.map (GateCall.resolve theta)).map GateCall.op := by
    simp [hc, GateCall.resolve_op]
  unfold bind bindCalls
  by_cases hl : theta.length = c.numParams
  · rw [if_neg (not_not.mpr hl)]
    simp only [hops, hl, true_and]
    by_cases hs : 0 ≤ shiftOp
    · simp only [hs, if_true, forall_const, List.getElem?_map]
      cases hg : calls[shiftOp.toNat]? with
      | none => simp
      | some g =>
        simp only [Option.map_some, Option.some.injEq, exists_eq_left']
        have hp : (g.resolve theta).op.params.isEmpty = g.args.isEmpty := by
          cases hga : g.args <;> simp [GateCall.op, GateCall.resolve, hga]
        have hm := modify_map_op (calls.map (GateCall.resolve theta)) shiftOp.toNat shift
          fun g hg => by
            obtain ⟨g, -, rfl⟩ := List.mem_map.mp hg
            exact g.const_resolve theta
        rw [hp, hm]
        cases hga : g.args with
        | nil => simp
        | cons a as =>
          simp only [List.isEmpty_cons, Bool.false_eq_true, if_false, ne_eq, reduceCtorEq,
            not_false_eq_true, true_and]
          exact ⟨fun h => (Except.ok.inj h).symm, fun h => h ▸ rfl⟩
    · simp only [hs, if_false, false_imp_iff, true_and]
      exact ⟨fun h => (Except.ok.inj h).symm, fun h => h ▸ rfl⟩
  · rw [if_pos hl]
    exact ⟨nofun, fun h => absurd h.1 hl⟩

/-- A bound call: on the qubits of some call, with constant angles. -/
theorem mem_bindCalls {calls : List (GateCall R)} {theta : List R} {shiftOp : ℤ} {shift : R}
    {g : GateCall R} (hg : g ∈ bindCalls calls theta shiftOp shift) :
    (∀ a ∈ g.args, a.isSymbolic = false) ∧ ∃ g' ∈ calls, g.qubits = g'.qubits ∧ g.kind = g'.kind := by
  have key : ∀ g ∈ calls.map (GateCall.resolve theta), (∀ a ∈ g.args, a.isSymbolic = false) ∧
      ∃ g' ∈ calls, g.qubits = g'.qubits ∧ g.kind = g'.kind := by
    intro g hg
    obtain ⟨g', hg', rfl⟩ := List.mem_map.mp hg
    exact ⟨g'.const_resolve theta, g', hg', by simp [GateCall.resolve], by simp [GateCall.resolve]⟩
  simp only [bindCalls] at hg
  split at hg
  · obtain ⟨i, hi, rfl⟩ := List.mem_iff_getElem.mp hg
    rw [List.length_modify] at hi
    have hk := key _ (List.getElem_mem hi)
    rw [List.getElem_modify]
    split
    · obtain ⟨hc, g', hg', hq, hd⟩ := hk
      exact ⟨GateCall.const_shiftFirst shift hc, g', hg', (GateCall.qubits_mapFirst _ _).trans hq,
        (GateCall.kind_mapFirst _ _).trans hd⟩
    · exact hk
  · exact key g hg

namespace Circuit

/-- A bound circuit is well formed, without parameters. -/
theorem Legal.bind {c c' : Circuit R} {calls : List (GateCall R)} (h : c.Legal calls)
    {theta : List R} {shiftOp : ℤ} {shift : R} (hb : c.bind theta shiftOp shift = .ok c') :
    c'.Legal (bindCalls calls theta shiftOp shift) := by
  obtain ⟨-, -, rfl⟩ := (bind_eq_ok c calls h.ops theta shiftOp shift c').mp hb
  refine ⟨h.pos, rfl, fun g hg => ?_, h.measured⟩
  obtain ⟨hc, g', hg', hq, -⟩ := mem_bindCalls hg
  refine ⟨fun q hqm => (h.fits g' hg').inRange q (hq ▸ hqm), hq ▸ (h.fits g' hg').distinct,
    fun a ha hs => ?_⟩
  simp [hc a ha] at hs

/-- Binding keeps the register. -/
theorem Legal.numQubits_bind {c c' : Circuit R} {calls : List (GateCall R)} (h : c.Legal calls)
    {theta : List R} {shiftOp : ℤ} {shift : R} (hb : c.bind theta shiftOp shift = .ok c') :
    c'.numQubits = c.numQubits := by
  obtain ⟨-, -, rfl⟩ := (bind_eq_ok c calls h.ops theta shiftOp shift c').mp hb
  rfl

/-- **Every circuit built through the API is well formed.** -/
theorem legal_of_built {c : Circuit R} (h : Built c) : ∃ calls, c.Legal calls := by
  induction h with
  | new hn =>
    unfold Circuit.new at hn
    split at hn
    · cases hn
    · cases hn
      exact ⟨[], by simp; omega, rfl, by simp, by simp⟩
  | @gate c c' g _ hg ih =>
    obtain ⟨calls, hl⟩ := ih
    obtain ⟨hf, rfl⟩ := (gate_eq_ok c g c').mp hg
    refine ⟨calls ++ [g], hl.pos, by simp [hl.ops], fun g' hg' => ?_, hl.measured⟩
    rcases List.mem_append.mp hg' with hg' | hg'
    · exact hl.fits g' hg'
    · rw [List.mem_singleton.mp hg']
      exact hf
  | @measure c c' q _ hm ih =>
    obtain ⟨calls, hl⟩ := ih
    unfold Circuit.measure at hm
    split at hm
    · cases hm
    · rename_i hq
      cases hm
      refine ⟨calls, hl.pos, hl.ops, hl.fits, fun q' hq' => ?_⟩
      rcases List.mem_append.mp hq' with hq' | hq'
      · exact hl.measured q' hq'
      · rw [List.mem_singleton.mp hq']
        simpa using hq
  | newParam _ ih =>
    obtain ⟨calls, hl⟩ := ih
    exact ⟨calls, hl.pos, hl.ops, fun g hg => (hl.fits g hg).mono (Nat.le_succ _), hl.measured⟩
  | bind _ hb ih =>
    obtain ⟨calls, hl⟩ := ih
    exact ⟨_, hl.bind hb⟩

end Circuit

end Bind

end Qsycl
