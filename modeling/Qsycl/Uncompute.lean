/-
# Uncomputation

A client of the API undoes a circuit by walking its operations backwards and
calling the inverse gate of each: most gates are their own inverse, S and T
exchange with SDG and TDG, a rotation takes the negated angle, and
U(θ, φ, λ) becomes U(-θ, -λ, -φ). The operator of the inverse gate is the
adjoint of the gate's (`GateCall.inverse_operator`), so that the CPU backend
returns to the amplitudes it started from (`uncompute_restores`).
-/
import Qsycl.GateIdentities

namespace Qsycl

open Qubits Matrix

/-! ### The inverse circuit -/

/-- The call of the API that undoes an operation with constant angles. -/
def GateOp.inverseCall (op : GateOp ℝ) : Except Exn (GateCall ℝ) := do
  let q ← vecAt op.qubits 0
  match op.type with
  | .H => return .h q
  | .X => return .x q
  | .Y => return .y q
  | .Z => return .z q
  | .S => return if op.dagger then .s q else .sdg q
  | .T => return if op.dagger then .t q else .tdg q
  | .U =>
    return .u q (.const (-(← vecAt op.params 0))) (.const (-(← vecAt op.params 2)))
      (.const (-(← vecAt op.params 1)))
  | .RX => return .rx q (.const (-(← vecAt op.params 0)))
  | .RY => return .ry q (.const (-(← vecAt op.params 0)))
  | .RZ => return .rz q (.const (-(← vecAt op.params 0)))
  | .CNOT => return .cnot q (← vecAt op.qubits 1)
  | .CZ => return .cz q (← vecAt op.qubits 1)
  | .SWAP => return .swap q (← vecAt op.qubits 1)
  | .CRX => return .crx q (← vecAt op.qubits 1) (.const (-(← vecAt op.params 0)))
  | .CRY => return .cry q (← vecAt op.qubits 1) (.const (-(← vecAt op.params 0)))
  | .CRZ => return .crz q (← vecAt op.qubits 1) (.const (-(← vecAt op.params 0)))
  | .MEASURE => throw ⟨.logicError, "a measurement has no inverse"⟩

/-- The circuit that undoes `c`, built by calls of the API. -/
def Circuit.uncompute (c : Circuit ℝ) : Except Exn (Circuit ℝ) := do
  let inv ← Circuit.new c.numQubits
  c.ops.reverse.foldlM (fun inv op => do inv.gate (← op.inverseCall)) inv

/-- The inverse of a call with constant angles. -/
def GateCall.inverse : GateCall ℝ → GateCall ℝ
  | s q => sdg q
  | sdg q => s q
  | t q => tdg q
  | tdg q => t q
  | u q a b d => u q (.const (-a.offset)) (.const (-d.offset)) (.const (-b.offset))
  | g => g.mapArgs fun a => .const (-a.offset)

theorem GateCall.inverseCall_op (g : GateCall ℝ) : g.op.inverseCall = .ok g.inverse := by
  cases g <;> rfl

@[simp] theorem GateCall.qubits_inverse (g : GateCall ℝ) : g.inverse.qubits = g.qubits := by
  cases g <;> rfl

theorem GateCall.const_inverse (g : GateCall ℝ) : ∀ a ∈ g.inverse.args, a.isSymbolic = false := by
  cases g <;> simp [inverse, mapArgs, args]

theorem GateCall.Fits.inverse {n P P' : ℕ} {g : GateCall ℝ} (h : g.Fits n P) : g.inverse.Fits n P' :=
  ⟨by rw [qubits_inverse]; exact h.inRange, by rw [qubits_inverse]; exact h.distinct,
    fun a ha hs => by simp [g.const_inverse a ha] at hs⟩

/-- The loop of `uncompute` records the inverse calls. -/
theorem foldlM_inverseCall {n : ℕ} : ∀ {calls : List (GateCall ℝ)} {inv : Circuit ℝ},
    inv.numQubits = n → (∀ g ∈ calls, ∃ P, g.Fits n P) →
    (calls.map GateCall.op).foldlM (fun inv op => do inv.gate (← op.inverseCall)) inv =
      .ok { inv with ops := inv.ops ++ (calls.map GateCall.inverse).map GateCall.op }
  | [], inv, _, _ => by simp; rfl
  | g :: calls, inv, hn, hf => by
    obtain ⟨P, hg⟩ := hf g List.mem_cons_self
    have hgate : inv.gate g.inverse = .ok { inv with ops := inv.ops ++ [g.inverse.op] } :=
      (Circuit.gate_eq_ok inv g.inverse _).mpr ⟨by rw [hn]; exact hg.inverse, rfl⟩
    have ih := @foldlM_inverseCall n calls { inv with ops := inv.ops ++ [g.inverse.op] } hn
      fun g hg => hf g (List.mem_cons_of_mem _ hg)
    rw [List.map_cons, List.foldlM_cons, g.inverseCall_op, ok_bind, hgate, ok_bind, ih]
    simp

theorem uncompute_eq {c : Circuit ℝ} {calls : List (GateCall ℝ)} (hc : c.Legal calls) :
    c.uncompute = .ok ⟨c.numQubits, 0, (calls.reverse.map GateCall.inverse).map GateCall.op, []⟩ := by
  have hnew : Circuit.new c.numQubits = .ok (⟨c.numQubits, 0, [], []⟩ : Circuit ℝ) :=
    if_neg (by have := hc.pos; omega)
  have hloop := @foldlM_inverseCall c.numQubits calls.reverse ⟨c.numQubits, 0, [], []⟩ rfl
    fun g hg => ⟨_, hc.fits g (List.mem_reverse.mp hg)⟩
  rw [Circuit.uncompute, hnew, ok_bind, hc.ops, ← List.map_reverse]
  exact hloop

/-! ### The inverse gate is the adjoint -/

namespace Gates

theorem toOp_Sdg_eq : Sdg.toOp = (S.toOp)ᴴ := by
  rw [toOp_S, toOp_Sdg, mat2_conjTranspose]
  simp

theorem toOp_Tdg_eq : Tdg.toOp = (T.toOp)ᴴ := by
  rw [T, Tdg, toOp_vec, toOp_vec, mat2_conjTranspose, neg_div]
  congr 1 <;> apply Complex.ext <;> simp

theorem half_neg (theta : ℝ) : half (-theta) = -half theta := neg_div _ _

theorem rotation_neg (p : Pauli) (theta : ℝ) :
    rotationAbout p.op (half (-theta)) = (rotationAbout p.op (half theta))ᴴ := by
  rw [half_neg, rotationAbout_conjTranspose p.op_conjTranspose]

theorem toOp_RX_neg (theta : ℝ) : (RX (-theta)).toOp = ((RX theta).toOp)ᴴ := by
  rw [toOp_RX, toOp_RX, rotation_neg]

theorem toOp_RY_neg (theta : ℝ) : (RY (-theta)).toOp = ((RY theta).toOp)ᴴ := by
  rw [toOp_RY, toOp_RY, rotation_neg]

theorem toOp_RZ_neg (theta : ℝ) : (RZ (-theta)).toOp = ((RZ theta).toOp)ᴴ := by
  rw [toOp_RZ, toOp_RZ, rotation_neg]

/-- The two phases of U change places. -/
theorem toOp_U_neg (theta phi lambda : ℝ) :
    (U (-theta) (-lambda) (-phi)).toOp = ((U theta phi lambda).toOp)ᴴ := by
  simp only [U, half_neg]
  rw [toOp_vec, toOp_vec, mat2_conjTranspose]
  simp only [Real.cos_neg, Real.sin_neg, ← neg_add, add_comm lambda phi]
  congr 1 <;> apply Complex.ext <;> simp [-Complex.ofReal_cos, -Complex.ofReal_sin]

end Gates

/-- The kernels of adjoint gates, on the same qubits. -/
def Kernel.Adjoint : Kernel → Kernel → Prop
  | single q m, single q' m' => q' = q ∧ m'.toOp = (m.toOp)ᴴ
  | controlled c t m, controlled c' t' m' => c' = c ∧ t' = t ∧ m'.toOp = (m.toOp)ᴴ
  | swap a b, swap a' b' => a' = a ∧ b' = b
  | _, _ => False

theorem Kernel.Adjoint.operator {n : ℕ} {k k' : Kernel} (h : k.Adjoint k') (hk : k.Fits n) :
    k'.operator n = (k.operator n)ᴴ := by
  cases k with
  | single q m =>
    cases k' with
    | single q' m' =>
      obtain ⟨rfl, hm⟩ := h
      obtain ⟨q, rfl⟩ : ∃ i : Fin n, q' = i := ⟨⟨q', hk⟩, rfl⟩
      rw [Kernel.operator_single, Kernel.operator_single, hm, onQubit_conjTranspose]
    | _ => exact h.elim
  | controlled c t m =>
    cases k' with
    | controlled c' t' m' =>
      obtain ⟨rfl, rfl, hm⟩ := h
      obtain ⟨hc, ht, hct⟩ := hk
      obtain ⟨c, rfl⟩ : ∃ i : Fin n, c' = i := ⟨⟨c', hc⟩, rfl⟩
      obtain ⟨t, rfl⟩ : ∃ i : Fin n, t' = i := ⟨⟨t', ht⟩, rfl⟩
      have hne : c ≠ t := fun heq => hct (congrArg Fin.val heq)
      rw [Kernel.operator_controlled, Kernel.operator_controlled, hm, Qubits.controlled, Qubits.controlled,
        mux_conjTranspose hne, conjTranspose_one]
    | _ => exact h.elim
  | swap a b =>
    cases k' with
    | swap a' b' =>
      obtain ⟨rfl, rfl⟩ := h
      obtain ⟨ha, hb, -⟩ := hk
      obtain ⟨a, rfl⟩ : ∃ i : Fin n, a' = i := ⟨⟨a', ha⟩, rfl⟩
      obtain ⟨b, rfl⟩ : ∃ i : Fin n, b' = i := ⟨⟨b', hb⟩, rfl⟩
      rw [Kernel.operator_swap, exchange_conjTranspose]
    | _ => exact h.elim

/-- **The inverse call has the adjoint kernel**, gate by gate. -/
theorem GateCall.adjoint_inverse (g : GateCall ℝ) : g.kernel.Adjoint g.inverse.kernel := by
  have hX : Gates.X.toOp = (Gates.X.toOp)ᴴ := by rw [Gates.toOp_X, Pauli.op_conjTranspose]
  have hY : Gates.Y.toOp = (Gates.Y.toOp)ᴴ := by rw [Gates.toOp_Y, Pauli.op_conjTranspose]
  have hZ : Gates.Z.toOp = (Gates.Z.toOp)ᴴ := by rw [Gates.toOp_Z, Pauli.op_conjTranspose]
  cases g with
  | h q => exact ⟨rfl, Gates.H_conjTranspose.symm⟩
  | x q => exact ⟨rfl, hX⟩
  | y q => exact ⟨rfl, hY⟩
  | z q => exact ⟨rfl, hZ⟩
  | s q => exact ⟨rfl, Gates.toOp_Sdg_eq⟩
  | sdg q => exact ⟨rfl, by rw [Gates.toOp_Sdg_eq, conjTranspose_conjTranspose]⟩
  | t q => exact ⟨rfl, Gates.toOp_Tdg_eq⟩
  | tdg q => exact ⟨rfl, by rw [Gates.toOp_Tdg_eq, conjTranspose_conjTranspose]⟩
  | u q a b d => exact ⟨rfl, Gates.toOp_U_neg _ _ _⟩
  | rx q a => exact ⟨rfl, Gates.toOp_RX_neg _⟩
  | ry q a => exact ⟨rfl, Gates.toOp_RY_neg _⟩
  | rz q a => exact ⟨rfl, Gates.toOp_RZ_neg _⟩
  | cnot a b => exact ⟨rfl, rfl, hX⟩
  | cz a b => exact ⟨rfl, rfl, hZ⟩
  | swap a b => exact ⟨rfl, rfl⟩
  | crx a b p => exact ⟨rfl, rfl, Gates.toOp_RX_neg _⟩
  | cry a b p => exact ⟨rfl, rfl, Gates.toOp_RY_neg _⟩
  | crz a b p => exact ⟨rfl, rfl, Gates.toOp_RZ_neg _⟩

theorem GateCall.inverse_operator {n P : ℕ} {g : GateCall ℝ} (h : g.Fits n P) :
    g.inverse.operator n = (g.operator n)ᴴ := g.adjoint_inverse.operator h.kernel

/-- The inverse calls in reverse order are the adjoint of the circuit. -/
theorem circuitOperator_inverse {n P : ℕ} : ∀ {calls : List (GateCall ℝ)}, (∀ g ∈ calls, g.Fits n P) →
    circuitOperator n (calls.reverse.map GateCall.inverse) = (circuitOperator n calls)ᴴ
  | [], _ => by simp [circuitOperator]
  | g :: calls, h => by
    have ih := circuitOperator_inverse fun g hg => h g (List.mem_cons_of_mem _ hg)
    have hg : circuitOperator n [g.inverse] = (g.operator n)ᴴ := by
      rw [circuitOperator, circuitOperator, Matrix.one_mul, GateCall.inverse_operator (h g List.mem_cons_self)]
    rw [List.reverse_cons, List.map_append, List.map_singleton, circuitOperator_append, ih, hg, circuitOperator,
      conjTranspose_mul]

/-- A circuit and its inverse in sequence do nothing. -/
theorem circuitOperator_append_inverse {n P : ℕ} {calls : List (GateCall ℝ)}
    (h : ∀ g ∈ calls, g.Fits n P) :
    circuitOperator n (calls ++ calls.reverse.map GateCall.inverse) = 1 := by
  rw [circuitOperator_append, circuitOperator_inverse h]
  exact isUnitary_circuitOperator h

/-! ### Back to the start -/

/-- **Uncomputation.** The inverse of a circuit of the API can be built, and after
both every amplitude has the value it started from. -/
theorem uncompute_restores {c : Circuit ℝ} (hb : Circuit.Built c) :
    ∃ inv, c.uncompute = .ok inv ∧ inv.numQubits = c.numQubits ∧
      ∀ b : CPUBackend ℂ, b.state.size = 2 ^ c.numQubits →
        ∃ b', b.run (c.ops ++ inv.ops) = .ok b' ∧ b'.state.size = 2 ^ c.numQubits ∧
          ∀ j < 2 ^ c.numQubits, b'.state.cell j = b.state.cell j := by
  obtain ⟨calls, hc⟩ := Circuit.legal_of_built hb
  refine ⟨_, uncompute_eq hc, rfl, fun b hsize => ?_⟩
  have hholds : b.state.Holds (view c.numQubits b.state.cell) := ⟨hsize, rfl⟩
  have hfits : ∀ g ∈ calls ++ calls.reverse.map GateCall.inverse, g.Fits c.numQubits c.numParams := by
    intro g hg
    rcases List.mem_append.mp hg with hg | hg
    · exact hc.fits g hg
    · obtain ⟨g', hg', rfl⟩ := List.mem_map.mp hg
      exact (hc.fits g' (List.mem_reverse.mp hg')).inverse
  obtain ⟨b', hrun, hb'⟩ := CPUBackend.run_holds hholds hfits
  rw [circuitOperator_append_inverse hc.fits, one_mulVec] at hb'
  refine ⟨b', ?_, hb'.size, fun j hj => ?_⟩
  · rw [hc.ops, ← List.map_append]
    exact hrun
  · rw [← index_bits hj, hb'.cell]
    rfl

/-- T, CX and U on two qubits, from the amplitudes 1, 2, 3, 4. -/
theorem uncompute_restores_two :
    let ops : List (GateOp ℝ) := [GateCall.op (.t 1), GateCall.op (.cnot 0 1),
      GateCall.op (.u 0 (.const 1) (.const 2) (.const 3))]
    let inv : List (GateOp ℝ) := [GateCall.op (.u 0 (.const (-1)) (.const (-3)) (.const (-2))),
      GateCall.op (.cnot 0 1), GateCall.op (.tdg 1)]
    let b : CPUBackend ℂ := ⟨fun _ => .inOrder, ⟨2 ^ 2, fun j => (j : ℂ) + 1⟩, 2⟩
    ∃ b', b.run (ops ++ inv) = .ok b' ∧ ∀ j < 4, b'.state.cell j = (j : ℂ) + 1 := by
  intro ops inv b
  have h0 : Circuit.Built (⟨2, 0, [], []⟩ : Circuit ℝ) := .new (n := 2) rfl
  have h1 : Circuit.Built (⟨2, 0, [GateCall.op (.t 1)], []⟩ : Circuit ℝ) := .gate (g := .t 1) h0 rfl
  have h2 : Circuit.Built (⟨2, 0, [GateCall.op (.t 1), GateCall.op (.cnot 0 1)], []⟩ : Circuit ℝ) :=
    .gate (g := .cnot 0 1) h1 rfl
  have hb : Circuit.Built (⟨2, 0, ops, []⟩ : Circuit ℝ) :=
    .gate (g := .u 0 (.const 1) (.const 2) (.const 3)) h2 rfl
  obtain ⟨c, hc, -, hrestores⟩ := uncompute_restores hb
  obtain rfl : (⟨2, 0, inv, []⟩ : Circuit ℝ) = c := Except.ok.inj hc
  obtain ⟨b', hrun, -, hcell⟩ := hrestores b rfl
  exact ⟨b', hrun, hcell⟩

end Qsycl
