/-
# Operations on different qubits

The kernel of an operation acts on the qubits of the operation
(`Kernel.actsOn`). So two operations on disjoint sets of qubits can be applied
in either order, and circuits that differ by exchanges of such neighbours reach
the same state (`disjoint_commute`).
-/
import Qsycl.Simulation
import Qsycl.Lib.Locality
import Qsycl.Lib.Traces

namespace Qsycl

open Qubits Traces Matrix

/-! ### The qubits of a kernel -/

def Kernel.qubits : Kernel → List ℕ
  | single q _ => [q]
  | controlled c t _ => [c, t]
  | swap a b => [a, b]

theorem GateCall.qubits_kernel (g : GateCall ℝ) : g.kernel.qubits = g.qubits := by
  cases g <;> rfl

section Operators

variable {n : ℕ} {S : Finset (Fin n)}

theorem actsOn_atQubit {q : ℕ} {f : Fin n → Op (Fin n)} (h : ∀ i : Fin n, (i : ℕ) = q → ActsOn S (f i)) :
    ActsOn S (atQubit q f) := by
  rw [atQubit]
  split
  · exact h _ rfl
  · exact actsOn_one

/-- **A kernel acts on its qubits.** -/
theorem Kernel.actsOn {k : Kernel} (h : ∀ q : Fin n, (q : ℕ) ∈ k.qubits → q ∈ S) : ActsOn S (k.operator n) := by
  cases k with
  | single q m => exact actsOn_atQubit fun i hi => actsOn_onQubit (h i (by simp [qubits, hi])) _
  | controlled c t m =>
    rw [operator]
    refine actsOn_atQubit fun i hi => actsOn_atQubit fun j hj => ?_
    exact actsOn_mux (h i (by simp [qubits, hi])) (h j (by simp [qubits, hj])) _ _
  | swap a b =>
    rw [operator]
    refine actsOn_atQubit fun i hi => actsOn_atQubit fun j hj => ?_
    exact actsOn_exchange (h i (by simp [qubits, hi])) (h j (by simp [qubits, hj]))

/-- Calls on disjoint sets of qubits have commuting operators. -/
theorem GateCall.operator_comm {g g' : GateCall ℝ} (h : g.qubits.Disjoint g'.qubits) :
    g.operator n * g'.operator n = g'.operator n * g.operator n := by
  let support (g : GateCall ℝ) : Finset (Fin n) := Finset.univ.filter fun q => (q : ℕ) ∈ g.qubits
  have hacts : ∀ g : GateCall ℝ, ActsOn (support g) (g.operator n) := by
    refine fun g => Kernel.actsOn fun q hq => ?_
    rw [qubits_kernel] at hq
    exact Finset.mem_filter.mpr ⟨Finset.mem_univ q, hq⟩
  refine (hacts g).comm (hacts g') (Finset.disjoint_left.mpr fun q hq hq' => ?_)
  exact h (Finset.mem_filter.mp hq).2 (Finset.mem_filter.mp hq').2

/-- Circuits of the same trace have the same operator. -/
theorem circuitOperator_exchanged {calls calls' : List (GateCall ℝ)}
    (h : Exchanged (fun g g' : GateCall ℝ => g.qubits.Disjoint g'.qubits) calls calls') :
    circuitOperator n calls = circuitOperator n calls' := by
  refine h.meaning_eq fun l l' hswap => ?_
  obtain ⟨before, after, hdisjoint⟩ := hswap
  simp only [circuitOperator_append, circuitOperator, Matrix.mul_assoc]
  rw [← Matrix.mul_assoc (GateCall.operator n _), GateCall.operator_comm hdisjoint.symm, Matrix.mul_assoc]

end Operators

/-! ### Runs -/

/-- The same vector. -/
structure StateVec.Same {α : Type} (u v : StateVec α) : Prop where
  size : u.size = v.size
  cell : ∀ j < u.size, u.cell j = v.cell j

theorem StateVec.Holds.same {n : ℕ} {u v : StateVec ℂ} {ψ : State (Fin n)} (hu : u.Holds ψ) (hv : v.Holds ψ) :
    u.Same v := by
  refine ⟨hu.size.trans hv.size.symm, fun j hj => ?_⟩
  have hj : j < 2 ^ n := hu.size ▸ hj
  rw [← index_bits hj, hu.cell, hv.cell]

/-- Two operations that share no qubit. -/
def GateOp.Apart (op op' : GateOp ℝ) : Prop := op.qubits.Disjoint op'.qubits

/-- An operation that a call on a circuit of `n` qubits records. -/
def GateOp.Recorded (n : ℕ) (op : GateOp ℝ) : Prop := ∃ (P : ℕ) (g : GateCall ℝ), g.Fits n P ∧ op = g.op

/-- Runs of the same trace leave the same state. -/
theorem CPUBackend.run_exchanged {n P : ℕ} {calls : List (GateCall ℝ)} (hf : ∀ g ∈ calls, g.Fits n P)
    {ops' : List (GateOp ℝ)} (h : Exchanged GateOp.Apart (calls.map GateCall.op) ops') {b : CPUBackend ℂ}
    (hb : b.state.size = 2 ^ n) : ∃ b₁ b₂, b.run (calls.map GateCall.op) = .ok b₁ ∧ b.run ops' = .ok b₂ ∧
      b₁.state.Same b₂.state := by
  obtain ⟨calls', rfl, hcalls⟩ := h.exists_map
  have hf' : ∀ g ∈ calls', g.Fits n P := fun g hg => hf g (hcalls.perm.mem_iff.mpr hg)
  have hψ : b.state.Holds (view n b.state.cell) := ⟨hb, rfl⟩
  obtain ⟨b₁, h₁, hholds₁⟩ := run_holds hψ hf
  obtain ⟨b₂, h₂, hholds₂⟩ := run_holds hψ hf'
  rw [← circuitOperator_exchanged hcalls] at hholds₂
  exact ⟨b₁, b₂, h₁, h₂, hholds₁.same hholds₂⟩

/-- Equal states have equal probabilities. -/
theorem CPUBackend.probabilities_same {b b' : CPUBackend ℂ} (h : b.state.Same b'.state) :
    b.probabilities.Same b'.probabilities :=
  ⟨h.size, fun j hj => congrArg Complex.normSq (h.cell j hj)⟩

/-- **Operations on different qubits commute.** Two operations of the API that
share no qubit leave every state of `2 ^ n` amplitudes the same in either order;
and two circuits that differ by exchanges of such neighbours leave the same
state and the same probabilities. -/
theorem disjoint_commute :
    (∀ (n : ℕ) (op op' : GateOp ℝ), op.Recorded n → op'.Recorded n → op.Apart op' →
      ∀ b : CPUBackend ℂ, b.state.size = 2 ^ n → ∃ b₁ b₂, b.run [op, op'] = .ok b₁ ∧ b.run [op', op] = .ok b₂ ∧
        b₁.state.Same b₂.state) ∧
    ∀ circuit circuit' : Circuit ℝ, circuit.Built → Exchanged GateOp.Apart circuit.ops circuit'.ops →
      ∀ b : CPUBackend ℂ, b.state.size = 2 ^ circuit.numQubits → ∃ b₁ b₂, b.run circuit.ops = .ok b₁ ∧
        b.run circuit'.ops = .ok b₂ ∧ b₁.state.Same b₂.state ∧ b₁.probabilities.Same b₂.probabilities := by
  refine ⟨fun n op op' hop hop' hapart b hb => ?_, fun circuit circuit' hc hops b hb => ?_⟩
  · obtain ⟨P, g, hg, rfl⟩ := hop
    obtain ⟨P', g', hg', rfl⟩ := hop'
    have hf : ∀ k ∈ [g, g'], k.Fits n (max P P') := by
      simpa using ⟨hg.mono (le_max_left P P'), hg'.mono (le_max_right P P')⟩
    exact CPUBackend.run_exchanged hf (.single (.swap [] [] hapart)) hb
  · obtain ⟨calls, hl⟩ := Circuit.legal_of_built hc
    rw [hl.ops] at hops ⊢
    obtain ⟨b₁, b₂, h₁, h₂, hsame⟩ := CPUBackend.run_exchanged hl.fits hops hb
    exact ⟨b₁, b₂, h₁, h₂, hsame, CPUBackend.probabilities_same hsame⟩

/-- A Hadamard gate on qubit 0 beside a controlled not from qubit 2 to qubit 1. -/
theorem disjoint_commute_three : ∃ b₁ b₂ : CPUBackend ℂ,
    CPUBackend.run ⟨fun _ => .inOrder, ⟨2 ^ 3, fun j => j⟩, 3⟩ [GateCall.op (.h 0), GateCall.op (.cnot 2 1)] = .ok b₁ ∧
    CPUBackend.run ⟨fun _ => .inOrder, ⟨2 ^ 3, fun j => j⟩, 3⟩ [GateCall.op (.cnot 2 1), GateCall.op (.h 0)] = .ok b₂ ∧
    b₁.state.Same b₂.state := by
  have hh : (GateCall.h 0 : GateCall ℝ).Fits 3 0 := by constructor <;> simp [GateCall.qubits, GateCall.args]
  have hcx : (GateCall.cnot 2 1 : GateCall ℝ).Fits 3 0 := by
    constructor <;> simp [GateCall.qubits, GateCall.args]
  have hapart : GateOp.Apart (GateCall.op (.h 0) : GateOp ℝ) (GateCall.op (.cnot 2 1)) := by
    simp [GateOp.Apart, GateCall.op, GateCall.qubits]
  exact disjoint_commute.1 3 _ _ ⟨0, _, hh, rfl⟩ ⟨0, _, hcx, rfl⟩ hapart _ rfl

end Qsycl
