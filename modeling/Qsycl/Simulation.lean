/-
# What the simulators compute

The kernels of both simulators do what their gate says, in every order of
their work-items (`kernels_correct`). A backend that holds the state `ψ` of `n`
qubits and applies the operations of gate calls that fit ends up holding
`circuitOperator n calls *ᵥ ψ` (`CPUBackend.run_holds`).
-/
import Qsycl.Backends

namespace Qsycl

open WorkItems Qubits Matrix

/-! ### The launches of a kernel -/

namespace Kernel

/-- The work-items of a kernel. -/
noncomputable def item : Kernel → ℕ → Access ℕ ℂ
  | single q m => singleQubitItem (1 <<< q) m
  | controlled c t m => controlledItem (1 <<< c) (1 <<< t) m
  | swap a b => swapItem (1 <<< a) (1 <<< b)

/-- The size of its launch on `dim` amplitudes. -/
def items (dim : ℕ) : Kernel → ℕ
  | single _ _ | controlled _ _ _ => dim / 2
  | swap _ _ => dim

/-- The cells that a work-item touches. -/
def touches : Kernel → ℕ → Set ℕ
  | single q _ => matrixTouches q
  | controlled _ t _ => matrixTouches t
  | swap a b => swapTouches a b

theorem meets {n : ℕ} {k : Kernel} (h : k.Fits n) :
    KernelMeets (k.items (2 ^ n)) (2 ^ n) k.item k.touches k.action := by
  cases k with
  | single q m =>
    simp only [item, Nat.one_shiftLeft]
    exact singleQubit_meets h m
  | controlled c t m =>
    simp only [item, Nat.one_shiftLeft]
    exact controlled_meets h.2.1 h.2.2 m
  | swap a b =>
    simp only [item, Nat.one_shiftLeft]
    exact swap_meets h.1 h.2.1

end Kernel

/-! ### Launches on a backend -/

section Launch

variable {α : Type}

theorem CPUBackend.parallelFor_meets {items dim : ℕ} {item : ℕ → Access ℕ α} {touches : ℕ → Set ℕ}
    {result : (ℕ → α) → ℕ → α} (h : KernelMeets items dim item touches result) (b : CPUBackend α) :
    ∀ j < dim, (b.parallelFor items item).state.cell j = result b.state.cell j :=
  Queue.launch_eq h b.queue b.state.cell

theorem GPUBackend.parallelFor_meets {items dim : ℕ} {item : ℕ → Access ℕ α} {touches : ℕ → Set ℕ}
    {result : (ℕ → α) → ℕ → α} (h : KernelMeets items dim item touches result)
    {b : GPUBackend α} {state : ℕ → α} (hs : b.stateDev = some state) :
    ∃ state', b.parallelFor items item =
        .ok { b with queue := b.queue.next, stateDev := some state' } ∧
      ∀ j < dim, state' j = result state j := by
  refine ⟨_, ?_, Queue.launch_eq h b.queue state⟩
  rw [GPUBackend.parallelFor, hs]
  rfl

variable [Add α] [Mul α]

/-- **The kernels are correct.** For a target `t`, a control `c` other than
`t` and qubits `a`, `b`, all below `n`, the work-items of each kernel touch
disjoint sets of indices below `2 ^ n` and compute, in every order, the
tensor-product action of the gate; so do the launches of both backends. -/
theorem kernels_correct {n t c a b : ℕ} (m : Matrix2x2 α) (ht : t < n) (hct : c ≠ t) (ha : a < n)
    (hb : b < n) :
    (KernelMeets (2 ^ n / 2) (2 ^ n) (singleQubitItem (1 <<< t) m) (matrixTouches t)
        (matrixAction t m) ∧
      KernelMeets (2 ^ n / 2) (2 ^ n) (controlledItem (1 <<< c) (1 <<< t) m) (matrixTouches t)
        (controlledAction c t m) ∧
      KernelMeets (α := α) (2 ^ n) (2 ^ n) (swapItem (1 <<< a) (1 <<< b)) (swapTouches a b)
        (swapAction a b)) ∧
    (∀ cpu : CPUBackend α, cpu.state.size = 2 ^ n → ∀ j < 2 ^ n,
      (cpu.applySingleQubitMatrix t m).state.cell j = matrixAction t m cpu.state.cell j ∧
      (cpu.applyControlledMatrix c t m).state.cell j = controlledAction c t m cpu.state.cell j ∧
      (cpu.applySwapGate a b).state.cell j = swapAction a b cpu.state.cell j) ∧
    ∀ (gpu : GPUBackend α) (old : ℕ → α), gpu.stateDev = some old → gpu.dim = 2 ^ n →
      ∃ single controlled swap : ℕ → α,
        gpu.applySingleQubitMatrix t m =
          .ok { gpu with queue := gpu.queue.next, stateDev := some single } ∧
        gpu.applyControlledMatrix c t m =
          .ok { gpu with queue := gpu.queue.next, stateDev := some controlled } ∧
        gpu.applySwapGate a b = .ok { gpu with queue := gpu.queue.next, stateDev := some swap } ∧
        ∀ j < 2 ^ n, single j = matrixAction t m old j ∧
          controlled j = controlledAction c t m old j ∧ swap j = swapAction a b old j := by
  have h1 := singleQubit_meets ht m
  have h2 := controlled_meets ht hct m
  have h3 := swap_meets (α := α) ha hb
  simp only [Nat.one_shiftLeft]
  refine ⟨⟨h1, h2, h3⟩, fun cpu hs j hj => ?_, fun gpu old hs hd => ?_⟩
  · simp only [CPUBackend.applySingleQubitMatrix, CPUBackend.applyControlledMatrix,
      CPUBackend.applySwapGate, Nat.one_shiftLeft, hs]
    exact ⟨cpu.parallelFor_meets h1 j hj, cpu.parallelFor_meets h2 j hj,
      cpu.parallelFor_meets h3 j hj⟩
  · simp only [GPUBackend.applySingleQubitMatrix, GPUBackend.applyControlledMatrix,
      GPUBackend.applySwapGate, Nat.one_shiftLeft, hd]
    obtain ⟨single, hs1, hr1⟩ := GPUBackend.parallelFor_meets h1 hs
    obtain ⟨controlled, hs2, hr2⟩ := GPUBackend.parallelFor_meets h2 hs
    obtain ⟨swap, hs3, hr3⟩ := GPUBackend.parallelFor_meets h3 hs
    rw [hd] at hs1 hs2 hs3
    exact ⟨single, controlled, swap, hs1, hs2, hs3, fun j hj => ⟨hr1 j hj, hr2 j hj, hr3 j hj⟩⟩

/-- On three qubits: X on qubit 2, CX from 0 to 2 and the exchange of 0 and 2,
all work-items in order. -/
theorem kernels_correct_three :
    let cpu : CPUBackend ℤ := ⟨fun _ => .inOrder, ⟨2 ^ 3, fun j => j⟩, 3⟩
    (cpu.applySingleQubitMatrix 2 ![0, 1, 1, 0]).state.cell 1 = 5 ∧
      (cpu.applyControlledMatrix 0 2 ![0, 1, 1, 0]).state.cell 1 = 5 ∧
      (cpu.applySwapGate 0 2).state.cell 1 = 4 := by
  intro cpu
  obtain ⟨h1, h2, h3⟩ := (kernels_correct (n := 3) (t := 2) (c := 0) (a := 0) (b := 2)
    (![0, 1, 1, 0] : Matrix2x2 ℤ) (by decide) (by decide) (by decide) (by decide)).2.1 cpu rfl 1
    (by decide)
  exact ⟨h1.trans (by decide +kernel), h2.trans (by decide +kernel), h3.trans (by decide +kernel)⟩

end Launch

/-! ### Runs of the CPU backend -/

/-- The operator of a list of calls, the first one applied first. -/
noncomputable def circuitOperator (n : ℕ) : List (GateCall ℝ) → Op (Fin n)
  | [] => 1
  | g :: calls => circuitOperator n calls * g.operator n

theorem circuitOperator_append (n : ℕ) : ∀ calls calls' : List (GateCall ℝ),
    circuitOperator n (calls ++ calls') = circuitOperator n calls' * circuitOperator n calls
  | [], calls' => by simp [circuitOperator]
  | g :: calls, calls' => by
    rw [List.cons_append, circuitOperator, circuitOperator_append n calls, circuitOperator,
      Matrix.mul_assoc]

/-- The state a circuit prepares from all zeros. -/
noncomputable def preparedState (n : ℕ) (calls : List (GateCall ℝ)) : State (Fin n) :=
  circuitOperator n calls *ᵥ zeroState

/-- A vector of amplitudes that holds the state `ψ`. -/
structure StateVec.Holds {n : ℕ} (v : StateVec ℂ) (ψ : State (Fin n)) : Prop where
  size : v.size = 2 ^ n
  view : view n v.cell = ψ

theorem StateVec.Holds.cell {n : ℕ} {v : StateVec ℂ} {ψ : State (Fin n)} (h : v.Holds ψ)
    (x : Fin n → Bool) : v.cell (index x) = ψ x := congrFun h.view x

/-- A launch that has the action of a kernel applies its operator. -/
theorem StateVec.Holds.kernel {n : ℕ} {v : StateVec ℂ} {ψ : State (Fin n)} (h : v.Holds ψ)
    {k : Kernel} (hk : k.Fits n) {cell : ℕ → ℂ} (hc : ∀ j < 2 ^ n, cell j = k.action v.cell j) :
    StateVec.Holds ⟨v.size, cell⟩ (k.operator n *ᵥ ψ) :=
  ⟨h.size, by rw [view_congr hc, Kernel.view_action hk, h.view]⟩

namespace CPUBackend

variable {n : ℕ}

theorem initialize_holds (hn : 1 ≤ n) (hn' : n ≤ 30) (b : CPUBackend ℂ) :
    ∃ b', b.initializeState n = .ok b' ∧ b'.state.Holds (zeroState (n := n)) := by
  refine ⟨_, if_neg (by omega), Nat.one_shiftLeft n, funext fun x => ?_⟩
  simp only [view, zeroState, Function.update_apply, index_eq_zero]

/-- **A gate multiplies by its operator.** -/
theorem applyGate_holds {b : CPUBackend ℂ} {ψ : State (Fin n)} (h : b.state.Holds ψ) {P : ℕ}
    {g : GateCall ℝ} (hg : g.Fits n P) :
    ∃ b', b.applyGate g.op = .ok b' ∧ b'.state.Holds (g.operator n *ᵥ ψ) := by
  have hk := hg.kernel
  have hl := parallelFor_meets (Kernel.meets hk) b
  rw [applyGate, dispatchGate_op, GateCall.operator]
  cases hgk : g.kernel with
  | single q m =>
    rw [hgk] at hk hl
    refine ⟨_, rfl, ?_⟩
    rw [applySingleQubitMatrix, h.size]
    exact h.kernel hk hl
  | controlled c t m =>
    rw [hgk] at hk hl
    refine ⟨_, rfl, ?_⟩
    rw [applyControlledMatrix, h.size]
    exact h.kernel hk hl
  | swap a d =>
    rw [hgk] at hk hl
    refine ⟨_, rfl, ?_⟩
    rw [applySwapGate, h.size]
    exact h.kernel hk hl

/-- `for (gate : ops) apply_gate(gate)`. -/
noncomputable def run (b : CPUBackend ℂ) (ops : List (GateOp ℝ)) : Except Exn (CPUBackend ℂ) :=
  ops.foldlM (fun b op => b.applyGate op) b

/-- **A circuit multiplies by its operator.** -/
theorem run_holds {P : ℕ} : ∀ {calls : List (GateCall ℝ)} {b : CPUBackend ℂ} {ψ : State (Fin n)},
    b.state.Holds ψ → (∀ g ∈ calls, g.Fits n P) →
    ∃ b', b.run (calls.map GateCall.op) = .ok b' ∧ b'.state.Holds (circuitOperator n calls *ᵥ ψ)
  | [], b, ψ, h, _ => ⟨b, rfl, by rwa [circuitOperator, one_mulVec]⟩
  | g :: calls, b, ψ, h, hf => by
    obtain ⟨b₁, hb₁, h₁⟩ := applyGate_holds h (hf g List.mem_cons_self)
    obtain ⟨b₂, hb₂, h₂⟩ := run_holds h₁ fun g hg => hf g (List.mem_cons_of_mem _ hg)
    refine ⟨b₂, ?_, by rwa [circuitOperator, ← mulVec_mulVec]⟩
    rw [run, List.map_cons, List.foldlM_cons, hb₁]
    exact hb₂

/-- A circuit run from all zeros prepares its state. -/
theorem prepare_holds {P : ℕ} (hn : 1 ≤ n) (hn' : n ≤ 30) {calls : List (GateCall ℝ)}
    (hf : ∀ g ∈ calls, g.Fits n P) (b : CPUBackend ℂ) :
    ∃ b₀ b', b.initializeState n = .ok b₀ ∧ b₀.run (calls.map GateCall.op) = .ok b' ∧
      b'.state.Holds (preparedState n calls) := by
  obtain ⟨b₀, hb₀, h₀⟩ := b.initialize_holds hn hn'
  obtain ⟨b', hb', h'⟩ := run_holds h₀ hf
  exact ⟨b₀, b', hb₀, hb', h'⟩

end CPUBackend

end Qsycl
