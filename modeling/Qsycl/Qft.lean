/-
# The quantum Fourier transform

The circuit of `examples/qft.cpp`: Hadamard on qubit `i`, then for every later
qubit `j` a phase of π / 2^(j-i) controlled by `i`, made of a phase on the
control and a `crz`. On the simulator the circuit leaves the discrete Fourier
transform of the amplitudes with the bits of their numbers reversed
(`qft_transforms`).
-/
import Qsycl.Ansatz
import Qsycl.GateIdentities
import Qsycl.Lib.Fourier
import Qsycl.Simulation

namespace Qsycl

open Qubits Matrix
open Gates (half)

namespace Qft

noncomputable section

/-! ### The builder -/

/-- A phase gate. -/
def p (q : ℕ) (phi : ℝ) : Builder ℝ Unit := .call (·.u q (.const 0) (.const 0) (.const phi))

/-- A controlled phase gate. -/
def cp (control target : ℕ) (theta : ℝ) : Builder ℝ Unit := do
  p control (half theta)
  .call (·.crz control target (.const theta))

/-- `1 << k`, of an `int`. -/
def intShift (k : ℕ) : Builder ℝ ℕ :=
  if 31 ≤ k then throw ⟨.undefined, "the shift leaves int"⟩ else return 1 <<< k

def qft (n : ℕ) : Builder ℝ Unit :=
  (List.range n).forM fun i => do
    .call (·.h i)
    (List.range' (i + 1) (n - (i + 1))).forM fun j => do
      cp i j (Real.pi / (← intShift (j - i)))

/-! ### Its calls -/

def cpCalls (control target : ℕ) (theta : ℝ) : List (GateCall ℝ) :=
  [.u control (.const 0) (.const 0) (.const (half theta)), .crz control target (.const theta)]

def stageCalls (n i : ℕ) : List (GateCall ℝ) :=
  .h i :: (List.range' (i + 1) (n - (i + 1))).flatMap fun j => cpCalls i j (Real.pi / (1 <<< (j - i) : ℕ))

def qftCalls (n : ℕ) : List (GateCall ℝ) := (List.range n).flatMap (stageCalls n)

theorem emits_cp {n c t : ℕ} (hc : c < n) (ht : t < n) (hct : c ≠ t) (theta : ℝ) :
    Emits n 0 (cp c t theta) () 0 (cpCalls c t theta) := by
  have hp : (GateCall.u c (.const 0) (.const 0) (.const (half theta)) : GateCall ℝ).Fits n 0 :=
    ⟨by simp [GateCall.qubits, hc], by simp [GateCall.qubits], by simp [GateCall.args]⟩
  have hcrz : (GateCall.crz c t (.const theta) : GateCall ℝ).Fits n 0 :=
    ⟨by simp [GateCall.qubits, hc, ht], by simp [GateCall.qubits, hct], by simp [GateCall.args]⟩
  exact (emits_call hp).bind (emits_call hcrz)

theorem emits_intShift {n k : ℕ} (h : k < 31) : Emits n 0 (intShift k) (1 <<< k) 0 [] := by
  rw [intShift, if_neg (by omega)]
  exact emits_pure _

theorem emits_qft {n : ℕ} (hn : n ≤ 31) : Emits n 0 (qft n) () 0 (qftCalls n) := by
  refine emits_forM fun i hi => ?_
  have hin : i < n := List.mem_range.mp hi
  have hh : (GateCall.h i : GateCall ℝ).Fits n 0 :=
    ⟨by simp [GateCall.qubits, hin], by simp [GateCall.qubits], by simp [GateCall.args]⟩
  refine (emits_call hh).bind (emits_forM fun j hj => ?_)
  obtain ⟨hij, hjn⟩ := List.mem_range'_1.mp hj
  exact (emits_intShift (by omega)).bind (emits_cp hin (by omega) (by omega) _)

/-! ### Phases -/

variable {n : ℕ}

/-- A diagonal gate of one qubit. -/
theorem onQubit_diagonal (q : Fin n) (d : Bool → ℂ) : onQubit q (diagonal d) = diagonal fun y => d (y q) := by
  refine Matrix.ext_of_mulVec_single fun x => ?_
  funext y
  rw [onQubit_mulVec, mulVec_diagonal, Fintype.sum_eq_single (y q) fun b hb => by simp [hb.symm],
    diagonal_apply_eq, Function.update_eq_self]

theorem controlled_diagonal (c t : Fin n) (d : Bool → ℂ) :
    controlled c t (diagonal d) = diagonal fun y => if y c then d (y t) else 1 := by
  refine Matrix.ext_of_mulVec_single fun x => ?_
  funext y
  rw [controlled_mulVec, onQubit_diagonal, mulVec_diagonal, mulVec_diagonal]
  split <;> simp

theorem wave_pi (theta : ℝ) : wave (theta / (2 * Real.pi)) = ⟨Real.cos theta, Real.sin theta⟩ := by
  rw [wave_eq, mul_div_cancel₀ _ (by positivity)]

theorem toOp_U_phase (phi : ℝ) :
    (Gates.U 0 0 phi).toOp = diagonal fun b => wave (bit b * (phi / (2 * Real.pi))) := by
  simp only [Gates.U, Gates.half]
  rw [toOp_vec]
  ext a b
  cases a <;> cases b <;> simp [mat2, wave_pi, Complex.ext_iff]

theorem toOp_RZ_phase (theta : ℝ) :
    (Gates.RZ theta).toOp = diagonal fun b => wave ((bit b - 1 / 2) * (theta / (2 * Real.pi))) := by
  have hphase : ∀ b, wave ((bit b - 1 / 2) * (theta / (2 * Real.pi))) =
      ⟨Real.cos (theta / 2), if b then Real.sin (theta / 2) else -Real.sin (theta / 2)⟩ := by
    rintro (_ | _)
    · rw [bit_false, show (0 - 1 / 2) * (theta / (2 * Real.pi)) = -(theta / 2) / (2 * Real.pi) by ring, wave_pi,
        Real.cos_neg, Real.sin_neg]
      rfl
    · rw [bit_true, show (1 - 1 / 2) * (theta / (2 * Real.pi)) = theta / 2 / (2 * Real.pi) by ring, wave_pi]
      rfl
  simp only [Gates.RZ, Gates.half]
  rw [toOp_vec]
  ext a b
  rw [diagonal_apply, hphase]
  cases a <;> cases b <;> simp [mat2, Complex.ext_iff]

/-- **The controlled phase.** The phase on the control makes up for that of `crz`. -/
theorem cpCalls_operator (c t : Fin n) (theta : ℝ) : circuitOperator n (cpCalls c t theta) =
    diagonal fun y => wave (bit (y c) * (bit (y t) * (theta / (2 * Real.pi)))) := by
  have hu : (GateCall.u c (.const 0) (.const 0) (.const (half theta)) : GateCall ℝ).operator n =
      onQubit c (Gates.U 0 0 (theta / 2)).toOp := Kernel.operator_single c _
  have hcrz : (GateCall.crz c t (.const theta) : GateCall ℝ).operator n =
      controlled c t (Gates.RZ theta).toOp := Kernel.operator_controlled c t _
  rw [cpCalls, circuitOperator, circuitOperator, circuitOperator, Matrix.one_mul, hu, hcrz, toOp_U_phase,
    toOp_RZ_phase, onQubit_diagonal, controlled_diagonal, diagonal_mul_diagonal]
  congr 1
  funext y
  cases y c
  · simp
  · rw [if_pos rfl, ← wave_add, bit_true]
    congr 1
    ring

/-- The phases of one control add up. -/
theorem phases_operator (q : Fin n) : ∀ {l : List (Fin n)}, (∀ j ∈ l, q < j) →
    circuitOperator n ((l.map Fin.val).flatMap fun j => cpCalls q j (Real.pi / (1 <<< (j - q) : ℕ))) =
      diagonal fun y => wave (bit (y q) * (l.map (digit y q)).sum)
  | [], _ => by simp [circuitOperator]
  | j :: l, h => by
    have ih := phases_operator q fun k hk => h k (List.mem_cons_of_mem _ hk)
    have hangle : Real.pi / (1 <<< ((j : ℕ) - q) : ℕ) / (2 * Real.pi) = 1 / 2 ^ ((j : ℕ) - q + 1) := by
      rw [Nat.one_shiftLeft, pow_succ]
      push_cast
      field_simp
    rw [List.map_cons, List.flatMap_cons, circuitOperator_append, ih, cpCalls_operator, diagonal_mul_diagonal]
    congr 1
    funext y
    rw [← wave_add, ← mul_add, List.map_cons, List.sum_cons, add_comm, hangle, mul_one_div]
    rw [digit_eq]

/-! ### The transform -/

theorem toOp_H_eq : Gates.H.toOp = hadamardGate := by
  have hneg : wave 2⁻¹ = -1 := by
    rw [show (2 : ℝ)⁻¹ = Real.pi / (2 * Real.pi) by field_simp, wave_pi, Real.cos_pi, Real.sin_pi]
    exact Complex.ext (by simp) (by simp)
  rw [Gates.toOp_H, smul_mat2]
  ext a b
  cases a <;> cases b <;> simp [mat2, hadamardGate_apply, hneg, neg_div]

/-- **A stage of the circuit** is one of the transform. -/
theorem stageCalls_operator (q : Fin n) : circuitOperator n (stageCalls n q) = fourierStage q := by
  have hrange : ∀ j ∈ List.range' ((q : ℕ) + 1) (n - (q + 1)), (q : ℕ) < j ∧ j < n := fun j hj => by
    obtain ⟨h₁, h₂⟩ := List.mem_range'_1.mp hj
    omega
  obtain ⟨l, hl⟩ : ∃ l : List (Fin n), l.map Fin.val = List.range' ((q : ℕ) + 1) (n - (q + 1)) :=
    ⟨(List.range' ((q : ℕ) + 1) (n - (q + 1))).pmap (fun j hj => ⟨j, hj⟩) fun j hj => (hrange j hj).2, by
      simp [List.map_pmap]⟩
  have hmem : ∀ j : Fin n, j ∈ l ↔ q < j := fun j => by
    rw [← List.mem_map_of_injective Fin.val_injective, hl, List.mem_range'_1, Fin.lt_def]
    omega
  have hnodup : l.Nodup := List.Nodup.of_map Fin.val (hl ▸ List.nodup_range')
  have hset : l.toFinset = Finset.Ioi q := Finset.ext fun j => by simp [hmem]
  have hh : (GateCall.h q : GateCall ℝ).operator n = onQubit q Gates.H.toOp := Kernel.operator_single q _
  rw [stageCalls, circuitOperator, ← hl, phases_operator q fun j hj => (hmem j).mp hj, hh, toOp_H_eq, fourierStage]
  congr 2
  funext y
  rw [laterPhases, ← hset, List.sum_toFinset _ hnodup]

/-- The first `k` stages on a basis state. -/
theorem stages_mulVec (x : Fin n → Bool) : ∀ k ≤ n,
    circuitOperator n ((List.range k).flatMap (stageCalls n)) *ᵥ Pi.single x 1 = afterStages x k
  | 0, _ => by rw [List.range_zero, List.flatMap_nil, circuitOperator, one_mulVec, afterStages_zero]
  | k + 1, hk => by
    have ih := stages_mulVec x k (by omega)
    have hstage := stageCalls_operator (n := n) ⟨k, hk⟩
    rw [List.range_succ, List.flatMap_append, circuitOperator_append, ← mulVec_mulVec, ih, List.flatMap_singleton,
      hstage]
    exact fourierStage_afterStages x ⟨k, hk⟩

theorem qftCalls_operator (x y : Fin n → Bool) :
    circuitOperator n (qftCalls n) y x = fourierMatrix n y (x ∘ Fin.rev) := by
  have h := congrFun (stages_mulVec x n le_rfl) y
  rwa [afterStages_last, mulVec_single_one] at h

/-- The number of `n` bits with the bits of `j` in reverse. -/
def reverseBits (n j : ℕ) : ℕ := index (bits n j ∘ Fin.rev)

/-- **The Fourier transform.** The circuit of `qft` on `n` qubits is built, and from any
state vector the simulator reaches the discrete Fourier transform, normalized, of its
amplitudes with the bits of their numbers reversed. -/
theorem qft_transforms {n : ℕ} (hn : 1 ≤ n) (hn' : n ≤ 31) : ∃ c : Circuit ℝ, (qft n).build n = .ok c ∧
    ∀ b : CPUBackend ℂ, b.state.size = 2 ^ n → ∃ b', b.run c.ops = .ok b' ∧ b'.state.size = 2 ^ n ∧
      ∀ k < 2 ^ n, b'.state.cell k = (1 / √(2 ^ n) : ℝ) * ∑ j ∈ Finset.range (2 ^ n),
        Complex.exp (2 * Real.pi * Complex.I * k * j / 2 ^ n) * b.state.cell (reverseBits n j) := by
  have hemits := emits_qft hn'
  refine ⟨_, hemits.build hn, fun b hb => ?_⟩
  obtain ⟨b', hrun, hholds⟩ := CPUBackend.run_holds (n := n) (ψ := view n b.state.cell) ⟨hb, rfl⟩ hemits.fits
  refine ⟨b', hrun, hholds.size, fun k hk => ?_⟩
  have hrev : ∀ x : Fin n → Bool, (x ∘ Fin.rev) ∘ Fin.rev = x := fun x => funext fun q => by simp
  have hbits : ∀ x : Fin n → Bool, bits n (index x) = x := fun x => funext fun q => testBit_index x q
  have hcell := hholds.cell (bits n k)
  rw [index_bits hk] at hcell
  rw [hcell, mulVec, dotProduct, sum_index, Finset.mul_sum]
  refine (Finset.sum_bij (fun x _ => x ∘ Fin.rev) (fun _ _ => Finset.mem_univ _)
    (fun x _ y _ h => by rw [← hrev x, h, hrev]) (fun x _ => ⟨x ∘ Fin.rev, Finset.mem_univ _, hrev x⟩)
    fun x _ => ?_)
  rw [qftCalls_operator, fourierMatrix_apply, index_bits hk, reverseBits, hbits, hrev, view, wave,
    Real.fourierChar_apply]
  push_cast
  rw [one_div, div_eq_inv_mul, mul_assoc]
  congr 3
  ring

/-- From `|4⟩`, which is `|1⟩` with its bits reversed, on the three qubits of the example. -/
theorem qft_transforms_three : ∃ (c : Circuit ℝ) (b' : CPUBackend ℂ), (qft 3).build 3 = .ok c ∧
    CPUBackend.run ⟨fun _ => .inOrder, ⟨2 ^ 3, fun j => if j = 4 then 1 else 0⟩, 3⟩ c.ops = .ok b' ∧
      b'.state.cell 2 = (1 / √(2 ^ 3) : ℝ) * Complex.exp (2 * Real.pi * Complex.I * 2 * 1 / 2 ^ 3) := by
  obtain ⟨c, hc, hrun⟩ := qft_transforms (n := 3) (by decide) (by decide)
  obtain ⟨b', hb', -, hcell⟩ :=
    hrun ⟨fun _ => .inOrder, ⟨2 ^ 3, fun j => if j = 4 then 1 else 0⟩, 3⟩ rfl
  refine ⟨c, b', hc, hb', ?_⟩
  have hbits : ∀ j ∈ Finset.range (2 ^ 3), reverseBits 3 j = 4 ↔ j = 1 := by decide
  rw [hcell 2 (by decide), Finset.sum_eq_single_of_mem 1 (by decide) fun j hj hne => ?_]
  · dsimp only
    rw [if_pos ((hbits 1 (by decide)).mpr rfl), mul_one]
    push_cast
    rfl
  · dsimp only
    rw [if_neg fun h => hne ((hbits j hj).mp h), mul_zero]

end

end Qft

end Qsycl
