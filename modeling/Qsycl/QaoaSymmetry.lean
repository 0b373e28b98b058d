/-
# QAOA keeps the symmetries of its cost

An exchange of qubits, together with flips of some of them, that leaves the cost of
every bitstring as it is leaves the amplitudes of the state that QAOA prepares, at
all angles and depths (`qaoa_symmetric`): the uniform superposition has the symmetry,
the mixer has them all, and the cost operator is diagonal. The cost of a cut has
one such symmetry for every graph, the flip of all qubits
(`maxcut_complement`), so that no node is on one side more often than on the other.
-/
import Qsycl.Algorithms
import Qsycl.Lib.Symmetry

namespace Qsycl

open Runs Qubits Matrix Words

variable {n : ℕ}

/-- The cost of no bitstring changes. -/
def KeepsCost (σ : Equiv.Perm (Fin n → Bool)) (cost : Observable ℝ) : Prop :=
  ∀ x, diagonalCost cost (index (σ x)) = diagonalCost cost (index x)

/-- The cost of every bitstring changes its sign. -/
def NegatesCost (σ : Equiv.Perm (Fin n → Bool)) (cost : Observable ℝ) : Prop :=
  ∀ x, diagonalCost cost (index (σ x)) = (diagonalCost cost (index x)).map Neg.neg

/-! ### The operator -/

section Operator

variable {σ : Equiv.Perm (Fin n → Bool)} {cost : Observable ℝ}

theorem diagonalEntry_keeps (hd : cost.isDiagonal = true) (h : KeepsCost σ cost) (x : Fin n → Bool) :
    cost.diagonalEntry (index (σ x)) = cost.diagonalEntry (index x) := by
  have hx := h x
  rw [diagonalCost_entry hd, diagonalCost_entry hd] at hx
  exact Except.ok.inj hx

theorem diagonalEntry_negates (hd : cost.isDiagonal = true) (h : NegatesCost σ cost) (x : Fin n → Bool) :
    cost.diagonalEntry (index (σ x)) = -cost.diagonalEntry (index x) := by
  have hx := h x
  rw [diagonalCost_entry hd, diagonalCost_entry hd] at hx
  exact Except.ok.inj hx

/-- The cost operator is the diagonal of the costs. -/
theorem operator_eq_entries (hl : cost.Legal) (hd : cost.isDiagonal = true) :
    cost.operator cost.numQubits = diagonal fun x => ((cost.diagonalEntry (index x) : ℝ) : ℂ) := by
  rw [operator_eq_diagonal hd]
  congr 1
  funext x
  have hentry := (diagonalCost_entry hd _).symm.trans (diagonalCost_eq hl hd x)
  rw [Except.ok.inj hentry]

theorem commute_exp {A : Op (Fin n)} (h : Commute (σ.permMatrix ℂ) A) (z : ℂ) :
    Commute (σ.permMatrix ℂ) (NormedSpace.exp (z • A)) := (h.smul_right z).exp_right

theorem commute_qaoaOperator {C : Op (Fin n)} (hC : Commute (σ.permMatrix ℂ) C)
    (hM : Commute (σ.permMatrix ℂ) (mixer n)) (angles : List (ℝ × ℝ)) :
    Commute (σ.permMatrix ℂ) (qaoaOperator C angles) := by
  induction angles with
  | nil => exact Commute.one_right _
  | cons a angles ih =>
    obtain ⟨gamma, beta⟩ := a
    rw [qaoaOperator]
    exact ih.mul_right ((commute_exp hM _).mul_right (commute_exp hC _))

end Operator

/-! ### The circuit -/

/-- Every run of the bound circuit of `ansatz::qaoa` on the CPU backend leaves such a state. -/
theorem qaoa_prepares {γ : Type} (draw : StateVec ℝ → γ → ℕ × γ) {cost : Observable ℝ} (hl : cost.Legal)
    (hd : cost.isDiagonal = true) (hn : cost.numQubits ≤ 30) {p : ℕ} {theta : List ℝ}
    (htheta : theta.length = 2 * p) (rt : QuantumRuntime (CPUSimulator γ)) :
    ∃ circuit bound rt' angles, ∃ ω : ℂ, Ansatz.qaoa cost p = .ok circuit ∧
      circuit.bind theta (-1) 0 = .ok bound ∧
      exec (QuantumRuntime.run (CPUSimulator.simulator draw) bound) rt = (.ok (), rt') ∧
      rt'.backend.backend.getState.Holds
        (ω • (qaoaOperator (cost.operator cost.numQubits) angles *ᵥ uniform cost.numQubits)) := by
  obtain ⟨hq, hf⟩ := Ansatz.qaoa_eq hl hd p
  have hlegal : Circuit.Legal ⟨cost.numQubits, 2 * p,
      (Ansatz.qaoaCircuitCalls cost p).map GateCall.op, []⟩ _ :=
    ⟨hl.pos, rfl, hf, fun q hq => absurd hq List.not_mem_nil⟩
  have hb := (Circuit.bind_eq_ok _ _ hlegal.ops theta (-1) 0 _).mpr
    ⟨htheta, fun h => absurd h (by decide), rfl⟩
  obtain ⟨b, hrun, hholds⟩ := QuantumRuntime.run_bound draw hlegal hn hb rt
  obtain ⟨ω, -, hω⟩ := preparedState_qaoa hd p theta
  exact ⟨_, _, _, layerAngles theta 0 p, ω, hq, hb, hrun, hω ▸ hholds⟩

/-! ### The symmetry -/

section Symmetry

variable {γ : Type} (draw : StateVec ℝ → γ → ℕ × γ)

/-- The state of the operators has the symmetries of the cost. -/
theorem qaoaOperator_invariant {cost : Observable ℝ} (hl : cost.Legal) (hd : cost.isDiagonal = true)
    {e : Equiv.Perm (Fin cost.numQubits)} {s : Fin cost.numQubits → Bool} (h : KeepsCost (relabel e s) cost)
    (angles : List (ℝ × ℝ)) (ω : ℂ) (x : Fin cost.numQubits → Bool) :
    (ω • (qaoaOperator (cost.operator cost.numQubits) angles *ᵥ uniform cost.numQubits)) (relabel e s x) =
      (ω • (qaoaOperator (cost.operator cost.numQubits) angles *ᵥ uniform cost.numQubits)) x := by
  have hC : Commute ((relabel e s).permMatrix ℂ) (cost.operator cost.numQubits) := by
    rw [operator_eq_entries hl hd]
    exact commute_permMatrix_diagonal fun y => congrArg _ (diagonalEntry_keeps hd h y)
  have hU := commute_qaoaOperator hC (commute_relabel_sum_X e s) angles
  rw [Pi.smul_apply, Pi.smul_apply, mulVec_invariant hU fun _ => rfl]

/-- A vector of `2ⁿ` amplitudes with the symmetry `σ`. -/
structure Symmetric (σ : Equiv.Perm (Fin n → Bool)) (psi : StateVec ℂ) : Prop where
  size : psi.size = 2 ^ n
  cell : ∀ x, psi.cell (index (σ x)) = psi.cell (index x)

/-- A diagonal observable that changes its sign where the state does not has expectation 0. -/
theorem Symmetric.expectationValue {A : Observable ℝ} (hl : A.Legal) (hd : A.isDiagonal = true)
    {σ : Equiv.Perm (Fin A.numQubits → Bool)} (hA : NegatesCost σ A) {psi : StateVec ℂ}
    (h : Symmetric σ psi) : expectationValue psi A = .ok 0 := by
  have hpsi : psi.Holds (view A.numQubits psi.cell) := ⟨h.size, rfl⟩
  rw [expectationValue_holds hl hpsi, operator_eq_entries hl hd, expect_diagonal,
    sum_normSq_eq_zero (diagonalEntry_negates hd hA) h.cell]

theorem qaoa_invariant {cost : Observable ℝ} (hl : cost.Legal) (hd : cost.isDiagonal = true)
    (hn : cost.numQubits ≤ 30) {e : Equiv.Perm (Fin cost.numQubits)} {s : Fin cost.numQubits → Bool}
    (hsym : KeepsCost (relabel e s) cost) {p : ℕ} {theta : List ℝ} (htheta : theta.length = 2 * p)
    (rt : QuantumRuntime (CPUSimulator γ)) :
    ∃ circuit bound rt', Ansatz.qaoa cost p = .ok circuit ∧ circuit.bind theta (-1) 0 = .ok bound ∧
      exec (QuantumRuntime.run (CPUSimulator.simulator draw) bound) rt = (.ok (), rt') ∧
      Symmetric (relabel e s) rt'.backend.backend.getState := by
  obtain ⟨circuit, bound, rt', angles, ω, hq, hb, hrun, hholds⟩ := qaoa_prepares draw hl hd hn htheta rt
  refine ⟨circuit, bound, rt', hq, hb, hrun, hholds.size, fun x => ?_⟩
  rw [hholds.cell, hholds.cell, qaoaOperator_invariant hl hd hsym]

/-- **QAOA keeps the symmetries of its cost.** Let an exchange of the qubits with flips of some
of them leave the cost of each bitstring as it is. Then at all depths and parameters a run of
the circuit of `ansatz::qaoa` gives two basis states that it exchanges the same amplitude, and
every diagonal observable whose values it negates the expectation 0. -/
theorem qaoa_symmetric {terms : List (Term ℝ)} {cost : Observable ℝ}
    (hcost : Observable.ofTerms n terms = .ok cost) (hd : cost.isDiagonal = true) (hn : n ≤ 30)
    {e : Equiv.Perm (Fin n)} {s : Fin n → Bool} (hsym : KeepsCost (relabel e s) cost) {p : ℕ}
    {theta : List ℝ} (htheta : theta.length = 2 * p) (rt : QuantumRuntime (CPUSimulator γ)) :
    ∃ circuit bound rt', Ansatz.qaoa cost p = .ok circuit ∧ circuit.bind theta (-1) 0 = .ok bound ∧
      exec (QuantumRuntime.run (CPUSimulator.simulator draw) bound) rt = (.ok (), rt') ∧
      Symmetric (relabel e s) rt'.backend.backend.getState ∧
      ∀ (terms' : List (Term ℝ)) (A : Observable ℝ), Observable.ofTerms n terms' = .ok A →
        A.isDiagonal = true → NegatesCost (relabel e s) A →
        expectationValue rt'.backend.backend.getState A = .ok 0 := by
  have hl := legal_of_ofTerms hcost
  obtain ⟨-, rfl, -⟩ := ofTerms_ok hcost
  obtain ⟨circuit, bound, rt', hq, hb, hrun, h⟩ := qaoa_invariant draw hl hd hn hsym htheta rt
  refine ⟨circuit, bound, rt', hq, hb, hrun, h, fun terms' A hA hdA hneg => ?_⟩
  have hlA := legal_of_ofTerms hA
  obtain ⟨numQubits, masks⟩ := A
  obtain ⟨-, rfl, -⟩ := ofTerms_ok hA
  exact h.expectationValue hlA hdA hneg

/-- `Z₀ Z₁` on two qubits, exchanged and flipped. -/
theorem qaoa_symmetric_two : ∃ circuit bound rt',
    Ansatz.qaoa (⟨2, [⟨1, 0, 3, 0⟩]⟩ : Observable ℝ) 1 = .ok circuit ∧ circuit.bind [1, 2] (-1) 0 = .ok bound ∧
      exec (QuantumRuntime.run (CPUSimulator.simulator fun _ rng => (0, rng)) bound)
        ⟨⟨.new fun _ => .inOrder, ()⟩, 0⟩ = (.ok (), rt') ∧
      Symmetric (relabel (Equiv.swap (0 : Fin 2) 1) fun _ => true) rt'.backend.backend.getState := by
  have hcost : Observable.ofTerms 2 [.sparse 1 [('Z', 0), ('Z', 1)]] =
      .ok (⟨2, [⟨1, 0, 3, 0⟩]⟩ : Observable ℝ) := rfl
  have hsym : KeepsCost (relabel (Equiv.swap (0 : Fin 2) 1) fun _ => true)
      (⟨2, [⟨1, 0, 3, 0⟩]⟩ : Observable ℝ) := by
    have hindex : ∀ x : Fin 2 → Bool,
        parity64 (index (relabel (Equiv.swap (0 : Fin 2) 1) (fun _ => true) x) &&& 3) =
          parity64 (index x &&& 3) := by decide
    intro x
    simp only [diagonalCost, List.foldl_cons, List.foldl_nil, hindex]
  have htheta : ([1, 2] : List ℝ).length = 2 * 1 := rfl
  obtain ⟨circuit, bound, rt', hq, hb, hrun, h, -⟩ := qaoa_symmetric (fun _ rng => (0, rng)) hcost rfl
    (by decide) hsym htheta ⟨⟨.new fun _ => .inOrder, ()⟩, 0⟩
  exact ⟨circuit, bound, rt', hq, hb, hrun, h⟩

end Symmetry

/-! ### The complement of a cut -/

section Complement

variable {γ : Type} (draw : StateVec ℝ → γ → ℕ × γ) {edges : List (Edge ℝ)}

/-- Every node changes its side. -/
def complement (n : ℕ) : Equiv.Perm (Fin n → Bool) := relabel 1 fun _ => true

theorem keepsCost_complement (hn : n ≤ 64) (he : ∀ e ∈ edges, e.Within n) (b : Bool) :
    KeepsCost (complement n) (maxcutObservable n edges b) := by
  intro x
  have hcut : cutValue edges (index (complement n x)) = cutValue edges (index x) := by
    refine cutValue_congr (fun e hmem => ⟨(he e hmem).1, (he e hmem).2.1⟩) true fun q hq => ?_
    have hx := testBit_index x ⟨q, hq⟩
    have hσ := testBit_index (complement n x) ⟨q, hq⟩
    rw [show (index x).testBit q = _ from hx, show (index (complement n x)).testBit q = _ from hσ]
    exact Bool.xor_comm _ _
  rw [diagonalCost_maxcut hn he, diagonalCost_maxcut hn he, hcut]

/-- The side of a node, 1 or -1. -/
def sideOf (n q : ℕ) : Observable ℝ := ⟨n, [⟨1, 0, 2 ^ q, 0⟩]⟩

theorem legal_sideOf (hn : n ≤ 64) (q : Fin n) : (sideOf n q).Legal := by
  refine ⟨q.pos, hn, fun m hm => ?_⟩
  rw [List.mem_singleton.mp hm]
  exact fits_of_z rfl rfl (Nat.pow_lt_pow_right Nat.one_lt_two q.isLt)

/-- The sign of a Z factor is that of its bit. -/
theorem sign_bit {q : ℕ} (hq : q < 64) (bits : ℕ) :
    (if parity64 (bits &&& 2 ^ q) ≠ 0 then -1 else 1 : ℝ) = if bits.testBit q then -1 else 1 := by
  have hbit : ∀ i, ((bits &&& 2 ^ q).testBit i).toNat = if i = q then (bits.testBit q).toNat else 0 := by
    intro i
    rw [Nat.testBit_and, Nat.testBit_two_pow]
    by_cases h : i = q
    · simp [h]
    · simp [h, Ne.symm h]
  rw [parity64, parity_sign, bitSum, Finset.sum_congr rfl fun i _ => hbit i, Finset.sum_ite_eq',
    if_pos (Finset.mem_range.mpr hq)]
  cases bits.testBit q <;> simp

theorem diagonalCost_sideOf (hn : n ≤ 64) (q : Fin n) (x : Fin n → Bool) :
    diagonalCost (sideOf n q) (index x) = .ok (if x q then -1 else 1) := by
  have hsum : (sideOf n q).masks.foldl (fun total t =>
      total + t.coeff * (if parity64 (index x &&& t.z) ≠ 0 then -1 else 1)) (0 : ℝ) = if x q then -1 else 1 := by
    rw [sideOf, List.foldl_cons, List.foldl_nil, sign_bit (by omega), testBit_index, zero_add, one_mul]
  exact congrArg Except.ok hsum

theorem negatesCost_sideOf (hn : n ≤ 64) (q : Fin n) : NegatesCost (complement n) (sideOf n q) := by
  intro x
  have hflip : complement n x q = !x q := Bool.xor_true _
  rw [diagonalCost_sideOf hn, diagonalCost_sideOf hn, hflip]
  cases x q <;> simp [Except.map]

/-- **A cut and its complement.** At all depths and parameters QAOA on a MaxCut observable
gives a cut and its complement the same amplitude, and so each node expectation 0. -/
theorem maxcut_complement {b : Bool} {cost : Observable ℝ} (h : maxcut n edges b = .ok cost) (hn : n ≤ 30)
    {p : ℕ} {theta : List ℝ} (htheta : theta.length = 2 * p) (rt : QuantumRuntime (CPUSimulator γ)) :
    ∃ circuit bound rt', Ansatz.qaoa cost p = .ok circuit ∧ circuit.bind theta (-1) 0 = .ok bound ∧
      exec (QuantumRuntime.run (CPUSimulator.simulator draw) bound) rt = (.ok (), rt') ∧
      Symmetric (complement n) rt'.backend.backend.getState ∧
      ∀ q : Fin n, expectationValue rt'.backend.backend.getState (sideOf n q) = .ok 0 := by
  obtain ⟨hn1, hn64, he⟩ := maxcut_accepts h
  obtain rfl : maxcutObservable n edges b = cost := Except.ok.inj ((maxcut_eq hn1 hn64 he b).symm.trans h)
  obtain ⟨circuit, bound, rt', hq, hb, hrun, hsym⟩ := qaoa_invariant draw (legal_maxcutObservable hn1 hn64 he b)
    (isDiagonal_maxcutObservable b) hn (keepsCost_complement hn64 he b) htheta rt
  exact ⟨circuit, bound, rt', hq, hb, hrun, hsym, fun q =>
    hsym.expectationValue (legal_sideOf hn64 q) rfl (negatesCost_sideOf hn64 q)⟩

end Complement

end Qsycl
