/-
# Basis states, written and read back

`append_basis_state` puts an X on each qubit whose bit is set, so behind any
circuit it moves amplitude `j` to `j ^ bits` (`basisState_shifts`). On an empty
circuit it prepares the basis state of the bits, and the runtime reads them back:
every shot of `sample` returns them, `sample_counts` has them as its only key,
and the expectation of a diagonal observable is their `diagonal_cost`
(`basisState_readBack`). The qubit numbering of the builder, the kernels, the
readout, the printed keys and the cost function is thus one and the same.
-/
import Qsycl.Appends
import Qsycl.Devices
import Qsycl.Diagonal
import Qsycl.Lib.Symmetry

namespace Qsycl

open Runs Qubits Matrix SortedMap Ansatz

/-! ### The gates -/

section Gates

variable {n bits : ℕ}

theorem bit_iff (bits q : ℕ) : (bits >>> q) &&& 1 ≠ 0 ↔ bits.testBit q = true := by
  rw [Nat.and_one_is_mod, Nat.shiftRight_eq_div_pow, Nat.testBit_eq_decide_div_mod_eq]
  simp

/-- The gate of one bit. -/
theorem bitGate_mulVec (bits : ℕ) (q : Fin n) (ψ : State (Fin n)) (x : Fin n → Bool) :
    (circuitOperator n (if (bits >>> (q : ℕ)) &&& 1 ≠ 0 then [.x q] else []) *ᵥ ψ) x =
      ψ (Function.update x q (x q ^^ bits.testBit q)) := by
  have hx : (GateCall.x (q : ℕ) : GateCall ℝ).operator n = onQubit q Pauli.X.op :=
    (Kernel.operator_single q _).trans (by rw [Gates.toOp_X])
  by_cases hbit : bits.testBit q = true
  · rw [if_pos ((bit_iff bits q).mpr hbit), circuitOperator, circuitOperator, Matrix.one_mul, hx,
      onQubit_X_mulVec, hbit, Bool.xor_true]
  · rw [if_neg (mt (bit_iff bits q).mp hbit), circuitOperator, one_mulVec, Bool.not_eq_true _ |>.mp hbit,
      Bool.xor_false, Function.update_eq_self]

/-- The gates of the bits of some qubits. -/
theorem bitGates_mulVec (bits : ℕ) : ∀ {qs : List (Fin n)}, qs.Nodup → ∀ (ψ : State (Fin n)) (x : Fin n → Bool),
    (circuitOperator n ((qs.map Fin.val).flatMap fun q => if (bits >>> q) &&& 1 ≠ 0 then [.x q] else []) *ᵥ ψ) x =
      ψ fun q => if q ∈ qs then x q ^^ bits.testBit q else x q
  | [], _, ψ, x => by simp [circuitOperator]
  | q :: qs, h, ψ, x => by
    obtain ⟨hq, hn⟩ := List.nodup_cons.mp h
    rw [List.map_cons, List.flatMap_cons, circuitOperator_append, ← mulVec_mulVec, bitGates_mulVec bits hn,
      bitGate_mulVec, if_neg hq]
    congr 1
    funext r
    by_cases hr : r = q
    · subst hr
      simp
    · simp [hr]

/-- **The gates of a basis state** flip the bits that are set. -/
theorem basisCalls_mulVec (hn : n ≤ 64) (bits : ℕ) (ψ : State (Fin n)) (x : Fin n → Bool) :
    (circuitOperator n (basisCalls n bits) *ᵥ ψ) x = ψ fun q => x q ^^ bits.testBit q := by
  have h := bitGates_mulVec bits (List.nodup_finRange n) ψ x
  rw [List.map_coe_finRange_eq_range] at h
  rw [basisCalls, min_eq_left hn, h]
  simp

theorem fits_basisCalls {P : ℕ} : ∀ g ∈ (basisCalls n bits : List (GateCall ℝ)), g.Fits n P := by
  intro g hg
  obtain ⟨q, hq, hg⟩ := List.mem_flatMap.mp hg
  have hq : q < n := (List.mem_range.mp hq).trans_le (min_le_left _ _)
  split at hg
  · rw [List.mem_singleton.mp hg]
    exact ⟨by simpa [GateCall.qubits] using hq, by simp [GateCall.qubits], by simp [GateCall.args]⟩
  · exact absurd hg List.not_mem_nil

end Gates

/-! ### The circuit -/

/-- The circuit with the gates of a basis state behind its own. -/
def Circuit.withBasisState (c : Circuit ℝ) (bits : ℕ) : Circuit ℝ :=
  { c with ops := c.ops ++ (basisCalls c.numQubits bits).map GateCall.op }

section Circuits

variable {c : Circuit ℝ} {calls : List (GateCall ℝ)} {bits : ℕ}

theorem exec_appendBasisState_ok (hbits : bits < 2 ^ c.numQubits) :
    (appendBasisState bits).exec c = (.ok (), c.withBasisState bits) := by
  have hshift : bits >>> c.numQubits = 0 := by
    rw [Nat.shiftRight_eq_div_pow]
    exact Nat.div_eq_of_lt hbits
  rw [exec_appendBasisState, if_neg fun h => h.2 hshift]
  rfl

theorem Circuit.Legal.withBasisState (hc : c.Legal calls) (bits : ℕ) :
    (c.withBasisState bits).Legal (calls ++ basisCalls c.numQubits bits) where
  pos := hc.pos
  ops := by rw [Circuit.withBasisState, hc.ops, List.map_append]
  fits := fun g hg => (List.mem_append.mp hg).elim (hc.fits g) (fits_basisCalls g)
  measured := hc.measured

theorem isParametric_withBasisState (h : c.isParametric = false) (bits : ℕ) :
    (c.withBasisState bits).isParametric = false := by
  rw [Circuit.isParametric, List.any_eq_false] at h ⊢
  intro op hop
  rcases List.mem_append.mp hop with hop | hop
  · exact h op hop
  · obtain ⟨g, hg, rfl⟩ := List.mem_map.mp hop
    obtain ⟨q, -, hg⟩ := List.mem_flatMap.mp hg
    split at hg
    · rw [List.mem_singleton.mp hg]
      simp [GateCall.op, GateOp.isParametric, GateCall.args]
    · exact absurd hg List.not_mem_nil

end Circuits

/-! ### Behind any circuit -/

section Runs

variable {γ : Type} (draw : StateVec ℝ → γ → ℕ × γ)

/-- **A basis state behind a circuit** moves each amplitude to the number with the bits flipped. -/
theorem basisState_shifts {c : Circuit ℝ} (hc : c.Built) (hbound : c.isParametric = false) (hn : c.numQubits ≤ 30)
    {bits : ℕ} (hbits : bits < 2 ^ c.numQubits) (rt : QuantumRuntime (CPUSimulator γ)) :
    ∃ c' rt₀ rt₁, (appendBasisState bits).exec c = (.ok (), c') ∧
      exec (QuantumRuntime.run (CPUSimulator.simulator draw) c) rt = (.ok (), rt₀) ∧
      exec (QuantumRuntime.run (CPUSimulator.simulator draw) c') rt = (.ok (), rt₁) ∧
      ∀ j < 2 ^ c.numQubits, rt₁.backend.backend.state.cell j = rt₀.backend.backend.state.cell (j ^^^ bits) := by
  obtain ⟨calls, hl⟩ := Circuit.legal_of_built hc
  obtain ⟨b₀, hrun₀, hholds₀⟩ := QuantumRuntime.run_prepares draw hl hbound hn rt
  obtain ⟨b₁, hrun₁, hholds₁⟩ := QuantumRuntime.run_prepares draw (hl.withBasisState bits)
    (isParametric_withBasisState hbound bits) hn rt
  refine ⟨_, _, _, exec_appendBasisState_ok hbits, hrun₀, hrun₁, fun j hj => ?_⟩
  obtain ⟨x, rfl⟩ : ∃ x : Fin c.numQubits → Bool, j = index x := ⟨_, (index_bits hj).symm⟩
  have hcell : b₁.state.cell (index x) =
      preparedState c.numQubits (calls ++ basisCalls c.numQubits bits) x := hholds₁.cell x
  rw [xor_index x hbits, hholds₀.cell, hcell, preparedState, circuitOperator_append, ← mulVec_mulVec,
    basisCalls_mulVec (by omega)]
  rfl

end Runs

/-! ### Reading back -/

/-- `discrete_distribution` draws an index of positive weight, if there is one. -/
def DrawsPossible {γ : Type} (draw : StateVec ℝ → γ → ℕ × γ) : Prop :=
  ∀ (p : StateVec ℝ) (rng : γ), (∀ i < p.size, 0 ≤ p.cell i) → (∃ i < p.size, 0 < p.cell i) →
    (draw p rng).1 < p.size ∧ 0 < p.cell (draw p rng).1

section ReadBack

variable {γ : Type} {draw : StateVec ℝ → γ → ℕ × γ} {n bits : ℕ}

/-- A distribution on one index is drawn from without chance. -/
theorem draws_single (hdraw : DrawsPossible draw) {p : StateVec ℝ} {k : ℕ} (hk : k < p.size)
    (hp : ∀ i < p.size, p.cell i = if i = k then 1 else 0) :
    ∀ (shots : ℕ) (rng : γ), draws draw p shots rng = List.replicate shots k
  | 0, _ => rfl
  | shots + 1, rng => by
    have hnonneg : ∀ i < p.size, 0 ≤ p.cell i := by
      intro i hi
      rw [hp i hi]
      split <;> norm_num
    have hpos : 0 < p.cell k := by
      rw [hp k hk, if_pos rfl]
      exact zero_lt_one
    obtain ⟨hlt, hweight⟩ := hdraw p rng hnonneg ⟨k, hk, hpos⟩
    have hdrawn : (draw p rng).1 = k := by
      by_contra hne
      rw [hp _ hlt, if_neg hne] at hweight
      exact hweight.false
    rw [draws, hdrawn, draws_single hdraw hk hp shots, List.replicate_succ]

/-- All qubits in order read the index itself. -/
theorem pack_range (hbits : bits < 2 ^ n) : pack bits (List.range n) = bits := by
  refine Nat.eq_of_testBit_eq fun k => ?_
  rw [testBit_pack]
  by_cases hk : k < n
  · rw [List.getElem?_eq_getElem (by simpa using hk)]
    simp
  · have hlow : bits.testBit k = false :=
      Nat.testBit_lt_two_pow (hbits.trans_le (Nat.pow_le_pow_right (by norm_num) (by omega)))
    rw [List.getElem?_eq_none (by simpa using hk), hlow]
    rfl

/-- The state of the gates of a basis state. -/
theorem preparedState_basisCalls (hn : n ≤ 64) (bits : ℕ) :
    preparedState n (basisCalls n bits) = Pi.single (Qubits.bits n bits) 1 := by
  funext x
  rw [preparedState, basisCalls_mulVec hn, zeroState, Pi.single_apply]
  refine if_congr ?_ rfl rfl
  constructor
  · intro h
    funext q
    simpa [Qubits.bits] using congrFun h q
  · rintro rfl
    funext q
    simp [Qubits.bits]

/-- The empty circuit with a basis state. -/
def basisCircuit (n bits : ℕ) : Circuit ℝ := Circuit.withBasisState ⟨n, 0, [], []⟩ bits

variable (draw) in
/-- A run of it leaves the basis state. -/
theorem run_basisCircuit (hpos : 0 < n) (hn : n ≤ 30) (bits : ℕ) (rt : QuantumRuntime (CPUSimulator γ)) :
    ∃ b, exec (QuantumRuntime.run (CPUSimulator.simulator draw) (basisCircuit n bits)) rt =
        (.ok (), ⟨⟨b, rt.backend.rng⟩, n⟩) ∧ b.state.Holds (Pi.single (Qubits.bits n bits) 1 : State (Fin n)) := by
  have hempty : Circuit.Legal (⟨n, 0, [], []⟩ : Circuit ℝ) [] := ⟨hpos, rfl, nofun, nofun⟩
  obtain ⟨b, hrun, hholds⟩ := QuantumRuntime.run_prepares draw (hempty.withBasisState bits)
    (isParametric_withBasisState rfl bits) hn rt
  have hstate := preparedState_basisCalls (hn.trans (by norm_num : 30 ≤ 64)) bits
  exact ⟨b, hrun, hstate ▸ hholds⟩

/-- All shots read the bits. -/
theorem sample_basisState (hdraw : DrawsPossible draw) (hpos : 0 < n) (hbits : bits < 2 ^ n) {b : CPUBackend ℂ}
    (hb : b.state.Holds (Pi.single (Qubits.bits n bits) 1 : State (Fin n))) (shots : ℕ) (rng : γ) :
    (exec (CPUSimulator.sample draw (List.range n) shots) ⟨b, rng⟩).1 =
      (List.replicate shots bits).mapM fun i => packReadout i (List.range n) 0 0 := by
  have hcell : ∀ i < b.probabilities.size, b.probabilities.cell i = if i = bits then 1 else 0 := by
    intro i hi
    have hlt : i < 2 ^ n := hb.size ▸ hi
    obtain ⟨x, rfl⟩ : ∃ x : Fin n → Bool, i = index x := ⟨_, (index_bits hlt).symm⟩
    have heq : index x = bits ↔ x = Qubits.bits n bits :=
      ⟨fun h => index_injective (h.trans (index_bits hbits).symm), fun h => h ▸ index_bits hbits⟩
    have hnormSq : b.probabilities.cell (index x) =
        Complex.normSq ((Pi.single (Qubits.bits n bits) 1 : State (Fin n)) x) :=
      congrArg Complex.normSq (hb.cell x)
    rw [hnormSq, normSq_single]
    exact if_congr heq.symm rfl rfl
  have hrange : (List.range n).isEmpty = false := by
    rw [List.isEmpty_eq_false_iff, Ne, List.range_eq_nil]
    omega
  have hsize : bits < b.probabilities.size := hbits.trans_eq hb.size.symm
  unfold CPUSimulator.sample
  rw [exec_get_bind]
  rw [hrange, if_neg Bool.false_ne_true, exec_zoom, exec_shotLoop, draws_single hdraw hsize hcell]

/-- What `sample` returns after a run. -/
theorem exec_sample_of_run {φ : Type} {B : Simulator φ (List ℕ)} {circuit : Circuit ℝ} {rt : QuantumRuntime φ}
    {f : φ} (hrun : exec (QuantumRuntime.run B circuit) rt = (.ok (), ⟨f, circuit.numQubits⟩)) (shots : ℕ) :
    (exec (QuantumRuntime.sample B circuit shots) rt).1 = (exec (B.sample circuit.readout shots) f).1 := by
  unfold QuantumRuntime.sample
  rw [exec_bind, hrun]
  dsimp only
  rw [exec_get_bind]
  rfl

/-- The histogram of equal shots. -/
theorem readCounts_replicate {measured : List ℕ} (hq : ∀ q ∈ measured, q < 64) (hlen : measured.length ≤ 64)
    (i shots : ℕ) : QuantumRuntime.readCounts measured (List.replicate shots i) =
      .ok (if shots = 0 then [] else [(QuantumRuntime.readoutKey measured i, shots)]) := by
  obtain ⟨counts, hcounts, hlaw⟩ :=
    (QuantumRuntime.readCounts_law (List.replicate shots i) hq).mpr (Or.inl hlen)
  have htally := hlaw.tally
  rw [List.map_replicate] at htally
  rw [hcounts]
  by_cases hshots : shots = 0
  · rw [hshots, List.replicate_zero] at htally
    rw [if_pos hshots, htally.unique .nil]
  · have hone : Tally (List.replicate shots (QuantumRuntime.readoutKey measured i))
        [(QuantumRuntime.readoutKey measured i, shots)] := by
      have h := Tally.of_replicate (m := [(QuantumRuntime.readoutKey measured i, shots)])
        (List.pairwise_singleton _ _) (by simpa using Nat.pos_of_ne_zero hshots)
      simpa using h
    rw [if_neg hshots, htally.unique hone]

/-- **A basis state is read back.** From any runtime, the circuit that `append_basis_state`
makes of an empty one gives the bits in every shot and in the only key of the counts, and
their cost as the expectation of a diagonal observable. -/
theorem basisState_readBack (hdraw : DrawsPossible draw) (hpos : 0 < n) (hn : n ≤ 30) (hbits : bits < 2 ^ n)
    (rt : QuantumRuntime (CPUSimulator γ)) :
    ∃ empty circuit : Circuit ℝ, Circuit.new n = .ok empty ∧
      (appendBasisState bits).exec empty = (.ok (), circuit) ∧
      (∀ shots, (exec (QuantumRuntime.sample (CPUSimulator.simulator draw) circuit shots) rt).1 =
        .ok (List.replicate shots bits)) ∧
      (∀ shots, (exec (QuantumRuntime.sampleCounts (CPUSimulator.simulator draw) circuit shots) rt).1 =
        .ok (if shots = 0 then [] else [(QuantumRuntime.readoutKey (List.range n) bits, shots)])) ∧
      ∀ terms obs, Observable.ofTerms n terms = .ok obs → obs.isDiagonal = true →
        (exec (QuantumRuntime.expectation (CPUSimulator.stateSimulator draw) circuit obs) rt).1 =
          diagonalCost obs bits := by
  obtain ⟨b, hrun, hb⟩ := run_basisCircuit draw hpos hn bits rt
  have hq : ∀ q ∈ List.range n, q < 64 := fun q hq => by
    have := List.mem_range.mp hq
    omega
  have hlen : (List.range n).length ≤ 64 := by
    rw [List.length_range]
    omega
  have hnew : Circuit.new n = .ok (⟨n, 0, [], []⟩ : Circuit ℝ) := if_neg hpos.ne'
  have hsample := fun shots => sample_basisState hdraw hpos hbits hb shots rt.backend.rng
  refine ⟨_, basisCircuit n bits, hnew, exec_appendBasisState_ok hbits, fun shots => ?_, fun shots => ?_,
    fun terms obs hobs hd => ?_⟩
  · refine (exec_sample_of_run hrun shots).trans ((hsample shots).trans ?_)
    have hpack : ∀ i ∈ List.replicate shots bits, packReadout i (List.range n) 0 0 = .ok i := by
      intro i hi
      rw [List.eq_of_mem_replicate hi, packReadout_eq hq (by omega), Nat.zero_or, Nat.shiftLeft_zero,
        pack_range hbits]
    rw [mapM_eq_ok hpack, List.map_id']
  · refine (QuantumRuntime.exec_sampleCounts_drawn hrun (hsample shots)).trans ?_
    exact readCounts_replicate hq hlen bits shots
  · have ho := legal_of_ofTerms hobs
    obtain ⟨-, rfl, -⟩ := ofTerms_ok hobs
    rw [exec_expectation (S := CPUSimulator.stateSimulator draw) hrun rfl obs]
    refine (expectationValue_holds ho hb).trans ?_
    rw [expect_basis ho hd, index_bits hbits, diagonalCost_entry hd]

/-- **Basis states.** Behind a circuit without free parameters `append_basis_state` moves
amplitude `j` to `j ^ bits`; and from an empty circuit on as many qubits the bits are read
back, in every shot, in the only key of the counts and as their cost. -/
theorem basisState_correct (hdraw : DrawsPossible draw) {c : Circuit ℝ} (hc : c.Built)
    (hbound : c.isParametric = false) (hn : c.numQubits ≤ 30) (hbits : bits < 2 ^ c.numQubits)
    (rt : QuantumRuntime (CPUSimulator γ)) :
    (∃ c' rt₀ rt₁, (appendBasisState bits).exec c = (.ok (), c') ∧
      exec (QuantumRuntime.run (CPUSimulator.simulator draw) c) rt = (.ok (), rt₀) ∧
      exec (QuantumRuntime.run (CPUSimulator.simulator draw) c') rt = (.ok (), rt₁) ∧
      ∀ j < 2 ^ c.numQubits, rt₁.backend.backend.state.cell j = rt₀.backend.backend.state.cell (j ^^^ bits)) ∧
    ∃ empty circuit : Circuit ℝ, Circuit.new c.numQubits = .ok empty ∧
      (appendBasisState bits).exec empty = (.ok (), circuit) ∧
      (∀ shots, (exec (QuantumRuntime.sample (CPUSimulator.simulator draw) circuit shots) rt).1 =
        .ok (List.replicate shots bits)) ∧
      (∀ shots, (exec (QuantumRuntime.sampleCounts (CPUSimulator.simulator draw) circuit shots) rt).1 =
        .ok (if shots = 0 then [] else [(QuantumRuntime.readoutKey (List.range c.numQubits) bits, shots)])) ∧
      ∀ terms obs, Observable.ofTerms c.numQubits terms = .ok obs → obs.isDiagonal = true →
        (exec (QuantumRuntime.expectation (CPUSimulator.stateSimulator draw) circuit obs) rt).1 =
          diagonalCost obs bits := by
  obtain ⟨calls, hl⟩ := Circuit.legal_of_built hc
  exact ⟨basisState_shifts draw hc hbound hn hbits rt, basisState_readBack hdraw hl.pos hn hbits rt⟩

/-- Draws the first index of positive weight. -/
noncomputable def drawPossible (p : StateVec ℝ) (rng : Unit) : ℕ × Unit :=
  (((List.range p.size).find? fun i => 0 < p.cell i).getD 0, rng)

theorem drawsPossible_drawPossible : DrawsPossible drawPossible := by
  intro p rng _ hpos
  obtain ⟨i, hi, hweight⟩ := hpos
  cases hfind : (List.range p.size).find? fun i => 0 < p.cell i with
  | none => exact absurd hweight (by simpa using List.find?_eq_none.mp hfind i (List.mem_range.mpr hi))
  | some k =>
    have hk : (drawPossible p rng).1 = k := by rw [drawPossible, hfind, Option.getD_some]
    rw [hk]
    exact ⟨List.mem_range.mp (List.mem_of_find?_eq_some hfind), by simpa using List.find?_some hfind⟩

/-- X behind H, and the bit 1. -/
theorem basisState_correct_one :
    let rt : QuantumRuntime (CPUSimulator Unit) := ⟨⟨.new fun _ => .inOrder, ()⟩, 0⟩
    (∃ c' rt₀ rt₁, (appendBasisState 1).exec hadamardCircuit = (.ok (), c') ∧
      exec (QuantumRuntime.run (CPUSimulator.simulator drawPossible) hadamardCircuit) rt = (.ok (), rt₀) ∧
      exec (QuantumRuntime.run (CPUSimulator.simulator drawPossible) c') rt = (.ok (), rt₁) ∧
      ∀ j < 2, rt₁.backend.backend.state.cell j = rt₀.backend.backend.state.cell (j ^^^ 1)) ∧
    ∃ empty circuit : Circuit ℝ, Circuit.new 1 = .ok empty ∧
      (appendBasisState 1).exec empty = (.ok (), circuit) ∧
      (exec (QuantumRuntime.sample (CPUSimulator.simulator drawPossible) circuit 3) rt).1 = .ok [1, 1, 1] ∧
      (exec (QuantumRuntime.sampleCounts (CPUSimulator.simulator drawPossible) circuit 3) rt).1 =
        .ok [([49], 3)] := by
  intro rt
  obtain ⟨hshifts, empty, circuit, hnew, happend, hsample, hcounts, -⟩ :=
    basisState_correct drawsPossible_drawPossible built_hadamardCircuit rfl (by decide)
      (show 1 < 2 ^ hadamardCircuit.numQubits by decide) rt
  exact ⟨hshifts, empty, circuit, hnew, happend, hsample 3, hcounts 3⟩

end ReadBack

end Qsycl
