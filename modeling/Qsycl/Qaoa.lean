/-
# QAOA computes its exponentials

On a diagonal cost operator `C` the circuit of `ansatz::qaoa` prepares, up to
one phase, `∏ₖ exp (-i βₖ ∑ X) exp (-i γₖ C)` applied to the uniform
superposition, as long as the numbers of its parameters are `int`s
(`qaoa_correct`). The gadget of a term is a rotation about its Z string
(`gadget_operator`): each controlled not of the fan-in moves the sign of one
qubit onto the target. At any parameter vector the layers are those of the
angles the circuit reads (`layerAngles`).
-/
import Qsycl.Ansatz
import Qsycl.GateIdentities
import Qsycl.Lib.Exponentials
import Qsycl.Lib.Symmetry

namespace Qsycl

open Qubits Matrix
open Gates (half)

/-! ### The cost of a bitstring -/

/-- The copy of `parity` in `algorithms.cpp`. -/
def parity64 (v : ℕ) : ℕ := parity v

def diagonalCost {R : Type} [Ring R] (cost : Observable R) (bits : ℕ) : Except Exn R :=
  if !cost.isDiagonal then
    throw ⟨.invalidArgument, "diagonal_cost: observable has X/Y terms"⟩
  else
    return cost.masks.foldl (fun total t =>
      total + t.coeff * (if parity64 (bits &&& t.z) ≠ 0 then -1 else 1)) 0

section Diagonal

variable {n : ℕ}

/-- The support of a mask, as qubits of the register. -/
def supportFin (n z : ℕ) : List (Fin n) := (List.finRange n).filter fun q => z.testBit q

theorem support_eq_map (n z : ℕ) : Ansatz.support n z = (supportFin n z).map Fin.val := by
  rw [Ansatz.support, supportFin, ← List.map_coe_finRange_eq_range, List.filter_map]
  simp [Function.comp_def, Nat.testBit, Nat.and_comm]

theorem nodup_supportFin (n z : ℕ) : (supportFin n z).Nodup := (List.nodup_finRange n).filter _

theorem isDiagonal_x {R : Type} {obs : Observable R} (h : obs.isDiagonal = true) :
    ∀ m ∈ obs.masks, m.x = 0 := by
  simpa [Observable.isDiagonal] using h

theorem flips_string {m : PauliMask ℝ} (hx : m.x = 0) (q : Fin n) : (m.string n q).flips = false := by
  simp [PauliMask.string, PauliMask.pauli, hx]

/-- A mask without X and Y factors is a Z string. -/
theorem pauliString_support {m : PauliMask ℝ} (hx : m.x = 0) :
    pauliString (m.string n) = zString (supportFin n m.z) := by
  refine pauliString_eq_zString (flips_string hx) (nodup_supportFin n m.z) fun q => ?_
  simp [supportFin, PauliMask.string, PauliMask.pauli]

end Diagonal

/-! ### Gadgets -/

section Gadgets

variable {n : ℕ}

theorem gadget_cons {R : Type} (c : ℕ) (qs : List ℕ) (t : ℕ) (a : Param R) :
    Ansatz.gadget (c :: qs) t a = .cnot c t :: (Ansatz.gadget qs t a ++ [.cnot c t]) := by
  simp [Ansatz.gadget]

/-- **A gadget rotates about the Z string of its qubits.** -/
theorem gadget_operator {t : Fin n} (a : Param ℝ) {qs : List (Fin n)} (h : t ∉ qs) :
    circuitOperator n (Ansatz.gadget (qs.map Fin.val) t a) =
      rotationAbout (zString (t :: qs)) (half a.offset) := by
  induction qs with
  | nil =>
    show (1 : Op (Fin n)) * (GateCall.rz (t : ℕ) a).operator n = _
    rw [Matrix.one_mul, GateCall.operator, GateCall.kernel, Kernel.operator_single, Gates.toOp_RZ,
      onQubit_rotationAbout, onQubit_Z]
  | cons c qs ih =>
    obtain ⟨htc, htqs⟩ := List.ne_and_not_mem_of_not_mem_cons h
    have hcnot : (GateCall.cnot (c : ℕ) (t : ℕ) : GateCall ℝ).operator n = controlled c t Pauli.X.op := by
      rw [GateCall.operator, GateCall.kernel, Kernel.operator_controlled, Gates.toOp_X]
    have hct : c ≠ t := Ne.symm htc
    rw [List.map_cons, gadget_cons, circuitOperator, circuitOperator_append, ih htqs, circuitOperator,
      circuitOperator, hcnot, Matrix.one_mul, rotationAbout_conj (controlled_X_mul_self hct),
      controlled_conj_zString hct htqs]

theorem gadget_resolve {R : Type} [Ring R] (theta : List R) (qs : List ℕ) (t : ℕ) (a : Param R) :
    (Ansatz.gadget qs t a).map (GateCall.resolve theta) =
      Ansatz.gadget qs t (.const (a.resolve theta)) := by
  simp [Ansatz.gadget, GateCall.resolve, GateCall.mapArgs, Function.comp_def]

theorem resolve_mul (c : ℝ) (p : Param ℝ) (theta : List ℝ) :
    (c * p : Param ℝ).resolve theta = c * p.resolve theta := by
  show (if 0 ≤ p.index then p.scale * c * theta.getD p.index.toNat 0 + p.offset * c else p.offset * c) = _
  rw [Param.resolve]
  split <;> ring

theorem zString_perm {qs qs' : List (Fin n)} (h : qs.Perm qs') : zString qs = zString qs' := by
  unfold zString zSign
  congr 1
  funext x
  exact (h.map _).prod_eq

/-- The rotation about 1 is a phase. -/
theorem rotationAbout_one (φ : ℝ) : rotationAbout (1 : Op (Fin n)) φ = Complex.exp (-φ * Complex.I) • 1 := by
  rw [rotationAbout, ← sub_smul, Complex.exp_mul_I]
  simp [sub_eq_add_neg]

/-- **One cost term**, an identity term up to its phase. -/
theorem qaoaTerm_operator {term : PauliMask ℝ} (hx : term.x = 0) (gamma : Param ℝ)
    (theta : List ℝ) :
    EqPhase (circuitOperator n ((Ansatz.qaoaTermCalls n gamma term).map (GateCall.resolve theta)))
      (NormedSpace.exp ((-(gamma.resolve theta : ℂ) * Complex.I) •
        ((term.coeff : ℂ) • pauliString (term.string n)))) := by
  have hexp : NormedSpace.exp ((-(gamma.resolve theta : ℂ) * Complex.I) •
      ((term.coeff : ℂ) • pauliString (term.string n))) =
      rotationAbout (zString (supportFin n term.z)) (term.coeff * gamma.resolve theta) := by
    rw [rotationAbout_eq_exp (zString_mul_self _), pauliString_support hx, smul_smul]
    congr 2
    push_cast
    ring
  rw [hexp, Ansatz.qaoaTermCalls, support_eq_map]
  rcases List.eq_nil_or_concat (supportFin n term.z) with hs | ⟨qs, t, hs⟩
  · rw [hs]
    show EqPhase 1 (rotationAbout (zString []) _)
    have h1 : zString ([] : List (Fin n)) = 1 := diagonal_one
    rw [h1, rotationAbout_one]
    refine ⟨Complex.exp ((term.coeff * gamma.resolve theta : ℝ) * Complex.I),
      Complex.norm_exp_ofReal_mul_I _, ?_⟩
    rw [smul_smul, ← Complex.exp_add]
    simp
  · rw [List.concat_eq_append] at hs
    have hnd : (qs ++ [t]).Nodup := hs ▸ nodup_supportFin n term.z
    have ht : t ∉ qs := fun h => List.disjoint_of_nodup_append hnd h (List.mem_singleton_self t)
    have hhalf : half (2 * term.coeff * gamma.resolve theta) = term.coeff * gamma.resolve theta := by
      unfold half
      ring
    rw [hs, List.map_append, List.map_singleton]
    simp only [List.getLast?_concat, List.dropLast_concat]
    rw [gadget_resolve, gadget_operator _ ht, Param.offset_const, resolve_mul, hhalf,
      zString_perm (List.perm_append_singleton t qs).symm]
    exact .refl _

/-- Commuting operators scale to commuting ones. -/
theorem commute_smul {A B : Op (Fin n)} (h : Commute A B) (a b : ℂ) : Commute (a • A) (b • B) :=
  (h.smul_left a).smul_right b

theorem circuitOperator_flatMap {α : Type} (calls : α → List (GateCall ℝ)) : ∀ l : List α,
    circuitOperator n (l.flatMap calls) = (l.map fun a => circuitOperator n (calls a)).reverse.prod
  | [] => rfl
  | a :: l => by
    rw [List.flatMap_cons, circuitOperator_append, circuitOperator_flatMap calls l, List.map_cons,
      List.reverse_cons, List.prod_append, List.prod_singleton]

/-- The cost layer is the exponential of the cost operator. -/
theorem costLayer_operator {obs : Observable ℝ} (hd : obs.isDiagonal = true) (gamma : Param ℝ)
    (theta : List ℝ) :
    EqPhase (circuitOperator n ((obs.masks.flatMap (Ansatz.qaoaTermCalls n gamma)).map
        (GateCall.resolve theta)))
      (NormedSpace.exp ((-(gamma.resolve theta : ℂ) * Complex.I) • obs.operator n)) := by
  have hx := isDiagonal_x hd
  have hc : ∀ m ∈ obs.masks, ∀ m' ∈ obs.masks,
      Commute ((-(gamma.resolve theta : ℂ) * Complex.I) • ((m.coeff : ℂ) • pauliString (m.string n)))
        ((-(gamma.resolve theta : ℂ) * Complex.I) • ((m'.coeff : ℂ) • pauliString (m'.string n))) := by
    intro m hm m' hm'
    rw [pauliString_support (hx m hm), pauliString_support (hx m' hm')]
    exact commute_smul (commute_smul (commute_diagonal _ _) _ _) _ _
  rw [List.map_flatMap, circuitOperator_flatMap, Observable.operator, List.smul_sum, List.map_map]
  exact exp_sum_eqPhase hc fun m hm => qaoaTerm_operator (hx m hm) gamma theta

/-- `∑ X`. -/
def mixer (n : ℕ) : Op (Fin n) := ∑ q, onQubit q Pauli.X.op

/-- The mixer layer is the exponential of the mixer. -/
theorem mixerLayer_operator (beta : Param ℝ) (theta : List ℝ) :
    EqPhase (circuitOperator n (((List.range n).map (.rx · ((2 : ℝ) * beta))).map
        (GateCall.resolve theta)))
      (NormedSpace.exp ((-(beta.resolve theta : ℂ) * Complex.I) • mixer n)) := by
  have hX : ∀ q : Fin n, onQubit q Pauli.X.op * onQubit q Pauli.X.op = 1 := fun q => by
    rw [onQubit_mul, Pauli.op_mul_self, onQubit_one]
  have hc : ∀ q ∈ List.finRange n, ∀ r ∈ List.finRange n,
      Commute ((-(beta.resolve theta : ℂ) * Complex.I) • onQubit q Pauli.X.op)
        ((-(beta.resolve theta : ℂ) * Complex.I) • onQubit r Pauli.X.op) := by
    intro q _ r _
    refine commute_smul ?_ _ _
    by_cases h : q = r
    · rw [h]
    · exact onQubit_comm h _ _
  have hrx : ∀ q ∈ List.finRange n,
      EqPhase (circuitOperator n [(GateCall.rx (q : ℕ) ((2 : ℝ) * beta)).resolve theta])
        (NormedSpace.exp ((-(beta.resolve theta : ℂ) * Complex.I) • onQubit q Pauli.X.op)) := by
    intro q _
    have hhalf : half (2 * beta.resolve theta) = beta.resolve theta := by
      unfold half
      ring
    rw [← rotationAbout_eq_exp (hX q), circuitOperator, circuitOperator, Matrix.one_mul,
      GateCall.resolve, GateCall.mapArgs, GateCall.operator, GateCall.kernel, Kernel.operator_single,
      Param.offset_const, resolve_mul, Gates.toOp_RX, hhalf, onQubit_rotationAbout]
    exact .refl _
  have hsum : (-(beta.resolve theta : ℂ) * Complex.I) • mixer n = ((List.finRange n).map fun q =>
      (-(beta.resolve theta : ℂ) * Complex.I) • onQubit q Pauli.X.op).sum := by
    rw [mixer, Finset.smul_sum, Fin.sum_univ_def]
  rw [hsum, ← List.map_coe_finRange_eq_range, List.map_map, List.map_map, List.map_eq_flatMap,
    circuitOperator_flatMap]
  exact exp_sum_eqPhase hc hrx

/-- `∏ₖ exp (-i βₖ ∑ X) exp (-i γₖ C)`, the first layer applied first. -/
noncomputable def qaoaOperator (C : Op (Fin n)) : List (ℝ × ℝ) → Op (Fin n)
  | [] => 1
  | (gamma, beta) :: angles => qaoaOperator C angles *
      (NormedSpace.exp ((-(beta : ℂ) * Complex.I) • mixer n) *
        NormedSpace.exp ((-(gamma : ℂ) * Complex.I) • C))

/-- The parameters `[γ₀, β₀, γ₁, β₁, …]`. -/
def interleave (angles : List (ℝ × ℝ)) : List ℝ := angles.flatMap fun a => [a.1, a.2]

/-- The angles of `p` layers from parameter `P` on, as the circuit reads them at `theta`. -/
noncomputable def layerAngles (theta : List ℝ) : ℕ → ℕ → List (ℝ × ℝ)
  | _, 0 => []
  | P, p + 1 => ((handed P).resolve theta, (handed (P + 1)).resolve theta) :: layerAngles theta (P + 2) p

/-- As long as the numbers of the parameters are `int`s these are the angles of the vector. -/
theorem layerAngles_interleave (angles : List (ℝ × ℝ)) (before : List ℝ)
    (h : before.length + 2 * angles.length ≤ 2 ^ 31) :
    layerAngles (before ++ interleave angles) before.length angles.length = angles := by
  induction angles generalizing before with
  | nil => rfl
  | cons a angles ih =>
    obtain ⟨gamma, beta⟩ := a
    rw [List.length_cons] at h
    have hrest := ih (before ++ [gamma, beta]) (by rw [List.length_append]; exact le_of_eq_of_le (by simp; ring) h)
    rw [List.append_assoc, List.length_append] at hrest
    have hgamma : (handed before.length).resolve (before ++ gamma :: beta :: interleave angles) = gamma := by
      rw [resolve_handed (by omega)]
      simp
    have hbeta : (handed (before.length + 1)).resolve (before ++ gamma :: beta :: interleave angles) = beta := by
      rw [resolve_handed (by omega)]
      simp
    rw [List.length_cons, layerAngles]
    exact congrArg₂ _ (Prod.ext hgamma hbeta) hrest

/-- **The layers**, at any parameter vector. -/
theorem qaoaCalls_operator {obs : Observable ℝ} (hd : obs.isDiagonal = true) (theta : List ℝ) (p P : ℕ) :
    EqPhase (circuitOperator n ((Ansatz.qaoaCalls n obs.masks P p).map (GateCall.resolve theta)))
      (qaoaOperator (obs.operator n) (layerAngles theta P p)) := by
  induction p generalizing P with
  | zero => exact .refl 1
  | succ p ih =>
    have hcost := costLayer_operator hd (n := n) (handed P) theta
    have hmixer := mixerLayer_operator (n := n) (handed (P + 1)) theta
    rw [Ansatz.qaoaCalls, Ansatz.qaoaLayerCalls, List.map_append, circuitOperator_append, List.map_append,
      circuitOperator_append]
    exact (ih (P + 2)).mul (hmixer.mul hcost)

/-! ### The initial state -/

/-- H on some qubits of all zeros. -/
theorem hadamards_mulVec {qs : List (Fin n)} (h : qs.Nodup) (x : Fin n → Bool) :
    (circuitOperator n (qs.reverse.map fun q : Fin n => GateCall.h q.val) *ᵥ zeroState) x =
      if ∀ q, q ∉ qs → x q = false then ((1 / √2 : ℝ) : ℂ) ^ qs.length else 0 := by
  induction qs generalizing x with
  | nil =>
    simp only [List.reverse_nil, List.map_nil, circuitOperator, one_mulVec, zeroState, funext_iff,
      List.not_mem_nil, not_false_eq_true, true_imp_iff, List.length_nil, pow_zero]
  | cons q qs ih =>
    obtain ⟨hq, hnd⟩ := List.nodup_cons.mp h
    have hH : ∀ r, Gates.H.toOp r false = ((1 / √2 : ℝ) : ℂ) := by
      intro r
      rw [Gates.toOp_H]
      cases r <;> simp [mat2]
    have hset : ∀ b, (∀ r, r ∉ qs → Function.update x q b r = false) ↔
        b = false ∧ ∀ r, r ∉ q :: qs → x r = false := by
      intro b
      constructor
      · intro hb
        refine ⟨by simpa using hb q hq, fun r hr => ?_⟩
        obtain ⟨hrq, hrqs⟩ := List.ne_and_not_mem_of_not_mem_cons hr
        rw [← hb r hrqs, Function.update_of_ne hrq]
      · rintro ⟨rfl, hx⟩ r hr
        by_cases hrq : r = q
        · rw [hrq, Function.update_self]
        · rw [Function.update_of_ne hrq]
          exact hx r (by simp [hrq, hr])
    rw [List.reverse_cons, List.map_append, circuitOperator_append, ← mulVec_mulVec, List.map_singleton,
      circuitOperator, circuitOperator, Matrix.one_mul, GateCall.operator, GateCall.kernel,
      Kernel.operator_single, onQubit_mulVec, Fintype.sum_bool]
    simp only [ih hnd, hset, hH]
    simp only [Bool.true_eq_false, false_and, if_false, mul_zero, zero_add, true_and]
    split
    · rw [List.length_cons, pow_succ, mul_comm]
    · rw [mul_zero]

/-- The uniform superposition. -/
noncomputable def uniform (n : ℕ) : State (Fin n) := fun _ => ((1 / √((2 ^ n : ℕ) : ℝ) : ℝ) : ℂ)

theorem hadamards_uniform :
    circuitOperator n ((List.range n).map GateCall.h) *ᵥ zeroState = uniform n := by
  funext x
  have h := hadamards_mulVec (List.nodup_reverse.mpr (List.nodup_finRange n)) x
  rw [List.reverse_reverse, List.length_reverse, List.length_finRange, if_pos (by simp)] at h
  rw [← List.map_coe_finRange_eq_range, List.map_map]
  refine h.trans ?_
  have hsqrt : √((2 ^ n : ℕ) : ℝ) = √2 ^ n := by
    rw [Nat.cast_pow, Nat.cast_ofNat]
    refine (Real.sqrt_eq_iff_mul_self_eq (by positivity) (by positivity)).mpr ?_
    rw [← mul_pow, Real.mul_self_sqrt zero_le_two]
  rw [uniform, hsqrt]
  push_cast
  rw [one_div, inv_pow, one_div]

/-! ### The cost operator -/

/-- The signs of a mask, as `parity64` counts them. -/
theorem diagonalCost_eq {obs : Observable ℝ} (hl : obs.Legal) (hd : obs.isDiagonal = true)
    (x : Fin obs.numQubits → Bool) : diagonalCost obs (index x) =
      .ok (obs.masks.map fun m => m.coeff * (-1) ^ signCount (m.string obs.numQubits) x).sum := by
  have hm : ∀ m ∈ obs.masks, m.coeff * (if parity64 (index x &&& m.z) ≠ 0 then -1 else 1) =
      m.coeff * (-1) ^ signCount (m.string obs.numQubits) x := by
    intro m hm
    rw [parity64, parity_sign, bitSum_and_z (hl.fits m hm) hl.le]
  rw [diagonalCost, hd, foldl_add_map, zero_add, List.map_congr_left hm]
  rfl

/-- The cost operator multiplies each amplitude by the cost of its basis state. -/
theorem operator_eq_diagonal {obs : Observable ℝ} (hd : obs.isDiagonal = true) :
    obs.operator n = diagonal fun x =>
      (((obs.masks.map fun m => m.coeff * (-1) ^ signCount (m.string n) x).sum : ℝ) : ℂ) := by
  have hx := isDiagonal_x hd
  rw [Observable.operator]
  generalize obs.masks = masks at hx
  induction masks with
  | nil => simp
  | cons m masks ih =>
    obtain ⟨hm, hms⟩ := List.forall_mem_cons.mp hx
    rw [List.map_cons, List.sum_cons, ih hms, pauliString_eq_diagonal (flips_string hm),
      ← diagonal_smul, diagonal_add]
    congr 1
    funext x
    simp

/-- The cost layer multiplies amplitude `j` by `exp (-i γ diagonal_cost j)`. -/
theorem exp_cost_mulVec {obs : Observable ℝ} (hl : obs.Legal) (hd : obs.isDiagonal = true)
    {j : ℕ} (hj : j < 2 ^ obs.numQubits) : ∃ cost, diagonalCost obs j = .ok cost ∧
    ∀ (gamma : ℝ) (ψ : State (Fin obs.numQubits)),
      (NormedSpace.exp ((-(gamma : ℂ) * Complex.I) • obs.operator obs.numQubits) *ᵥ ψ)
        (bits obs.numQubits j) =
      Complex.exp (-(gamma * cost : ℝ) * Complex.I) * ψ (bits obs.numQubits j) := by
  have hc := diagonalCost_eq hl hd (bits obs.numQubits j)
  rw [index_bits hj] at hc
  refine ⟨_, hc, fun gamma ψ => ?_⟩
  rw [operator_eq_diagonal hd, ← diagonal_smul, exp_diagonal, mulVec_diagonal, Pi.coe_exp,
    ← Complex.exp_eq_exp_ℂ, Pi.smul_apply, smul_eq_mul]
  congr 2
  push_cast
  ring

/-! ### What the simulator reaches -/

/-- The state that the circuit of `ansatz::qaoa` prepares, up to a phase. -/
theorem preparedState_qaoa {cost : Observable ℝ} (hd : cost.isDiagonal = true) (p : ℕ) (theta : List ℝ) :
    ∃ ω : ℂ, ‖ω‖ = 1 ∧ preparedState cost.numQubits
        (bindCalls (Ansatz.qaoaCircuitCalls cost p) theta (-1) 0) =
      ω • (qaoaOperator (cost.operator cost.numQubits) (layerAngles theta 0 p) *ᵥ uniform cost.numQubits) := by
  obtain ⟨ω, hω, hU⟩ := qaoaCalls_operator (n := cost.numQubits) hd theta p 0
  have hh : ((List.range cost.numQubits).map GateCall.h).map (GateCall.resolve theta) =
      (List.range cost.numQubits).map GateCall.h := by
    rw [List.map_map]
    rfl
  refine ⟨ω, hω, ?_⟩
  rw [preparedState, bindCalls, if_neg (by decide), Ansatz.qaoaCircuitCalls, List.map_append,
    hh, circuitOperator_append, ← mulVec_mulVec, hadamards_uniform, ← smul_mulVec]
  exact congrArg (· *ᵥ uniform cost.numQubits) hU

section Promise

attribute [local instance] atLeastTwo_two

/-- On the circuit of `ansatz::qaoa` at `theta` the simulator reaches the state `ψ`, up to a phase. -/
def QaoaReaches (obs : Observable ℝ) (p : ℕ) (theta : List ℝ) (ψ : State (Fin obs.numQubits)) : Prop :=
  ∃ (circuit bound : Circuit ℝ) (ω : ℂ), Ansatz.qaoa obs p = .ok circuit ∧
    circuit.bind theta (-1) 0 = .ok bound ∧ bound.numQubits = obs.numQubits ∧ ‖ω‖ = 1 ∧
    (∀ b : CPUBackend ℂ, b.state.Holds (zeroState (n := obs.numQubits)) →
      ∃ b', b.run bound.ops = .ok b' ∧ b'.state.Holds (ω • ψ)) ∧
    (obs.numQubits ≤ 30 → ∀ b : CPUBackend ℂ, ∃ b₀ b', b.initializeState obs.numQubits = .ok b₀ ∧
      b₀.run bound.ops = .ok b' ∧ b'.state.Holds (ω • ψ))

end Promise

section Reaches

variable {obs : Observable ℝ} {p : ℕ} {theta : List ℝ} {ψ ψ' : State (Fin obs.numQubits)}

/-- At every parameter vector the simulator reaches the state of the angles the circuit reads. -/
theorem qaoa_reaches (hl : obs.Legal) (hd : obs.isDiagonal = true) (htheta : theta.length = 2 * p) :
    QaoaReaches obs p theta
      (qaoaOperator (obs.operator obs.numQubits) (layerAngles theta 0 p) *ᵥ uniform obs.numQubits) := by
  obtain ⟨hq, hf⟩ := Ansatz.qaoa_eq hl hd p
  obtain ⟨ω, hω, hψ⟩ := preparedState_qaoa hd p theta
  have hlegal : Circuit.Legal ⟨obs.numQubits, 2 * p,
      (Ansatz.qaoaCircuitCalls obs p).map GateCall.op, []⟩ _ :=
    ⟨hl.pos, rfl, hf, fun q hq => absurd hq List.not_mem_nil⟩
  have hb := (Circuit.bind_eq_ok _ _ hlegal.ops theta (-1) 0 _).mpr
    ⟨htheta, fun h => absurd h (by decide), rfl⟩
  have hfits := (hlegal.bind hb).fits
  refine ⟨_, _, ω, hq, hb, rfl, hω, fun b hzero => ?_, fun hn b => ?_⟩
  · obtain ⟨b', hr, h'⟩ := CPUBackend.run_holds hzero hfits
    exact ⟨b', hr, hψ ▸ h'⟩
  · obtain ⟨b₀, b', hi, hr, h'⟩ := CPUBackend.prepare_holds hl.pos hn hfits b
    exact ⟨b₀, b', hi, hr, hψ ▸ h'⟩

theorem QaoaReaches.of_phase (h : QaoaReaches obs p theta ψ) {ω : ℂ} (hω : ‖ω‖ = 1) (hψ : ψ = ω • ψ') :
    QaoaReaches obs p theta ψ' := by
  obtain ⟨circuit, bound, ω', hq, hb, hn, hω', hrun, hprepare⟩ := h
  rw [hψ, smul_smul] at hrun hprepare
  exact ⟨circuit, bound, ω' * ω, hq, hb, hn, by rw [norm_mul, hω', hω, one_mul], hrun, hprepare⟩

/-- The state is determined up to its phase. -/
theorem QaoaReaches.unique (h : QaoaReaches obs p theta ψ) (h' : QaoaReaches obs p theta ψ') :
    ∃ ω : ℂ, ψ = ω • ψ' := by
  obtain ⟨circuit, bound, ω, hq, hb, -, hω, hrun, -⟩ := h
  obtain ⟨circuit', bound', ω', hq', hb', -, -, hrun', -⟩ := h'
  obtain rfl := Except.ok.inj (hq.symm.trans hq')
  obtain rfl := Except.ok.inj (hb.symm.trans hb')
  let zero : StateVec ℂ := ⟨2 ^ obs.numQubits, Function.update (fun _ => 0) 0 1⟩
  have hzero : zero.Holds (zeroState (n := obs.numQubits)) := by
    refine ⟨rfl, funext fun x => ?_⟩
    simp only [view, zeroState, zero, Function.update_apply, index_eq_zero]
  obtain ⟨b, hb₁, hb₂⟩ := hrun ⟨fun _ => .inOrder, zero, obs.numQubits⟩ hzero
  obtain ⟨b', hb₁', hb₂'⟩ := hrun' ⟨fun _ => .inOrder, zero, obs.numQubits⟩ hzero
  obtain rfl := Except.ok.inj (hb₁.symm.trans hb₁')
  have hsame : ω • ψ = ω' • ψ' := hb₂.view.symm.trans hb₂'.view
  have hne : ω ≠ 0 := norm_ne_zero_iff.mp (hω ▸ one_ne_zero)
  exact ⟨ω⁻¹ * ω', by rw [mul_smul, ← hsame, inv_smul_smul₀ hne]⟩

end Reaches

/-! ### Layers that only change the phase -/

theorem mixer_mulVec_uniform (n : ℕ) : mixer n *ᵥ uniform n = (n : ℂ) • uniform n := by
  funext x
  rw [mixer, sum_mulVec, Finset.sum_apply]
  simp only [onQubit_X_mulVec, uniform, Finset.sum_const, Finset.card_univ, Fintype.card_fin, Pi.smul_apply,
    nsmul_eq_mul, smul_eq_mul]

/-- If the uniform superposition is an eigenvector of the cost, all layers leave it alone. -/
theorem qaoaOperator_mulVec_uniform {C : Op (Fin n)} {c : ℝ} (hC : C *ᵥ uniform n = (c : ℂ) • uniform n)
    (angles : List (ℝ × ℝ)) : ∃ ω : ℂ, ‖ω‖ = 1 ∧ qaoaOperator C angles *ᵥ uniform n = ω • uniform n := by
  have hphase : ∀ (t d : ℝ) {A : Op (Fin n)}, A *ᵥ uniform n = (d : ℂ) • uniform n →
      NormedSpace.exp ((-(t : ℂ) * Complex.I) • A) *ᵥ uniform n =
        Complex.exp ((-(t * d) : ℝ) * Complex.I) • uniform n := by
    intro t d A hA
    rw [exp_mulVec_of_eigenvector (z := (-(t * d) : ℝ) * Complex.I)]
    rw [smul_mulVec, hA, smul_smul]
    congr 1
    push_cast
    ring
  induction angles with
  | nil => exact ⟨1, norm_one, by rw [qaoaOperator, one_mulVec, one_smul]⟩
  | cons a angles ih =>
    obtain ⟨gamma, beta⟩ := a
    obtain ⟨ω, hω, hrest⟩ := ih
    have hmixer := hphase beta n ((mixer_mulVec_uniform n).trans (by norm_cast))
    refine ⟨Complex.exp ((-(gamma * c) : ℝ) * Complex.I) * (Complex.exp ((-(beta * n) : ℝ) * Complex.I) * ω), ?_, ?_⟩
    · rw [norm_mul, norm_mul, Complex.norm_exp_ofReal_mul_I, Complex.norm_exp_ofReal_mul_I, hω, one_mul, one_mul]
    · rw [qaoaOperator, ← mulVec_mulVec, ← mulVec_mulVec, hphase gamma c hC, mulVec_smul, hmixer, mulVec_smul,
        mulVec_smul, hrest, smul_smul, smul_smul, mul_assoc]

theorem qaoaOperator_append (C : Op (Fin n)) (angles angles' : List (ℝ × ℝ)) :
    qaoaOperator C (angles ++ angles') = qaoaOperator C angles' * qaoaOperator C angles := by
  induction angles with
  | nil => rw [qaoaOperator, Matrix.mul_one, List.nil_append]
  | cons a angles ih => rw [List.cons_append, qaoaOperator, qaoaOperator, ih, Matrix.mul_assoc]

/-- Layers of angle 0 do nothing. -/
theorem qaoaOperator_zero (C : Op (Fin n)) (p : ℕ) : qaoaOperator C (List.replicate p (0, 0)) = 1 := by
  induction p with
  | zero => rfl
  | succ p ih =>
    rw [List.replicate_succ, qaoaOperator, ih, Complex.ofReal_zero, neg_zero, zero_mul, zero_smul, zero_smul,
      NormedSpace.exp_zero, Matrix.mul_one, Matrix.mul_one]

/-! ### The first parameter that is no `int` -/

/-- All angles 0 but the `γ` with the number `2 ^ 31`. -/
def lateAngles (gamma : ℝ) (m : ℕ) : List (ℝ × ℝ) :=
  List.replicate (2 ^ 30) (0, 0) ++ (gamma, 0) :: List.replicate m (0, 0)

theorem interleave_replicate (p : ℕ) : interleave (List.replicate p (0, 0)) = List.replicate (2 * p) 0 := by
  induction p with
  | zero => rfl
  | succ p ih =>
    rw [List.replicate_succ, Nat.mul_succ, List.replicate_succ, List.replicate_succ, ← ih]
    rfl

theorem getD_single (k m : ℕ) (a : ℝ) {i : ℕ} (hi : i ≠ k) :
    (List.replicate k 0 ++ a :: List.replicate m 0).getD i 0 = 0 := by
  rcases lt_or_gt_of_ne hi with hlt | hgt
  · rw [List.getD_append _ _ _ _ (by rwa [List.length_replicate]), List.getD_replicate _ hlt]
  · obtain ⟨d, rfl⟩ := Nat.exists_eq_add_of_lt hgt
    rw [List.getD_append_right _ _ _ _ (by rw [List.length_replicate]; omega), List.length_replicate,
      show k + d + 1 - k = d + 1 by omega, List.getD_cons_succ]
    by_cases hd : d < m
    · rw [List.getD_replicate _ hd]
    · rw [List.getD_eq_default _ _ (by rw [List.length_replicate]; omega)]

/-- No number is the index of the angle that is not 0. -/
theorem resolve_late (gamma : ℝ) (m k : ℕ) :
    (handed k : Param ℝ).resolve (interleave (lateAngles gamma m)) = 0 := by
  have hangles : interleave (lateAngles gamma m) =
      List.replicate (2 * 2 ^ 30) 0 ++ gamma :: List.replicate (2 * m + 1) 0 := by
    rw [lateAngles, interleave, List.flatMap_append, List.flatMap_cons, ← interleave, ← interleave,
      interleave_replicate, interleave_replicate, List.replicate_succ]
    rfl
  have hindex : (castInt k).toNat ≠ 2 * 2 ^ 30 := by
    have hlt := castInt_lt k
    omega
  rw [Param.resolve, hangles]
  show (if 0 ≤ castInt k then (1 : ℝ) * List.getD _ (castInt k).toNat 0 + 0 else 0) = 0
  rw [getD_single _ _ gamma hindex, mul_zero, add_zero, ite_self]

theorem layerAngles_late (gamma : ℝ) (m p P : ℕ) :
    layerAngles (interleave (lateAngles gamma m)) P p = List.replicate p (0, 0) := by
  induction p generalizing P with
  | zero => rfl
  | succ p ih => rw [layerAngles, resolve_late, resolve_late, ih, List.replicate_succ]

/-- The circuit drops a cost layer that does not only change the phase. -/
theorem not_qaoaReaches_late {obs : Observable ℝ} (hl : obs.Legal) (hd : obs.isDiagonal = true) {j j' : ℕ}
    (hj : j < 2 ^ obs.numQubits) (hj' : j' < 2 ^ obs.numQubits) {c c' : ℝ} (hc : diagonalCost obs j = .ok c)
    (hc' : diagonalCost obs j' = .ok c') (hne : c ≠ c') (m : ℕ) :
    ¬ QaoaReaches obs (lateAngles (Real.pi / (c - c')) m).length (interleave (lateAngles (Real.pi / (c - c')) m))
      (qaoaOperator (obs.operator obs.numQubits) (lateAngles (Real.pi / (c - c')) m) *ᵥ
        uniform obs.numQubits) := by
  intro h
  let gamma := Real.pi / (c - c')
  have hlen : (interleave (lateAngles gamma m)).length = 2 * (lateAngles gamma m).length := by
    simp [interleave, List.length_flatMap, mul_comm]
  obtain ⟨ω, hω⟩ := h.unique (qaoa_reaches hl hd hlen)
  rw [layerAngles_late, qaoaOperator_zero, one_mulVec, lateAngles, qaoaOperator_append, qaoaOperator_zero,
    Matrix.mul_one, qaoaOperator, qaoaOperator_zero, Matrix.one_mul, Complex.ofReal_zero, neg_zero, zero_mul,
    zero_smul, NormedSpace.exp_zero, Matrix.one_mul] at hω
  have hentry : ∀ {i : ℕ} {d : ℝ}, i < 2 ^ obs.numQubits → diagonalCost obs i = .ok d →
      Complex.exp (-(gamma * d : ℝ) * Complex.I) = ω := by
    intro i d hi hd'
    obtain ⟨d', hcost, hexp⟩ := exp_cost_mulVec hl hd hi
    obtain rfl := Except.ok.inj (hd'.symm.trans hcost)
    have hamplitude := hexp gamma (uniform obs.numQubits)
    rw [hω] at hamplitude
    have hne : ((1 / √((2 ^ obs.numQubits : ℕ) : ℝ) : ℝ) : ℂ) ≠ 0 := by
      rw [Complex.ofReal_ne_zero]
      positivity
    exact (mul_right_cancel₀ hne hamplitude).symm
  have hpi : gamma * (c - c') = Real.pi := div_mul_cancel₀ _ (sub_ne_zero.mpr hne)
  have hsame : Complex.exp (-(gamma * c' : ℝ) * Complex.I) =
      -Complex.exp (-(gamma * c' : ℝ) * Complex.I) := by
    calc Complex.exp (-(gamma * c' : ℝ) * Complex.I)
        = Complex.exp (-(gamma * c : ℝ) * Complex.I) := (hentry hj' hc').trans (hentry hj hc).symm
      _ = Complex.exp (-(gamma * c' : ℝ) * Complex.I - Real.pi * Complex.I) := by
          rw [← hpi]
          congr 1
          push_cast
          ring
      _ = -Complex.exp (-(gamma * c' : ℝ) * Complex.I) := Complex.exp_sub_pi_mul_I _
  exact Complex.exp_ne_zero _ (self_eq_neg.mp hsame)

/-- The cost is the same for all bitstrings. -/
def Constant (obs : Observable ℝ) : Prop := ∃ cost, ∀ j < 2 ^ obs.numQubits, diagonalCost obs j = .ok cost

/-- A constant cost has the uniform superposition as an eigenvector. -/
theorem operator_mulVec_uniform {obs : Observable ℝ} (hl : obs.Legal) (hd : obs.isDiagonal = true) {cost : ℝ}
    (h : ∀ j < 2 ^ obs.numQubits, diagonalCost obs j = .ok cost) :
    obs.operator obs.numQubits *ᵥ uniform obs.numQubits = (cost : ℂ) • uniform obs.numQubits := by
  funext x
  have hx := (diagonalCost_eq hl hd x).symm.trans (h (index x) (index_lt x))
  rw [operator_eq_diagonal hd, mulVec_diagonal, Except.ok.inj hx, Pi.smul_apply, smul_eq_mul]

/-- **QAOA.** On a diagonal observable `C` and the parameters `[γ₀, β₀, γ₁, β₁, …]`
the circuit of `ansatz::qaoa` takes all zeros to
`∏ₖ exp (-i βₖ ∑ X) exp (-i γₖ C)` applied to the uniform superposition, up to
one phase, for all values of the parameters exactly if their numbers are `int`s or the
cost is constant; and `exp (-i γ C)` multiplies the amplitude of basis state `j` by
`exp (-i γ diagonal_cost j)`. -/
theorem qaoa_correct {n : ℕ} {terms : List (Term ℝ)} {obs : Observable ℝ}
    (hobs : Observable.ofTerms n terms = .ok obs) (hd : obs.isDiagonal = true) (p : ℕ) :
    ((∀ angles : List (ℝ × ℝ), angles.length = p → QaoaReaches obs p (interleave angles)
        (qaoaOperator (obs.operator obs.numQubits) angles *ᵥ uniform obs.numQubits)) ↔
      p ≤ 2 ^ 30 ∨ Constant obs) ∧
    ∀ j < 2 ^ obs.numQubits, ∃ cost, diagonalCost obs j = .ok cost ∧
      ∀ (gamma : ℝ) (ψ : State (Fin obs.numQubits)),
        (NormedSpace.exp ((-(gamma : ℂ) * Complex.I) • obs.operator obs.numQubits) *ᵥ ψ)
          (bits obs.numQubits j) =
        Complex.exp (-(gamma * cost : ℝ) * Complex.I) * ψ (bits obs.numQubits j) := by
  have hl := legal_of_ofTerms hobs
  have hlen : ∀ angles : List (ℝ × ℝ), (interleave angles).length = 2 * angles.length := by
    simp [interleave, List.length_flatMap, mul_comm]
  refine ⟨⟨fun h => ?_, ?_⟩, fun j hj => exp_cost_mulVec hl hd hj⟩
  · by_contra hno
    obtain ⟨hp, hconst⟩ := not_or.mp hno
    obtain ⟨c, hc, -⟩ := exp_cost_mulVec hl hd (j := 0) (Nat.two_pow_pos _)
    have hother : ∃ j < 2 ^ obs.numQubits, diagonalCost obs j ≠ .ok c := by
      by_contra hall
      push Not at hall
      exact hconst ⟨c, hall⟩
    obtain ⟨j, hj, hne⟩ := hother
    obtain ⟨c', hc', -⟩ := exp_cost_mulVec hl hd hj
    have hdiff : c' ≠ c := fun he => hne (he ▸ hc')
    have hlate : (lateAngles (Real.pi / (c' - c)) (p - 2 ^ 30 - 1)).length = p := by
      rw [lateAngles, List.length_append, List.length_cons, List.length_replicate, List.length_replicate]
      omega
    have hnot := not_qaoaReaches_late hl hd hj (Nat.two_pow_pos _) hc' hc hdiff (p - 2 ^ 30 - 1)
    rw [hlate] at hnot
    exact hnot (h _ hlate)
  · rintro (hp | ⟨cost, hcost⟩) angles rfl
    · have hreaches := qaoa_reaches hl hd (hlen angles)
      have hangles : layerAngles (interleave angles) 0 angles.length = angles :=
        layerAngles_interleave angles [] (by rw [List.length_nil]; omega)
      rwa [hangles] at hreaches
    · have hC := operator_mulVec_uniform hl hd hcost
      obtain ⟨ω, hω, hread⟩ := qaoaOperator_mulVec_uniform hC (layerAngles (interleave angles) 0 angles.length)
      obtain ⟨ω', hω', hmeant⟩ := qaoaOperator_mulVec_uniform hC angles
      have hne : ω' ≠ 0 := norm_ne_zero_iff.mp (hω' ▸ one_ne_zero)
      refine (qaoa_reaches hl hd (hlen angles)).of_phase (ω := ω * ω'⁻¹) ?_ ?_
      · rw [norm_mul, norm_inv, hω, hω', inv_one, mul_one]
      · rw [hread, hmeant, smul_smul, inv_mul_cancel_right₀ hne]

/-- One layer of `Z₀ Z₁ + 3` on two qubits. -/
theorem qaoa_correct_two :
    let obs : Observable ℝ := ⟨2, [⟨1, 0, 3, 0⟩, ⟨3, 0, 0, 0⟩]⟩
    QaoaReaches obs 1 [1, 2] (qaoaOperator (obs.operator 2) [(1, 2)] *ᵥ uniform 2) := by
  intro obs
  have hobs : Observable.ofTerms 2 [.sparse 1 [('Z', 0), ('Z', 1)], .dense 3 ['I', 'I']] = .ok obs := rfl
  exact (qaoa_correct hobs rfl 1).1.mpr (.inl (by norm_num)) [(1, 2)] rfl

/-- `Z` on one qubit with a layer too many, whose cost layer is dropped. -/
theorem qaoa_correct_fails :
    let obs : Observable ℝ := ⟨1, [⟨1, 0, 1, 0⟩]⟩
    Observable.ofTerms 1 [.sparse 1 [('Z', 0)]] = .ok obs ∧ obs.isDiagonal = true ∧
      ¬ QaoaReaches obs (2 ^ 30 + 1) (interleave (lateAngles (Real.pi / 2) 0))
        (qaoaOperator (obs.operator 1) (lateAngles (Real.pi / 2) 0) *ᵥ uniform 1) := by
  intro obs
  have hobs : Observable.ofTerms 1 [.sparse 1 [('Z', 0)]] = .ok obs := rfl
  have hcost : diagonalCost obs 0 = .ok 1 ∧ diagonalCost obs 1 = .ok (-1) := by
    constructor <;> simp [diagonalCost, obs, Observable.isDiagonal, parity64, parity] <;> rfl
  have hlen : (lateAngles (Real.pi / 2) 0).length = 2 ^ 30 + 1 := by
    rw [lateAngles, List.length_append, List.length_cons, List.length_replicate, List.length_replicate]
  have hdiff : (1 : ℝ) - -1 = 2 := by norm_num
  have hnot := not_qaoaReaches_late (legal_of_ofTerms hobs) rfl (by decide) (by decide) hcost.1 hcost.2
    (by norm_num) 0
  rw [hdiff, hlen] at hnot
  exact ⟨hobs, rfl, hnot⟩

end Gadgets

end Qsycl
