/-
# Expectation values from measurements

`shot_expectation.cpp`: the terms of an observable are grouped so that within
a group every two of them agree on each qubit that both touch (`group_qwc`);
the circuit of a group is the bound ansatz followed by SDG and H on the qubits
measured in Y, and H on those measured in X; and each term is estimated by
the mean sign of the outcomes under its mask.

A readout is what `sample` returns and how a mean sign is taken from it: the
list of outcomes in the code (`shotReadout`), the exact distribution of the
outcomes in the statement that the path is unbiased (`exactReadout`).

Key theorems: `groupQwc_perm`, `groupQwc_agree`, `shotBasedExpectation_exact`.
-/
import Qsycl.NativeCorrect
import Qsycl.GateIdentities

namespace Qsycl.Native

open Qubits Matrix Words

/-! ### Grouping -/

section Grouping

variable {R : Type}

/-- 0 = I, 1 = X, 2 = Z, 3 = Y, matching how a group needs to rotate qubit `q`. -/
def termBasis (m : PauliMask R) (q : ℕ) : ℕ :=
  let xb := m.x.testBit q
  let zb := m.z.testBit q
  if xb && zb then 3 else if xb then 1 else if zb then 2 else 0

/-- The indices of a group, and the basis of each qubit that its terms touch. -/
structure Group where
  terms : List ℕ
  basis : ℕ → Option ℕ

/-- The loop that looks for a qubit on which the term and the group differ. -/
def Group.compatible (n : ℕ) (m : PauliMask R) (g : Group) : Bool :=
  (List.range n).all fun q =>
    !(m.x ||| m.z).testBit q || match g.basis q with
      | some b => b == termBasis m q
      | none => true

/-- The basis map after the qubits of a term are entered. -/
def writeBasis (n : ℕ) (m : PauliMask R) (basis : ℕ → Option ℕ) (q : ℕ) : Option ℕ :=
  if q < n ∧ (m.x ||| m.z).testBit q then some (termBasis m q) else basis q

/-- Puts term `t` in the first compatible group, or in a new one. -/
def placeTerm (n : ℕ) (m : PauliMask R) (t : ℕ) : List Group → List Group
  | [] => [⟨[t], writeBasis n m fun _ => none⟩]
  | g :: groups =>
    if g.compatible n m then ⟨g.terms ++ [t], writeBasis n m g.basis⟩ :: groups
    else g :: placeTerm n m t groups

def groupQwc (obs : Observable R) : List (List ℕ) :=
  (obs.masks.zipIdx.foldl (fun groups (m, t) => placeTerm obs.numQubits m t groups) []).map Group.terms

end Grouping

/-! ### Estimation -/

/-- The methods of a backend that the shot path calls, with readouts `ρ`. -/
structure Sampler (σ ρ : Type) where
  initializeState : ℕ → σ → Except Exn σ
  applyGate : GateOp ℝ → σ → Except Exn σ
  sample : List ℕ → ℕ → σ → Except Exn (ρ × σ)

/-- How the shot path uses a readout: whether it holds anything, and the mean
sign under a mask. -/
structure Readout (ρ : Type) where
  isEmpty : ρ → Bool
  meanSign : ℕ → ρ → ℝ

noncomputable section

/-- The readout of the code: the list of outcomes. -/
def shotReadout : Readout (List ℕ) where
  isEmpty := List.isEmpty
  meanSign contributing outcomes :=
    let sumSign : ℤ := outcomes.foldl
      (fun sum outcome => sum + if popcount64 (outcome &&& contributing) &&& 1 ≠ 0 then -1 else 1) 0
    (sumSign : ℝ) / (outcomes.length : ℝ)

/-- The readout that is the distribution of the outcomes itself. -/
def exactReadout : Readout (StateVec ℝ) where
  isEmpty _ := false
  meanSign contributing probs :=
    ∑ j ∈ Finset.range probs.size, probs.cell j * (-1) ^ popcount64 (j &&& contributing)

/-- The rotation appended on qubit `q`. -/
def rotateQubit (needsX needsY : ℕ) (bound : Circuit ℝ) (q : ℕ) : Except Exn (Circuit ℝ) :=
  if needsY.testBit q then do (← bound.sdg q).h q
  else if needsX.testBit q then bound.h q
  else return bound

section Estimate

variable {σ ρ : Type} (B : Sampler σ ρ) (R : Readout ρ) (ansatz : Circuit ℝ) (theta : List ℝ)
  (shiftOp : ℤ) (shift : ℝ) (obs : Observable ℝ) (shots : ℕ)

/-- One round of the loop over the groups. -/
def evaluateGroup (total : ℝ) (s : σ) (group : List ℕ) : Except Exn (ℝ × σ) := do
  let masks ← group.mapM (vecAt obs.masks)
  let needsX := masks.foldl (fun needs m => needs ||| Nat.ldiff m.x m.z) 0
  let needsY := masks.foldl (fun needs m => needs ||| (m.x &&& m.z)) 0
  let bound ← ansatz.bind theta shiftOp shift
  let bound ← (List.range ansatz.numQubits).foldlM (rotateQubit needsX needsY) bound
  let s ← B.initializeState ansatz.numQubits s
  let s ← bound.ops.foldlM (fun s op => B.applyGate op s) s
  let (outcomes, s) ← B.sample [] shots s
  if R.isEmpty outcomes then return (total, s)
  return (masks.foldl (fun total m => total + m.coeff * R.meanSign (m.x ||| m.z) outcomes) total, s)

def shotBasedExpectation (s : σ) : Except Exn (ℝ × σ) :=
  (groupQwc obs).foldlM (fun (total, s) group =>
    evaluateGroup B R ansatz theta shiftOp shift obs shots total s group) (0, s)

/-- `expectation_batch` built on `shot_based_expectation`. -/
def shotBasedExpectationBatch (batch : EvalBatch ℝ) (s : σ) : Except Exn (List ℝ × σ) :=
  mapRows (fun i s => do
    let op ← batch.opOf i
    let sh ← batch.deltaOf i
    shotBasedExpectation B R ansatz (batch.thetaOf i) op sh obs shots s) (List.range batch.count) s

end Estimate

end

/-! ### The groups partition the terms -/

section Grouping

variable {R : Type} {n : ℕ}

theorem placeTerm_perm (n : ℕ) (m : PauliMask R) (t : ℕ) : ∀ groups : List Group,
    ((placeTerm n m t groups).flatMap Group.terms).Perm (t :: groups.flatMap Group.terms)
  | [] => .refl _
  | g :: groups => by
    unfold placeTerm
    split
    · rw [List.flatMap_cons, List.append_assoc, List.flatMap_cons]
      exact List.perm_middle
    · rw [List.flatMap_cons, List.flatMap_cons]
      exact ((placeTerm_perm n m t groups).append_left g.terms).trans List.perm_middle

/-- A group that records the basis of every term on every qubit it touches. -/
def Group.Valid (n : ℕ) (masks : List (PauliMask R)) (g : Group) : Prop :=
  ∀ t ∈ g.terms, ∃ m, masks[t]? = some m ∧
    ∀ q < n, (m.x ||| m.z).testBit q = true → g.basis q = some (termBasis m q)

/-- The terms of a compatible group keep their basis. -/
theorem Group.Valid.write {masks : List (PauliMask R)} {g : Group} (hg : g.Valid n masks)
    {m : PauliMask R} {t : ℕ} (ht : masks[t]? = some m) (hc : g.compatible n m = true) :
    Group.Valid n masks ⟨g.terms ++ [t], writeBasis n m g.basis⟩ := by
  intro t' ht'
  rcases List.mem_append.mp ht' with ht' | ht'
  · obtain ⟨m', hm', hb⟩ := hg t' ht'
    refine ⟨m', hm', fun q hq hs => ?_⟩
    simp only [writeBasis]
    split
    · rename_i h
      have := List.all_eq_true.mp hc q (List.mem_range.mpr hq)
      simp only [h.2, hb q hq hs, Bool.not_true, Bool.false_or, beq_iff_eq] at this
      rw [this]
    · exact hb q hq hs
  · rw [List.mem_singleton.mp ht']
    exact ⟨m, ht, fun q hq hs => by simp [writeBasis, hq, hs]⟩

theorem placeTerm_valid {masks : List (PauliMask R)} {m : PauliMask R} {t : ℕ}
    (ht : masks[t]? = some m) : ∀ {groups : List Group}, (∀ g ∈ groups, g.Valid n masks) →
    ∀ g ∈ placeTerm n m t groups, g.Valid n masks
  | [], _, g, hg => by
    rw [placeTerm, List.mem_singleton] at hg
    rw [hg]
    intro t' ht'
    rw [List.mem_singleton.mp ht']
    exact ⟨m, ht, fun q hq hs => by simp [writeBasis, hq, hs]⟩
  | g' :: groups, h, g, hg => by
    unfold placeTerm at hg
    split at hg
    · rcases List.mem_cons.mp hg with rfl | hg
      · exact (h g' List.mem_cons_self).write ht ‹_›
      · exact h g (List.mem_cons_of_mem _ hg)
    · rcases List.mem_cons.mp hg with rfl | hg
      · exact h g List.mem_cons_self
      · exact placeTerm_valid ht (fun g hg => h g (List.mem_cons_of_mem _ hg)) g hg

theorem placeTerms_spec {masks : List (PauliMask R)} : ∀ (l : List (PauliMask R × ℕ))
    (groups : List Group), (∀ p ∈ l, masks[p.2]? = some p.1) → (∀ g ∈ groups, g.Valid n masks) →
    let result := l.foldl (fun groups (m, t) => placeTerm n m t groups) groups
    (∀ g ∈ result, g.Valid n masks) ∧
      (result.flatMap Group.terms).Perm (l.map Prod.snd ++ groups.flatMap Group.terms)
  | [], groups, _, h => ⟨h, .refl _⟩
  | (m, t) :: l, groups, hl, h => by
    have ht : masks[t]? = some m := hl (m, t) List.mem_cons_self
    obtain ⟨h1, h2⟩ := placeTerms_spec l _ (fun p hp => hl p (List.mem_cons_of_mem _ hp))
      (placeTerm_valid ht h)
    refine ⟨h1, h2.trans ?_⟩
    exact ((placeTerm_perm n m t groups).append_left _).trans List.perm_middle

/-- **Every term is in one group.** -/
theorem groupQwc_perm (obs : Observable R) :
    (groupQwc obs).flatten.Perm (List.range obs.masks.length) := by
  have h := (placeTerms_spec (n := obs.numQubits) obs.masks.zipIdx []
    (fun p hp => (List.mem_zipIdx_iff_getElem? (x := p) (l := obs.masks)).mp hp) (by simp)).2
  rw [groupQwc, ← List.flatMap_def]
  refine h.trans (.of_eq ?_)
  simp [List.range_eq_range']

/-- **The terms of a group agree** on every qubit that both touch. -/
theorem groupQwc_agree (obs : Observable R) {group : List ℕ} (hg : group ∈ groupQwc obs) :
    ∃ basis : ℕ → Option ℕ, ∀ t ∈ group, ∃ m, obs.masks[t]? = some m ∧
      ∀ q < obs.numQubits, (m.x ||| m.z).testBit q = true → basis q = some (termBasis m q) := by
  obtain ⟨g, hmem, rfl⟩ := List.mem_map.mp hg
  have h := (placeTerms_spec (n := obs.numQubits) obs.masks.zipIdx []
    (fun p hp => (List.mem_zipIdx_iff_getElem? (x := p) (l := obs.masks)).mp hp) (by simp)).1 g hmem
  exact ⟨g.basis, h⟩

end Grouping

/-! ### Changes of basis -/

section Rotations

variable {needsX needsY : ℕ}

/-- The calls appended on qubit `q`. -/
def rotationCalls (needsX needsY q : ℕ) : List (GateCall ℝ) :=
  if needsY.testBit q then [.sdg q, .h q] else if needsX.testBit q then [.h q] else []

/-- The operator of the calls appended on a qubit. -/
noncomputable def basisChange (needsX needsY q : ℕ) : Op1 :=
  if needsY.testBit q then Gates.H.toOp * Gates.Sdg.toOp
  else if needsX.testBit q then Gates.H.toOp else 1

theorem fits_single {n P q : ℕ} (hq : q < n) {g : GateCall ℝ} (hg : g.qubits = [q])
    (ha : g.args = []) : g.Fits n P :=
  ⟨by simpa [hg] using hq, by simp [hg], by simp [ha]⟩

theorem rotateQubit_eq {c : Circuit ℝ} {q : ℕ} (hq : q < c.numQubits) :
    rotateQubit needsX needsY c q =
      .ok { c with ops := c.ops ++ (rotationCalls needsX needsY q).map GateCall.op } := by
  have hgate : ∀ (c : Circuit ℝ) (g : GateCall ℝ), q < c.numQubits → g.qubits = [q] → g.args = [] →
      c.gate g = .ok { c with ops := c.ops ++ [g.op] } := fun c g hq hg ha =>
    (Circuit.gate_eq_ok c g _).mpr ⟨fits_single hq hg ha, rfl⟩
  rw [rotateQubit, rotationCalls]
  split
  · have h1 : c.sdg q = .ok _ := hgate c (.sdg q) hq rfl rfl
    have h2 := hgate { c with ops := c.ops ++ [(GateCall.sdg q).op] } (.h q) hq rfl rfl
    rw [h1, ok_bind]
    exact h2.trans (by simp)
  · split
    · exact hgate c (.h q) hq rfl rfl
    · simp
      rfl

theorem foldlM_rotateQubit : ∀ {qs : List ℕ} {c : Circuit ℝ}, (∀ q ∈ qs, q < c.numQubits) →
    qs.foldlM (rotateQubit needsX needsY) c =
      .ok { c with ops := c.ops ++ (qs.flatMap (rotationCalls needsX needsY)).map GateCall.op }
  | [], c, _ => by simp; rfl
  | q :: qs, c, h => by
    rw [List.foldlM_cons, rotateQubit_eq (h q List.mem_cons_self), ok_bind]
    have ih := @foldlM_rotateQubit qs
      { c with ops := c.ops ++ (rotationCalls needsX needsY q).map GateCall.op }
      fun q hq => h q (List.mem_cons_of_mem _ hq)
    rw [ih]
    simp

theorem rotationCalls_operator {n : ℕ} (q : Fin n) :
    circuitOperator n (rotationCalls needsX needsY q) = onQubit q (basisChange needsX needsY q) := by
  have hs : (GateCall.sdg (q : ℕ) : GateCall ℝ).operator n = onQubit q Gates.Sdg.toOp :=
    Kernel.operator_single q _
  have hh : (GateCall.h (q : ℕ) : GateCall ℝ).operator n = onQubit q Gates.H.toOp :=
    Kernel.operator_single q _
  rw [rotationCalls, basisChange]
  split
  · simp [circuitOperator, hs, hh, onQubit_mul]
  · split
    · simp [circuitOperator, hh]
    · simp [circuitOperator]

/-- The calls on different qubits act as a tensor product. -/
theorem rotations_operator {n : ℕ} : ∀ {qs : List (Fin n)}, qs.Nodup →
    circuitOperator n ((qs.map Fin.val).flatMap (rotationCalls needsX needsY)) =
      tensor fun q : Fin n => if q ∈ qs then basisChange needsX needsY q else 1
  | [], _ => by
    rw [List.map_nil, List.flatMap_nil, circuitOperator, ← tensor_one]
    simp [Pi.one_def]
  | q :: qs, h => by
    obtain ⟨hq, hn⟩ := List.nodup_cons.mp h
    rw [List.map_cons, List.flatMap_cons, circuitOperator_append, rotationCalls_operator,
      rotations_operator hn, onQubit, tensor_mul]
    congr 1
    funext r
    by_cases hr : r = q
    · subst hr; simp [hq]
    · simp [hr]

theorem allRotations_operator (n needsX needsY : ℕ) :
    circuitOperator n ((List.range n).flatMap (rotationCalls needsX needsY)) =
      tensor fun q : Fin n => basisChange needsX needsY q := by
  have h := @rotations_operator needsX needsY n _ (List.nodup_finRange n)
  rw [List.map_coe_finRange_eq_range] at h
  simpa using h

end Rotations

/-! ### Mean signs -/

/-- The string of Z factors under a mask. -/
def signString (n mask : ℕ) : Fin n → Pauli := fun q => .ofBits false (mask.testBit q)

/-- **The exact mean sign** is the expectation of a string of Z factors. -/
theorem meanSign_exact {n : ℕ} (hn : n ≤ 64) {b : CPUBackend ℂ} {φ : State (Fin n)}
    (h : b.state.Holds φ) {mask : ℕ} (hm : mask < 2 ^ n) :
    exactReadout.meanSign mask b.probabilities = (expect (pauliString (signString n mask)) φ).re := by
  have hY : numY (signString n mask) = 0 :=
    Finset.sum_eq_zero fun q _ => by simp [signString, Pauli.ny]
  have hflip : ∀ y, flipped (signString n mask) y = y := fun y => funext fun q => by
    simp [flipped, signString]
  have hsign : ∀ y : Fin n → Bool, popcount64 (index y &&& mask) = signCount (signString n mask) y := by
    intro y
    have h2 : index y &&& mask < 2 ^ n := Nat.and_lt_two_pow _ hm
    rw [popcount64_eq (lt_of_lt_of_le h2 (Nat.pow_le_pow_right (by norm_num) hn)), bitSum_of_lt h2 hn,
      bitSum, Finset.sum_range, signCount]
    simp [signString]
  have hre : ∀ y, ((-1 : ℂ) ^ signCount (signString n mask) y * (star (φ y) * φ y)).re =
      Complex.normSq (φ y) * (-1) ^ signCount (signString n mask) y := by
    intro y
    have h1 : (-1 : ℂ) ^ signCount (signString n mask) y =
        (((-1) ^ signCount (signString n mask) y : ℝ) : ℂ) := by push_cast; rfl
    have h2 : star (φ y) * φ y = (Complex.normSq (φ y) : ℂ) := Complex.normSq_eq_conj_mul_self.symm
    rw [h1, h2, Complex.re_ofReal_mul, Complex.ofReal_re, mul_comm]
  calc exactReadout.meanSign mask b.probabilities
      = ∑ j ∈ Finset.range (2 ^ n), Complex.normSq (b.state.cell j) * (-1) ^ popcount64 (j &&& mask) := by
        rw [← h.size]
        rfl
    _ = ∑ y, Complex.normSq (φ y) * (-1) ^ signCount (signString n mask) y := by
        simp only [sum_index, hsign, h.cell]
    _ = (∑ y, (-1) ^ signCount (signString n mask) y * (star (φ y) * φ y)).re := by
        simp only [Complex.re_sum, hre]
    _ = (expect (pauliString (signString n mask)) φ).re := by
        simp only [expect_pauliString, hY, pow_zero, one_mul, hflip]

/-- Measuring after a change of basis is measuring the conjugated string. -/
theorem expect_conj {n : ℕ} {V : Fin n → Op1} {P Q : Fin n → Pauli}
    (h : ∀ q, (V q)ᴴ * (Q q).op * V q = (P q).op) (ψ : State (Fin n)) :
    expect (pauliString Q) (tensor V *ᵥ ψ) = expect (pauliString P) ψ := by
  rw [expect_mulVec, pauliString, tensor_conjTranspose, tensor_mul, tensor_mul, pauliString]
  congr 2
  exact funext h

/-! ### The masks of a group -/

theorem testBit_foldl_or {R : Type} (f : PauliMask R → ℕ) (q : ℕ) : ∀ (masks : List (PauliMask R))
    (needs : ℕ), (masks.foldl (fun needs m => needs ||| f m) needs).testBit q =
      (needs.testBit q || masks.any fun m => (f m).testBit q)
  | [], needs => by simp
  | m :: masks, needs => by
    rw [List.foldl_cons, testBit_foldl_or f q masks, Nat.testBit_or, List.any_cons, Bool.or_assoc]

/-- Masks that agree on every qubit that two of them touch. -/
def Agree {R : Type} (n : ℕ) (masks : List (PauliMask R)) : Prop :=
  ∃ basis : ℕ → Option ℕ, ∀ m ∈ masks, ∀ q < n, (m.x ||| m.z).testBit q = true →
    basis q = some (termBasis m q)

theorem Agree.termBasis_eq {R : Type} {n : ℕ} {masks : List (PauliMask R)} (h : Agree n masks)
    {m m' : PauliMask R} (hm : m ∈ masks) (hm' : m' ∈ masks) {q : ℕ} (hq : q < n)
    (hs : (m.x ||| m.z).testBit q = true) (hs' : (m'.x ||| m'.z).testBit q = true) :
    termBasis m q = termBasis m' q := by
  obtain ⟨basis, hb⟩ := h
  exact Option.some.inj ((hb m hm q hq hs).symm.trans (hb m' hm' q hq hs'))

/-- **One rotation serves the group.** On each qubit, the rotation of the group
turns the Z that is measured into the factor of each of its terms. -/
theorem basisChange_conj {R : Type} {n : ℕ} {masks : List (PauliMask R)} (h : Agree n masks)
    {m : PauliMask R} (hm : m ∈ masks) (q : Fin n) :
    let V := basisChange (masks.foldl (fun needs m => needs ||| Nat.ldiff m.x m.z) 0)
      (masks.foldl (fun needs m => needs ||| (m.x &&& m.z)) 0) q
    (Vᴴ * (signString n (m.x ||| m.z) q).op * V) = (m.string n q).op := by
  intro V
  have hV : V = if masks.any (fun m => m.x.testBit q && m.z.testBit q) then
      Gates.H.toOp * Gates.Sdg.toOp
    else if masks.any (fun m => m.x.testBit q && !m.z.testBit q) then Gates.H.toOp else 1 := by
    simp only [V, basisChange, testBit_foldl_or, Nat.zero_testBit, Bool.false_or, Nat.testBit_and,
      Nat.testBit_ldiff]
  have hsign : signString n (m.x ||| m.z) q = .ofBits false (m.x.testBit q || m.z.testBit q) := by
    rw [signString, Nat.testBit_or]
  -- a Y in the group excludes X and Z on this qubit, an X excludes Z
  have hagree : ∀ m' ∈ masks, (m'.x.testBit q || m'.z.testBit q) = true →
      (m.x.testBit q || m.z.testBit q) = true → termBasis m q = termBasis m' q := fun m' hm' h1 h2 =>
    h.termBasis_eq hm hm' q.isLt (by rwa [Nat.testBit_or]) (by rwa [Nat.testBit_or])
  rw [hV, hsign, PauliMask.string, PauliMask.pauli]
  cases hx : m.x.testBit q <;> cases hz : m.z.testBit q
  · -- the term does not touch the qubit: every rotation is unitary
    simp only [Bool.or_false, Pauli.ofBits, Pauli.op_I, Matrix.mul_one]
    split
    · exact Gates.HSdg_unitary
    · split
      · exact Gates.H_unitary
      · simp
  · have hno : ∀ m' ∈ masks, m'.x.testBit q = false := by
      intro m' hm'
      by_contra hc
      have hc : m'.x.testBit q = true := by simpa using hc
      have := hagree m' hm' (by simp [hc]) (by simp [hz])
      cases hz' : m'.z.testBit q <;> simp [termBasis, hx, hz, hc, hz'] at this
    rw [if_neg (by simpa using fun m' hm' => by simp [hno m' hm']),
      if_neg (by simpa using fun m' hm' => by simp [hno m' hm'])]
    simp [Pauli.ofBits]
  · have hno : ∀ m' ∈ masks, (m'.x.testBit q && m'.z.testBit q) = false := by
      intro m' hm'
      by_contra hc
      have hc : (m'.x.testBit q && m'.z.testBit q) = true := by simpa using hc
      have hxz := (Bool.and_eq_true _ _).mp hc
      have := hagree m' hm' (by simp [hxz.1]) (by simp [hx])
      simp [termBasis, hx, hz, hxz.1, hxz.2] at this
    rw [if_neg (by simpa using fun m' hm' => by simpa using hno m' hm'),
      if_pos (List.any_eq_true.mpr ⟨m, hm, by simp [hx, hz]⟩)]
    exact Gates.H_conj_Z
  · rw [if_pos (List.any_eq_true.mpr ⟨m, hm, by simp [hx, hz]⟩)]
    exact Gates.HSdg_conj_Z

/-! ### The shot path is unbiased -/

/-- The CPU backend with the distribution of the outcomes for `sample`. -/
noncomputable def exactSampler : Sampler (CPUBackend ℂ) (StateVec ℝ) where
  initializeState := CPUBackend.initializeState
  applyGate := CPUBackend.applyGate
  sample _ _ b := return (b.probabilities, b)

section Exact

variable {ansatz : Circuit ℝ} {calls : List (GateCall ℝ)} {obs : Observable ℝ} {r : Request ℝ}

/-- The state of the bound ansatz. -/
noncomputable def boundState (obs : Observable ℝ) (calls : List (GateCall ℝ)) (r : Request ℝ) :
    State (Fin obs.numQubits) :=
  preparedState obs.numQubits (bindCalls calls r.theta r.op r.delta)

/-- The state that the circuit of a group prepares. -/
theorem rotatedState_eq (n needsX needsY : ℕ) (calls : List (GateCall ℝ)) :
    preparedState n (calls ++ (List.range n).flatMap (rotationCalls needsX needsY)) =
      tensor (fun q : Fin n => basisChange needsX needsY q) *ᵥ preparedState n calls := by
  rw [preparedState, circuitOperator_append, allRotations_operator, ← mulVec_mulVec]
  rfl

/-- The mask of term `t`. -/
def maskOf (obs : Observable ℝ) (t : ℕ) : PauliMask ℝ := obs.masks.getD t ⟨0, 0, 0, 0⟩

theorem maskOf_eq {t : ℕ} {m : PauliMask ℝ} (h : obs.masks[t]? = some m) : maskOf obs t = m := by
  simp [maskOf, List.getD_eq_getElem?_getD, h]

/-- The loop over a group reads its masks. -/
theorem mapM_maskOf {group : List ℕ} (hg : group ∈ groupQwc obs) :
    group.mapM (vecAt obs.masks) = .ok (group.map (maskOf obs)) := by
  obtain ⟨basis, hbasis⟩ := groupQwc_agree obs hg
  refine mapM_eq_ok fun t ht => ?_
  obtain ⟨m, hm, -⟩ := hbasis t ht
  rw [maskOf_eq hm, vecAt, hm]

/-- The exact contribution of a mask. -/
noncomputable def maskEnergy {n : ℕ} (ψ : State (Fin n)) (m : PauliMask ℝ) : ℝ :=
  m.coeff * (expect (pauliString (m.string n)) ψ).re

theorem fits_rotationCalls {n P needsX needsY : ℕ} :
    ∀ g ∈ (List.range n).flatMap (rotationCalls needsX needsY), g.Fits n P := by
  intro g hg
  obtain ⟨q, hq, hg⟩ := List.mem_flatMap.mp hg
  have hq : q < n := List.mem_range.mp hq
  have hcall : g.qubits = [q] ∧ g.args = [] := by
    unfold rotationCalls at hg
    split_ifs at hg <;> simp at hg
    · rcases hg with rfl | rfl <;> exact ⟨rfl, rfl⟩
    · exact hg ▸ ⟨rfl, rfl⟩
  exact fits_single hq hcall.1 hcall.2

/-- The masks of a group agree on the basis of every qubit. -/
theorem agree_group {group : List ℕ} (hg : group ∈ groupQwc obs) :
    Agree obs.numQubits (group.map (maskOf obs)) ∧ ∀ t ∈ group, maskOf obs t ∈ obs.masks := by
  obtain ⟨basis, hbasis⟩ := groupQwc_agree obs hg
  refine ⟨⟨basis, fun m hm => ?_⟩, fun t ht => ?_⟩
  · obtain ⟨t, ht, rfl⟩ := List.mem_map.mp hm
    obtain ⟨m, hm, hq⟩ := hbasis t ht
    rw [maskOf_eq hm]
    exact hq
  · obtain ⟨m, hm, -⟩ := hbasis t ht
    rw [maskOf_eq hm]
    exact List.mem_of_getElem? hm

/-- **A group contributes its terms exactly.** -/
theorem evaluateGroup_exact (hc : ansatz.Legal calls) (hn : ansatz.numQubits ≤ 30) (ho : obs.Legal)
    (hno : obs.numQubits = ansatz.numQubits) (hr : Accepts ansatz r) (shots : ℕ) {group : List ℕ}
    (hg : group ∈ groupQwc obs) (total : ℝ) (b : CPUBackend ℂ) :
    ∃ b', evaluateGroup exactSampler exactReadout ansatz r.theta r.op r.delta obs shots total b group =
      .ok (total + (group.map fun t => maskEnergy (boundState obs calls r) (maskOf obs t)).sum, b') := by
  obtain ⟨hagree, hmask⟩ := agree_group hg
  obtain ⟨bound, hb⟩ := hr
  have hl := hc.bind hb
  have hnb : bound.numQubits = obs.numQubits := (hc.numQubits_bind hb).trans hno.symm
  have hpos := hl.pos
  generalize hX : (group.map (maskOf obs)).foldl (fun needs m => needs ||| Nat.ldiff m.x m.z) 0 = needsX
  generalize hY : (group.map (maskOf obs)).foldl (fun needs m => needs ||| (m.x &&& m.z)) 0 = needsY
  have hrot := @foldlM_rotateQubit needsX needsY (List.range ansatz.numQubits) bound
    fun q hq => by
      have := List.mem_range.mp hq
      omega
  have hfits : ∀ g ∈ bindCalls calls r.theta r.op r.delta ++
      (List.range obs.numQubits).flatMap (rotationCalls needsX needsY),
      g.Fits obs.numQubits bound.numParams := fun g hg => by
    rcases List.mem_append.mp hg with hg | hg
    · exact hnb ▸ hl.fits g hg
    · exact fits_rotationCalls g hg
  obtain ⟨b₀, b', h₀, h₁, h₂⟩ := b.prepare_holds (by omega) (by omega) hfits
  rw [rotatedState_eq] at h₂
  have hterm : ∀ m ∈ group.map (maskOf obs), m.coeff * exactReadout.meanSign (m.x ||| m.z) b'.probabilities =
      maskEnergy (boundState obs calls r) m := by
    intro m hm
    obtain ⟨t, ht, rfl⟩ := List.mem_map.mp hm
    have hfit := ho.fits _ (hmask t ht)
    have hlt := Nat.or_lt_two_pow hfit.x hfit.z
    rw [meanSign_exact ho.le h₂ hlt, maskEnergy]
    have hconj := fun q => basisChange_conj hagree hm q
    simp only [hX, hY] at hconj
    rw [expect_conj hconj]
    rfl
  refine ⟨b', ?_⟩
  rw [evaluateGroup, mapM_maskOf hg]
  have hinit : exactSampler.initializeState ansatz.numQubits b = .ok b₀ := hno ▸ h₀
  have hrun : (bound.ops ++ ((List.range ansatz.numQubits).flatMap
      (rotationCalls needsX needsY)).map GateCall.op).foldlM
        (fun s op => exactSampler.applyGate op s) b₀ = .ok b' := by
    rw [hl.ops, ← List.map_append, ← hno]
    exact h₁
  simp only [ok_bind, hb, hX, hY, hrot, hinit, hrun]
  change Except.ok ((group.map (maskOf obs)).foldl (fun total m => total +
    m.coeff * exactReadout.meanSign (m.x ||| m.z) b'.probabilities) total, b') = _
  rw [foldl_add_map, List.map_congr_left hterm, List.map_map]
  rfl

theorem foldlM_groups {σ : Type} {f : ℝ → σ → List ℕ → Except Exn (ℝ × σ)} {val : List ℕ → ℝ} :
    ∀ (groups : List (List ℕ)) (total : ℝ) (s : σ),
    (∀ g ∈ groups, ∀ total s, ∃ s', f total s g = .ok (total + val g, s')) →
    ∃ s', groups.foldlM (fun (total, s) g => f total s g) (total, s) =
      .ok (total + (groups.map val).sum, s')
  | [], total, s, _ => ⟨s, by simp; rfl⟩
  | g :: groups, total, s, h => by
    obtain ⟨s₁, h₁⟩ := h g List.mem_cons_self total s
    obtain ⟨s₂, h₂⟩ := foldlM_groups groups (total + val g) s₁ fun g hg => h g (List.mem_cons_of_mem _ hg)
    refine ⟨s₂, ?_⟩
    rw [List.foldlM_cons]
    simp only [h₁, ok_bind, h₂, List.map_cons, List.sum_cons, add_assoc]

/-- The groups together hold every term once. -/
theorem sum_groups (obs : Observable ℝ) (f : PauliMask ℝ → ℝ) :
    ((groupQwc obs).map fun group => (group.map fun t => f (maskOf obs t)).sum).sum =
      (obs.masks.map f).sum := by
  calc ((groupQwc obs).map fun group => (group.map fun t => f (maskOf obs t)).sum).sum
      = ((groupQwc obs).flatten.map fun t => f (maskOf obs t)).sum := by
        rw [List.map_flatten, List.sum_flatten, List.map_map]
        rfl
    _ = ((List.range obs.masks.length).map fun t => f (maskOf obs t)).sum :=
        ((groupQwc_perm obs).map _).sum_eq
    _ = (((List.range obs.masks.length).map (maskOf obs)).map f).sum := by
        rw [List.map_map]
        rfl
    _ = (obs.masks.map f).sum := by
        rw [show (List.range obs.masks.length).map (maskOf obs) = obs.masks from map_getD_range _ _]

theorem shotBasedExpectation_eq (hc : ansatz.Legal calls) (hn : ansatz.numQubits ≤ 30)
    (ho : obs.Legal) (hno : obs.numQubits = ansatz.numQubits) (hr : Accepts ansatz r) (shots : ℕ)
    (b : CPUBackend ℂ) : ∃ b', shotBasedExpectation exactSampler exactReadout ansatz r.theta r.op
      r.delta obs shots b =
        .ok (energy obs.numQubits obs (bindCalls calls r.theta r.op r.delta), b') := by
  obtain ⟨b', hb'⟩ := foldlM_groups (groupQwc obs) 0 b fun g hg total s =>
    evaluateGroup_exact hc hn ho hno hr shots hg total s
  refine ⟨b', ?_⟩
  rw [shotBasedExpectation]
  refine hb'.trans ?_
  rw [sum_groups obs (maskEnergy (boundState obs calls r)), zero_add]
  exact congrArg (fun e => Except.ok (e, b')) (expect_operator_re obs _)

/-- **The shot path is unbiased.** With the exact distribution of the outcomes
in place of `sample`, the groups, the appended rotations and the mean signs
give what `expectation_value` gives on the state of the bound ansatz. -/
theorem shotBasedExpectation_exact (hb : Circuit.Built ansatz) (hn : ansatz.numQubits ≤ 30)
    {terms : List (Term ℝ)} (hobs : Observable.ofTerms ansatz.numQubits terms = .ok obs)
    (hr : Accepts ansatz r) (shots : ℕ) (b : CPUBackend ℂ) :
    ∃ (e : ℝ) (bound : Circuit ℝ) (b₀ cpu b' : CPUBackend ℂ),
      ansatz.bind r.theta r.op r.delta = .ok bound ∧
      b.initializeState bound.numQubits = .ok b₀ ∧ b₀.run bound.ops = .ok cpu ∧
      expectationValue cpu.getState obs = .ok e ∧
      shotBasedExpectation exactSampler exactReadout ansatz r.theta r.op r.delta obs shots b =
        .ok (e, b') := by
  obtain ⟨calls, hc⟩ := Circuit.legal_of_built hb
  have ho := legal_of_ofTerms hobs
  have hno := (ofTerms_ok hobs).2.1
  obtain ⟨b', hb'⟩ := shotBasedExpectation_eq hc hn ho hno hr shots b
  obtain ⟨bound, hbind⟩ := hr
  have hl := hc.bind hbind
  have hnb : bound.numQubits = obs.numQubits := (hc.numQubits_bind hbind).trans hno.symm
  have hpos := hl.pos
  obtain ⟨b₀, cpu, h₀, h₁, h₂⟩ := b.prepare_holds (n := obs.numQubits) (by omega) (by omega)
    (hnb ▸ hl.fits)
  exact ⟨_, bound, b₀, cpu, b', hbind, hnb ▸ h₀, hl.ops ▸ h₁, expectationValue_holds ho h₂, hb'⟩

/-- H on the first qubit and CX, in the terms X₀ X₁, Y₀ Y₁ and Z₁. -/
theorem shotBasedExpectation_exact_bell :
    let ansatz : Circuit ℝ := ⟨2, 0, [GateCall.op (.h 0), GateCall.op (.cnot 0 1)], []⟩
    let obs : Observable ℝ := ⟨2, [⟨1, 3, 0, 0⟩, ⟨2, 3, 3, 2⟩, ⟨3, 0, 2, 0⟩]⟩
    ∃ (e : ℝ) (bound : Circuit ℝ) (b₀ cpu b' : CPUBackend ℂ),
      ansatz.bind [] (-1) 0 = .ok bound ∧
      (CPUBackend.new fun _ => .inOrder).initializeState bound.numQubits = .ok b₀ ∧
      b₀.run bound.ops = .ok cpu ∧ expectationValue cpu.getState obs = .ok e ∧
      shotBasedExpectation exactSampler exactReadout ansatz [] (-1) 0 obs 1024
        (.new fun _ => .inOrder) = .ok (e, b') := by
  intro ansatz obs
  have h0 : Circuit.Built (⟨2, 0, [], []⟩ : Circuit ℝ) := .new (n := 2) rfl
  have hb : Circuit.Built ansatz := .gate (g := .cnot 0 1) (.gate (g := .h 0) h0 rfl) rfl
  have hr : Accepts ansatz ⟨[], -1, 0⟩ := ⟨_, rfl⟩
  have hobs : Observable.ofTerms 2 [.dense 1 ['X', 'X'], .dense 2 ['Y', 'Y'], .sparse 3 [('Z', 1)]] =
      .ok obs := rfl
  exact shotBasedExpectation_exact hb (by decide) hobs hr 1024 _

end Exact

end Qsycl.Native
