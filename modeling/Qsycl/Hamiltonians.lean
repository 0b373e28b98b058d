/-
# The spin chains

The Hamiltonians of `hamiltonians.cpp` on a chain or a ring. They are built for 2 to 64
sites, a ring for at least 3 (`ising_flipped`, `heisenberg_conserved`), and have the
symmetries of their models. The energy of the Ising chain stays the same when all sites are
flipped, and is that of the opposite field when all turn about the axis of the bonds. With
`delta = 1` a bond of the Heisenberg chain is an exchange of its sites, so no layer of one
gate on all sites changes the energy; with every other `delta` those of diagonal gates
do not.
-/
import Qsycl.GateIdentities
import Qsycl.PauliTerms
import Qsycl.Lib.Interactions

namespace Qsycl

open Qubits Matrix

/-! ### The builders -/

section Builders

variable {R : Type} [Ring R] [DecidableEq R]

def checkChain (n : ℕ) (periodic : Bool) : Except Exn Unit :=
  if n < 2 then
    throw ⟨.invalidArgument, "chain Hamiltonian needs at least 2 sites"⟩
  else if periodic ∧ n < 3 then
    throw ⟨.invalidArgument, "periodic chain needs at least 3 sites"⟩
  else
    return

/-- The number of bonds. -/
def bonds (n : ℕ) (periodic : Bool) : ℕ := if periodic then n else n - 1

def isingChain (n : ℕ) (J h : R) (periodic : Bool) : Except Exn (Observable R) := do
  checkChain n periodic
  let H ← Observable.new n
  let H ← (List.range (bonds n periodic)).foldlM
    (fun H i => H.addTerm (-J) [('Z', i), ('Z', (i + 1) % n)]) H
  if h ≠ 0 then (List.range n).foldlM (fun H i => H.addTerm (-h) [('X', i)]) H
  else return H

def heisenbergChain (n : ℕ) (J delta : R) (periodic : Bool) : Except Exn (Observable R) := do
  checkChain n periodic
  let H ← Observable.new n
  (List.range (bonds n periodic)).foldlM (fun H i => do
    let j := (i + 1) % n
    let H ← H.addTerm J [('X', i), ('X', j)]
    let H ← H.addTerm J [('Y', i), ('Y', j)]
    if delta ≠ 0 then H.addTerm (J * delta) [('Z', i), ('Z', j)]
    else return H) H

/-! ### The terms -/

/-- The term of one letter on both sites of a bond. -/
def bondTerm (n : ℕ) (coeff : R) (letter : Char) (i : ℕ) : Term R :=
  .sparse coeff [(letter, i), (letter, (i + 1) % n)]

def isingTerms (n : ℕ) (J h : R) (periodic : Bool) : List (Term R) :=
  (List.range (bonds n periodic)).map (bondTerm n (-J) 'Z') ++
    if h ≠ 0 then (List.range n).map fun i => .sparse (-h) [('X', i)] else []

/-- The terms of one bond. -/
def heisenbergBond (n : ℕ) (J delta : R) (i : ℕ) : List (Term R) :=
  [bondTerm n J 'X' i, bondTerm n J 'Y' i] ++ if delta ≠ 0 then [bondTerm n (J * delta) 'Z' i] else []

def heisenbergTerms (n : ℕ) (J delta : R) (periodic : Bool) : List (Term R) :=
  (List.range (bonds n periodic)).flatMap (heisenbergBond n J delta)

theorem isingChain_eq (n : ℕ) (J h : R) (periodic : Bool) : isingChain n J h periodic =
    (checkChain n periodic >>= fun _ => Observable.ofTerms n (isingTerms n J h periodic)) := by
  have hterms : ∀ H : Observable R, (isingTerms n J h periodic).foldlM Observable.addCall H =
      ((List.range (bonds n periodic)).foldlM
        (fun H i => H.addTerm (-J) [('Z', i), ('Z', (i + 1) % n)]) H >>= fun H =>
          if h ≠ 0 then (List.range n).foldlM (fun H i => H.addTerm (-h) [('X', i)]) H else return H) := by
    intro H
    rw [isingTerms, List.foldlM_append, List.foldlM_map]
    refine bind_congr fun H => ?_
    split
    · rw [List.foldlM_map]
      rfl
    · rfl
  simp only [isingChain, ofTerms_eq, hterms]

theorem foldlM_flatMap {α β γ : Type} (f : γ → β → Except Exn γ) (g : α → List β) : ∀ (l : List α) (c : γ),
    (l.flatMap g).foldlM f c = l.foldlM (fun c a => (g a).foldlM f c) c
  | [], _ => rfl
  | a :: l, c => by
    rw [List.flatMap_cons, List.foldlM_append, List.foldlM_cons]
    exact bind_congr fun c => foldlM_flatMap f g l c

theorem heisenbergChain_eq (n : ℕ) (J delta : R) (periodic : Bool) : heisenbergChain n J delta periodic =
    (checkChain n periodic >>= fun _ => Observable.ofTerms n (heisenbergTerms n J delta periodic)) := by
  have hbond : ∀ (H : Observable R) (i : ℕ), (heisenbergBond n J delta i).foldlM Observable.addCall H = (do
      let H ← H.addTerm J [('X', i), ('X', (i + 1) % n)]
      let H ← H.addTerm J [('Y', i), ('Y', (i + 1) % n)]
      if delta ≠ 0 then H.addTerm (J * delta) [('Z', i), ('Z', (i + 1) % n)] else return H) := by
    intro H i
    rw [heisenbergBond, List.foldlM_append]
    split
    · simp [bondTerm, Observable.addCall]
    · simp [bondTerm, Observable.addCall]
  simp only [heisenbergChain, ofTerms_eq, heisenbergTerms, foldlM_flatMap, hbond]

/-! ### What is built -/

section Accepted

variable {n : ℕ} {J h delta : R} {periodic : Bool}

/-- The sizes of a chain or a ring. -/
def ChainSize (n : ℕ) (periodic : Bool) : Prop := (2 ≤ n ∧ n ≤ 64) ∧ (periodic = true → 3 ≤ n)

theorem checkChain_isOk : checkChain n periodic = .ok () ↔ 2 ≤ n ∧ (periodic = true → 3 ≤ n) := by
  rw [checkChain]
  by_cases h2 : n < 2
  · rw [if_pos h2]
    exact ⟨nofun, fun h => by omega⟩
  · rw [if_neg h2]
    by_cases h3 : periodic = true ∧ n < 3
    · rw [if_pos h3]
      exact ⟨nofun, fun h => by have := h.2 h3.1; omega⟩
    · rw [if_neg h3]
      exact ⟨fun _ => ⟨by omega, fun hp => by by_contra hn; exact h3 ⟨hp, by omega⟩⟩, fun _ => rfl⟩

/-- The two sites of a bond. -/
theorem bond_sites (hn : 2 ≤ n) {i : ℕ} (hi : i ∈ List.range (bonds n periodic)) :
    i < n ∧ (i + 1) % n < n ∧ i ≠ (i + 1) % n := by
  have hin : i < n := by
    have hlt := List.mem_range.mp hi
    rw [bonds] at hlt
    split at hlt <;> omega
  refine ⟨hin, Nat.mod_lt _ (by omega), fun he => ?_⟩
  rcases Nat.lt_or_ge (i + 1) n with h1 | h1
  · rw [Nat.mod_eq_of_lt h1] at he
    omega
  · have hlast : i + 1 = n := by omega
    rw [hlast, Nat.mod_self] at he
    omega

omit [Ring R] [DecidableEq R] in
theorem bondTerm_accepted (hn : 2 ≤ n) {i : ℕ} (hi : i ∈ List.range (bonds n periodic)) (coeff : R)
    {letter : Char} (hl : letter ∈ pauliLetters) : (bondTerm n coeff letter i).Accepted n := by
  obtain ⟨h1, h2, hne⟩ := bond_sites hn hi
  refine ⟨?_, ?_, ?_⟩
  · simp [h1, h2]
  · simp [hl]
  · simpa using hne

theorem isingTerms_accepted (hn : 2 ≤ n) : ∀ t ∈ isingTerms n J h periodic, t.Accepted n := by
  intro t ht
  rw [isingTerms] at ht
  rcases List.mem_append.mp ht with ht | ht
  · obtain ⟨i, hi, rfl⟩ := List.mem_map.mp ht
    exact bondTerm_accepted hn hi _ (by simp [pauliLetters])
  · split at ht
    · obtain ⟨i, hi, rfl⟩ := List.mem_map.mp ht
      have hin := List.mem_range.mp hi
      exact ⟨by simpa using hin, by simp [pauliLetters], by simp⟩
    · cases ht

theorem heisenbergTerms_accepted (hn : 2 ≤ n) : ∀ t ∈ heisenbergTerms n J delta periodic, t.Accepted n := by
  intro t ht
  obtain ⟨i, hi, ht⟩ := List.mem_flatMap.mp ht
  rw [heisenbergBond] at ht
  rcases List.mem_append.mp ht with ht | ht
  · simp only [List.mem_cons, List.not_mem_nil, or_false] at ht
    rcases ht with rfl | rfl
    · exact bondTerm_accepted hn hi _ (by simp [pauliLetters])
    · exact bondTerm_accepted hn hi _ (by simp [pauliLetters])
  · split at ht
    · rw [List.mem_singleton.mp ht]
      exact bondTerm_accepted hn hi _ (by simp [pauliLetters])
    · cases ht

omit [Ring R] [DecidableEq R] in
/-- A builder that checks the size of the chain and adds accepted terms. -/
theorem chain_isOk {terms : List (Term R)} (ht : 2 ≤ n → ∀ t ∈ terms, t.Accepted n) :
    (∃ H, (checkChain n periodic >>= fun _ => Observable.ofTerms n terms) = .ok H) ↔ ChainSize n periodic := by
  constructor
  · rintro ⟨H, hH⟩
    obtain ⟨⟨⟩, hcheck, hterms⟩ := bind_eq_ok.mp hH
    obtain ⟨h2, h3⟩ := checkChain_isOk.mp hcheck
    obtain ⟨⟨-, h64⟩, -⟩ := ofTerms_isOk.mp ⟨H, hterms⟩
    exact ⟨⟨h2, h64⟩, h3⟩
  · rintro ⟨⟨h2, h64⟩, h3⟩
    obtain ⟨H, hterms⟩ := ofTerms_isOk.mpr ⟨⟨by omega, h64⟩, ht h2⟩
    exact ⟨H, bind_eq_ok.mpr ⟨(), checkChain_isOk.mpr ⟨h2, h3⟩, hterms⟩⟩

theorem isingChain_isOk : (∃ H, isingChain n J h periodic = .ok H) ↔ ChainSize n periodic := by
  rw [isingChain_eq]
  exact chain_isOk isingTerms_accepted

theorem heisenbergChain_isOk : (∃ H, heisenbergChain n J delta periodic = .ok H) ↔ ChainSize n periodic := by
  rw [heisenbergChain_eq]
  exact chain_isOk heisenbergTerms_accepted

end Accepted

end Builders

/-! ### One gate on all sites -/

/-- The same gate on every qubit. -/
structure GateLayer (n : ℕ) where
  gate : ℕ → GateCall ℝ
  matrix : Matrix2x2 ℂ
  kernel : ∀ q, (gate q).kernel = .single q matrix
  fits : ∀ q < n, (gate q).Fits n 0

namespace GateLayer

variable {n : ℕ}

def calls (L : GateLayer n) : List (GateCall ℝ) := (List.range n).map L.gate

theorem calls_fits (L : GateLayer n) : ∀ g ∈ L.calls, g.Fits n 0 := by
  intro g hg
  obtain ⟨q, hq, rfl⟩ := List.mem_map.mp hg
  exact L.fits q (List.mem_range.mp hq)

theorem operator_eq (L : GateLayer n) : circuitOperator n L.calls = everywhere L.matrix.toOp := by
  have hgate : ∀ l : List (Fin n), circuitOperator n (l.map fun q : Fin n => L.gate q) =
      (l.reverse.map fun q => onQubit q L.matrix.toOp).prod := by
    intro l
    induction l with
    | nil => rfl
    | cons q l ih =>
      rw [List.map_cons, circuitOperator, ih, GateCall.operator, L.kernel, Kernel.operator_single,
        List.reverse_cons, List.map_append, List.prod_append, List.map_singleton, List.prod_singleton]
  rw [calls, ← List.map_coe_finRange_eq_range, List.map_map]
  refine (hgate _).trans (prod_onQubit_all _ (List.nodup_reverse.mpr (List.nodup_finRange n)) ?_)
  simp

end GateLayer

/-! ### The operators -/

section Operators

variable {n : ℕ}

/-- The operator that a term names. -/
noncomputable def Term.operator (n : ℕ) (t : Term ℝ) : Op (Fin n) :=
  (t.coeff : ℂ) • pauliString fun q : Fin n => t.pauli q

theorem operator_ofTerms {terms : List (Term ℝ)} {H : Observable ℝ} (h : Observable.ofTerms n terms = .ok H) :
    H.operator n = (terms.map (Term.operator n)).sum := by
  obtain ⟨-, -, hmasks⟩ := ofTerms_ok h
  rw [Observable.operator]
  generalize H.masks = masks at hmasks
  clear h
  induction hmasks with
  | nil => rfl
  | @cons t m terms masks ht _ ih =>
    obtain ⟨-, hc, hp⟩ := ht
    have hs : m.string n = fun q : Fin n => t.pauli q := funext fun q => hp q
    rw [List.map_cons, List.map_cons, List.sum_cons, List.sum_cons, ih, Term.operator, hc, hs]

theorem pauliString_site {i : Fin n} {letter : Char} :
    (pauliString fun q : Fin n => (Term.sparse (1 : ℝ) [(letter, (i : ℕ))]).pauli q) =
      onQubit i (pauliOf letter).op := by
  rw [pauliString, onQubit]
  congr 1
  funext q
  rw [Term.pauli, sparsePauli, sparsePauli]
  by_cases hq : q = i
  · rw [hq, if_pos rfl, Function.update_self]
  · rw [if_neg (fun he => hq (Fin.ext he)), Function.update_of_ne hq, Pauli.op_I, Pi.one_apply]

theorem pauliString_bond {i j : Fin n} (hij : i ≠ j) {letter : Char} :
    (pauliString fun q : Fin n => (Term.sparse (1 : ℝ) [(letter, (i : ℕ)), (letter, (j : ℕ))]).pauli q) =
      onQubit i (pauliOf letter).op * onQubit j (pauliOf letter).op := by
  rw [pauliString, onQubit, onQubit, tensor_mul]
  congr 1
  funext q
  rw [Term.pauli, sparsePauli, sparsePauli, sparsePauli, Pi.mul_apply]
  by_cases hi : q = i
  · rw [hi, if_pos rfl, Function.update_self, Function.update_of_ne hij, Pi.one_apply, Matrix.mul_one]
  · rw [if_neg (fun he => hi (Fin.ext he)), Function.update_of_ne hi, Pi.one_apply, Matrix.one_mul]
    by_cases hj : q = j
    · rw [hj, if_pos rfl, Function.update_self]
    · rw [if_neg (fun he => hj (Fin.ext he)), Function.update_of_ne hj, Pauli.op_I, Pi.one_apply]

/-- The operator of a letter on both sites of a bond. -/
theorem bondTerm_operator (hn : 2 ≤ n) {periodic : Bool} {i : ℕ} (hi : i ∈ List.range (bonds n periodic)) :
    ∃ a b : Fin n, a ≠ b ∧ ∀ (coeff : ℝ) (letter : Char), (bondTerm n coeff letter i).operator n =
      (coeff : ℂ) • (onQubit a (pauliOf letter).op * onQubit b (pauliOf letter).op) := by
  obtain ⟨h1, h2, hne⟩ := bond_sites hn hi
  have hab : (⟨i, h1⟩ : Fin n) ≠ ⟨(i + 1) % n, h2⟩ := fun he => hne (congrArg Fin.val he)
  exact ⟨⟨i, h1⟩, ⟨(i + 1) % n, h2⟩, hab, fun coeff letter => by rw [← pauliString_bond hab]; rfl⟩

/-- A layer on a state vector, where it takes the operator of one observable to that of
another. -/
theorem run_layers {H H' : Observable ℝ} (hl : H.Legal) (hl' : H'.Legal) (hq : H.numQubits = n)
    (hq' : H'.numQubits = n) {calls : List (GateCall ℝ)} (hf : ∀ g ∈ calls, g.Fits n 0)
    (hU : H'.operator n * circuitOperator n calls = circuitOperator n calls * H.operator n)
    {b : CPUBackend ℂ} (hb : b.state.size = 2 ^ n) : ∃ b' e, b.run (calls.map GateCall.op) = .ok b' ∧
      expectationValue b.getState H = .ok e ∧ expectationValue b'.getState H' = .ok e := by
  obtain ⟨numQubits, masks⟩ := H
  obtain ⟨numQubits', masks'⟩ := H'
  obtain rfl : numQubits = n := hq
  obtain rfl : numQubits' = numQubits := hq'
  have hψ : b.state.Holds (view numQubits' b.state.cell) := ⟨hb, rfl⟩
  obtain ⟨b', hrun, hψ'⟩ := CPUBackend.run_holds hψ hf
  refine ⟨b', _, hrun, expectationValue_holds hl hψ, ?_⟩
  rw [← expect_intertwined (isUnitary_circuitOperator hf) hU]
  exact expectationValue_holds hl' hψ'

end Operators

/-! ### The Ising chain -/

section Ising

variable {n : ℕ} {J h : ℝ} {periodic : Bool}

def xLayer (n : ℕ) : GateLayer n where
  gate := .x
  matrix := Gates.X
  kernel _ := rfl
  fits q hq := ⟨by simpa [GateCall.qubits] using hq, by simp [GateCall.qubits], by simp [GateCall.args]⟩

def zLayer (n : ℕ) : GateLayer n where
  gate := .z
  matrix := Gates.Z
  kernel _ := rfl
  fits q hq := ⟨by simpa [GateCall.qubits] using hq, by simp [GateCall.qubits], by simp [GateCall.args]⟩

/-- The field, also where it is 0 and the code adds no term. -/
theorem isingTerms_operator : ((isingTerms n J h periodic).map (Term.operator n)).sum =
    ((List.range (bonds n periodic)).map fun i => (bondTerm n (-J) 'Z' i).operator n).sum +
      ((List.range n).map fun i => (Term.sparse (-h) [('X', i)]).operator n).sum := by
  rw [isingTerms, List.map_append, List.sum_append, List.map_map]
  congr 1
  by_cases h0 : h = 0
  · have hzero : ∀ i, (Term.sparse (-h) [('X', i)]).operator n = 0 := fun i => by
      rw [Term.operator, Term.coeff, h0, neg_zero, Complex.ofReal_zero, zero_smul]
    rw [if_neg (not_not.mpr h0)]
    simp [hzero]
  · rw [if_pos h0, List.map_map]
    rfl

theorem fieldTerm_operator {i : ℕ} (hi : i ∈ List.range n) :
    ∃ q : Fin n, ∀ h : ℝ, (Term.sparse h [('X', i)]).operator n = (h : ℂ) • onQubit q Pauli.X.op :=
  ⟨⟨i, List.mem_range.mp hi⟩, fun h => congrArg ((h : ℂ) • ·) (pauliString_site (i := ⟨i, List.mem_range.mp hi⟩))⟩

theorem sum_intertwined {α : Type} {U : Op (Fin n)} {A A' : α → Op (Fin n)} : ∀ {l : List α},
    (∀ a ∈ l, A' a * U = U * A a) → (l.map A').sum * U = U * (l.map A).sum
  | [], _ => by simp
  | a :: l, h => by
    obtain ⟨ha, hl⟩ := List.forall_mem_cons.mp h
    rw [List.map_cons, List.map_cons, List.sum_cons, List.sum_cons, Matrix.add_mul, Matrix.mul_add, ha,
      sum_intertwined hl]

/-- A layer of `V` keeps the bonds, if `Z` commutes or anticommutes with it, and takes the
field to `h'`. -/
theorem isingTerms_intertwined (hn : 2 ≤ n) {h' : ℝ} {V : Op1}
    (hZ : Pauli.Z.op * V = V * Pauli.Z.op ∨ Pauli.Z.op * V = V * -Pauli.Z.op)
    (hX : Pauli.X.op * V = V * Pauli.X.op ∧ h' = h ∨ Pauli.X.op * V = V * -Pauli.X.op ∧ h' = -h) :
    ((isingTerms n J h' periodic).map (Term.operator n)).sum * everywhere V =
      everywhere V * ((isingTerms n J h periodic).map (Term.operator n)).sum := by
  rw [isingTerms_operator, isingTerms_operator, Matrix.add_mul, Matrix.mul_add]
  congr 1
  · refine sum_intertwined fun i hi => ?_
    obtain ⟨a, b, -, hbond⟩ := bondTerm_operator hn hi
    rw [hbond, Matrix.smul_mul, Matrix.mul_smul]
    exact congrArg _ (commute_pair_everywhere hZ a b)
  · refine sum_intertwined fun i hi => ?_
    obtain ⟨q, hfield⟩ := fieldTerm_operator hi
    rw [hfield, hfield, Matrix.smul_mul, Matrix.mul_smul]
    rcases hX with ⟨hX, rfl⟩ | ⟨hX, rfl⟩
    · rw [onQubit_mul_everywhere hX]
    · rw [onQubit_mul_everywhere hX, onQubit_neg, Matrix.mul_neg, neg_neg, smul_neg, Complex.ofReal_neg, neg_smul]

/-- **The symmetries of the Ising chain.** It is built exactly for 2 to 64 sites, a ring for at
least 3. The energy of a state is that of the state with all sites flipped; and a Z on each
site takes it to the energy with the opposite field. -/
theorem ising_flipped (n : ℕ) (J h : ℝ) (periodic : Bool) :
    ((∃ H, isingChain n J h periodic = .ok H) ↔ ChainSize n periodic) ∧
    ∀ H H', isingChain n J h periodic = .ok H → isingChain n J (-h) periodic = .ok H' →
      ∀ b : CPUBackend ℂ, b.state.size = 2 ^ n →
        (∃ b' e, b.run ((xLayer n).calls.map GateCall.op) = .ok b' ∧
          expectationValue b.getState H = .ok e ∧ expectationValue b'.getState H = .ok e) ∧
        ∃ b' e, b.run ((zLayer n).calls.map GateCall.op) = .ok b' ∧
          expectationValue b.getState H = .ok e ∧ expectationValue b'.getState H' = .ok e := by
  refine ⟨isingChain_isOk, fun H H' hH hH' b hb => ?_⟩
  obtain ⟨⟨h2, -⟩, -⟩ := isingChain_isOk.mp ⟨H, hH⟩
  rw [isingChain_eq] at hH hH'
  obtain ⟨-, -, hH⟩ := bind_eq_ok.mp hH
  obtain ⟨-, -, hH'⟩ := bind_eq_ok.mp hH'
  have hq := (ofTerms_ok hH).2.1
  have hq' := (ofTerms_ok hH').2.1
  have hanti : ∀ {p q : Pauli}, p ≠ q → p ≠ .I → q ≠ .I → p.op * q.op = q.op * -p.op := by
    intro p q hpq hp hq
    ext r c
    cases p <;> cases q <;> cases r <;> cases c <;> simp_all [Pauli.op, mat2, Matrix.mul_apply]
  constructor
  · refine run_layers (legal_of_ofTerms hH) (legal_of_ofTerms hH) hq hq (xLayer n).calls_fits ?_ hb
    rw [GateLayer.operator_eq, operator_ofTerms hH]
    refine isingTerms_intertwined h2 (.inr ?_) (.inl ⟨?_, rfl⟩)
    · exact Gates.toOp_X ▸ hanti (by decide) (by decide) (by decide)
    · rw [xLayer, Gates.toOp_X]
  · refine run_layers (legal_of_ofTerms hH) (legal_of_ofTerms hH') hq hq' (zLayer n).calls_fits ?_ hb
    rw [GateLayer.operator_eq, operator_ofTerms hH, operator_ofTerms hH']
    refine isingTerms_intertwined h2 (.inl ?_) (.inr ⟨?_, rfl⟩)
    · rw [zLayer, Gates.toOp_Z]
    · exact Gates.toOp_Z ▸ hanti (by decide) (by decide) (by decide)

/-- A ring of three sites. -/
theorem ising_flipped_three : ∃ H, isingChain 3 (1 : ℝ) 2 true = .ok H ∧
    ∀ b : CPUBackend ℂ, b.state.size = 8 → ∃ b' e, b.run ((xLayer 3).calls.map GateCall.op) = .ok b' ∧
      expectationValue b.getState H = .ok e ∧ expectationValue b'.getState H = .ok e := by
  obtain ⟨H, hH⟩ := (ising_flipped 3 1 2 true).1.mpr ⟨by decide, fun _ => le_rfl⟩
  obtain ⟨H', hH'⟩ := (ising_flipped 3 1 (-2) true).1.mpr ⟨by decide, fun _ => le_rfl⟩
  exact ⟨H, hH, fun b hb => ((ising_flipped 3 1 2 true).2 H H' hH hH' b hb).1⟩

end Ising

/-! ### The Heisenberg chain -/

section Heisenberg

variable {n : ℕ} {J delta : ℝ} {periodic : Bool}

/-- A gate matrix without entries off the diagonal. -/
def Matrix2x2.IsDiagonal (m : Matrix2x2 ℂ) : Prop := m.m01 = 0 ∧ m.m10 = 0

theorem toOp_comm_Z {m : Matrix2x2 ℂ} (h : m.IsDiagonal) : Pauli.Z.op * m.toOp = m.toOp * Pauli.Z.op := by
  obtain ⟨h01, h10⟩ := h
  ext r c
  cases r <;> cases c <;>
    simp [Matrix2x2.toOp, Matrix2x2.entry, Pauli.op, mat2, Matrix.mul_apply, h01, h10]

/-- A bond exchanges its sites, up to a term in Z. -/
theorem heisenbergBond_operator (hn : 2 ≤ n) {i : ℕ} (hi : i ∈ List.range (bonds n periodic)) :
    ∃ a b : Fin n, ((heisenbergBond n J delta i).map (Term.operator n)).sum =
      (J : ℂ) • (exchange a b + exchange a b - 1) +
        ((J * delta - J : ℝ) : ℂ) • (onQubit a Pauli.Z.op * onQubit b Pauli.Z.op) := by
  obtain ⟨a, b, hab, hbond⟩ := bondTerm_operator hn hi
  have hzz : ((if delta ≠ 0 then [bondTerm n (J * delta) 'Z' i] else []).map (Term.operator n)).sum =
      ((J * delta : ℝ) : ℂ) • (onQubit a Pauli.Z.op * onQubit b Pauli.Z.op) := by
    by_cases h0 : delta = 0
    · rw [if_neg (not_not.mpr h0), h0, mul_zero, Complex.ofReal_zero, zero_smul]
      rfl
    · rw [if_pos h0, List.map_singleton, List.sum_singleton, hbond]
      rfl
  refine ⟨a, b, ?_⟩
  rw [heisenbergBond, List.map_append, List.sum_append, hzz, List.map_cons, List.map_singleton,
    List.sum_cons, List.sum_singleton, hbond, hbond, ← sum_pairs_eq_exchange hab, Complex.ofReal_sub, sub_smul,
    smul_add, smul_add]
  show _ • (onQubit a Pauli.X.op * onQubit b Pauli.X.op) + _ • (onQubit a Pauli.Y.op * onQubit b Pauli.Y.op) + _ = _
  abel

theorem heisenbergTerms_commute (hn : 2 ≤ n) {m : Matrix2x2 ℂ} (hm : delta = 1 ∨ m.IsDiagonal) :
    ((heisenbergTerms n J delta periodic).map (Term.operator n)).sum * everywhere m.toOp =
      everywhere m.toOp * ((heisenbergTerms n J delta periodic).map (Term.operator n)).sum := by
  have hsum : ((heisenbergTerms n J delta periodic).map (Term.operator n)).sum =
      ((List.range (bonds n periodic)).map fun i =>
        ((heisenbergBond n J delta i).map (Term.operator n)).sum).sum := by
    rw [heisenbergTerms, List.map_flatMap, List.flatMap, List.sum_flatten, List.map_map]
    rfl
  rw [hsum]
  refine sum_intertwined fun i hi => ?_
  obtain ⟨a, b, hbond⟩ := @heisenbergBond_operator n J delta periodic hn i hi
  have hex : Commute (exchange a b + exchange a b - 1) (everywhere m.toOp) :=
    ((exchange_mul_everywhere a b _).add_left (exchange_mul_everywhere a b _)).sub_left (Commute.one_left _)
  have hz : Commute (((J * delta - J : ℝ) : ℂ) • (onQubit a Pauli.Z.op * onQubit b Pauli.Z.op))
      (everywhere m.toOp) := by
    rcases hm with h1 | hm
    · rw [h1, mul_one, sub_self, Complex.ofReal_zero, zero_smul]
      exact Commute.zero_left _
    · exact (commute_pair_everywhere (.inl (toOp_comm_Z hm)) a b).smul_left _
  rw [hbond]
  exact (hex.smul_left _).add_left hz

theorem layers_commute {A : Op (Fin n)} : ∀ {layers : List (GateLayer n)},
    (∀ L ∈ layers, A * everywhere L.matrix.toOp = everywhere L.matrix.toOp * A) →
    A * circuitOperator n (layers.flatMap GateLayer.calls) = circuitOperator n (layers.flatMap GateLayer.calls) * A
  | [], _ => by simp [circuitOperator]
  | L :: layers, h => by
    obtain ⟨hL, hlayers⟩ := List.forall_mem_cons.mp h
    rw [List.flatMap_cons, circuitOperator_append, L.operator_eq, ← Matrix.mul_assoc, layers_commute hlayers,
      Matrix.mul_assoc, hL, Matrix.mul_assoc]

/-- **The symmetries of the Heisenberg chain.** It is built exactly for 2 to 64 sites, a ring
for at least 3. Layers of one gate on all sites, one after another, do not change the energy of
any state, where `delta = 1`; and layers of diagonal gates do not for every `delta`. -/
theorem heisenberg_conserved (n : ℕ) (J delta : ℝ) (periodic : Bool) :
    ((∃ H, heisenbergChain n J delta periodic = .ok H) ↔ ChainSize n periodic) ∧
    ∀ H, heisenbergChain n J delta periodic = .ok H → ∀ layers : List (GateLayer n),
      (∀ L ∈ layers, delta = 1 ∨ L.matrix.IsDiagonal) → ∀ b : CPUBackend ℂ, b.state.size = 2 ^ n →
        ∃ b' e, b.run ((layers.flatMap GateLayer.calls).map GateCall.op) = .ok b' ∧
          expectationValue b.getState H = .ok e ∧ expectationValue b'.getState H = .ok e := by
  refine ⟨heisenbergChain_isOk, fun H hH layers hlayers b hb => ?_⟩
  obtain ⟨⟨h2, -⟩, -⟩ := heisenbergChain_isOk.mp ⟨H, hH⟩
  rw [heisenbergChain_eq] at hH
  obtain ⟨-, -, hH⟩ := bind_eq_ok.mp hH
  have hq := (ofTerms_ok hH).2.1
  have hfits : ∀ g ∈ layers.flatMap GateLayer.calls, g.Fits n 0 := by
    intro g hg
    obtain ⟨L, -, hg⟩ := List.mem_flatMap.mp hg
    exact L.calls_fits g hg
  refine run_layers (legal_of_ofTerms hH) (legal_of_ofTerms hH) hq hq hfits (layers_commute fun L hL => ?_) hb
  rw [operator_ofTerms hH]
  exact heisenbergTerms_commute h2 (hlayers L hL)

/-- An open chain with `delta = 1`. -/
theorem heisenberg_conserved_two : ∃ H, heisenbergChain 2 (3 : ℝ) 1 false = .ok H ∧
    ∀ b : CPUBackend ℂ, b.state.size = 4 → ∃ b' e,
      b.run (([xLayer 2, zLayer 2, xLayer 2].flatMap GateLayer.calls).map GateCall.op) = .ok b' ∧
      expectationValue b.getState H = .ok e ∧ expectationValue b'.getState H = .ok e := by
  obtain ⟨H, hH⟩ := (heisenberg_conserved 2 3 1 false).1.mpr ⟨by decide, nofun⟩
  exact ⟨H, hH, fun b hb => (heisenberg_conserved 2 3 1 false).2 H hH _ (fun _ _ => .inl rfl) b hb⟩

end Heisenberg

end Qsycl
