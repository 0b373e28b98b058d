/-
# Observables

A real-weighted sum of Pauli strings (`observable.hpp`, `observable.cpp`). A
term is stored as two bit masks and the number of its Y factors; `add_term`
builds them from the letters of the term, and `expectation_value` evaluates
them on a state vector, with the sign of basis state `j` from the parity of
`j & z`.

Key theorems: `parity_eq`, `addTerm_string`, `termExpectation_eq`,
`expectationValue_eq`.
-/
import Qsycl.Simulation
import Qsycl.Lib.Paulis

namespace Qsycl

open Qubits Words

/-- One Pauli string: `x` has a bit for every X or Y factor, `z` for every Z
or Y factor, and `ny` counts the Y factors. -/
structure PauliMask (R : Type) where
  coeff : R
  x : ℕ
  z : ℕ
  ny : ℕ
  deriving DecidableEq, Repr

structure Observable (R : Type) where
  numQubits : ℕ
  masks : List (PauliMask R)
  deriving DecidableEq, Repr

/-! ### Parity -/

/-- The parity of a 64-bit word, by folding it onto itself. -/
def parity (v : ℕ) : ℕ :=
  let v := v ^^^ v >>> 32
  let v := v ^^^ v >>> 16
  let v := v ^^^ v >>> 8
  let v := v ^^^ v >>> 4
  let v := v ^^^ v >>> 2
  let v := v ^^^ v >>> 1
  v &&& 1

theorem parity_eq (v : ℕ) : parity v = bitSum 64 v % 2 := by
  have h1 : ∀ w : ℕ, bitSum 1 w % 2 = w &&& 1 := by
    intro w
    simp only [bitSum, Finset.sum_range_one, Nat.testBit_zero, Nat.and_one_is_mod]
    rcases Nat.mod_two_eq_zero_or_one w with h | h <;> simp [h]
  rw [bitSum_fold 32, bitSum_fold 16, bitSum_fold 8, bitSum_fold 4, bitSum_fold 2, bitSum_fold 1, h1,
    parity]

/-- `parity(v) ? -1.0 : 1.0` -/
theorem parity_sign {S : Type*} [Ring S] (v : ℕ) :
    (if parity v ≠ 0 then -1 else 1 : S) = (-1) ^ bitSum 64 v := by
  rw [neg_one_pow_eq_pow_mod_two, parity_eq]
  rcases Nat.mod_two_eq_zero_or_one (bitSum 64 v) with h | h <;> simp [h]

/-! ### Building an observable -/

namespace Observable

variable {R : Type}

def new (numQubits : ℕ) : Except Exn (Observable R) :=
  if numQubits = 0 ∨ 64 < numQubits then
    throw ⟨.invalidArgument, "Observable: num_qubits must be in [1, 64]"⟩
  else
    return ⟨numQubits, []⟩

/-- The body of the loop over the factors of a term: `ny` is a byte. -/
def addFactor (numQubits : ℕ) : PauliMask R × ℕ → Char × ℕ → Except Exn (PauliMask R × ℕ)
  | (m, seen), (op, q) =>
    if numQubits ≤ q then
      throw ⟨.outOfRange, "Observable::add_term: qubit index out of range"⟩
    else
      let bit := 1 <<< q
      if seen &&& bit ≠ 0 then
        throw ⟨.invalidArgument, "Observable::add_term: qubit repeated in one term"⟩
      else
        let seen := seen ||| bit
        match op with
        | 'I' => return (m, seen)
        | 'X' => return ({ m with x := m.x ||| bit }, seen)
        | 'Y' => return ({ m with x := m.x ||| bit, z := m.z ||| bit, ny := (m.ny + 1) % 2 ^ 8 }, seen)
        | 'Z' => return ({ m with z := m.z ||| bit }, seen)
        | _ => throw ⟨.invalidArgument, "Observable::add_term: Pauli must be one of I, X, Y, Z"⟩

/-- `add_term` in its sparse form. -/
def addTerm (obs : Observable R) (coeff : R) (factors : List (Char × ℕ)) :
    Except Exn (Observable R) := do
  let (m, _) ← factors.foldlM (addFactor obs.numQubits) (⟨coeff, 0, 0, 0⟩, 0)
  return { obs with masks := obs.masks ++ [m] }

/-- The factors of a dense term: its letters from position `k` on, without
the identities. -/
def denseFactors : ℕ → List Char → List (Char × ℕ)
  | _, [] => []
  | k, c :: paulis => if c ≠ 'I' then (c, k) :: denseFactors (k + 1) paulis else denseFactors (k + 1) paulis

/-- `add_term` in its dense form: letter `k` acts on qubit `k`. -/
def addTermDense (obs : Observable R) (coeff : R) (paulis : List Char) : Except Exn (Observable R) :=
  if paulis.length ≠ obs.numQubits then
    throw ⟨.invalidArgument, "Observable::add_term: Pauli string length must equal num_qubits"⟩
  else
    obs.addTerm coeff (denseFactors 0 paulis)

/-- True if every term is Z or I only. -/
def isDiagonal (obs : Observable R) : Bool := obs.masks.all (·.x = 0)

end Observable

/-- A call of `add_term`. -/
inductive Term (R : Type)
  | sparse (coeff : R) (factors : List (Char × ℕ))
  | dense (coeff : R) (paulis : List Char)

/-- The calls of `add_term` on a new observable of `n` qubits. -/
def Observable.ofTerms {R : Type} (n : ℕ) (terms : List (Term R)) : Except Exn (Observable R) := do
  let obs ← Observable.new n
  terms.foldlM (fun obs => fun
    | .sparse coeff factors => obs.addTerm coeff factors
    | .dense coeff paulis => obs.addTermDense coeff paulis) obs

/-! ### What a term names -/

/-- The Pauli matrix of a letter. -/
def pauliOf (c : Char) : Pauli :=
  if c = 'X' then .X else if c = 'Y' then .Y else if c = 'Z' then .Z else .I

/-- The matrix that a sparse term names on qubit `k`. -/
def sparsePauli : List (Char × ℕ) → ℕ → Pauli
  | [], _ => .I
  | (op, q) :: factors, k => if k = q then pauliOf op else sparsePauli factors k

namespace Term

variable {R : Type}

def coeff : Term R → R
  | sparse coeff _ | dense coeff _ => coeff

/-- The matrix that a term names on qubit `k`. -/
def pauli : Term R → ℕ → Pauli
  | sparse _ factors, k => sparsePauli factors k
  | dense _ paulis, k => pauliOf (paulis.getD k 'I')

end Term

/-! ### Masks as Pauli strings -/

namespace PauliMask

variable {R : Type}

/-- The factor of a mask on qubit `k`. -/
def pauli (m : PauliMask R) (k : ℕ) : Pauli := .ofBits (m.x.testBit k) (m.z.testBit k)

/-- The string of a mask on `n` qubits. -/
def string (n : ℕ) (m : PauliMask R) : Fin n → Pauli := fun q => m.pauli q

/-- A mask within `n` qubits that counts its Y factors. -/
structure Fits (n : ℕ) (m : PauliMask R) : Prop where
  x : m.x < 2 ^ n
  z : m.z < 2 ^ n
  ny : m.ny % 4 = numY (m.string n) % 4

end PauliMask

theorem addFactor_ok {R : Type} {n q seen seen' : ℕ} {op : Char} {m m' : PauliMask R}
    (h : Observable.addFactor n (m, seen) (op, q) = .ok (m', seen')) :
    (q < n ∧ seen.testBit q = false ∧ seen' = setBit seen q true) ∧
    m'.coeff = m.coeff ∧ (∀ k, m'.x.testBit k = (m.x.testBit k || decide (k = q) && (pauliOf op).flips)) ∧
    (∀ k, m'.z.testBit k = (m.z.testBit k || decide (k = q) && (pauliOf op).signs)) ∧
    m'.ny % 4 = (m.ny + (pauliOf op).ny) % 4 := by
  simp only [Observable.addFactor, Nat.one_shiftLeft] at h
  split at h
  · cases h
  rename_i hq
  split at h
  · cases h
  rename_i hs
  have hs : seen.testBit q = false := by
    rwa [and_two_pow_ne_zero, Bool.not_eq_true] at hs
  have hbit : ∀ v k : ℕ, (v ||| 2 ^ q).testBit k = (v.testBit k || decide (k = q)) := by
    intro v k
    rw [Nat.testBit_or, Nat.testBit_two_pow, decide_eq_decide.mpr (eq_comm (a := q))]
  split at h <;> cases h
  · exact ⟨⟨by omega, hs, rfl⟩, rfl, by simp [pauliOf, Pauli.flips], by simp [pauliOf, Pauli.signs], rfl⟩
  · exact ⟨⟨by omega, hs, rfl⟩, rfl, by simp [pauliOf, Pauli.flips, hbit],
      by simp [pauliOf, Pauli.signs], rfl⟩
  · exact ⟨⟨by omega, hs, rfl⟩, rfl, by simp [pauliOf, Pauli.flips, hbit],
      by simp [pauliOf, Pauli.signs, hbit], Nat.mod_mod_of_dvd _ (by decide)⟩
  · exact ⟨⟨by omega, hs, rfl⟩, rfl, by simp [pauliOf, Pauli.flips],
      by simp [pauliOf, Pauli.signs, hbit], rfl⟩

/-- What the loop over the factors adds to a mask: every factor is on a qubit
in range that no other one uses. -/
theorem foldlM_addFactor_ok {R : Type} {n : ℕ} : ∀ {factors : List (Char × ℕ)} {m m' : PauliMask R}
    {seen seen' : ℕ}, factors.foldlM (Observable.addFactor n) (m, seen) = .ok (m', seen') →
    (∀ k, seen.testBit k = true ∨ n ≤ k → sparsePauli factors k = .I) ∧
    m'.coeff = m.coeff ∧
    (∀ k, m'.x.testBit k = (m.x.testBit k || (sparsePauli factors k).flips)) ∧
    (∀ k, m'.z.testBit k = (m.z.testBit k || (sparsePauli factors k).signs)) ∧
    m'.ny % 4 = (m.ny + ∑ k ∈ Finset.range n, (sparsePauli factors k).ny) % 4
  | [], m, m', seen, seen', h => by
    cases h
    simp [sparsePauli, Pauli.flips, Pauli.signs, Pauli.ny]
  | (op, q) :: factors, m, m', seen, seen', h => by
    rw [List.foldlM_cons] at h
    cases h1 : Observable.addFactor n (m, seen) (op, q) with
    | error e => rw [h1] at h; cases h
    | ok r =>
      obtain ⟨m₁, seen₁⟩ := r
      rw [h1] at h
      obtain ⟨⟨hq, hsq, rfl⟩, hc₁, hx₁, hz₁, hn₁⟩ := addFactor_ok h1
      obtain ⟨hI, hc, hx, hz, hn⟩ := foldlM_addFactor_ok (h : factors.foldlM _ (m₁, _) = _)
      have hIq : sparsePauli factors q = .I := hI q (Or.inl (by simp))
      have hsum : ∑ k ∈ Finset.range n, (sparsePauli ((op, q) :: factors) k).ny =
          (pauliOf op).ny + ∑ k ∈ Finset.range n, (sparsePauli factors k).ny := by
        have hk : ∀ k, (sparsePauli ((op, q) :: factors) k).ny =
            (if k = q then (pauliOf op).ny else 0) + (sparsePauli factors k).ny := by
          intro k
          by_cases hkq : k = q
          · subst hkq
            simp [sparsePauli, hIq, Pauli.ny, Pauli.flips]
          · simp [sparsePauli, hkq]
        simp [hk, Finset.sum_add_distrib, hq]
      refine ⟨fun k hk => ?_, hc.trans hc₁, fun k => ?_, fun k => ?_, ?_⟩
      · have hkq : k ≠ q := by
          rintro rfl
          rcases hk with hk | hk
          · simp [hsq] at hk
          · omega
        rw [sparsePauli, if_neg hkq]
        refine hI k (hk.imp_left fun hk => ?_)
        simpa [hkq] using hk
      · by_cases hkq : k = q
        · subst hkq
          simp [hx, hx₁, sparsePauli, hIq, Pauli.flips]
        · simp [hx, hx₁, sparsePauli, hkq]
      · by_cases hkq : k = q
        · subst hkq
          simp [hz, hz₁, sparsePauli, hIq, Pauli.signs]
        · simp [hz, hz₁, sparsePauli, hkq]
      · rw [hn, hsum, Nat.add_mod, hn₁, ← Nat.add_mod, Nat.add_assoc]

theorem sparsePauli_denseFactors : ∀ (paulis : List Char) (j k : ℕ),
    sparsePauli (Observable.denseFactors j paulis) k =
      if k < j then .I else pauliOf (paulis.getD (k - j) 'I')
  | [], j, k => by simp [Observable.denseFactors, sparsePauli, pauliOf]
  | c :: paulis, j, k => by
    have ih := sparsePauli_denseFactors paulis (j + 1) k
    rcases lt_trichotomy k j with h | rfl | h
    · have h1 : k < j + 1 := by omega
      have h2 : k ≠ j := by omega
      simp only [h1, if_true] at ih
      by_cases hc : c = 'I' <;> simp [Observable.denseFactors, sparsePauli, hc, h, h2, ih]
    · simp only [Nat.lt_succ_self, if_true] at ih
      by_cases hc : c = 'I'
      · simp [Observable.denseFactors, hc, ih, pauliOf]
      · simp [Observable.denseFactors, sparsePauli, hc]
    · have h1 : ¬ k < j + 1 := by omega
      have h2 : ¬ k < j := by omega
      have h3 : k ≠ j := by omega
      obtain ⟨d, rfl⟩ : ∃ d, k = j + 1 + d := ⟨k - (j + 1), by omega⟩
      simp only [h1, if_false, Nat.add_sub_cancel_left] at ih
      have h4 : j + 1 + d - j = d + 1 := by omega
      by_cases hc : c = 'I' <;>
        simp [Observable.denseFactors, sparsePauli, hc, h2, h3, h4, ih]

/-- The mask of a term has the matrices the term names. -/
theorem addTerm_string {n : ℕ} {R : Type} {obs obs' : Observable R} {coeff : R}
    {factors : List (Char × ℕ)} (hn : obs.numQubits = n)
    (h : obs.addTerm coeff factors = .ok obs') :
    ∃ m, obs' = { obs with masks := obs.masks ++ [m] } ∧ m.Fits n ∧ m.coeff = coeff ∧
      ∀ k, m.pauli k = sparsePauli factors k := by
  rw [Observable.addTerm, hn] at h
  cases hf : factors.foldlM (Observable.addFactor n) (⟨coeff, 0, 0, 0⟩, 0) with
  | error e => rw [hf] at h; cases h
  | ok r =>
    obtain ⟨m, seen⟩ := r
    rw [hf] at h
    cases h
    obtain ⟨hI, hc, hx, hz, hny⟩ := foldlM_addFactor_ok hf
    simp only [Nat.zero_testBit, Bool.false_or, Nat.zero_add] at hx hz hny
    have hp : ∀ k, m.pauli k = sparsePauli factors k := fun k => by
      rw [PauliMask.pauli, hx, hz, Pauli.ofBits_flips_signs]
    have hlt : ∀ k, n ≤ k → sparsePauli factors k = .I := fun k hk => hI k (Or.inr hk)
    refine ⟨m, by rw [hn], ⟨?_, ?_, ?_⟩, hc, hp⟩
    · refine lt_two_pow_of_testBit fun k hk => ?_
      by_contra hkn
      rw [hx, hlt k (by omega)] at hk
      exact nomatch hk
    · refine lt_two_pow_of_testBit fun k hk => ?_
      by_contra hkn
      rw [hz, hlt k (by omega)] at hk
      exact nomatch hk
    · rw [hny, numY, Finset.sum_range]
      simp only [PauliMask.string, hp]

/-- What every call of `add_term` on a new observable leaves. -/
def TermMask {R : Type} (n : ℕ) (t : Term R) (m : PauliMask R) : Prop :=
  m.Fits n ∧ m.coeff = t.coeff ∧ ∀ k, m.pauli k = t.pauli k

theorem foldlM_terms_ok {R : Type} {n : ℕ} : ∀ {terms done : List (Term R)} {obs obs' : Observable R},
    obs.numQubits = n → List.Forall₂ (TermMask n) done obs.masks →
    terms.foldlM (fun obs => fun
      | .sparse coeff factors => obs.addTerm coeff factors
      | .dense coeff paulis => obs.addTermDense coeff paulis) obs = .ok obs' →
    obs'.numQubits = n ∧ List.Forall₂ (TermMask n) (done ++ terms) obs'.masks
  | [], done, obs, obs', hn, hd, h => by
    cases h
    exact ⟨hn, by rwa [List.append_nil]⟩
  | t :: terms, done, obs, obs', hn, hd, h => by
    have key : ∀ obs₁ : Observable R,
        (match t with
          | .sparse coeff factors => obs.addTerm coeff factors
          | .dense coeff paulis => obs.addTermDense coeff paulis) = .ok obs₁ →
        obs₁.numQubits = n ∧ List.Forall₂ (TermMask n) (done ++ [t]) obs₁.masks := by
      intro obs₁ h₁
      cases t with
      | sparse coeff factors =>
        obtain ⟨m, rfl, hm⟩ := addTerm_string hn h₁
        exact ⟨hn, List.rel_append hd (.cons hm .nil)⟩
      | dense coeff paulis =>
        simp only [Observable.addTermDense] at h₁
        split at h₁
        · cases h₁
        · obtain ⟨m, rfl, hf, hc, hp⟩ := addTerm_string hn h₁
          refine ⟨hn, List.rel_append hd (.cons ⟨hf, hc, fun k => ?_⟩ .nil)⟩
          rw [hp, sparsePauli_denseFactors]
          rfl
    rw [List.foldlM_cons] at h
    obtain ⟨obs₁, h₁, h₂⟩ := bind_eq_ok.mp h
    obtain ⟨hn₁, hd₁⟩ := key obs₁ h₁
    have := foldlM_terms_ok hn₁ hd₁ h₂
    rwa [List.append_assoc] at this

/-- An observable built by calls of `add_term`: the masks are those of the
terms, in order. -/
theorem ofTerms_ok {R : Type} {n : ℕ} {terms : List (Term R)} {obs : Observable R}
    (h : Observable.ofTerms n terms = .ok obs) :
    (1 ≤ n ∧ n ≤ 64) ∧ obs.numQubits = n ∧ List.Forall₂ (TermMask n) terms obs.masks := by
  obtain ⟨obs₀, h₀, h₁⟩ := bind_eq_ok.mp h
  simp only [Observable.new] at h₀
  split at h₀
  · cases h₀
  · cases h₀
    have h₂ : List.Forall₂ (TermMask n) ([] : List (Term R)) [] := .nil
    have h₃ := foldlM_terms_ok rfl h₂ h₁
    exact ⟨by omega, h₃⟩

/-! ### Expectation values -/

/-- The loop over the basis states for one mask: the sums `re` and `im`. -/
noncomputable def termSums (psi : StateVec ℂ) (m : PauliMask ℝ) : ℝ × ℝ :=
  (List.range psi.size).foldl (fun (re, im) j =>
    let sign : ℝ := if parity (j &&& m.z) ≠ 0 then -1 else 1
    let t := star (psi.cell (j ^^^ m.x)) * psi.cell j
    (re + sign * t.re, im + sign * t.im)) (0, 0)

/-- Multiplies by `i ^ ny`. -/
noncomputable def timesIPow (ny : ℕ) : ℝ × ℝ → ℝ × ℝ
  | (re, im) => match ny &&& 3 with
    | 0 => (re, im)
    | 1 => (-im, re)
    | 2 => (-re, -im)
    | _ => (im, -re)

/-- The real and the imaginary part that `expectation_value` computes for one
mask; it uses the first only. -/
noncomputable def termExpectation (psi : StateVec ℂ) (m : PauliMask ℝ) : ℝ × ℝ :=
  timesIPow m.ny (termSums psi m)

noncomputable def expectationValue (psi : StateVec ℂ) (obs : Observable ℝ) : Except Exn ℝ :=
  if psi.size ≠ 1 <<< obs.numQubits then
    throw ⟨.invalidArgument, "expectation_value: state size does not match observable qubits"⟩
  else
    return obs.masks.foldl (fun total m => total + m.coeff * (termExpectation psi m).1) 0

/-- An observable whose masks are within its qubits. -/
structure Observable.Legal {R : Type} (obs : Observable R) : Prop where
  pos : 1 ≤ obs.numQubits
  le : obs.numQubits ≤ 64
  fits : ∀ m ∈ obs.masks, m.Fits obs.numQubits

theorem legal_of_ofTerms {R : Type} {n : ℕ} {terms : List (Term R)} {obs : Observable R}
    (h : Observable.ofTerms n terms = .ok obs) : obs.Legal := by
  obtain ⟨⟨h1, h2⟩, rfl, h3⟩ := ofTerms_ok h
  exact ⟨h1, h2, ((List.forall₂_and_left _ _).mp h3.flip).1⟩

theorem foldl_range_add {M : Type*} [AddCommMonoid M] (f : ℕ → M) (a : M) : ∀ N : ℕ,
    (List.range N).foldl (fun s j => s + f j) a = a + ∑ j ∈ Finset.range N, f j
  | 0 => by simp
  | N + 1 => by
    rw [List.range_succ, List.foldl_append, foldl_range_add f a N, Finset.sum_range_succ, ← add_assoc]
    rfl

/-- The loop for one mask adds up the products with the signs of the mask. -/
theorem termSums_eq_sum (psi : StateVec ℂ) (m : PauliMask ℝ) : termSums psi m =
    ∑ j ∈ Finset.range psi.size, ((-1) ^ bitSum 64 (j &&& m.z) * (star (psi.cell (j ^^^ m.x)) * psi.cell j).re,
      (-1) ^ bitSum 64 (j &&& m.z) * (star (psi.cell (j ^^^ m.x)) * psi.cell j).im) := by
  have hf := foldl_range_add (fun j =>
    ((if parity (j &&& m.z) ≠ 0 then -1 else 1 : ℝ) * (star (psi.cell (j ^^^ m.x)) * psi.cell j).re,
      (if parity (j &&& m.z) ≠ 0 then -1 else 1 : ℝ) * (star (psi.cell (j ^^^ m.x)) * psi.cell j).im))
    0 psi.size
  refine hf.trans ?_
  simp only [parity_sign, zero_add]

section Masks

variable {n : ℕ} {m : PauliMask ℝ}

/-- The set bits of `j & z` are the sign changes of the string. -/
theorem bitSum_and_z (h : m.Fits n) (hn : n ≤ 64) (y : Fin n → Bool) :
    bitSum 64 (index y &&& m.z) = signCount (m.string n) y := by
  rw [bitSum_of_lt (Nat.and_lt_two_pow _ h.z) hn, bitSum, Finset.sum_range, signCount]
  simp [PauliMask.string, PauliMask.pauli]

theorem xor_x (h : m.Fits n) (y : Fin n → Bool) :
    index y ^^^ m.x = index (flipped (m.string n) y) := by
  rw [xor_index y h.x]
  congr 1
  funext q
  simp [flipped, PauliMask.string, PauliMask.pauli]

/-- The sum that one mask stands for, without its power of `i`. -/
noncomputable def signedSum (P : Fin n → Pauli) (ψ : State (Fin n)) : ℂ :=
  ∑ y, (-1) ^ signCount P y * (star (ψ (flipped P y)) * ψ y)

theorem signedSum_parts (P : Fin n → Pauli) (ψ : State (Fin n)) :
    ((signedSum P ψ).re, (signedSum P ψ).im) =
      ∑ y, ((-1) ^ signCount P y * (star (ψ (flipped P y)) * ψ y).re,
        (-1) ^ signCount P y * (star (ψ (flipped P y)) * ψ y).im) := by
  have h : ∀ y, (-1 : ℂ) ^ signCount P y = (((-1) ^ signCount P y : ℝ) : ℂ) := fun y => by
    push_cast
    rfl
  rw [Prod.ext_iff, Prod.fst_sum, Prod.snd_sum, signedSum, Complex.re_sum, Complex.im_sum]
  simp only [h, Complex.re_ofReal_mul, Complex.im_ofReal_mul, and_self]

theorem termSums_eq {psi : StateVec ℂ} {ψ : State (Fin n)} (hψ : psi.Holds ψ) (h : m.Fits n)
    (hn : n ≤ 64) :
    termSums psi m = ((signedSum (m.string n) ψ).re, (signedSum (m.string n) ψ).im) := by
  rw [termSums_eq_sum, signedSum_parts, hψ.size, sum_index]
  refine Finset.sum_congr rfl fun y _ => ?_
  rw [bitSum_and_z h hn, xor_x h, hψ.cell, hψ.cell]

theorem timesIPow_eq (ny : ℕ) (c : ℂ) :
    timesIPow ny (c.re, c.im) = ((Complex.I ^ ny * c).re, (Complex.I ^ ny * c).im) := by
  have hny : ny &&& 3 = ny % 4 := Nat.and_two_pow_sub_one_eq_mod ny 2
  have hI : Complex.I ^ ny = Complex.I ^ (ny % 4) := Complex.I_pow_eq_pow_mod ny
  rw [timesIPow, hny, hI]
  obtain h | h | h | h : ny % 4 = 0 ∨ ny % 4 = 1 ∨ ny % 4 = 2 ∨ ny % 4 = 3 := by omega
  all_goals rw [h]; simp [pow_succ]

/-- **One mask evaluates one Pauli string**, and the part the code drops is 0. -/
theorem termExpectation_eq {psi : StateVec ℂ} {ψ : State (Fin n)} (hψ : psi.Holds ψ)
    (h : m.Fits n) (hn : n ≤ 64) :
    termExpectation psi m = ((expect (pauliString (m.string n)) ψ).re, 0) := by
  have hI : Complex.I ^ m.ny = Complex.I ^ numY (m.string n) := by
    rw [Complex.I_pow_eq_pow_mod, h.ny, ← Complex.I_pow_eq_pow_mod]
  rw [termExpectation, termSums_eq hψ h hn, timesIPow_eq, hI, ← expect_pauliString_im (m.string n) ψ,
    expect_pauliString]
  rfl

end Masks

/-! ### Observables as operators -/

/-- The operator of an observable on `n` qubits. -/
noncomputable def Observable.operator (n : ℕ) (obs : Observable ℝ) : Op (Fin n) :=
  (obs.masks.map fun m => (m.coeff : ℂ) • pauliString (m.string n)).sum

theorem expect_sum {n : ℕ} (ψ : State (Fin n)) : ∀ As : List (Op (Fin n)),
    expect As.sum ψ = (As.map fun A => expect A ψ).sum
  | [] => by simp [expect]
  | A :: As => by
    rw [List.sum_cons, List.map_cons, List.sum_cons, ← expect_sum ψ As]
    simp only [expect, Matrix.add_mulVec, dotProduct_add]

theorem expect_smul {n : ℕ} (ψ : State (Fin n)) (c : ℂ) (A : Op (Fin n)) :
    expect (c • A) ψ = c * expect A ψ := by
  simp only [expect, Matrix.smul_mulVec, dotProduct_smul, smul_eq_mul]

/-- The expectation of an observable, term by term. -/
theorem expect_operator {n : ℕ} (obs : Observable ℝ) (ψ : State (Fin n)) :
    expect (obs.operator n) ψ =
      (obs.masks.map fun m => (m.coeff : ℂ) * expect (pauliString (m.string n)) ψ).sum := by
  rw [Observable.operator, expect_sum, List.map_map]
  simp only [Function.comp_def, expect_smul]

theorem expect_operator_re {n : ℕ} (obs : Observable ℝ) (ψ : State (Fin n)) :
    (obs.masks.map fun m => m.coeff * (expect (pauliString (m.string n)) ψ).re).sum =
      (expect (obs.operator n) ψ).re := by
  rw [expect_operator, ← Complex.coe_reAddGroupHom, map_list_sum, List.map_map]
  simp only [Function.comp_def, Complex.coe_reAddGroupHom, Complex.re_ofReal_mul]

theorem expect_operator_im {n : ℕ} (obs : Observable ℝ) (ψ : State (Fin n)) :
    (expect (obs.operator n) ψ).im = 0 := by
  rw [expect_operator, ← Complex.coe_imAddGroupHom, map_list_sum, List.map_map]
  simp [Function.comp_def, expect_pauliString_im]

theorem foldl_add_map {α M : Type*} [AddMonoid M] (f : α → M) : ∀ (l : List α) (a : M),
    l.foldl (fun s x => s + f x) a = a + (l.map f).sum
  | [], a => by simp
  | x :: l, a => by rw [List.foldl_cons, foldl_add_map f l, List.map_cons, List.sum_cons, add_assoc]

/-- **`expectation_value` evaluates the operator.** -/
theorem expectationValue_holds {obs : Observable ℝ} (h : obs.Legal) {psi : StateVec ℂ}
    {ψ : State (Fin obs.numQubits)} (hψ : psi.Holds ψ) :
    expectationValue psi obs = .ok (expect (obs.operator obs.numQubits) ψ).re := by
  have hm : ∀ m ∈ obs.masks, m.coeff * (termExpectation psi m).1 =
      m.coeff * (expect (pauliString (m.string obs.numQubits)) ψ).re := fun m hm => by
    rw [termExpectation_eq hψ (h.fits m hm) h.le]
  rw [expectationValue, if_neg (by rw [hψ.size, Nat.one_shiftLeft]; simp), foldl_add_map, zero_add,
    List.map_congr_left hm, expect_operator_re]
  rfl

/-- The sum of the terms, each the tensor product of the matrices it names. -/
theorem expect_operator_terms {n : ℕ} {terms : List (Term ℝ)} {obs : Observable ℝ}
    (h : List.Forall₂ (TermMask n) terms obs.masks) (ψ : State (Fin n)) :
    expect (obs.operator n) ψ = (terms.map fun t =>
      (t.coeff : ℂ) * expect (tensor fun q : Fin n => (t.pauli q).op) ψ).sum := by
  rw [expect_operator]
  generalize obs.masks = masks at h
  induction h with
  | nil => rfl
  | @cons t m terms masks ht _ ih =>
    obtain ⟨-, hc, hp⟩ := ht
    have hs : m.string n = fun q : Fin n => t.pauli q := funext fun q => hp q
    rw [List.map_cons, List.sum_cons, List.map_cons, List.sum_cons, ih, hc, hs, pauliString]

/-- **`expectation_value` is `∑ₖ cₖ ⟨ψ|Pₖ|ψ⟩`**, each `Pₖ` the tensor product of
the matrices its term names, for every vector of amplitudes; and the imaginary
part that the code discards is 0 for each term. -/
theorem expectationValue_eq {n : ℕ} {terms : List (Term ℝ)} {obs : Observable ℝ}
    (hobs : Observable.ofTerms n terms = .ok obs) {psi : StateVec ℂ} (hpsi : psi.size = 2 ^ n) :
    (∃ e : ℝ, expectationValue psi obs = .ok e ∧ (e : ℂ) = (terms.map fun t =>
      (t.coeff : ℂ) * expect (tensor fun q : Fin n => (t.pauli q).op) (view n psi.cell)).sum) ∧
    ∀ m ∈ obs.masks, (termExpectation psi m).2 = 0 := by
  obtain ⟨⟨-, hle⟩, rfl, hm⟩ := ofTerms_ok hobs
  have hl := legal_of_ofTerms hobs
  have hψ : psi.Holds (view obs.numQubits psi.cell) := ⟨hpsi, rfl⟩
  refine ⟨⟨_, expectationValue_holds hl hψ, ?_⟩, fun m hm => ?_⟩
  · rw [← expect_operator_terms hm]
    exact Complex.ext rfl (expect_operator_im obs _).symm
  · rw [termExpectation_eq hψ (hl.fits m hm) hle]

/-- On two qubits, `2 Y₀ + Z₀ Z₁` at the vector `(1, i, 0, 0)`, not normalized. -/
theorem expectationValue_eq_two : ∃ e : ℝ,
    expectationValue ⟨4, Function.update (Function.update 0 0 1) 1 Complex.I⟩
      ⟨2, [⟨2, 1, 1, 1⟩, ⟨1, 0, 3, 0⟩]⟩ = .ok e ∧
    (e : ℂ) = (([.dense 2 ['Y', 'I'], .sparse 1 [('Z', 0), ('Z', 1)]] : List (Term ℝ)).map fun t =>
      (t.coeff : ℂ) * expect (tensor fun q : Fin 2 => (t.pauli q).op)
        (view 2 (Function.update (Function.update 0 0 1) 1 Complex.I))).sum := by
  have hobs : Observable.ofTerms 2 [.dense 2 ['Y', 'I'], .sparse 1 [('Z', 0), ('Z', 1)]] =
      .ok (⟨2, [⟨2, 1, 1, 1⟩, ⟨1, 0, 3, 0⟩]⟩ : Observable ℝ) := rfl
  exact (expectationValue_eq hobs rfl).1

end Qsycl
