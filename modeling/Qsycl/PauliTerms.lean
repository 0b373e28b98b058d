/-
# Observables and lists of Pauli strings

What `add_term` accepts (`addTerm_isOk`), and that the masks of a term are those of its
matrices and of no others: an observable of `n` qubits is a list of coefficients with
strings of `n` letters, `from_pauli_terms` builds it from the list and the masks read
back as the list (`strings_roundTrip`).
-/
import Qsycl.Observable

namespace Qsycl

open Qubits Words

variable {R : Type}

/-- Builds the observable of a list of coefficients and Pauli strings. -/
def fromPauliTerms (numQubits : ℕ) (terms : List (R × List Char)) : Except Exn (Observable R) := do
  let H ← Observable.new numQubits
  terms.foldlM (fun H term => H.addTermDense term.1 term.2) H

/-! ### What is accepted -/

section Accepted

variable {n : ℕ}

def pauliLetters : List Char := ['I', 'X', 'Y', 'Z']

/-- The factors of a sparse term: on different qubits in range, and named. -/
structure Factors (n : ℕ) (factors : List (Char × ℕ)) : Prop where
  inRange : ∀ f ∈ factors, f.2 < n
  named : ∀ f ∈ factors, f.1 ∈ pauliLetters
  distinct : (factors.map Prod.snd).Nodup

/-- The arguments of `add_term` that it accepts on `n` qubits. -/
def Term.Accepted (n : ℕ) : Term R → Prop
  | .sparse _ factors => Factors n factors
  | .dense _ paulis => paulis.length = n ∧ ∀ c ∈ paulis, c ∈ pauliLetters

theorem not_error_isOk {α : Type} {e : Exn} : ¬ ∃ r : α, (.error e : Except Exn α) = .ok r := by
  rintro ⟨r, h⟩
  cases h

/-- One factor. -/
theorem addFactor_isOk {seen q : ℕ} {op : Char} {m : PauliMask R} :
    (∃ r, Observable.addFactor n (m, seen) (op, q) = .ok r) ↔
      q < n ∧ op ∈ pauliLetters ∧ seen.testBit q = false := by
  have hseen : seen &&& 1 <<< q ≠ 0 ↔ seen.testBit q = true := by
    rw [Nat.one_shiftLeft, and_two_pow_ne_zero]
  rw [Observable.addFactor]
  by_cases hq : n ≤ q
  · rw [if_pos hq]
    exact iff_of_false not_error_isOk fun h => absurd h.1 (by omega)
  · rw [if_neg hq]
    by_cases hs : seen.testBit q = true
    · simp only [if_pos (hseen.mpr hs), hs]
      exact iff_of_false not_error_isOk fun h => Bool.noConfusion h.2.2
    · rw [Bool.not_eq_true] at hs
      simp only [hseen, hs, Bool.false_eq_true, if_false]
      constructor
      · rintro ⟨r, h⟩
        refine ⟨by omega, ?_, trivial⟩
        split at h
        · simp [pauliLetters]
        · simp [pauliLetters]
        · simp [pauliLetters]
        · simp [pauliLetters]
        · cases h
      · rintro ⟨-, hop, -⟩
        simp only [pauliLetters, List.mem_cons, List.not_mem_nil, or_false] at hop
        rcases hop with rfl | rfl | rfl | rfl <;> exact ⟨_, rfl⟩

/-- The loop over the factors, after some qubits were seen. -/
theorem foldlM_addFactor_isOk : ∀ {factors : List (Char × ℕ)} {m : PauliMask R} {seen : ℕ},
    (∃ r, factors.foldlM (Observable.addFactor n) (m, seen) = .ok r) ↔
      Factors n factors ∧ ∀ f ∈ factors, seen.testBit f.2 = false
  | [], m, seen => by
    refine ⟨fun _ => ⟨⟨?_, ?_, List.nodup_nil⟩, ?_⟩, fun _ => ⟨_, rfl⟩⟩ <;> simp
  | (op, q) :: factors, m, seen => by
    rw [List.foldlM_cons]
    constructor
    · rintro ⟨r, h⟩
      obtain ⟨⟨m₁, seen₁⟩, h₁, h₂⟩ := bind_eq_ok.mp h
      obtain ⟨hq, hop, hs⟩ := addFactor_isOk.mp ⟨_, h₁⟩
      obtain ⟨⟨-, -, rfl⟩, -⟩ := addFactor_ok h₁
      obtain ⟨⟨hrange, hnamed, hdistinct⟩, hseen⟩ := foldlM_addFactor_isOk.mp ⟨r, h₂⟩
      have hne : ∀ f ∈ factors, f.2 ≠ q := fun f hf he => by
        have hset := hseen f hf
        rw [he, testBit_setBit, if_pos rfl] at hset
        cases hset
      refine ⟨⟨List.forall_mem_cons.mpr ⟨hq, hrange⟩, List.forall_mem_cons.mpr ⟨hop, hnamed⟩, ?_⟩,
        List.forall_mem_cons.mpr ⟨hs, fun f hf => ?_⟩⟩
      · refine List.nodup_cons.mpr ⟨fun hmem => ?_, hdistinct⟩
        obtain ⟨f, hf, he⟩ := List.mem_map.mp hmem
        exact hne f hf he
      · have hset := hseen f hf
        rwa [testBit_setBit, if_neg (hne f hf)] at hset
    · rintro ⟨⟨hrange, hnamed, hdistinct⟩, hseen⟩
      obtain ⟨hq, hrange⟩ := List.forall_mem_cons.mp hrange
      obtain ⟨hop, hnamed⟩ := List.forall_mem_cons.mp hnamed
      obtain ⟨hs, hseen⟩ := List.forall_mem_cons.mp hseen
      obtain ⟨hnot, hdistinct⟩ := List.nodup_cons.mp hdistinct
      obtain ⟨⟨m₁, seen₁⟩, h₁⟩ := addFactor_isOk (R := R) (m := m).mpr ⟨hq, hop, hs⟩
      obtain ⟨⟨-, -, rfl⟩, -⟩ := addFactor_ok h₁
      have hrest : ∀ f ∈ factors, (setBit seen q true).testBit f.2 = false := fun f hf => by
        rw [testBit_setBit, if_neg fun he => hnot (List.mem_map.mpr ⟨f, hf, he⟩), hseen f hf]
      obtain ⟨r, h₂⟩ := foldlM_addFactor_isOk (m := m₁).mpr ⟨⟨hrange, hnamed, hdistinct⟩, hrest⟩
      exact ⟨r, by rw [h₁]; exact h₂⟩

theorem le_of_mem_denseFactors : ∀ {paulis : List Char} {k : ℕ} {f : Char × ℕ},
    f ∈ Observable.denseFactors k paulis → k ≤ f.2
  | c :: paulis, k, f, h => by
    rw [Observable.denseFactors] at h
    split at h
    · rcases List.mem_cons.mp h with rfl | h
      · exact le_rfl
      · exact Nat.le_of_succ_le (le_of_mem_denseFactors h)
    · exact Nat.le_of_succ_le (le_of_mem_denseFactors h)

/-- **`add_term` accepts** the factors on different qubits in range. -/
theorem addTerm_isOk {obs : Observable R} {coeff : R} {factors : List (Char × ℕ)} :
    (∃ obs', obs.addTerm coeff factors = .ok obs') ↔ Factors obs.numQubits factors := by
  have hloop : (∃ r, factors.foldlM (Observable.addFactor obs.numQubits) (⟨coeff, 0, 0, 0⟩, 0) = .ok r) ↔
      Factors obs.numQubits factors := by
    rw [foldlM_addFactor_isOk]
    simp only [Nat.zero_testBit, implies_true, and_true]
  rw [← hloop, Observable.addTerm]
  constructor
  · rintro ⟨obs', h⟩
    obtain ⟨r, hr, -⟩ := bind_eq_ok.mp h
    exact ⟨r, hr⟩
  · rintro ⟨⟨m, seen⟩, hr⟩
    exact ⟨_, bind_eq_ok.mpr ⟨_, hr, rfl⟩⟩

/-- The factors of a string are on different qubits. -/
theorem factors_dense : ∀ (paulis : List Char) (k : ℕ),
    Factors (k + paulis.length) (Observable.denseFactors k paulis) ↔
      ∀ c ∈ paulis, c ∈ pauliLetters
  | [], k => by
    refine ⟨fun _ => by simp, fun _ => ⟨?_, ?_, List.nodup_nil⟩⟩ <;> simp [Observable.denseFactors]
  | c :: paulis, k => by
    have ih := factors_dense paulis (k + 1)
    have hlen : k + (c :: paulis).length = k + 1 + paulis.length := by
      rw [List.length_cons]
      omega
    rw [hlen, Observable.denseFactors, List.forall_mem_cons, ← ih]
    by_cases hc : c = 'I'
    · rw [if_neg (not_not.mpr hc)]
      exact ⟨fun h => ⟨by simp [pauliLetters, hc], h⟩, fun h => h.2⟩
    · rw [if_pos hc]
      constructor
      · rintro ⟨hrange, hnamed, hdistinct⟩
        obtain ⟨-, hrange⟩ := List.forall_mem_cons.mp hrange
        obtain ⟨hop, hnamed⟩ := List.forall_mem_cons.mp hnamed
        exact ⟨hop, hrange, hnamed, (List.nodup_cons.mp hdistinct).2⟩
      · rintro ⟨hop, hrange, hnamed, hdistinct⟩
        refine ⟨List.forall_mem_cons.mpr ⟨by omega, hrange⟩, List.forall_mem_cons.mpr ⟨hop, hnamed⟩,
          List.nodup_cons.mpr ⟨fun hmem => ?_, hdistinct⟩⟩
        obtain ⟨f, hf, he⟩ := List.mem_map.mp hmem
        have hle := le_of_mem_denseFactors hf
        omega

/-- One call of `add_term`. -/
def Observable.addCall (obs : Observable R) : Term R → Except Exn (Observable R)
  | .sparse coeff factors => obs.addTerm coeff factors
  | .dense coeff paulis => obs.addTermDense coeff paulis

theorem ofTerms_eq (n : ℕ) (terms : List (Term R)) :
    Observable.ofTerms n terms = (Observable.new n >>= fun obs => terms.foldlM Observable.addCall obs) := rfl

theorem addCall_isOk {obs : Observable R} (t : Term R) :
    (∃ obs', obs.addCall t = .ok obs') ↔ t.Accepted obs.numQubits := by
  cases t with
  | sparse coeff factors => exact addTerm_isOk
  | dense coeff paulis =>
    rw [Observable.addCall, Observable.addTermDense, Term.Accepted]
    by_cases hlen : paulis.length = obs.numQubits
    · have hdense := factors_dense paulis 0
      rw [Nat.zero_add, hlen] at hdense
      rw [if_neg (not_not.mpr hlen), addTerm_isOk, hdense]
      exact (and_iff_right hlen).symm
    · rw [if_pos hlen]
      exact iff_of_false not_error_isOk fun h => hlen h.1

theorem numQubits_addCall {obs obs' : Observable R} {t : Term R} (h : obs.addCall t = .ok obs') :
    obs'.numQubits = obs.numQubits := by
  cases t with
  | sparse coeff factors =>
    obtain ⟨m, rfl, -⟩ := addTerm_string rfl h
    rfl
  | dense coeff paulis =>
    rw [Observable.addCall, Observable.addTermDense] at h
    split at h
    · cases h
    · obtain ⟨m, rfl, -⟩ := addTerm_string rfl h
      rfl

theorem foldlM_addCall_isOk : ∀ {terms : List (Term R)} {obs : Observable R},
    (∃ obs', terms.foldlM Observable.addCall obs = .ok obs') ↔ ∀ t ∈ terms, t.Accepted obs.numQubits
  | [], obs => by simpa using ⟨obs, rfl⟩
  | t :: terms, obs => by
    rw [List.foldlM_cons, List.forall_mem_cons, ← addCall_isOk]
    constructor
    · rintro ⟨obs', h⟩
      obtain ⟨obs₁, h₁, h₂⟩ := bind_eq_ok.mp h
      exact ⟨⟨obs₁, h₁⟩, numQubits_addCall h₁ ▸ foldlM_addCall_isOk.mp ⟨obs', h₂⟩⟩
    · rintro ⟨⟨obs₁, h₁⟩, hrest⟩
      obtain ⟨obs', h₂⟩ := foldlM_addCall_isOk.mpr ((numQubits_addCall h₁).symm ▸ hrest)
      exact ⟨obs', bind_eq_ok.mpr ⟨obs₁, h₁, h₂⟩⟩

/-- **The calls that build an observable.** -/
theorem ofTerms_isOk {terms : List (Term R)} : (∃ obs, Observable.ofTerms n terms = .ok obs) ↔
    (1 ≤ n ∧ n ≤ 64) ∧ ∀ t ∈ terms, t.Accepted n := by
  rw [ofTerms_eq, Observable.new]
  by_cases hn : n = 0 ∨ 64 < n
  · rw [if_pos hn]
    refine iff_of_false not_error_isOk fun h => ?_
    have := h.1
    omega
  · rw [if_neg hn]
    exact foldlM_addCall_isOk.trans (and_iff_right (by omega)).symm

end Accepted

/-! ### The count of the Y factors -/

section Counts

variable {n : ℕ}

theorem sparsePauli_of_not_mem : ∀ {factors : List (Char × ℕ)} {k : ℕ}, k ∉ factors.map Prod.snd →
    sparsePauli factors k = .I
  | [], _, _ => rfl
  | (op, q) :: factors, k, h => by
    obtain ⟨hk, hrest⟩ := List.ne_and_not_mem_of_not_mem_cons h
    rw [sparsePauli, if_neg hk, sparsePauli_of_not_mem hrest]

/-- The Y factors of a term, one by one and qubit by qubit. -/
theorem sum_ny_factors : ∀ {factors : List (Char × ℕ)}, Factors n factors →
    ∑ k ∈ Finset.range n, (sparsePauli factors k).ny = (factors.map fun f => (pauliOf f.1).ny).sum
  | [], _ => by simp [sparsePauli, Pauli.ny, Pauli.flips]
  | (op, q) :: factors, ⟨hrange, hnamed, hdistinct⟩ => by
    obtain ⟨hq, hrange⟩ := List.forall_mem_cons.mp hrange
    obtain ⟨hnot, hdistinct⟩ := List.nodup_cons.mp hdistinct
    have ih := sum_ny_factors ⟨hrange, (List.forall_mem_cons.mp hnamed).2, hdistinct⟩
    have hk : ∀ k, (sparsePauli ((op, q) :: factors) k).ny =
        (if k = q then (pauliOf op).ny else 0) + (sparsePauli factors k).ny := by
      intro k
      rw [sparsePauli]
      by_cases hkq : k = q
      · rw [if_pos hkq, if_pos hkq, hkq, sparsePauli_of_not_mem hnot]
        rfl
      · rw [if_neg hkq, if_neg hkq, Nat.zero_add]
    rw [Finset.sum_congr rfl fun k _ => hk k, Finset.sum_add_distrib, Finset.sum_ite_eq',
      if_pos (Finset.mem_range.mpr hq), ih, List.map_cons, List.sum_cons]

theorem addFactor_ny {q seen seen' : ℕ} {op : Char} {m m' : PauliMask R}
    (h : Observable.addFactor n (m, seen) (op, q) = .ok (m', seen')) (hm : m.ny < 256) :
    m'.ny = (m.ny + (pauliOf op).ny) % 256 := by
  have hsame : m.ny = (m.ny + 0) % 256 := by omega
  rw [Observable.addFactor] at h
  split at h
  · cases h
  dsimp only at h
  split at h
  · cases h
  split at h
  · cases h
    exact hsame
  · cases h
    exact hsame
  · cases h
    rfl
  · cases h
    exact hsame
  · cases h

/-- The count is a byte. -/
theorem foldlM_addFactor_ny : ∀ {factors : List (Char × ℕ)} {m m' : PauliMask R} {seen seen' : ℕ},
    factors.foldlM (Observable.addFactor n) (m, seen) = .ok (m', seen') → m.ny < 256 →
    m'.ny = (m.ny + (factors.map fun f => (pauliOf f.1).ny).sum) % 256
  | [], m, m', seen, seen', h, hm => by
    cases h
    exact (Nat.mod_eq_of_lt hm).symm
  | (op, q) :: factors, m, m', seen, seen', h, hm => by
    rw [List.foldlM_cons] at h
    obtain ⟨⟨m₁, seen₁⟩, h₁, h₂⟩ := bind_eq_ok.mp h
    have hny := addFactor_ny h₁ hm
    rw [foldlM_addFactor_ny h₂ (by omega), hny, List.map_cons, List.sum_cons, Nat.mod_add_mod, Nat.add_assoc]

theorem numY_le (P : Fin n → Pauli) : numY P ≤ n := by
  have hle : ∀ q, (P q).ny ≤ 1 := fun q => Bool.toNat_le _
  calc numY P ≤ ∑ _q : Fin n, 1 := Finset.sum_le_sum fun q _ => hle q
    _ = n := by simp

/-- The masks of a term on at most 64 qubits count its Y factors. -/
theorem addTerm_ny (hn : n ≤ 64) {obs obs' : Observable R} {coeff : R} {factors : List (Char × ℕ)}
    (hq : obs.numQubits = n) (h : obs.addTerm coeff factors = .ok obs') :
    ∃ m, obs'.masks = obs.masks ++ [m] ∧ m.ny = numY (m.string n) := by
  have hf : Factors n factors := hq ▸ addTerm_isOk.mp ⟨obs', h⟩
  obtain ⟨m, hobs', -, -, hpauli⟩ := addTerm_string hq h
  refine ⟨m, by rw [hobs'], ?_⟩
  have hcount : numY (m.string n) = (factors.map fun f => (pauliOf f.1).ny).sum := by
    rw [← sum_ny_factors hf, Finset.sum_range, numY]
    exact Finset.sum_congr rfl fun q _ => by rw [PauliMask.string, hpauli]
  have hle := numY_le (m.string n)
  rw [Observable.addTerm, hq] at h
  obtain ⟨⟨m₁, seen⟩, hloop, h₁⟩ := bind_eq_ok.mp h
  have hm₁ : m₁ = m := by
    have hmasks := congrArg Observable.masks (Except.ok.inj h₁)
    rw [hobs'] at hmasks
    exact List.singleton_injective (List.append_cancel_left hmasks)
  have hzero : (⟨coeff, 0, 0, 0⟩ : PauliMask R).ny < 256 := Nat.zero_lt_succ 255
  rw [← hm₁, foldlM_addFactor_ny hloop hzero, hm₁, hcount, Nat.zero_add, Nat.mod_eq_of_lt (by omega)]

theorem ofTerms_ny {terms : List (Term R)} {obs : Observable R} (h : Observable.ofTerms n terms = .ok obs) :
    ∀ m ∈ obs.masks, m.ny = numY (m.string n) := by
  obtain ⟨⟨hn1, hn⟩, -⟩ := ofTerms_isOk.mp ⟨obs, h⟩
  rw [ofTerms_eq] at h
  obtain ⟨obs₀, hnew, hloop⟩ := bind_eq_ok.mp h
  have hstep : ∀ (obs : Observable R) (t : Term R) (obs' : Observable R),
      (obs.numQubits = n ∧ ∀ m ∈ obs.masks, m.ny = numY (m.string n)) → obs.addCall t = .ok obs' →
      obs'.numQubits = n ∧ ∀ m ∈ obs'.masks, m.ny = numY (m.string n) := by
    intro obs t obs' ⟨hq, hm⟩ h
    have hadd : ∃ coeff factors, obs.addTerm coeff factors = .ok obs' := by
      cases t with
      | sparse coeff factors => exact ⟨coeff, factors, h⟩
      | dense coeff paulis =>
        rw [Observable.addCall, Observable.addTermDense] at h
        split at h
        · cases h
        · exact ⟨coeff, _, h⟩
    obtain ⟨coeff, factors, hadd⟩ := hadd
    obtain ⟨m, hmasks, hny⟩ := addTerm_ny hn hq hadd
    refine ⟨(numQubits_addCall h).trans hq, fun m' hm' => ?_⟩
    rw [hmasks] at hm'
    rcases List.mem_append.mp hm' with hm' | hm'
    · exact hm m' hm'
    · rw [List.mem_singleton.mp hm', hny]
  refine (foldlM_invariant (I := fun obs : Observable R =>
    obs.numQubits = n ∧ ∀ m ∈ obs.masks, m.ny = numY (m.string n)) hstep ?_ hloop).2
  rw [Observable.new, if_neg (by omega)] at hnew
  cases hnew
  exact ⟨rfl, by simp⟩

end Counts

/-! ### Reading the strings back -/

/-- The letter of a factor. -/
def letterOf : Pauli → Char
  | .I => 'I'
  | .X => 'X'
  | .Y => 'Y'
  | .Z => 'Z'

theorem pauliOf_letterOf (p : Pauli) : pauliOf (letterOf p) = p := by cases p <;> rfl

theorem letterOf_mem (p : Pauli) : letterOf p ∈ pauliLetters := by cases p <;> simp [pauliLetters, letterOf]

theorem letterOf_pauliOf {c : Char} (h : c ∈ pauliLetters) : letterOf (pauliOf c) = c := by
  simp only [pauliLetters, List.mem_cons, List.not_mem_nil, or_false] at h
  rcases h with rfl | rfl | rfl | rfl <;> rfl

/-- The string of a mask, letter by letter. -/
def PauliMask.letters (n : ℕ) (m : PauliMask R) : List Char := (List.range n).map fun k => letterOf (m.pauli k)

/-- The coefficients and the strings of an observable. -/
def Observable.strings (obs : Observable R) : List (R × List Char) :=
  obs.masks.map fun m => (m.coeff, m.letters obs.numQubits)

section Strings

variable {n : ℕ}

/-- The masks are those of the strings, read as dense terms. -/
theorem fromPauliTerms_eq (terms : List (R × List Char)) :
    fromPauliTerms n terms = Observable.ofTerms n (terms.map fun t => .dense t.1 t.2) := by
  rw [fromPauliTerms, ofTerms_eq]
  simp only [List.foldlM_map]
  rfl

theorem PauliMask.ext_pauli {m m' : PauliMask R} (hc : m.coeff = m'.coeff) (hp : ∀ k, m.pauli k = m'.pauli k)
    (hny : m.ny = m'.ny) : m = m' := by
  have hx : m.x = m'.x := Nat.eq_of_testBit_eq fun k => by
    rw [← Pauli.flips_ofBits (m.x.testBit k) (m.z.testBit k), ← Pauli.flips_ofBits (m'.x.testBit k) (m'.z.testBit k)]
    exact congrArg Pauli.flips (hp k)
  have hz : m.z = m'.z := Nat.eq_of_testBit_eq fun k => by
    rw [← Pauli.signs_ofBits (m.x.testBit k) (m.z.testBit k), ← Pauli.signs_ofBits (m'.x.testBit k) (m'.z.testBit k)]
    exact congrArg Pauli.signs (hp k)
  cases m
  cases m'
  simp only [PauliMask.mk.injEq]
  exact ⟨hc, hx, hz, hny⟩

theorem PauliMask.Fits.pauli_eq {m : PauliMask R} (h : m.Fits n) {k : ℕ} (hk : n ≤ k) : m.pauli k = .I := by
  have hpow : 2 ^ n ≤ 2 ^ k := Nat.pow_le_pow_right Nat.two_pos hk
  rw [PauliMask.pauli, Nat.testBit_lt_two_pow (lt_of_lt_of_le h.x hpow),
    Nat.testBit_lt_two_pow (lt_of_lt_of_le h.z hpow)]
  rfl

theorem letters_getD (m : PauliMask R) (k : ℕ) : (m.letters n).getD k 'I' =
    if k < n then letterOf (m.pauli k) else 'I' := by
  rw [PauliMask.letters, List.getD_eq_getElem?_getD, List.getElem?_map]
  by_cases hk : k < n
  · rw [List.getElem?_range hk, if_pos hk]
    rfl
  · rw [List.getElem?_eq_none (by simpa using hk), if_neg hk]
    rfl

/-- The string of the mask of a string. -/
theorem letters_of_dense {coeff : R} {paulis : List Char} {m : PauliMask R}
    (h : TermMask n (.dense coeff paulis) m) (hlen : paulis.length = n) (hp : ∀ c ∈ paulis, c ∈ pauliLetters) :
    m.letters n = paulis := by
  obtain ⟨-, -, hpauli⟩ := h
  refine List.ext_getElem (by rw [PauliMask.letters, List.length_map, List.length_range, hlen]) fun k h₁ h₂ => ?_
  have hget : (Term.dense coeff paulis).pauli k = pauliOf paulis[k] := by
    rw [Term.pauli, List.getD_eq_getElem _ _ h₂]
  have hletter : (m.letters n)[k] = letterOf (m.pauli k) := by simp [PauliMask.letters]
  rw [hletter, hpauli, hget, letterOf_pauliOf (hp _ (List.getElem_mem h₂))]

/-- **The strings determine the masks.** -/
theorem mask_of_letters {m m' : PauliMask R} (hm : m.Fits n) (hny : m.ny = numY (m.string n))
    (hny' : m'.ny = numY (m'.string n)) (h : TermMask n (.dense m.coeff (m.letters n)) m') : m' = m := by
  obtain ⟨-, hc, hp⟩ := h
  have hpauli : ∀ k, m'.pauli k = m.pauli k := by
    intro k
    rw [hp, Term.pauli, letters_getD]
    by_cases hk : k < n
    · rw [if_pos hk, pauliOf_letterOf]
    · rw [if_neg hk, hm.pauli_eq (by omega)]
      rfl
  have hstring : m'.string n = m.string n := funext fun q => hpauli q
  exact PauliMask.ext_pauli hc hpauli (by rw [hny, hny', hstring])

theorem fromPauliTerms_isOk {terms : List (R × List Char)} : (∃ H, fromPauliTerms n terms = .ok H) ↔
    (1 ≤ n ∧ n ≤ 64) ∧ ∀ t ∈ terms, t.2.length = n ∧ ∀ c ∈ t.2, c ∈ pauliLetters := by
  rw [fromPauliTerms_eq, ofTerms_isOk, List.forall_mem_map]
  rfl

theorem strings_fromPauliTerms {terms : List (R × List Char)} {H : Observable R}
    (h : fromPauliTerms n terms = .ok H) : H.strings = terms := by
  obtain ⟨-, hterms⟩ := fromPauliTerms_isOk.mp ⟨H, h⟩
  rw [fromPauliTerms_eq] at h
  obtain ⟨-, hq, hmasks⟩ := ofTerms_ok h
  rw [List.forall₂_map_left_iff] at hmasks
  rw [Observable.strings, hq]
  clear h
  generalize H.masks = masks at hmasks
  induction hmasks with
  | nil => rfl
  | @cons t m terms masks ht _ ih =>
    obtain ⟨⟨hlen, hletters⟩, hterms⟩ := List.forall_mem_cons.mp hterms
    rw [List.map_cons, ih hterms, letters_of_dense ht hlen hletters, ht.2.1]
    rfl

theorem masks_of_letters : ∀ {masks masks' : List (PauliMask R)},
    (∀ m ∈ masks, m.Fits n ∧ m.ny = numY (m.string n)) → (∀ m ∈ masks', m.ny = numY (m.string n)) →
    List.Forall₂ (fun m m' => TermMask n (.dense m.coeff (m.letters n)) m') masks masks' → masks' = masks
  | [], _, _, _, h => by
    cases h
    rfl
  | m :: masks, _, hm, hm', h => by
    cases h with
    | @cons _ m' _ masks' hhead htail =>
      obtain ⟨⟨hfits, hny⟩, hms⟩ := List.forall_mem_cons.mp hm
      obtain ⟨hny', hms'⟩ := List.forall_mem_cons.mp hm'
      rw [mask_of_letters hfits hny hny' hhead, masks_of_letters hms hms' htail]

theorem strings_of_terms : ∀ {calls : List (Term R)} {masks : List (PauliMask R)},
    List.Forall₂ (TermMask n) calls masks → masks.map (fun m => (m.coeff, m.letters n)) =
      calls.map fun t => (t.coeff, (List.range n).map fun k => letterOf (t.pauli k))
  | [], _, h => by
    cases h
    rfl
  | t :: calls, _, h => by
    cases h with
    | @cons _ m _ masks hhead htail =>
      obtain ⟨-, hc, hp⟩ := hhead
      rw [List.map_cons, List.map_cons, strings_of_terms htail, PauliMask.letters, hc]
      simp only [hp]

/-- **Observables are lists of strings.** `from_pauli_terms` accepts the lists of strings of
`n` letters, and its observable reads back as the list. An observable that any calls of
`add_term` built, in either form, is the one of the list that it reads as, with the
coefficients and the matrices of the calls. -/
theorem strings_roundTrip (n : ℕ) (terms : List (R × List Char)) :
    ((∃ H, fromPauliTerms n terms = .ok H) ↔
      (1 ≤ n ∧ n ≤ 64) ∧ ∀ t ∈ terms, t.2.length = n ∧ ∀ c ∈ t.2, c ∈ pauliLetters) ∧
    (∀ H, fromPauliTerms n terms = .ok H → H.strings = terms) ∧
    ∀ (calls : List (Term R)) (H : Observable R), Observable.ofTerms n calls = .ok H →
      fromPauliTerms n H.strings = .ok H ∧
      H.strings = calls.map fun t => (t.coeff, (List.range n).map fun k => letterOf (t.pauli k)) := by
  refine ⟨fromPauliTerms_isOk, fun H => strings_fromPauliTerms, fun calls H h => ?_⟩
  obtain ⟨hn, hq, hmasks⟩ := ofTerms_ok h
  have hl := legal_of_ofTerms h
  obtain ⟨H', h'⟩ : ∃ H', fromPauliTerms n H.strings = .ok H' := by
    refine fromPauliTerms_isOk.mpr ⟨hn, fun t ht => ?_⟩
    obtain ⟨m, -, rfl⟩ := List.mem_map.mp ht
    refine ⟨by simp [PauliMask.letters, hq], fun c hc => ?_⟩
    obtain ⟨k, -, rfl⟩ := List.mem_map.mp hc
    exact letterOf_mem _
  have hsame : H' = H := by
    have hny := ofTerms_ny h
    rw [fromPauliTerms_eq] at h'
    have hny' := ofTerms_ny h'
    obtain ⟨-, hq', hmasks'⟩ := ofTerms_ok h'
    rw [Observable.strings, List.map_map, List.forall₂_map_left_iff] at hmasks'
    obtain ⟨numQubits, masks⟩ := H
    obtain ⟨numQubits', masks'⟩ := H'
    obtain rfl : numQubits = n := hq
    obtain rfl : numQubits' = numQubits := hq'
    obtain rfl : masks' = masks := masks_of_letters (fun m hm => ⟨hl.fits m hm, hny m hm⟩) hny' hmasks'
    rfl
  refine ⟨hsame ▸ h', ?_⟩
  rw [Observable.strings, hq, strings_of_terms hmasks]

/-- A sparse term out of order. -/
theorem strings_roundTrip_two :
    fromPauliTerms 2 [((2 : ℤ), ['Y', 'Z'])] = .ok ⟨2, [⟨2, 1, 3, 1⟩]⟩ :=
  ((strings_roundTrip 2 []).2.2 [.sparse 2 [('Z', 1), ('Y', 0)]] ⟨2, [⟨2, 1, 3, 1⟩]⟩ rfl).1

end Strings

end Qsycl
