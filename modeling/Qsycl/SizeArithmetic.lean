/-
# The sizes of the exact evaluators

`native::expectation_batch` and `expectation_value` compute the number of
amplitudes by a shift, the sizes of the device arrays by products of `size_t`,
and the positions of the amplitudes from masks. The limit of 30 qubits is
checked by `initialize`, which neither calls; the observable admits 64 qubits.
The shift is defined below 64, and the products are right as long as they fit
64 bits (`sizes_safe_iff`).
-/
import Qsycl.NativeCorrect
import Qsycl.Readout

namespace Qsycl

open Words WorkItems

/-! ### The arithmetic -/

namespace Native

/-- What `expectation_batch` computes before and in its launches: the number of
amplitudes of a row, the cells of the arrays of amplitudes and of angles, and
all positions that are read or written in the first. -/
structure Sizes where
  dim : ℕ
  states : ℕ
  angles : ℕ
  cells : List ℕ

/-- `mask_c`, 0 for a gate without control. -/
def controlMask (control : ℤ) : Except Exn ℕ :=
  if 0 ≤ control then shiftLeft64 1 control.toNat else return 0

/-- The indices of `row` in the launch of a gate. -/
noncomputable def gateIndices (d : DevOp) (dim : ℕ) : Except Exn (List ℕ) :=
  if d.isSwap then do
    let maskA ← shiftLeft64 1 d.qa.toNat
    let maskB ← shiftLeft64 1 d.qb.toNat
    return (List.range dim).flatMap fun i =>
      if i &&& maskA = 0 ∧ i &&& maskB ≠ 0 then [i, Nat.ldiff (i ||| maskA) maskB] else []
  else do
    let maskT ← shiftLeft64 1 d.target.toNat
    let maskC ← controlMask d.control
    return (List.range (dim / 2)).flatMap fun k2 =>
      let low := k2 &&& (maskT - 1)
      let high := Nat.ldiff k2 (maskT - 1)
      let i0 := (high <<< 1) % 2 ^ 64 ||| low
      let i1 := i0 ||| maskT
      if 0 ≤ d.control ∧ i0 &&& maskC = 0 then [] else [i0, i1]

/-- The indices of `row` in the sums of a Pauli mask. -/
def termIndices {R : Type} (dim : ℕ) (term : PauliMask R) : List ℕ :=
  (List.range dim).flatMap fun j => [j ^^^ term.x, j]

/-- The sizes and indices of `expectation_batch`. -/
noncomputable def sizes (ansatz : Circuit ℝ) (obs : Observable ℝ) (batch : EvalBatch ℝ) : Except Exn Sizes := do
  if obs.numQubits ≠ ansatz.numQubits then
    throw ⟨.invalidArgument, "native::expectation_batch: observable/ansatz qubit mismatch"⟩
  if batch.count ≠ 0 ∧ batch.numParams ≠ ansatz.numParams then
    throw ⟨.invalidArgument, "native::expectation_batch: batch parameter count mismatch"⟩
  let dim ← shiftLeft64 1 ansatz.numQubits
  let B := batch.count
  let P := batch.numParams
  if B = 0 then return ⟨dim, 0, 0, []⟩
  let prog ← compile ansatz
  let gates ← prog.mapM (gateIndices · dim)
  -- every row starts with its amplitude of all zeros
  let indices := 0 :: (gates.flatten ++ obs.masks.flatMap (termIndices dim))
  return ⟨dim, B * dim % 2 ^ 64, B * P % 2 ^ 64,
    (List.range B).flatMap fun b => indices.map (b * dim % 2 ^ 64 + ·)⟩

/-- Shifts that are defined, sizes that did not wrap, and positions in the array. -/
def SizesSafe (ansatz : Circuit ℝ) (obs : Observable ℝ) (batch : EvalBatch ℝ) : Prop :=
  ∃ s, sizes ansatz obs batch = .ok s ∧ s.dim = 2 ^ ansatz.numQubits ∧
    s.states = batch.count * 2 ^ ansatz.numQubits ∧
    s.angles = batch.count * batch.numParams ∧ ∀ i ∈ s.cells, i < s.states

end Native

/-- The indices of `psi` in `expectation_value`, for a vector of `size` amplitudes. -/
def valueIndices (size : ℕ) (obs : Observable ℝ) : Except Exn (List ℕ) := do
  let dim ← shiftLeft64 1 obs.numQubits
  if size ≠ dim then
    throw ⟨.invalidArgument, "expectation_value: state size does not match observable qubits"⟩
  return obs.masks.flatMap (Native.termIndices size)

/-- The size check is defined, and what passes it is only read in range. -/
def ValueSafe (size : ℕ) (obs : Observable ℝ) : Prop :=
  (∃ dim, shiftLeft64 1 obs.numQubits = .ok dim) ∧
    ∀ indices, valueIndices size obs = .ok indices → size = 2 ^ obs.numQubits ∧ ∀ i ∈ indices, i < size

/-! ### Indices -/

theorem shiftLeft64_defined {k x : ℕ} (h : shiftLeft64 1 k = .ok x) : k < 64 := by
  unfold shiftLeft64 at h
  by_contra hk
  rw [if_pos (by omega)] at h
  cases h

/-- Below 64 bits the indices of a pair are those of the kernel. -/
theorem pair_lt {n t k2 : ℕ} (hn : n < 64) (ht : t < n) (hk : k2 < 2 ^ (n - 1)) :
    (Nat.ldiff k2 (2 ^ t - 1)) <<< 1 % 2 ^ 64 ||| (k2 &&& (2 ^ t - 1)) < 2 ^ n := by
  have hlt := insertZero_lt hk ht
  have hhigh : (Nat.ldiff k2 (2 ^ t - 1)) <<< 1 < 2 ^ 64 := by
    calc (Nat.ldiff k2 (2 ^ t - 1)) <<< 1 ≤ insertZero k2 t := Nat.left_le_or
      _ < 2 ^ n := hlt
      _ ≤ 2 ^ 64 := Nat.pow_le_pow_right Nat.two_pos hn.le
  rw [Nat.mod_eq_of_lt hhigh]
  exact hlt

theorem exchanged_lt {n a b i : ℕ} (ha : a < n) (hi : i < 2 ^ n) : Nat.ldiff (i ||| 2 ^ a) (2 ^ b) < 2 ^ n := by
  have hor : i ||| 2 ^ a < 2 ^ n := Nat.or_lt_two_pow hi (Nat.pow_lt_pow_right Nat.one_lt_two ha)
  refine lt_two_pow_of_testBit fun k hk => ?_
  rw [Nat.testBit_ldiff, Bool.and_eq_true] at hk
  exact lt_of_testBit_of_lt hor hk.1

theorem termIndices_lt {R : Type} {n : ℕ} {m : PauliMask R} (hm : m.Fits n) :
    ∀ i ∈ Native.termIndices (2 ^ n) m, i < 2 ^ n := by
  intro i hi
  obtain ⟨j, hj, hi⟩ := List.mem_flatMap.mp hi
  have hj : j < 2 ^ n := List.mem_range.mp hj
  rcases List.mem_pair.mp hi with rfl | rfl
  · exact Nat.xor_lt_two_pow hj hm.x
  · exact hj

namespace Native

/-- The qubits of a compiled gate, in range. -/
structure DevOp.Within (d : DevOp) (n : ℕ) : Prop where
  swap : d.isSwap = true → d.qa.toNat < n ∧ d.qb.toNat < n
  matrix : d.isSwap = false → d.target.toNat < n ∧ (0 ≤ d.control → d.control.toNat < n)

theorem devOp_within {n P : ℕ} {g : GateCall ℝ} (h : g.Fits n P) : (devOp g).Within n := by
  have hq := h.inRange
  cases g <;> constructor <;> simp_all [devOp, DevOp.fixed, DevOp.new, GateCall.qubits]

/-- **The launch of a gate stays in its row.** -/
theorem gateIndices_lt {n : ℕ} (hn : n < 64) {d : DevOp} (h : d.Within n) :
    ∃ indices, gateIndices d (2 ^ n) = .ok indices ∧ ∀ i ∈ indices, i < 2 ^ n := by
  cases hswap : d.isSwap with
  | true =>
    obtain ⟨ha, hb⟩ := h.swap hswap
    rw [gateIndices, if_pos hswap, shiftLeft64_one (by omega), shiftLeft64_one (by omega)]
    refine ⟨_, rfl, fun i hi => ?_⟩
    obtain ⟨j, hj, hi⟩ := List.mem_flatMap.mp hi
    have hj : j < 2 ^ n := List.mem_range.mp hj
    split at hi
    · rcases List.mem_pair.mp hi with rfl | rfl
      · exact hj
      · exact exchanged_lt ha hj
    · cases hi
  | false =>
    obtain ⟨ht, hc⟩ := h.matrix hswap
    obtain ⟨maskC, hmaskC⟩ : ∃ maskC, controlMask d.control = .ok maskC := by
      by_cases hd : 0 ≤ d.control
      · exact ⟨_, (if_pos hd).trans (shiftLeft64_one ((hc hd).trans hn))⟩
      · exact ⟨0, if_neg hd⟩
    rw [gateIndices, hswap, if_neg Bool.false_ne_true, shiftLeft64_one (by omega), hmaskC]
    refine ⟨_, rfl, fun i hi => ?_⟩
    obtain ⟨k2, hk2, hi⟩ := List.mem_flatMap.mp hi
    have hk2 : k2 < 2 ^ (n - 1) := by
      rw [← two_pow_div_two (by omega)]
      exact List.mem_range.mp hk2
    have hlt := pair_lt hn ht hk2
    dsimp only at hi
    split at hi
    · cases hi
    · rcases List.mem_pair.mp hi with rfl | rfl
      · exact hlt
      · exact Nat.or_lt_two_pow hlt (Nat.pow_lt_pow_right Nat.one_lt_two ht)

theorem mapM_gateIndices {n P : ℕ} (hn : n < 64) {calls : List (GateCall ℝ)} (hf : ∀ g ∈ calls, g.Fits n P) :
    ∃ gates, (calls.map devOp).mapM (gateIndices · (2 ^ n)) = .ok gates ∧ ∀ i ∈ gates.flatten, i < 2 ^ n := by
  induction calls with
  | nil => exact ⟨[], rfl, by simp⟩
  | cons g calls ih =>
    obtain ⟨hg, hcalls⟩ := List.forall_mem_cons.mp hf
    obtain ⟨indices, hindices, hlt⟩ := gateIndices_lt hn (devOp_within hg)
    obtain ⟨gates, hgates, hrest⟩ := ih hcalls
    refine ⟨indices :: gates, ?_, ?_⟩
    · rw [List.map_cons, List.mapM_cons, hindices, hgates]
      rfl
    · rw [List.flatten_cons, List.forall_mem_append]
      exact ⟨hlt, hrest⟩

/-- The rows lie one after another in the array. -/
theorem rowCell_lt {B dim b i : ℕ} (hb : b < B) (hi : i < dim) : b * dim % 2 ^ 64 + i < B * dim := by
  have hrow : (b + 1) * dim ≤ B * dim := Nat.mul_le_mul_right dim hb
  have hmod : b * dim % 2 ^ 64 ≤ b * dim := Nat.mod_le _ _
  rw [Nat.succ_mul] at hrow
  omega

section Batch

variable {ansatz : Circuit ℝ} {obs : Observable ℝ} {batch : EvalBatch ℝ}

/-- After the checks comes the shift. -/
theorem sizes_eq (hn : obs.numQubits = ansatz.numQubits)
    (hP : batch.count ≠ 0 → batch.numParams = ansatz.numParams) : sizes ansatz obs batch =
      shiftLeft64 1 ansatz.numQubits >>= fun dim =>
        if batch.count = 0 then .ok ⟨dim, 0, 0, []⟩
        else compile ansatz >>= fun prog => prog.mapM (gateIndices · dim) >>= fun gates =>
          .ok ⟨dim, batch.count * dim % 2 ^ 64, batch.count * batch.numParams % 2 ^ 64,
            (List.range batch.count).flatMap fun b =>
              (0 :: (gates.flatten ++ obs.masks.flatMap (termIndices dim))).map (b * dim % 2 ^ 64 + ·)⟩ := by
  have hcheck : ¬ (batch.count ≠ 0 ∧ batch.numParams ≠ ansatz.numParams) := fun h => h.2 (hP h.1)
  rw [sizes, if_neg (not_not.mpr hn), if_neg hcheck]
  rfl

/-- The sizes of a batch with rows, for up to 63 qubits. -/
theorem sizes_rows (hc : ansatz.Built) (ho : obs.Legal) (hn : obs.numQubits = ansatz.numQubits)
    (hP : batch.count ≠ 0 → batch.numParams = ansatz.numParams) (hwidth : ansatz.numQubits < 64)
    (hB : batch.count ≠ 0) : ∃ indices : List ℕ, (∀ i ∈ indices, i < 2 ^ ansatz.numQubits) ∧
      sizes ansatz obs batch = .ok ⟨2 ^ ansatz.numQubits, batch.count * 2 ^ ansatz.numQubits % 2 ^ 64,
        batch.count * batch.numParams % 2 ^ 64, (List.range batch.count).flatMap fun b =>
          indices.map (b * 2 ^ ansatz.numQubits % 2 ^ 64 + ·)⟩ := by
  obtain ⟨calls, hl⟩ := Circuit.legal_of_built hc
  obtain ⟨gates, hgates, hlt⟩ := mapM_gateIndices hwidth hl.fits
  refine ⟨0 :: (gates.flatten ++ obs.masks.flatMap (termIndices (2 ^ ansatz.numQubits))), ?_, ?_⟩
  · rw [List.forall_mem_cons, List.forall_mem_append]
    refine ⟨Nat.two_pow_pos _, hlt, fun i hi => ?_⟩
    obtain ⟨m, hm, hi⟩ := List.mem_flatMap.mp hi
    exact termIndices_lt (hn ▸ ho.fits m hm) i hi
  · rw [sizes_eq hn hP, shiftLeft64_one hwidth, ok_bind, if_neg hB, compile_eq hl.ops, ok_bind, hgates, ok_bind]

/-- **Where the sizes are right.** -/
theorem sizesSafe_iff (hc : ansatz.Built) (ho : obs.Legal) (hn : obs.numQubits = ansatz.numQubits)
    (hP : batch.count ≠ 0 → batch.numParams = ansatz.numParams) : SizesSafe ansatz obs batch ↔
      ansatz.numQubits < 64 ∧ batch.count * 2 ^ ansatz.numQubits < 2 ^ 64 ∧
        batch.count * batch.numParams < 2 ^ 64 := by
  constructor
  · intro hsafe
    obtain ⟨s, hs, -, hstates, hangles, -⟩ := hsafe
    have hwidth : ansatz.numQubits < 64 := by
      rw [sizes_eq hn hP] at hs
      obtain ⟨dim, hdim, -⟩ := bind_eq_ok.mp hs
      exact shiftLeft64_defined hdim
    refine ⟨hwidth, ?_⟩
    by_cases hB : batch.count = 0
    · simp [hB]
    · obtain ⟨indices, -, hrows⟩ := sizes_rows hc ho hn hP hwidth hB
      obtain rfl := Except.ok.inj (hrows.symm.trans hs)
      rw [← hstates, ← hangles]
      exact ⟨Nat.mod_lt _ (by decide), Nat.mod_lt _ (by decide)⟩
  · intro ⟨hwidth, hstates, hangles⟩
    by_cases hB : batch.count = 0
    · refine ⟨⟨2 ^ ansatz.numQubits, 0, 0, []⟩, ?_, rfl, by simp [hB], by simp [hB], by simp⟩
      rw [sizes_eq hn hP, shiftLeft64_one hwidth, ok_bind, if_pos hB]
    · obtain ⟨indices, hlt, hrows⟩ := sizes_rows hc ho hn hP hwidth hB
      refine ⟨_, hrows, rfl, Nat.mod_eq_of_lt hstates, Nat.mod_eq_of_lt hangles, fun i hi => ?_⟩
      obtain ⟨b, hb, hi⟩ := List.mem_flatMap.mp hi
      obtain ⟨j, hj, rfl⟩ := List.mem_map.mp hi
      rw [Nat.mod_eq_of_lt hstates]
      exact rowCell_lt (List.mem_range.mp hb) (hlt j hj)

end Batch

end Native

/-- **The size check of `expectation_value`.** -/
theorem valueSafe_iff {obs : Observable ℝ} (ho : obs.Legal) (size : ℕ) :
    ValueSafe size obs ↔ obs.numQubits < 64 := by
  constructor
  · intro hsafe
    obtain ⟨dim, hdim⟩ := hsafe.1
    exact shiftLeft64_defined hdim
  · intro hwidth
    refine ⟨⟨_, shiftLeft64_one hwidth⟩, fun indices hindices => ?_⟩
    rw [valueIndices, shiftLeft64_one hwidth] at hindices
    by_cases hsize : size = 2 ^ obs.numQubits
    · refine ⟨hsize, fun i hi => ?_⟩
      simp only [ok_bind, hsize, ne_eq, not_true_eq_false, if_false] at hindices
      obtain rfl := Except.ok.inj hindices
      obtain ⟨m, hm, hi⟩ := List.mem_flatMap.mp hi
      exact hsize ▸ termIndices_lt (ho.fits m hm) i hi
    · simp only [ok_bind, ne_eq, hsize, not_false_eq_true, if_true] at hindices
      cases hindices

/-- **Sizes.** For a circuit of the API, an observable on its qubits and a batch that
passes the checks, the shifts of `native::expectation_batch` are defined, its sizes
do not wrap and its positions are in the array exactly below 64 qubits and when the
sizes fit 64 bits; those of `expectation_value` are exactly below 64 qubits. -/
theorem sizes_safe_iff {ansatz : Circuit ℝ} {n : ℕ} {terms : List (Term ℝ)} {obs : Observable ℝ}
    {batch : EvalBatch ℝ} (hc : ansatz.Built) (hobs : Observable.ofTerms n terms = .ok obs)
    (hn : n = ansatz.numQubits) (hP : batch.count ≠ 0 → batch.numParams = ansatz.numParams) :
    (Native.SizesSafe ansatz obs batch ↔ n < 64 ∧ batch.count * 2 ^ n < 2 ^ 64 ∧
      batch.count * batch.numParams < 2 ^ 64) ∧
    ∀ size, ValueSafe size obs ↔ n < 64 := by
  have ho := legal_of_ofTerms hobs
  obtain ⟨-, rfl, -⟩ := ofTerms_ok hobs
  refine ⟨?_, valueSafe_iff ho⟩
  rw [hn]
  exact Native.sizesSafe_iff hc ho hn hP

/-- Two rows of two qubits with a symbolic rotation and a CNOT, and the observable ZZ. -/
theorem sizes_safe_two :
    (Native.SizesSafe ⟨2, 1, [GateCall.op (.rx 0 ⟨0, 1, 0⟩), GateCall.op (.cnot 0 1)], []⟩ ⟨2, [⟨1, 0, 3, 0⟩]⟩
      ⟨2, 1, [0, 1], [-1, 0], [0, 1], 1024⟩ ↔ 2 < 64 ∧ 2 * 2 ^ 2 < 2 ^ 64 ∧ 2 * 1 < 2 ^ 64) ∧
    ∀ size, ValueSafe size ⟨2, [⟨1, 0, 3, 0⟩]⟩ ↔ 2 < 64 := by
  have hobs : Observable.ofTerms 2 [.dense 1 ['Z', 'Z']] = .ok (⟨2, [⟨1, 0, 3, 0⟩]⟩ : Observable ℝ) := rfl
  have h0 : Circuit.Built (⟨2, 1, [], []⟩ : Circuit ℝ) := .newParam (.new (n := 2) rfl)
  have h1 : Circuit.Built (⟨2, 1, [GateCall.op (.rx 0 ⟨0, 1, 0⟩)], []⟩ : Circuit ℝ) :=
    .gate (g := .rx 0 ⟨0, 1, 0⟩) h0 rfl
  exact sizes_safe_iff (.gate (g := .cnot 0 1) h1 rfl) hobs rfl fun _ => rfl

/-- The shift by 64 is undefined. -/
theorem sizes_safe_fails : ¬ ∀ (ansatz : Circuit ℝ) (obs : Observable ℝ) (batch : EvalBatch ℝ),
    ansatz.Built → obs.Legal → obs.numQubits = ansatz.numQubits →
    (batch.count ≠ 0 → batch.numParams = ansatz.numParams) → Native.SizesSafe ansatz obs batch := by
  intro hall
  have hobs : Observable.ofTerms 64 [] = .ok (⟨64, []⟩ : Observable ℝ) := rfl
  obtain ⟨s, hs, -⟩ := hall ⟨64, 0, [], []⟩ ⟨64, []⟩ ⟨1, 0, [], [-1], [0], 1024⟩ (.new (n := 64) rfl)
    (legal_of_ofTerms hobs) rfl fun _ => rfl
  rw [Native.sizes_eq rfl fun _ => rfl] at hs
  obtain ⟨dim, hdim, -⟩ := bind_eq_ok.mp hs
  exact absurd (shiftLeft64_defined hdim) (lt_irrefl 64)

end Qsycl
