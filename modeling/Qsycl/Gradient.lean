/-
# Gradients from batches

`build_gradient_batch` (`gradient_utils.cpp`) turns one gradient into a batch of
energies, `VQA::energy_and_gradient` (`vqa.cpp`) evaluates it and adds up the
answers. Request 0 is the plain energy, and the requests of term `t` are 1 + 2t
and 2 + 2t (`buildGradientBatch_shift`, `buildGradientBatch_difference`,
`combineTerms_eq`).
-/
import Qsycl.Evaluation

namespace Qsycl

open Gates (half)

inductive GradientMethod
  | ParameterShift | FiniteDifference
  deriving DecidableEq, Repr

/-- `grad[param] += weight * (plus - minus)`. -/
structure GradientTerm (R : Type) where
  param : ℕ
  weight : R
  deriving DecidableEq, Repr

/-! ### The batch of a gradient -/

/-- `kHalfPi`. -/
noncomputable def kHalfPi : ℝ := half Real.pi

/-- The loop body for a gate and its position. -/
noncomputable def addShifts (theta : List ℝ) (acc : EvalBatch ℝ × List (GradientTerm ℝ))
    (gate : GateOp ℝ × ℕ) : Except Exn (EvalBatch ℝ × List (GradientTerm ℝ)) := do
  if !gate.1.isParametric then
    return acc
  if gate.1.type ≠ .RX ∧ gate.1.type ≠ .RY ∧ gate.1.type ≠ .RZ then
    throw ⟨.invalidArgument, "parameter-shift supports only RX/RY/RZ; use " ++
      "GradientMethod::FiniteDifference for gate '" ++ gate.1.label ++ "'"⟩
  let a ← vecAt gate.1.symbolic 0
  if !a.isSymbolic then
    return acc
  return ((acc.1.add theta (castInt gate.2) kHalfPi).add theta (castInt gate.2) (-kHalfPi),
    acc.2 ++ [⟨a.index.toNat, half 1 * a.scale⟩])

/-- The loop body for parameter `i`. -/
noncomputable def addDifferences (theta : List ℝ) (fdEpsilon : ℝ)
    (acc : EvalBatch ℝ × List (GradientTerm ℝ)) (i : ℕ) : EvalBatch ℝ × List (GradientTerm ℝ) :=
  let tp := theta.modify i (· + fdEpsilon)
  let tm := theta.modify i (· - fdEpsilon)
  ((acc.1.add tp (-1) 0).add tm (-1) 0, acc.2 ++ [⟨i, half 1 / fdEpsilon⟩])

noncomputable def buildGradientBatch (ansatz : Circuit ℝ) (theta : List ℝ) (method : GradientMethod)
    (fdEpsilon : ℝ) : Except Exn (EvalBatch ℝ × List (GradientTerm ℝ)) :=
  let batch := EvalBatch.empty.add theta (-1) 0 -- request 0: the plain energy
  match method with
  | .ParameterShift => ansatz.ops.zipIdx.foldlM (addShifts theta) (batch, [])
  | .FiniteDifference =>
    return (List.range theta.length).foldl (addDifferences theta fdEpsilon) (batch, [])

/-! ### Combining the answers -/

/-- `v[i] += d`. -/
def addAt {R : Type} [Add R] (v : List R) (i : ℕ) (d : R) : Except Exn (List R) :=
  if i < v.length then return v.modify i (· + d)
  else throw ⟨.undefined, "vector index past the end"⟩

/-- The loop body for a term and its position. -/
def combineTerm {R : Type} [Ring R] (e : List R) (grad : List R) (term : GradientTerm R × ℕ) :
    Except Exn (List R) := do
  let plus ← vecAt e (1 + 2 * term.2)
  let minus ← vecAt e (2 + 2 * term.2)
  addAt grad term.1.param (term.1.weight * (plus - minus))

def combineTerms {R : Type} [Ring R] (e : List R) (terms : List (GradientTerm R)) (grad : List R) :
    Except Exn (List R) :=
  terms.zipIdx.foldlM (combineTerm e) grad

/-- `VQA::energy_and_gradient`: the energy, the gradient and the number of
evaluations so far. -/
noncomputable def energyAndGradient {m : Type → Type} [Monad m] [MonadLiftT (Except Exn) m]
    (expectationBatch : EvalBatch ℝ → m (List ℝ)) (ansatz : Circuit ℝ) (theta : List ℝ)
    (method : GradientMethod) (fdEps : ℝ) (shots : ℕ) (evals : ℕ) : m (ℝ × List ℝ × ℕ) := do
  let (batch, terms) ← buildGradientBatch ansatz theta method fdEps
  let e ← expectationBatch { batch with shots := shots }
  let grad ← combineTerms e terms (List.replicate ansatz.numParams 0)
  return (← vecAt e 0, grad, evals + batch.count)

@[simp] theorem liftM_except {α : Type} (x : Except Exn α) : (liftM x : Except Exn α) = x := rfl

section Combine

variable {R : Type} [Ring R]

/-- A term with the two answers it is for. -/
abbrev Row (R : Type) := GradientTerm R × R × R

theorem length_combineTerms {e : List R} {terms : List (GradientTerm R)} {grad grad' : List R}
    (h : combineTerms e terms grad = .ok grad') : grad'.length = grad.length := by
  refine foldlM_invariant (I := fun g => g.length = grad.length) (fun g t g' hg hstep => ?_) rfl h
  obtain ⟨plus, -, h1⟩ := bind_eq_ok.mp hstep
  obtain ⟨minus, -, h2⟩ := bind_eq_ok.mp h1
  unfold addAt at h2
  split at h2
  · rw [← Except.ok.inj h2, List.length_modify, hg]
  · cases h2

/-- What the terms add to a gradient. -/
def addRows (rows : List (Row R)) (grad : List R) : List R :=
  rows.foldl (fun grad r => grad.modify r.1.param (· + r.1.weight * (r.2.1 - r.2.2))) grad

theorem getElem?_addRows (rows : List (Row R)) (grad : List R) (i : ℕ) :
    (addRows rows grad)[i]? = grad[i]?.map
      (· + (rows.map fun r => if r.1.param = i then r.1.weight * (r.2.1 - r.2.2) else 0).sum) := by
  induction rows generalizing grad with
  | nil => simp [addRows]
  | cons r rows ih =>
    show (addRows rows (grad.modify _ _))[i]? = _
    rw [ih, List.getElem?_modify, List.map_cons, List.sum_cons]
    by_cases h : r.1.param = i
    · simp [h, Function.comp_def, add_assoc]
    · simp [h]

/-- The answers to the requests of the terms. -/
def answers (rows : List (Row R)) : List R := rows.flatMap fun r => [r.2.1, r.2.2]

/-- The loop from term `k` on, with the answers before its own in `before`. -/
theorem foldlM_combineTerm (rows : List (Row R)) (before : List R) (k : ℕ)
    (hk : before.length = 1 + 2 * k) (grad : List R) (hp : ∀ r ∈ rows, r.1.param < grad.length) :
    ((rows.map (·.1)).zipIdx k).foldlM (combineTerm (before ++ answers rows)) grad =
      .ok (addRows rows grad) := by
  induction rows generalizing before k grad with
  | nil => rfl
  | cons r rows ih =>
    obtain ⟨hr, hrows⟩ := List.forall_mem_cons.mp hp
    have he : before ++ answers (r :: rows) = before ++ [r.2.1, r.2.2] ++ answers rows := by
      rw [answers, List.flatMap_cons, List.append_assoc]
      rfl
    have hstep : combineTerm (before ++ answers (r :: rows)) grad (r.1, k) =
        .ok (grad.modify r.1.param (· + r.1.weight * (r.2.1 - r.2.2))) := by
      have h2 : 2 + 2 * k = before.length + 1 := by omega
      simp [combineTerm, answers, vecAt, ← hk, h2, addAt, hr]
    rw [List.map_cons, List.zipIdx_cons, List.foldlM_cons, hstep, ok_bind, he]
    exact ih _ (k + 1) (by simp [hk]; ring) _ (by simpa only [List.length_modify] using hrows)

/-- **No index is out of range** if each term has its two answers. -/
theorem combineTerms_eq (rows : List (Row R)) (e₀ : R) (grad : List R)
    (hp : ∀ r ∈ rows, r.1.param < grad.length) :
    combineTerms (e₀ :: answers rows) (rows.map (·.1)) grad = .ok (addRows rows grad) :=
  foldlM_combineTerm rows [e₀] 0 rfl grad hp

end Combine

/-! ### The requests of a gradient -/

theorem ofRequests_append {R : Type} (requests : List (Request R)) (r : Request R) :
    EvalBatch.ofRequests (requests ++ [r]) = (EvalBatch.ofRequests requests).add r.theta r.op r.delta := by
  rw [EvalBatch.ofRequests, List.foldl_append]
  rfl

theorem count_ofRequests {R : Type} (requests : List (Request R)) :
    (EvalBatch.ofRequests requests).count = requests.length := by
  induction requests using List.reverseRecOn with
  | nil => rfl
  | append_singleton requests r ih =>
    rw [ofRequests_append, List.length_append, ← ih]
    rfl

/-- The symbolic angle of a rotation. -/
def GateCall.rotationAngle {R : Type} : GateCall R → Option (Param R)
  | rx _ a | ry _ a | rz _ a => if a.isSymbolic then some a else none
  | _ => none

/-- The rotations with a symbolic angle, with their positions from `k` on. -/
def shiftedGates {R : Type} : ℕ → List (GateCall R) → List (ℕ × Param R)
  | _, [] => []
  | k, g :: calls => (g.rotationAngle.map fun a => (k, a)).toList ++ shiftedGates (k + 1) calls

/-- The requests for one of them. -/
noncomputable def shiftRequests (theta : List ℝ) (s : ℕ × Param ℝ) : List (Request ℝ) :=
  [⟨theta, castInt s.1, kHalfPi⟩, ⟨theta, castInt s.1, -kHalfPi⟩]

noncomputable def shiftTerm (s : ℕ × Param ℝ) : GradientTerm ℝ := ⟨s.2.index.toNat, half 1 * s.2.scale⟩

/-- The gates of which `build_gradient_batch` makes requests. -/
def ShiftRuleApplies (ops : List (GateOp ℝ)) : Prop :=
  ∀ op ∈ ops, op.isParametric = true → op.type = .RX ∨ op.type = .RY ∨ op.type = .RZ

/-- The gates with a symbolic angle are below position `N`. -/
def SymbolicBelow (N : ℕ) (ops : List (GateOp ℝ)) : Prop :=
  ∀ (k : ℕ) (op : GateOp ℝ), ops[k]? = some op → op.isParametric = true → k < N

theorem symbolicBelow_of_length {N : ℕ} {ops : List (GateOp ℝ)} (h : ops.length ≤ N) : SymbolicBelow N ops :=
  fun _ _ hk _ => (List.getElem?_eq_some_iff.mp hk).1.trans_le h

theorem rotationAngle_of_not_parametric {g : GateCall ℝ} (h : g.op.isParametric = false) :
    g.rotationAngle = none := by
  cases g with
  | rx q a | ry q a | rz q a =>
    cases hs : a.isSymbolic
    · simp [GateCall.rotationAngle, hs]
    · simp [GateCall.op, GateCall.args, GateOp.isParametric, hs] at h
  | _ => rfl

theorem rotationAngle_of_parametric {g : GateCall ℝ} (h : g.op.isParametric = true)
    (ht : g.op.type = .RX ∨ g.op.type = .RY ∨ g.op.type = .RZ) :
    ∃ a, g.rotationAngle = some a ∧ a.isSymbolic = true ∧ g.op.symbolic = [a] := by
  cases g with
  | rx q a | ry q a | rz q a =>
    have hs : a.isSymbolic = true := by
      cases hs : a.isSymbolic
      · simp [GateCall.op, GateCall.args, GateOp.isParametric, hs] at h
      · rfl
    exact ⟨a, by simp [GateCall.rotationAngle, hs], hs, by simp [GateCall.op, GateCall.args, hs]⟩
  | _ => simp [GateCall.op, GateCall.kind] at ht

theorem addShifts_op {g : GateCall ℝ}
    (h : g.op.isParametric = true → g.op.type = .RX ∨ g.op.type = .RY ∨ g.op.type = .RZ)
    (theta : List ℝ) (requests : List (Request ℝ)) (terms : List (GradientTerm ℝ)) (k : ℕ) :
    let s := (g.rotationAngle.map fun a => (k, a)).toList
    addShifts theta (.ofRequests requests, terms) (g.op, k) =
      .ok (.ofRequests (requests ++ s.flatMap (shiftRequests theta)), terms ++ s.map shiftTerm) := by
  intro s
  cases hp : g.op.isParametric
  · simp [addShifts, hp, s, rotationAngle_of_not_parametric hp]
    rfl
  · have ht := h hp
    obtain ⟨a, ha, hs, hsym⟩ := rotationAngle_of_parametric hp ht
    have hne : ¬ (g.op.type ≠ .RX ∧ g.op.type ≠ .RY ∧ g.op.type ≠ .RZ) := by
      rintro ⟨hx, hy, hz⟩
      rcases ht with ht | ht | ht
      · exact hx ht
      · exact hy ht
      · exact hz ht
    have hreq : EvalBatch.ofRequests (requests ++ shiftRequests theta (k, a)) =
        ((EvalBatch.ofRequests requests).add theta (castInt k) kHalfPi).add theta (castInt k) (-kHalfPi) := by
      rw [shiftRequests, ← List.singleton_append, ← List.append_assoc, ofRequests_append,
        ofRequests_append]
    simp only [addShifts, hp, hsym, vecAt_zero, s, ha, hreq, hs, if_neg hne, Option.map_some,
      Option.toList_some, List.flatMap_singleton, List.map_singleton, ok_bind]
    rfl

theorem foldlM_addShifts {calls : List (GateCall ℝ)} (h : ShiftRuleApplies (calls.map GateCall.op))
    (theta : List ℝ) (requests : List (Request ℝ)) (terms : List (GradientTerm ℝ)) (k : ℕ) :
    ((calls.map GateCall.op).zipIdx k).foldlM (addShifts theta) (.ofRequests requests, terms) =
      .ok (.ofRequests (requests ++ (shiftedGates k calls).flatMap (shiftRequests theta)),
        terms ++ (shiftedGates k calls).map shiftTerm) := by
  induction calls generalizing requests terms k with
  | nil => simp [shiftedGates]; rfl
  | cons g calls ih =>
    obtain ⟨hg, hcalls⟩ := List.forall_mem_cons.mp h
    rw [List.map_cons, List.zipIdx_cons, List.foldlM_cons, addShifts_op hg, ok_bind, ih hcalls]
    simp [shiftedGates, List.append_assoc]

/-- The batch of the shift rule. -/
theorem buildGradientBatch_shift {ansatz : Circuit ℝ} {calls : List (GateCall ℝ)}
    (hc : ansatz.ops = calls.map GateCall.op) (h : ShiftRuleApplies ansatz.ops) (theta : List ℝ)
    (fdEpsilon : ℝ) : buildGradientBatch ansatz theta .ParameterShift fdEpsilon =
      .ok (.ofRequests (⟨theta, -1, 0⟩ :: (shiftedGates 0 calls).flatMap (shiftRequests theta)),
        (shiftedGates 0 calls).map shiftTerm) := by
  rw [hc] at h
  have hf := foldlM_addShifts h theta [⟨theta, -1, 0⟩] [] 0
  rw [List.nil_append] at hf
  rw [← hc] at hf
  exact hf

/-- The requests for parameter `i`. -/
noncomputable def differenceRequests (theta : List ℝ) (fdEpsilon : ℝ) (i : ℕ) : List (Request ℝ) :=
  [⟨theta.modify i (· + fdEpsilon), -1, 0⟩, ⟨theta.modify i (· - fdEpsilon), -1, 0⟩]

theorem foldl_addDifferences (theta : List ℝ) (fdEpsilon : ℝ) (l : List ℕ) (requests : List (Request ℝ))
    (terms : List (GradientTerm ℝ)) :
    l.foldl (addDifferences theta fdEpsilon) (.ofRequests requests, terms) =
      (.ofRequests (requests ++ l.flatMap (differenceRequests theta fdEpsilon)),
        terms ++ l.map fun i => ⟨i, half 1 / fdEpsilon⟩) := by
  induction l generalizing requests terms with
  | nil => simp
  | cons i l ih =>
    have hstep : addDifferences theta fdEpsilon (.ofRequests requests, terms) i =
        (.ofRequests (requests ++ differenceRequests theta fdEpsilon i),
          terms ++ [⟨i, half 1 / fdEpsilon⟩]) := by
      rw [differenceRequests, ← List.singleton_append, ← List.append_assoc, ofRequests_append,
        ofRequests_append]
      rfl
    rw [List.foldl_cons, hstep, ih]
    simp [List.append_assoc]

/-- The batch of the central differences. -/
theorem buildGradientBatch_difference (ansatz : Circuit ℝ) (theta : List ℝ) (fdEpsilon : ℝ) :
    buildGradientBatch ansatz theta .FiniteDifference fdEpsilon =
      .ok (.ofRequests (⟨theta, -1, 0⟩ ::
          (List.range theta.length).flatMap (differenceRequests theta fdEpsilon)),
        (List.range theta.length).map fun i => ⟨i, half 1 / fdEpsilon⟩) :=
  congrArg Except.ok (foldl_addDifferences theta fdEpsilon _ [⟨theta, -1, 0⟩] [])

/-- There is a request 0. -/
theorem count_buildGradientBatch {ansatz : Circuit ℝ} {theta : List ℝ} {method : GradientMethod}
    {fdEpsilon : ℝ} {batch : EvalBatch ℝ} {terms : List (GradientTerm ℝ)}
    (h : buildGradientBatch ansatz theta method fdEpsilon = .ok (batch, terms)) : 0 < batch.count := by
  cases method with
  | ParameterShift =>
    unfold buildGradientBatch at h
    refine foldlM_invariant (I := fun acc : EvalBatch ℝ × _ => 0 < acc.1.count) ?_ Nat.one_pos h
    intro acc gate acc' hacc hstep
    unfold addShifts at hstep
    split at hstep
    · exact Except.ok.inj hstep ▸ hacc
    · split at hstep
      · cases hstep
      · obtain ⟨a, -, h1⟩ := bind_eq_ok.mp hstep
        split at h1
        · exact Except.ok.inj h1 ▸ hacc
        · rw [← Except.ok.inj h1]
          exact Nat.succ_pos _
  | FiniteDifference =>
    rw [buildGradientBatch_difference] at h
    rw [← (Prod.mk.inj (Except.ok.inj h)).1, count_ofRequests]
    exact Nat.succ_pos _

end Qsycl
