/-
# Batches of circuit evaluations

An `EvalBatch` (`vqa_types.hpp`) lists evaluations of one ansatz in a flat
layout. `Backend.expectationBatch` (`backend.cpp`) runs them one after another
through the virtual methods of a backend. On the CPU backend the answer to a
request is the energy of the bound circuit (`CPUBackend.evaluate_eq`).
-/
import Qsycl.Observable

namespace Qsycl

open Qubits

/-! ### Batches -/

/-- Request `i` uses row `i` of `thetas` and adds `shift[i]` to the first angle
of gate `shiftOp[i]`, if that is not negative. -/
structure EvalBatch (R : Type) where
  count : ℕ
  numParams : ℕ
  thetas : List R
  shiftOp : List ℤ
  shift : List R
  shots : ℕ

namespace EvalBatch

variable {R : Type}

def empty : EvalBatch R := ⟨0, 0, [], [], [], 1024⟩

def add (b : EvalBatch R) (theta : List R) (op : ℤ) (delta : R) : EvalBatch R :=
  { b with
    numParams := if b.count = 0 then theta.length else b.numParams
    thetas := b.thetas ++ theta
    shiftOp := b.shiftOp ++ [op]
    shift := b.shift ++ [delta]
    count := b.count + 1 }

/-- Row `i` of `thetas`. -/
def thetaOf (b : EvalBatch R) (i : ℕ) : List R := (b.thetas.drop (i * b.numParams)).take b.numParams

/-- The shifted gate of request `i`, -1 if none. -/
def opOf (b : EvalBatch R) (i : ℕ) : Except Exn ℤ :=
  if b.shiftOp.isEmpty then return -1 else vecAt b.shiftOp i

/-- The shift of request `i`. -/
def deltaOf [Zero R] (b : EvalBatch R) (i : ℕ) : Except Exn R :=
  if b.shift.isEmpty then return 0 else vecAt b.shift i

end EvalBatch

/-- The arguments of one `add`. -/
structure Request (R : Type) where
  theta : List R
  op : ℤ
  delta : R

/-- The batch that `add` builds. -/
def EvalBatch.ofRequests {R : Type} (requests : List (Request R)) : EvalBatch R :=
  requests.foldl (fun b r => b.add r.theta r.op r.delta) .empty

section OfRequests

variable {R : Type}

/-- The batch after adding to `b`, if `b` has rows of length `P` or is empty. -/
theorem foldl_add_eq (P : ℕ) : ∀ (requests : List (Request R)) (b : EvalBatch R),
    (∀ r ∈ requests, r.theta.length = P) → (b.count ≠ 0 → b.numParams = P) →
    requests.foldl (fun b r => b.add r.theta r.op r.delta) b =
      ⟨b.count + requests.length, if b.count + requests.length = 0 then b.numParams else P,
        b.thetas ++ (requests.map (·.theta)).flatten, b.shiftOp ++ requests.map (·.op),
        b.shift ++ requests.map (·.delta), b.shots⟩
  | [], ⟨count, numParams, thetas, shiftOp, shift, shots⟩, _, hb => by
    by_cases h0 : count = 0
    · simp [h0]
    · simpa [h0] using hb h0
  | r :: requests, b, h, hb => by
    have hP : (b.add r.theta r.op r.delta).numParams = P := by
      simp only [EvalBatch.add]
      split
      · exact h r List.mem_cons_self
      · exact hb ‹_›
    have ih := foldl_add_eq P requests (b.add r.theta r.op r.delta)
      (fun r' hr' => h r' (List.mem_cons_of_mem _ hr')) fun _ => hP
    rw [List.foldl_cons, ih]
    simp [EvalBatch.add, Nat.add_assoc, Nat.add_comm]

variable {requests : List (Request R)} {P : ℕ}

theorem ofRequests_eq (h : ∀ r ∈ requests, r.theta.length = P) :
    EvalBatch.ofRequests requests = ⟨requests.length, if requests.length = 0 then 0 else P,
      (requests.map (·.theta)).flatten, requests.map (·.op), requests.map (·.delta), 1024⟩ := by
  rw [EvalBatch.ofRequests, foldl_add_eq P requests _ h (by simp [EvalBatch.empty])]
  simp [EvalBatch.empty]

/-- Rows of one length lie one after another. -/
theorem take_drop_flatten : ∀ (rows : List (List R)) (i : ℕ) (row : List R),
    (∀ r ∈ rows, r.length = P) → rows[i]? = some row →
    (rows.flatten.drop (i * P)).take P = row
  | [], i, row, _, h => by simp at h
  | r :: rows, 0, row, hP, h => by
    have hr : r.length = P := hP r List.mem_cons_self
    obtain rfl : r = row := by simpa using h
    simp [← hr]
  | r :: rows, i + 1, row, hP, h => by
    have hr : r.length = P := hP r List.mem_cons_self
    have ih := take_drop_flatten rows i row (fun r hr => hP r (List.mem_cons_of_mem _ hr))
      (by simpa using h)
    rw [List.flatten_cons, List.drop_append, hr, Nat.succ_mul, Nat.add_sub_cancel,
      List.drop_eq_nil_of_le (by omega), List.nil_append, ih]

/-- **The layout is faithful.** Request `i` of the batch reads the arguments of
the `i`-th `add`. -/
theorem ofRequests_request [Zero R] (h : ∀ r ∈ requests, r.theta.length = P) {i : ℕ}
    {r : Request R} (hi : requests[i]? = some r) :
    let batch := EvalBatch.ofRequests requests
    batch.thetaOf i = r.theta ∧ batch.opOf i = .ok r.op ∧ batch.deltaOf i = .ok r.delta := by
  have hne : requests ≠ [] := by
    rintro rfl
    simp at hi
  rw [ofRequests_eq h]
  refine ⟨?_, ?_, ?_⟩
  · simp only [EvalBatch.thetaOf, List.length_eq_zero_iff, hne, if_false]
    refine take_drop_flatten _ i r.theta (fun row hrow => ?_) (by simp [hi])
    obtain ⟨r, hr, rfl⟩ := List.mem_map.mp hrow
    exact h r hr
  · simp [EvalBatch.opOf, vecAt, hne, hi]
  · simp [EvalBatch.deltaOf, vecAt, hne, hi]

end OfRequests

/-! ### Backends -/

/-- The virtual methods of a backend with state `σ`. -/
structure Backend (σ : Type) where
  initializeState : ℕ → σ → Except Exn σ
  applyGate : GateOp ℝ → σ → Except Exn σ
  getState : σ → Except Exn (StateVec ℂ)

namespace Backend

variable {σ : Type} (B : Backend σ)

/-- `⟨H⟩` in the current state. -/
noncomputable def expectation (obs : Observable ℝ) (s : σ) : Except Exn ℝ := do
  expectationValue (← B.getState s) obs

/-- One round of the loop of `expectation_batch`. -/
noncomputable def evaluate (ansatz : Circuit ℝ) (obs : Observable ℝ) (batch : EvalBatch ℝ) (i : ℕ)
    (s : σ) : Except Exn (ℝ × σ) := do
  let op ← batch.opOf i
  let delta ← batch.deltaOf i
  let bound ← ansatz.bind (batch.thetaOf i) op delta
  let s ← B.initializeState bound.numQubits s
  let s ← bound.ops.foldlM (fun s gate => B.applyGate gate s) s
  return (← B.expectation obs s, s)

end Backend

/-- Runs `f` for every row in turn and collects the answers. -/
def mapRows {σ : Type} (f : ℕ → σ → Except Exn (ℝ × σ)) : List ℕ → σ → Except Exn (List ℝ × σ)
  | [], s => return ([], s)
  | i :: rows, s => do
    let (e, s) ← f i s
    let (out, s) ← mapRows f rows s
    return (e :: out, s)

theorem mapRows_eq {σ : Type} {f : ℕ → σ → Except Exn (ℝ × σ)} {g : ℕ → ℝ} :
    ∀ (rows : List ℕ) (s : σ), (∀ i ∈ rows, ∀ s, ∃ s', f i s = .ok (g i, s')) →
    ∃ s', mapRows f rows s = .ok (rows.map g, s')
  | [], s, _ => ⟨s, rfl⟩
  | i :: rows, s, h => by
    obtain ⟨s₁, h₁⟩ := h i List.mem_cons_self s
    obtain ⟨s₂, h₂⟩ := mapRows_eq rows s₁ fun i hi => h i (List.mem_cons_of_mem _ hi)
    refine ⟨s₂, ?_⟩
    rw [mapRows, h₁]
    change mapRows f rows s₁ >>= _ = _
    rw [h₂]
    rfl

/-- The default of `Backend::expectation_batch`: one request after another. -/
noncomputable def Backend.expectationBatch {σ : Type} (B : Backend σ) (ansatz : Circuit ℝ)
    (obs : Observable ℝ) (batch : EvalBatch ℝ) (s : σ) : Except Exn (List ℝ × σ) :=
  if obs.numQubits ≠ ansatz.numQubits then
    throw ⟨.invalidArgument, "expectation_batch: observable and ansatz qubit counts differ"⟩
  else if batch.count ≠ 0 ∧ batch.numParams ≠ ansatz.numParams then
    throw ⟨.invalidArgument, "expectation_batch: batch parameter count does not match ansatz"⟩
  else
    mapRows (B.evaluate ansatz obs batch) (List.range batch.count) s

/-! ### The CPU backend -/

/-- The methods of the CPU backend. -/
noncomputable def CPUBackend.methods : Backend (CPUBackend ℂ) :=
  ⟨CPUBackend.initializeState, CPUBackend.applyGate, fun b => return b.getState⟩

/-- The energy of the state that a list of calls prepares. -/
noncomputable def energy (n : ℕ) (obs : Observable ℝ) (calls : List (GateCall ℝ)) : ℝ :=
  (expect (obs.operator n) (preparedState n calls)).re

/-- The requests that `Circuit::bind` accepts. -/
def Accepts (ansatz : Circuit ℝ) (r : Request ℝ) : Prop :=
  ∃ bound, ansatz.bind r.theta r.op r.delta = .ok bound

section Reference

variable {ansatz : Circuit ℝ} {calls : List (GateCall ℝ)} {obs : Observable ℝ}

theorem Accepts.length_eq (hc : ansatz.Legal calls) {r : Request ℝ} (h : Accepts ansatz r) :
    r.theta.length = ansatz.numParams := by
  obtain ⟨bound, hb⟩ := h
  exact ((Circuit.bind_eq_ok ansatz calls hc.ops _ _ _ _).mp hb).1

/-- **One request on the CPU backend** gives the energy of the bound circuit. -/
theorem CPUBackend.evaluate_eq (hc : ansatz.Legal calls) (hn : ansatz.numQubits ≤ 30)
    (ho : obs.Legal) (hno : obs.numQubits = ansatz.numQubits) {batch : EvalBatch ℝ} {i : ℕ}
    {r : Request ℝ} (hθ : batch.thetaOf i = r.theta) (hop : batch.opOf i = .ok r.op)
    (hδ : batch.deltaOf i = .ok r.delta) (hr : Accepts ansatz r) (b : CPUBackend ℂ) :
    ∃ b', methods.evaluate ansatz obs batch i b =
      .ok (energy obs.numQubits obs (bindCalls calls r.theta r.op r.delta), b') := by
  obtain ⟨bound, hb⟩ := hr
  have hl := hc.bind hb
  have hnb : bound.numQubits = obs.numQubits := (hc.numQubits_bind hb).trans hno.symm
  have hpos := hl.pos
  obtain ⟨b₀, b', h₀, h₁, h₂⟩ := b.prepare_holds (n := obs.numQubits) (by omega) (by omega)
    (hnb ▸ hl.fits)
  refine ⟨b', ?_⟩
  have he : methods.expectation obs b' = .ok (energy obs.numQubits obs _) := expectationValue_holds ho h₂
  have hrun : bound.ops.foldlM (fun s gate => methods.applyGate gate s) b₀ = .ok b' := by
    rw [hl.ops]
    exact h₁
  have hinit : methods.initializeState bound.numQubits b = .ok b₀ := by
    rw [hnb]
    exact h₀
  simp only [Backend.evaluate, hθ, hop, hδ, hb, hinit, hrun, he, bind, Except.bind, pure, Except.pure]

/-- **A batch on the CPU backend** gives the energies of the bound circuits. -/
theorem CPUBackend.expectationBatch_eq (hc : ansatz.Legal calls) (hn : ansatz.numQubits ≤ 30)
    (ho : obs.Legal) (hno : obs.numQubits = ansatz.numQubits) {requests : List (Request ℝ)}
    (hr : ∀ r ∈ requests, Accepts ansatz r) (b : CPUBackend ℂ) :
    ∃ b', methods.expectationBatch ansatz obs (.ofRequests requests) b =
      .ok (requests.map fun r => energy obs.numQubits obs (bindCalls calls r.theta r.op r.delta), b') := by
  have hP : ∀ r ∈ requests, r.theta.length = ansatz.numParams := fun r h => (hr r h).length_eq hc
  let g : ℕ → ℝ := fun i => match requests[i]? with
    | some r => energy obs.numQubits obs (bindCalls calls r.theta r.op r.delta)
    | none => 0
  have hrow : ∀ i ∈ List.range requests.length, ∀ s, ∃ s',
      methods.evaluate ansatz obs (.ofRequests requests) i s = .ok (g i, s') := by
    intro i hi s
    have hi : i < requests.length := List.mem_range.mp hi
    have hget : requests[i]? = some requests[i] := List.getElem?_eq_getElem hi
    obtain ⟨hθ, hop, hδ⟩ := ofRequests_request hP hget
    have := CPUBackend.evaluate_eq hc hn ho hno hθ hop hδ (hr _ (List.getElem_mem hi)) s
    simpa only [g, hget] using this
  obtain ⟨b', hb'⟩ := mapRows_eq _ b hrow
  have hg : (List.range requests.length).map g =
      requests.map fun r => energy obs.numQubits obs (bindCalls calls r.theta r.op r.delta) := by
    refine List.ext_getElem (by simp) fun i h1 h2 => ?_
    have hi : i < requests.length := by simpa using h2
    simp [g, List.getElem?_eq_getElem hi]
  refine ⟨b', ?_⟩
  rw [Backend.expectationBatch, if_neg (not_not.mpr hno)]
  simp only [ofRequests_eq hP] at hb' ⊢
  rw [if_neg (by simp +contextual), hb', hg]

end Reference

end Qsycl
