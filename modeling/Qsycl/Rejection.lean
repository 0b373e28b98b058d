/-
# Which batches are rejected

A malformed batch has an observable on other qubits than the ansatz, rows of
the wrong length, or a row whose shifted gate does not exist or has no angle.
The default `expectation_batch` on the CPU backend rejects each of these
(`CPUBackend.expectationBatch_throws_iff`). The batched evaluator compares the
sizes only, and a shift that names no gate with an angle shifts nothing
(`expectationBatch_throws_iff`). The shot path has no check but that of
`Circuit::bind`, which it reaches once for each group of terms
(`shotBasedExpectationBatch_throws_iff`).

Key theorems: `expectationBatch_throws_agree`, `shotBasedExpectationBatch_throws_agree`.
-/
import Qsycl.Provenance

namespace Qsycl

/-! ### Code that throws -/

/-- The call throws. -/
def Throws {α : Type} (x : Except Exn α) : Prop := ∃ e, x = .error e

section Throws

variable {α β : Type}

@[simp] theorem throws_error (e : Exn) : Throws (.error e : Except Exn α) := ⟨e, rfl⟩

@[simp] theorem not_throws_ok (a : α) : ¬ Throws (.ok a : Except Exn α) := nofun

@[simp] theorem not_throws_pure (a : α) : ¬ Throws (pure a : Except Exn α) := nofun

@[simp] theorem throws_throw_bind (e : Exn) (f : α → Except Exn β) :
    Throws ((throw e : Except Exn α) >>= f) := ⟨e, rfl⟩

theorem not_throws_iff {x : Except Exn α} : ¬ Throws x ↔ ∃ a, x = .ok a := by
  cases x with
  | error e => simp
  | ok a => simp

/-- Code in sequence throws if its first part does, or its second part after it. -/
theorem throws_bind {x : Except Exn α} {f : α → Except Exn β} :
    Throws (x >>= f) ↔ Throws x ∨ ∃ a, x = .ok a ∧ Throws (f a) := by
  cases x with
  | error e => simp
  | ok a => simp

/-- A loop over rows throws at a row that throws in every state. -/
theorem mapRows_throws {σ : Type} {f : ℕ → σ → Except Exn (ℝ × σ)} : ∀ {rows : List ℕ} {i : ℕ},
    i ∈ rows → (∀ s, Throws (f i s)) → ∀ s, Throws (mapRows f rows s)
  | [], i, hi, _, s => absurd hi List.not_mem_nil
  | j :: rows, i, hi, h, s => by
    rw [mapRows, throws_bind]
    rcases List.mem_cons.mp hi with rfl | hi
    · exact Or.inl (h s)
    · cases hj : f j s with
      | error e => exact Or.inl (throws_error e)
      | ok r => exact Or.inr ⟨r, rfl, throws_bind.mpr (Or.inl (mapRows_throws hi h r.2))⟩

/-- A loop over rows that succeed succeeds. -/
theorem mapRows_ok {σ : Type} {f : ℕ → σ → Except Exn (ℝ × σ)} {I : σ → Prop} : ∀ {rows : List ℕ} {s : σ},
    (∀ i ∈ rows, ∀ s, I s → ∃ result, f i s = .ok result ∧ I result.2) → I s →
    ∃ result, mapRows f rows s = .ok result
  | [], s, _, _ => ⟨_, rfl⟩
  | i :: rows, s, h, hs => by
    obtain ⟨⟨e, s₁⟩, h₁, hs₁⟩ := h i List.mem_cons_self s hs
    obtain ⟨⟨out, s₂⟩, h₂⟩ := mapRows_ok (fun i hi => h i (List.mem_cons_of_mem _ hi)) hs₁
    exact ⟨_, bind_eq_ok.mpr ⟨_, h₁, bind_eq_ok.mpr ⟨_, h₂, rfl⟩⟩⟩

end Throws

/-! ### What binding rejects -/

/-- The shift of a request is none, or on a gate with an angle. -/
def Circuit.ShiftsAngle {R : Type} (c : Circuit R) (shiftOp : ℤ) : Prop :=
  0 ≤ shiftOp → ∃ op, c.ops[shiftOp.toNat]? = some op ∧ op.params ≠ []

/-- A request that fits the ansatz. -/
structure Request.WellFormed {R : Type} (ansatz : Circuit R) (r : Request R) : Prop where
  length : r.theta.length = ansatz.numParams
  shift : ansatz.ShiftsAngle r.op

theorem Circuit.shiftsAngle_iff {R : Type} {c : Circuit R} {calls : List (GateCall R)}
    (hc : c.ops = calls.map GateCall.op) (shiftOp : ℤ) :
    c.ShiftsAngle shiftOp ↔
      (0 ≤ shiftOp → ∃ g, calls[shiftOp.toNat]? = some g ∧ g.args ≠ []) := by
  unfold Circuit.ShiftsAngle
  rw [hc, List.getElem?_map]
  cases calls[shiftOp.toNat]? with
  | none => simp
  | some g => simp [GateCall.op]

/-- **`bind` accepts the well-formed requests.** -/
theorem accepts_iff {ansatz : Circuit ℝ} {calls : List (GateCall ℝ)}
    (hc : ansatz.ops = calls.map GateCall.op) (r : Request ℝ) :
    Accepts ansatz r ↔ r.WellFormed ansatz := by
  constructor
  · rintro ⟨bound, hb⟩
    obtain ⟨hl, hs, -⟩ := (Circuit.bind_eq_ok ansatz calls hc _ _ _ _).mp hb
    exact ⟨hl, (Circuit.shiftsAngle_iff hc _).mpr hs⟩
  · rintro ⟨hl, hs⟩
    exact ⟨_, (Circuit.bind_eq_ok ansatz calls hc _ _ _ _).mpr
      ⟨hl, (Circuit.shiftsAngle_iff hc _).mp hs, rfl⟩⟩

theorem throws_bind_of_not_accepts {ansatz : Circuit ℝ} {r : Request ℝ} (h : ¬ Accepts ansatz r) :
    Throws (ansatz.bind r.theta r.op r.delta) := by
  by_contra hc
  exact h (not_throws_iff.mp hc)

/-! ### The reference -/

section Reference

variable {ansatz : Circuit ℝ} {calls : List (GateCall ℝ)} {obs : Observable ℝ}
  {requests : List (Request ℝ)} {P : ℕ}

/-- A malformed row throws on every backend. -/
theorem Backend.evaluate_throws {σ : Type} (B : Backend σ) {batch : EvalBatch ℝ} {i : ℕ}
    {r : Request ℝ} (hθ : batch.thetaOf i = r.theta) (hop : batch.opOf i = .ok r.op)
    (hδ : batch.deltaOf i = .ok r.delta) (hr : ¬ Accepts ansatz r) (s : σ) :
    Throws (B.evaluate ansatz obs batch i s) := by
  obtain ⟨e, he⟩ := throws_bind_of_not_accepts hr
  refine ⟨e, ?_⟩
  simp only [Backend.evaluate, hθ, hop, hδ, ok_bind, he, error_bind]

/-- **What the reference rejects**: an observable on other qubits, and a row
that is not well formed. -/
theorem CPUBackend.expectationBatch_throws_iff (hc : ansatz.Legal calls) (hn : ansatz.numQubits ≤ 30)
    (ho : obs.Legal) (hP : ∀ r ∈ requests, r.theta.length = P) (b : CPUBackend ℂ) :
    Throws (methods.expectationBatch ansatz obs (.ofRequests requests) b) ↔
      obs.numQubits ≠ ansatz.numQubits ∨ ∃ r ∈ requests, ¬ r.WellFormed ansatz := by
  simp only [← accepts_iff hc.ops]
  by_cases hno : obs.numQubits = ansatz.numQubits
  · by_cases hr : ∀ r ∈ requests, Accepts ansatz r
    · obtain ⟨b', hb'⟩ := CPUBackend.expectationBatch_eq hc hn ho hno hr b
      rw [hb']
      simpa [hno] using hr
    · push Not at hr
      obtain ⟨r, hmem, hbad⟩ := hr
      refine ⟨fun _ => Or.inr ⟨r, hmem, hbad⟩, fun _ => ?_⟩
      rw [Backend.expectationBatch, if_neg (not_not.mpr hno)]
      split
      · exact throws_error _
      · obtain ⟨i, hi, rfl⟩ := List.mem_iff_getElem.mp hmem
        obtain ⟨hθ, hop, hδ⟩ := ofRequests_request hP (List.getElem?_eq_getElem hi)
        refine mapRows_throws (i := i) ?_ (fun s => methods.evaluate_throws hθ hop hδ hbad s) b
        rw [ofRequests_eq hP]
        exact List.mem_range.mpr hi
  · rw [Backend.expectationBatch, if_pos hno]
    exact ⟨fun _ => Or.inl hno, fun _ => throws_error _⟩

end Reference

/-! ### The batched evaluator -/

namespace Native

section Batched

variable {ansatz : Circuit ℝ} {calls : List (GateCall ℝ)} {obs : Observable ℝ}
  {requests : List (Request ℝ)} {P : ℕ}

/-- **What the batched evaluator rejects**: sizes that differ, and a batch for
which the device has no memory. -/
theorem expectationBatch_throws_iff (hc : ansatz.ops = calls.map GateCall.op)
    (hP : ∀ r ∈ requests, r.theta.length = P) (q : Device) :
    Throws (expectationBatch q ansatz obs (.ofRequests requests)) ↔
      obs.numQubits ≠ ansatz.numQubits ∨
        requests ≠ [] ∧ (P ≠ ansatz.numParams ∨ q.allocated = false) := by
  have hbatch := ofRequests_eq hP
  by_cases hno : obs.numQubits = ansatz.numQubits
  · by_cases hne : requests = []
    · subst hne
      simp [expectationBatch, hbatch, hno]
    · have hcount : (EvalBatch.ofRequests requests).count = requests.length := by rw [hbatch]
      have hparams : (EvalBatch.ofRequests requests).numParams = P := by simp [hbatch, hne]
      by_cases hlen : P = ansatz.numParams
      · cases hq : q.allocated
        · simp [expectationBatch, hno, hcount, hparams, hlen, hne, compile_eq hc, hq]
        · have hops := mapM_column (-1) fun i r hi => (ofRequests_request hP hi).2.1
          have hdeltas := mapM_column 0 fun i r hi => (ofRequests_request hP hi).2.2
          simp [expectationBatch, hno, hcount, hparams, hlen, hne, compile_eq hc, hq, hops, hdeltas]
      · simp [expectationBatch, hno, hcount, hparams, hlen, hne]
  · simp [expectationBatch, hno]

/-- The sizes that both paths compare differ. -/
def SizesDiffer (ansatz : Circuit ℝ) (obs : Observable ℝ) (requests : List (Request ℝ)) (P : ℕ) : Prop :=
  obs.numQubits ≠ ansatz.numQubits ∨ requests ≠ [] ∧ P ≠ ansatz.numParams

/-- Rows of one length are well formed if it is that of the ansatz and every
shift is on a gate with an angle. -/
theorem exists_malformed_iff (hP : ∀ r ∈ requests, r.theta.length = P) :
    (∃ r ∈ requests, ¬ r.WellFormed ansatz) ↔
      (requests ≠ [] ∧ P ≠ ansatz.numParams) ∨ ∃ r ∈ requests, ¬ ansatz.ShiftsAngle r.op := by
  constructor
  · rintro ⟨r, hr, hbad⟩
    by_cases hlen : P = ansatz.numParams
    · refine Or.inr ⟨r, hr, fun hs => hbad ⟨?_, hs⟩⟩
      rw [hP r hr, hlen]
    · exact Or.inl ⟨List.ne_nil_of_mem hr, hlen⟩
  · rintro (⟨hne, hlen⟩ | ⟨r, hr, hbad⟩)
    · obtain ⟨r, hr⟩ := List.exists_mem_of_ne_nil _ hne
      refine ⟨r, hr, fun h => hlen ?_⟩
      rw [← hP r hr, h.length]
    · exact ⟨r, hr, fun h => hbad h.shift⟩

/-- **When both paths reject the same batches.** Either the sizes differ, or
the shifts are all on gates with an angle and the device has the memory, or
neither. -/
theorem expectationBatch_throws_agree (hb : Circuit.Built ansatz) (hn : ansatz.numQubits ≤ 30) {m : ℕ}
    {terms : List (Term ℝ)} (hobs : Observable.ofTerms m terms = .ok obs)
    (hP : ∀ r ∈ requests, r.theta.length = P) (q : Device) (b : CPUBackend ℂ) :
    (Throws (expectationBatch q ansatz obs (.ofRequests requests)) ↔
        Throws (CPUBackend.methods.expectationBatch ansatz obs (.ofRequests requests) b)) ↔
      SizesDiffer ansatz obs requests P ∨
        ((∀ r ∈ requests, ansatz.ShiftsAngle r.op) ↔ (requests = [] ∨ q.allocated = true)) := by
  obtain ⟨calls, hc⟩ := Circuit.legal_of_built hb
  rw [expectationBatch_throws_iff hc.ops hP,
    CPUBackend.expectationBatch_throws_iff hc hn (legal_of_ofTerms hobs) hP, exists_malformed_iff hP,
    ← Bool.not_eq_true]
  have hall : (∀ r ∈ requests, ansatz.ShiftsAngle r.op) ↔
      ¬ ∃ r ∈ requests, ¬ ansatz.ShiftsAngle r.op := by
    push Not
    rfl
  by_cases hsize : SizesDiffer ansatz obs requests P
  · unfold SizesDiffer at hsize
    have hnative : obs.numQubits ≠ ansatz.numQubits ∨
        requests ≠ [] ∧ (P ≠ ansatz.numParams ∨ ¬ q.allocated = true) :=
      hsize.imp_right (And.imp_right Or.inl)
    exact ⟨fun _ => Or.inl hsize, fun _ =>
      ⟨fun _ => hsize.elim Or.inl fun h => Or.inr (Or.inl h), fun _ => hnative⟩⟩
  · rw [hall]
    simp only [hsize, false_or]
    unfold SizesDiffer at hsize
    by_cases hne : requests = []
    · simp [hne] at hsize ⊢
    · by_cases hq : q.allocated = true <;> simp_all

/-- RY(θ₀) on one qubit, measured in Z: both paths take a shift of its angle, and
both refuse a row without the parameter. -/
theorem expectationBatch_throws_agree_one :
    let ansatz : Circuit ℝ := ⟨1, 1, [GateCall.op (.ry 0 ⟨0, 1, 0⟩)], []⟩
    let obs : Observable ℝ := ⟨1, [⟨1, 0, 1, 0⟩]⟩
    let q : Device := ⟨true, fun _ => .inOrder, fun _ => 0, fun _ => 0⟩
    ∀ r ∈ [(⟨[1 / 2], 0, 1⟩ : Request ℝ), ⟨[], 5, 1⟩],
      (Throws (expectationBatch q ansatz obs (.ofRequests [r])) ↔
        Throws (CPUBackend.methods.expectationBatch ansatz obs (.ofRequests [r])
          (.new fun _ => .inOrder))) := by
  intro ansatz obs q r hr
  have hb : Circuit.Built ansatz := by
    have h0 : Circuit.Built (⟨1, 1, [], []⟩ : Circuit ℝ) := .newParam (.new (n := 1) rfl)
    exact .gate (g := .ry 0 ⟨0, 1, 0⟩) h0 rfl
  have hobs : Observable.ofTerms 1 [.sparse 1 [('Z', 0)]] = .ok obs := rfl
  refine (expectationBatch_throws_agree hb (by decide) hobs (P := r.theta.length) (by simp) q _).mpr ?_
  rcases List.mem_pair.mp hr with rfl | rfl
  · refine Or.inr ⟨fun _ => Or.inr rfl, fun _ r hr => ?_⟩
    obtain rfl := List.mem_singleton.mp hr
    exact fun _ => ⟨_, rfl, List.cons_ne_nil _ _⟩
  · exact Or.inl (Or.inr ⟨by simp, by simp [ansatz]⟩)

/-- H on one qubit, measured in Z: a shift of gate 0, which has no angle, and
one of gate 5, which does not exist, have energies on the device. -/
theorem expectationBatch_throws_disagree :
    let ansatz : Circuit ℝ := ⟨1, 0, [GateCall.op (.h 0)], []⟩
    let obs : Observable ℝ := ⟨1, [⟨1, 0, 1, 0⟩]⟩
    let q : Device := ⟨true, fun _ => .inOrder, fun _ => 0, fun _ => 0⟩
    Circuit.Built ansatz ∧ Observable.ofTerms 1 [.sparse 1 [('Z', 0)]] = .ok obs ∧
      ∀ op ∈ [0, 5], ¬ Throws (expectationBatch q ansatz obs (.ofRequests [⟨[], op, 1⟩])) ∧
        Throws (CPUBackend.methods.expectationBatch ansatz obs (.ofRequests [⟨[], op, 1⟩])
          (.new fun _ => .inOrder)) := by
  intro ansatz obs q
  have h0 : Circuit.Built (⟨1, 0, [], []⟩ : Circuit ℝ) := .new (n := 1) rfl
  have hb : Circuit.Built ansatz := .gate (g := .h 0) h0 rfl
  have hobs : Observable.ofTerms 1 [.sparse 1 [('Z', 0)]] = .ok obs := rfl
  refine ⟨hb, hobs, fun op hop => ?_⟩
  have hP : ∀ r ∈ [(⟨[], op, 1⟩ : Request ℝ)], r.theta.length = 0 := by simp
  constructor
  · have hops : ansatz.ops = [GateCall.h 0].map GateCall.op := rfl
    rw [expectationBatch_throws_iff hops hP]
    simp [ansatz, obs, q]
  · obtain ⟨calls, hc⟩ := Circuit.legal_of_built hb
    rw [CPUBackend.expectationBatch_throws_iff hc (by decide) (legal_of_ofTerms hobs) hP]
    refine Or.inr ⟨_, List.mem_singleton_self _, fun h => ?_⟩
    have hs := h.shift
    fin_cases hop <;> simp [Circuit.ShiftsAngle, ansatz, GateCall.op, GateCall.args] at hs

end Batched

/-! ### The shot path -/

variable {σ ρ : Type}

/-- A backend that never fails: in the states `Up` it takes a register of up to 30
qubits, and in the states `Ready n`, with a register of `n` qubits, the operations
of bound gate calls and a readout. -/
structure Sampler.Reliable (B : Sampler σ ρ) (Up : σ → Prop) (Ready : ℕ → σ → Prop) : Prop where
  initializeState : ∀ n s, Up s → 1 ≤ n → n ≤ 30 → ∃ s', B.initializeState n s = .ok s' ∧ Ready n s'
  applyGate : ∀ n s (g : GateCall ℝ), Ready n s → g.Fits n 0 →
    ∃ s', B.applyGate g.op s = .ok s' ∧ Ready n s'
  sample : ∀ n s shots, Ready n s → ∃ r s', B.sample [] shots s = .ok (r, s') ∧ Up s'

section Shots

variable {B : Sampler σ ρ} {Up : σ → Prop} {Ready : ℕ → σ → Prop} {R : Readout ρ} {ansatz : Circuit ℝ}
  {calls : List (GateCall ℝ)} {obs : Observable ℝ} {requests : List (Request ℝ)} {P shots : ℕ} {r : Request ℝ}

/-- A malformed request throws in the first group. -/
theorem evaluateGroup_throws (hr : ¬ Accepts ansatz r) (group : List ℕ) (total : ℝ) (s : σ) :
    Throws (evaluateGroup B R ansatz r.theta r.op r.delta obs shots total s group) := by
  unfold evaluateGroup
  rw [throws_bind]
  cases hmasks : group.mapM (vecAt obs.masks) with
  | error e => exact Or.inl (throws_error e)
  | ok masks => exact Or.inr ⟨masks, rfl, throws_bind.mpr (Or.inl (throws_bind_of_not_accepts hr))⟩

/-- A well-formed request runs in every group, whatever the qubits of the
observable: the rotations are on the qubits of the ansatz. -/
theorem evaluateGroup_ok (hB : B.Reliable Up Ready) (hc : ansatz.Legal calls) (hn : ansatz.numQubits ≤ 30)
    (hr : Accepts ansatz r) {group : List ℕ} (hg : group ∈ groupQwc obs) (total : ℝ) {s : σ} (hs : Up s) :
    ∃ result, evaluateGroup B R ansatz r.theta r.op r.delta obs shots total s group = .ok result ∧
      Up result.2 := by
  obtain ⟨bound, hb⟩ := hr
  have hl := hc.bind hb
  obtain ⟨-, -, hbound⟩ := (Circuit.bind_eq_ok ansatz calls hc.ops _ _ _ _).mp hb
  have hnum : bound.numQubits = ansatz.numQubits := by rw [hbound]
  have hparams : bound.numParams = 0 := by rw [hbound]
  generalize hX : (group.map (maskOf obs)).foldl (fun needs m => needs ||| Nat.ldiff m.x m.z) 0 = needsX
  generalize hY : (group.map (maskOf obs)).foldl (fun needs m => needs ||| (m.x &&& m.z)) 0 = needsY
  have hrot := @foldlM_rotateQubit needsX needsY (List.range ansatz.numQubits) bound
    fun q hq => by rw [hnum]; exact List.mem_range.mp hq
  obtain ⟨s₁, hinit, hready⟩ := hB.initializeState ansatz.numQubits s hs hc.pos hn
  -- the bound calls and the rotations fit the register
  have hfits : ∀ g ∈ bindCalls calls r.theta r.op r.delta ++
      (List.range ansatz.numQubits).flatMap (rotationCalls needsX needsY), g.Fits ansatz.numQubits 0 := by
    intro g hg
    rcases List.mem_append.mp hg with hg | hg
    · rw [← hnum, ← hparams]
      exact hl.fits g hg
    · exact fits_rotationCalls g hg
  obtain ⟨s₂, hgates, hready₂⟩ := foldlM_ok (f := fun s op => B.applyGate op s)
    (I := Ready ansatz.numQubits)
    (l := (bindCalls calls r.theta r.op r.delta ++
      (List.range ansatz.numQubits).flatMap (rotationCalls needsX needsY)).map GateCall.op)
    (fun op hop s hs => by
      obtain ⟨g, hg, rfl⟩ := List.mem_map.mp hop
      exact hB.applyGate _ s g hs (hfits g hg)) hready
  obtain ⟨outcomes, s₃, hsample, hup⟩ := hB.sample _ s₂ shots hready₂
  rw [List.map_append, ← hl.ops] at hgates
  rw [evaluateGroup, mapM_maskOf hg, ok_bind]
  simp only [hb, ok_bind, hX, hY, hrot, hinit, hgates, hsample]
  split
  · exact ⟨_, rfl, hup⟩
  · exact ⟨_, rfl, hup⟩

theorem groupQwc_ne_nil (h : obs.masks ≠ []) : groupQwc obs ≠ [] := by
  intro hg
  have hperm := groupQwc_perm obs
  rw [hg, List.flatten_nil, List.nil_perm, List.range_eq_nil, List.length_eq_zero_iff] at hperm
  exact h hperm

theorem shotBasedExpectation_ok (hB : B.Reliable Up Ready) (hc : ansatz.Legal calls)
    (hn : ansatz.numQubits ≤ 30) (hr : Accepts ansatz r) {s : σ} (hs : Up s) :
    ∃ result, shotBasedExpectation B R ansatz r.theta r.op r.delta obs shots s = .ok result ∧ Up result.2 :=
  foldlM_ok (I := fun p : ℝ × σ => Up p.2) (fun _ hg p hp => evaluateGroup_ok hB hc hn hr hg p.1 hp) hs

/-- An observable without terms has no group, and so no call to `bind`. -/
theorem shotBasedExpectation_nil (hm : obs.masks = []) (r : Request ℝ) (s : σ) :
    shotBasedExpectation B R ansatz r.theta r.op r.delta obs shots s = .ok (0, s) := by
  have hg : groupQwc obs = [] := by
    rw [groupQwc, hm]
    rfl
  rw [shotBasedExpectation, hg]
  rfl

theorem shotBasedExpectation_throws (hm : obs.masks ≠ []) (hr : ¬ Accepts ansatz r) (s : σ) :
    Throws (shotBasedExpectation B R ansatz r.theta r.op r.delta obs shots s) := by
  obtain ⟨group, groups, hg⟩ := List.exists_cons_of_ne_nil (groupQwc_ne_nil hm)
  rw [shotBasedExpectation, hg, List.foldlM_cons]
  exact throws_bind.mpr (Or.inl (evaluateGroup_throws hr group 0 s))

/-- **What the shot path rejects**: a row that is not well formed, if there is
a term to measure. -/
theorem shotBasedExpectationBatch_throws_iff (hB : B.Reliable Up Ready) (hc : ansatz.Legal calls)
    (hn : ansatz.numQubits ≤ 30) (hP : ∀ r ∈ requests, r.theta.length = P) {s : σ} (hs : Up s) :
    Throws (shotBasedExpectationBatch B R ansatz obs shots (.ofRequests requests) s) ↔
      obs.masks ≠ [] ∧ ∃ r ∈ requests, ¬ r.WellFormed ansatz := by
  have hcount : (EvalBatch.ofRequests requests).count = requests.length := by rw [ofRequests_eq hP]
  -- row `i` is the call for request `i`
  have hrow : ∀ i (hi : i < requests.length) s, (do
      let op ← (EvalBatch.ofRequests requests).opOf i
      let sh ← (EvalBatch.ofRequests requests).deltaOf i
      shotBasedExpectation B R ansatz ((EvalBatch.ofRequests requests).thetaOf i) op sh obs shots s) =
      shotBasedExpectation B R ansatz requests[i].theta requests[i].op requests[i].delta obs shots s := by
    intro i hi s
    obtain ⟨hθ, hop, hδ⟩ := ofRequests_request hP (List.getElem?_eq_getElem hi)
    rw [hθ, hop, hδ, ok_bind, ok_bind]
  simp only [← accepts_iff hc.ops]
  rw [shotBasedExpectationBatch, hcount]
  by_cases hbad : obs.masks ≠ [] ∧ ∃ r ∈ requests, ¬ Accepts ansatz r
  · obtain ⟨hm, r, hr, hacc⟩ := hbad
    refine ⟨fun _ => ⟨hm, r, hr, hacc⟩, fun _ => ?_⟩
    obtain ⟨i, hi, rfl⟩ := List.mem_iff_getElem.mp hr
    refine mapRows_throws (List.mem_range.mpr hi) (fun s => ?_) s
    rw [hrow i hi]
    exact shotBasedExpectation_throws hm hacc s
  · refine ⟨fun h => absurd h (not_throws_iff.mpr ?_), fun h => absurd h hbad⟩
    refine mapRows_ok (I := Up) (fun i hi s hs => ?_) hs
    have hi : i < requests.length := List.mem_range.mp hi
    rw [hrow i hi]
    by_cases hm : obs.masks = []
    · exact ⟨_, shotBasedExpectation_nil hm _ s, hs⟩
    · refine shotBasedExpectation_ok hB hc hn ?_ hs
      by_contra hacc
      exact hbad ⟨hm, _, List.getElem_mem hi, hacc⟩

/-- **When the shot path rejects what the reference rejects.** If some row is not
well formed, the observable must have a term; if all are, it must be on the
qubits of the ansatz. -/
theorem shotBasedExpectationBatch_throws_agree {B : Sampler σ (List ℕ)} (hB : B.Reliable Up Ready)
    (hb : Circuit.Built ansatz) (hn : ansatz.numQubits ≤ 30) {m : ℕ} {terms : List (Term ℝ)}
    (hobs : Observable.ofTerms m terms = .ok obs) (hP : ∀ r ∈ requests, r.theta.length = P) {s : σ}
    (hs : Up s) (b : CPUBackend ℂ) :
    (Throws (shotBasedExpectationBatch B shotReadout ansatz obs shots (.ofRequests requests) s) ↔
        Throws (CPUBackend.methods.expectationBatch ansatz obs (.ofRequests requests) b)) ↔
      ((∃ r ∈ requests, ¬ r.WellFormed ansatz) → obs.masks ≠ []) ∧
        ((∀ r ∈ requests, r.WellFormed ansatz) → obs.numQubits = ansatz.numQubits) := by
  obtain ⟨calls, hc⟩ := Circuit.legal_of_built hb
  rw [shotBasedExpectationBatch_throws_iff hB hc hn hP hs,
    CPUBackend.expectationBatch_throws_iff hc hn (legal_of_ofTerms hobs) hP]
  by_cases hbad : ∃ r ∈ requests, ¬ r.WellFormed ansatz
  · have hall : ¬ ∀ r ∈ requests, r.WellFormed ansatz := by
      push Not
      exact hbad
    simp [hbad, hall]
  · have hall : ∀ r ∈ requests, r.WellFormed ansatz := by
      push Not at hbad
      exact hbad
    simp only [hbad, and_false, or_false, false_imp_iff, true_and, false_iff]
    exact ⟨fun h _ => not_not.mp h, fun h => not_not.mpr (h hall)⟩

end Shots

end Native

/-! ### A remote backend that never fails -/

namespace QPUBackend

open Runs Native

variable {δ φ ρ : Type}

/-- The device is in use, and the buffer holds bound calls on the register. -/
def Buffered (n : ℕ) (s : QPUBackend δ φ) : Prop :=
  s.deviceAvailable = true ∧ s.numQubits = n ∧
    ∃ calls : List (GateCall ℝ), (∀ g ∈ calls, g.Fits n 0) ∧ s.gateBuffer = calls.map GateCall.op

/-- The dispatcher never fails while its device accepts every bound circuit. -/
theorem reliable {D : Device δ ρ} {F : Simulator φ ρ}
    (hD : ∀ (n : ℕ) (calls : List (GateCall ℝ)) (measured : List ℕ) (shots : ℕ) (d : δ),
      (∀ g ∈ calls, g.Fits n 0) →
        ∃ r d', exec (D.submitCircuit n (calls.map GateCall.op) measured shots) d = (.ok r, d')) :
    (simulator D F).sampler.Reliable (fun s => s.deviceAvailable = true) Buffered where
  initializeState n s hs _ _ := by
    have hx : exec (initializeState F n) s = (.ok (), { s with numQubits := n, gateBuffer := [] }) := by
      unfold initializeState
      rw [exec_modify_bind]
      rw [exec_get_bind]
      rw [if_pos hs]
      rfl
    exact ⟨_, bind_eq_ok.mpr ⟨_, returned_eq_ok.mpr hx, rfl⟩, hs, rfl, [], by simp, rfl⟩
  applyGate n s g hs hg := by
    obtain ⟨ha, hn, calls, hfits, hbuffer⟩ := hs
    have hx : exec (applyGate F g.op) s = (.ok (), { s with gateBuffer := s.gateBuffer ++ [g.op] }) := by
      unfold applyGate
      rw [exec_get_bind]
      rw [if_pos ha]
      rfl
    refine ⟨_, bind_eq_ok.mpr ⟨_, returned_eq_ok.mpr hx, rfl⟩, ha, hn, calls ++ [g], fun g' hg' => ?_, ?_⟩
    · rcases List.mem_append.mp hg' with hg' | hg'
      · exact hfits g' hg'
      · rw [List.mem_singleton.mp hg']
        exact hg
    · rw [hbuffer, List.map_append, List.map_singleton]
  sample n s shots hs := by
    obtain ⟨ha, hn, calls, hfits, hbuffer⟩ := hs
    obtain ⟨r, d', hr⟩ := hD n calls (List.range n) shots s.device hfits
    have hsub : exec (submission D s [] shots) s.device = (.ok r, d') := by
      rw [submission, hbuffer, hn]
      exact hr
    exact ⟨r, _, returned_eq_ok.mpr (exec_sample_ok ha hsub), ha⟩

end QPUBackend

section Example

open Runs Native

/-- A device that measures 0 in every shot. -/
def groundDevice : Device Unit (List ℕ) :=
  ⟨fun _ _ _ shots => pure (List.replicate shots 0), pure ()⟩

/-- The dispatcher on that device; its fallback is not used. -/
def groundBackend : Simulator (QPUBackend Unit Unit) (List ℕ) :=
  QPUBackend.simulator groundDevice ⟨fun _ => pure (), fun _ => pure (), fun _ _ => pure []⟩

theorem groundBackend_reliable :
    groundBackend.sampler.Reliable (fun s => s.deviceAvailable = true) QPUBackend.Buffered :=
  QPUBackend.reliable fun _ _ _ _ _ _ => ⟨_, _, rfl⟩

/-- RY(θ₀) on one qubit, measured in Z: both paths take a shift of its angle, and
both refuse one of a gate that does not exist. -/
theorem shotBasedExpectationBatch_throws_agree_one :
    let ansatz : Circuit ℝ := ⟨1, 1, [GateCall.op (.ry 0 ⟨0, 1, 0⟩)], []⟩
    let obs : Observable ℝ := ⟨1, [⟨1, 0, 1, 0⟩]⟩
    ∀ r ∈ [(⟨[1 / 2], 0, 1⟩ : Request ℝ), ⟨[1 / 2], 5, 1⟩],
      (Throws (shotBasedExpectationBatch groundBackend.sampler shotReadout ansatz obs 1024 (.ofRequests [r])
          ⟨true, 0, [], (), ()⟩) ↔
        Throws (CPUBackend.methods.expectationBatch ansatz obs (.ofRequests [r])
          (.new fun _ => .inOrder))) := by
  intro ansatz obs r hr
  have hb : Circuit.Built ansatz := by
    have h0 : Circuit.Built (⟨1, 1, [], []⟩ : Circuit ℝ) := .newParam (.new (n := 1) rfl)
    exact .gate (g := .ry 0 ⟨0, 1, 0⟩) h0 rfl
  have hobs : Observable.ofTerms 1 [.sparse 1 [('Z', 0)]] = .ok obs := rfl
  exact (shotBasedExpectationBatch_throws_agree groundBackend_reliable hb (by decide) hobs
    (P := r.theta.length) (by simp) rfl _).mpr ⟨fun _ => List.cons_ne_nil _ _, fun _ => rfl⟩

/-- H on one qubit. The shot path returns for an observable without terms and a
shift of a gate that does not exist, and for an observable on two qubits; the
reference throws for both. -/
theorem shotBasedExpectationBatch_throws_disagree :
    let ansatz : Circuit ℝ := ⟨1, 0, [GateCall.op (.h 0)], []⟩
    Circuit.Built ansatz ∧
      ∀ p ∈ [((⟨1, []⟩, ⟨[], 5, 1⟩) : Observable ℝ × Request ℝ), (⟨2, [⟨1, 0, 2, 0⟩]⟩, ⟨[], -1, 0⟩)],
        (∃ n terms, Observable.ofTerms n terms = .ok p.1) ∧
        ¬ Throws (shotBasedExpectationBatch groundBackend.sampler shotReadout ansatz p.1 1024
          (.ofRequests [p.2]) ⟨true, 0, [], (), ()⟩) ∧
        Throws (CPUBackend.methods.expectationBatch ansatz p.1 (.ofRequests [p.2])
          (.new fun _ => .inOrder)) := by
  intro ansatz
  have h0 : Circuit.Built (⟨1, 0, [], []⟩ : Circuit ℝ) := .new (n := 1) rfl
  have hb : Circuit.Built ansatz := .gate (g := .h 0) h0 rfl
  obtain ⟨calls, hc⟩ := Circuit.legal_of_built hb
  refine ⟨hb, fun p hp => ?_⟩
  have hobs : ∃ n terms, Observable.ofTerms n terms = .ok p.1 := by
    rcases List.mem_pair.mp hp with rfl | rfl
    · exact ⟨1, [], rfl⟩
    · exact ⟨2, [.sparse 1 [('Z', 1)]], rfl⟩
  have hP : ∀ r ∈ [p.2], r.theta.length = p.2.theta.length := by simp
  refine ⟨hobs, ?_⟩
  obtain ⟨n, terms, hterms⟩ := hobs
  rw [shotBasedExpectationBatch_throws_iff groundBackend_reliable hc (by decide) hP rfl,
    CPUBackend.expectationBatch_throws_iff hc (by decide) (legal_of_ofTerms hterms) hP]
  rcases List.mem_pair.mp hp with rfl | rfl
  · refine ⟨fun h => h.1 rfl, Or.inr ⟨_, List.mem_singleton_self _, fun h => ?_⟩⟩
    obtain ⟨op, hop, -⟩ := h.shift (by decide)
    simp [ansatz] at hop
  · refine ⟨fun h => ?_, Or.inl (by simp [ansatz])⟩
    obtain ⟨r, hr, hbad⟩ := h.2
    rw [List.mem_singleton.mp hr] at hbad
    exact hbad ⟨rfl, fun hop => absurd hop (by decide)⟩

end Example

end Qsycl
