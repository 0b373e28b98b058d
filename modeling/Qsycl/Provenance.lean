/-
# Where the outcomes of a batch come from

The `expectation_batch` of `QPUBackend` and of `CUNQABackend` evaluates a batch
with `shot_based_expectation_batch` on the backend itself. Their comments
promise that a device lost on the way makes the call throw. But every group of
every row is a call to the backend's own `sample`, which replays the circuit on
the fallback when the device is gone, and the rows after it are answered by
the fallback altogether.

The calls to `sample` are recorded, each with the state before it and the
readout (`Sampler.recorded`). `outcomes_fromDevice_iff` says that all of them
were answered by the device exactly if it was lost in none.
-/
import Qsycl.CunqaBackend
import Qsycl.ShotExpectation

namespace Qsycl

open Runs

/-! ### Recorded runs -/

namespace Native

variable {σ ρ : Type}

/-- The same backend, with a record of the calls to `sample`. -/
def Sampler.recorded (B : Sampler σ ρ) : Sampler (σ × List (σ × ρ)) ρ where
  initializeState n p := do return (← B.initializeState n p.1, p.2)
  applyGate op p := do return (← B.applyGate op p.1, p.2)
  sample qubits shots p := do
    let r ← B.sample qubits shots p.1
    return (r.1, r.2, p.2 ++ [(p.1, r.1)])

/-- What the calls of the shot path keep, `k` being how often `sample` was called. -/
structure Keeps (B : Sampler σ ρ) (shots : ℕ) (I : ℕ → σ → List (σ × ρ) → Prop) : Prop where
  initializeState : ∀ {k n s s' calls}, I k s calls → B.initializeState n s = .ok s' → I k s' calls
  applyGate : ∀ {k op s s' calls}, I k s calls → B.applyGate op s = .ok s' → I k s' calls
  sample : ∀ {k s s' r calls}, I k s calls → B.sample [] shots s = .ok (r, s') →
    I (k + 1) s' (calls ++ [(s, r)])

/-- A loop that follows another one, in which every round counts `n`. -/
theorem foldlM_follows {α β γ : Type} {f : β → α → Except Exn β} {g : γ → α → Except Exn γ}
    {S : ℕ → β → γ → Prop} {n : ℕ}
    (h : ∀ k b c a b', S k b c → f b a = .ok b' → ∃ c', g c a = .ok c' ∧ S (k + n) b' c') :
    ∀ {l : List α} {k : ℕ} {b b' : β} {c : γ}, S k b c → l.foldlM f b = .ok b' →
      ∃ c', l.foldlM g c = .ok c' ∧ S (k + l.length * n) b' c'
  | [], k, b, b', c, hs, hf => by
    obtain rfl := Except.ok.inj hf
    refine ⟨c, rfl, ?_⟩
    rw [List.length_nil, Nat.zero_mul]
    exact hs
  | a :: l, k, b, b', c, hs, hf => by
    obtain ⟨b₁, h₁, h₂⟩ := bind_eq_ok.mp hf
    obtain ⟨c₁, hc₁, hs₁⟩ := h k b c a b₁ hs h₁
    obtain ⟨c', hc', hs'⟩ := foldlM_follows h hs₁ h₂
    refine ⟨c', bind_eq_ok.mpr ⟨c₁, hc₁, hc'⟩, ?_⟩
    rw [List.length_cons, show k + (l.length + 1) * n = k + n + l.length * n by ring]
    exact hs'

section

variable {B : Sampler σ ρ} {R : Readout ρ} {ansatz : Circuit ℝ} {obs : Observable ℝ} {shots : ℕ}
  {I : ℕ → σ → List (σ × ρ) → Prop} {k : ℕ} {s s' : σ} {calls : List (σ × ρ)}

theorem applyGates_recorded (h : Keeps B shots I) (ops : List (GateOp ℝ)) (hi : I k s calls)
    (hx : ops.foldlM (fun s op => B.applyGate op s) s = .ok s') :
    ops.foldlM (fun p op => B.recorded.applyGate op p) (s, calls) = .ok (s', calls) ∧ I k s' calls := by
  obtain ⟨c, hc, rfl, hi⟩ := foldlM_follows (S := fun _ s p => p = (s, calls) ∧ I k s calls) (n := 0)
    (g := fun p op => B.recorded.applyGate op p) (fun j s p op s' hs hstep => by
      obtain ⟨rfl, hi⟩ := hs
      exact ⟨(s', calls), bind_eq_ok.mpr ⟨s', hstep, rfl⟩, rfl, h.applyGate hi hstep⟩) (k := 0) ⟨rfl, hi⟩ hx
  exact ⟨hc, hi⟩

/-- A group is one call to `sample`. -/
theorem evaluateGroup_recorded (h : Keeps B shots I) {theta : List ℝ} {shiftOp : ℤ} {shift total total' : ℝ}
    {group : List ℕ} (hi : I k s calls)
    (hx : evaluateGroup B R ansatz theta shiftOp shift obs shots total s group = .ok (total', s')) :
    ∃ calls', evaluateGroup B.recorded R ansatz theta shiftOp shift obs shots total (s, calls) group =
      .ok (total', s', calls') ∧ I (k + 1) s' calls' := by
  unfold evaluateGroup at hx ⊢
  obtain ⟨masks, hmasks, hx⟩ := bind_eq_ok.mp hx
  obtain ⟨bound, hbound, hx⟩ := bind_eq_ok.mp hx
  obtain ⟨rotated, hrotated, hx⟩ := bind_eq_ok.mp hx
  obtain ⟨s₁, hinit, hx⟩ := bind_eq_ok.mp hx
  obtain ⟨s₂, hgates, hx⟩ := bind_eq_ok.mp hx
  obtain ⟨⟨outcomes, s₃⟩, hsample, hx⟩ := bind_eq_ok.mp hx
  obtain ⟨hgates', hi₂⟩ := applyGates_recorded h rotated.ops (h.initializeState hi hinit) hgates
  have hinit' : B.recorded.initializeState ansatz.numQubits (s, calls) = .ok (s₁, calls) :=
    bind_eq_ok.mpr ⟨s₁, hinit, rfl⟩
  have hsample' : B.recorded.sample [] shots (s₂, calls) = .ok (outcomes, s₃, calls ++ [(s₂, outcomes)]) :=
    bind_eq_ok.mpr ⟨(outcomes, s₃), hsample, rfl⟩
  refine ⟨calls ++ [(s₂, outcomes)], ?_, ?_⟩
  · rw [hmasks, ok_bind, hbound, ok_bind, hrotated, ok_bind, hinit', ok_bind, hgates', ok_bind, hsample',
      ok_bind]
    dsimp only at hx ⊢
    split at hx
    · rename_i hempty
      obtain ⟨rfl, rfl⟩ := Prod.mk.inj (Except.ok.inj hx)
      rw [if_pos hempty]
      rfl
    · rename_i hempty
      obtain ⟨rfl, rfl⟩ := Prod.mk.inj (Except.ok.inj hx)
      rw [if_neg hempty]
      rfl
  · have hs' : s₃ = s' := by
      dsimp only at hx
      split at hx
      · exact (Prod.mk.inj (Except.ok.inj hx)).2
      · exact (Prod.mk.inj (Except.ok.inj hx)).2
    rw [← hs']
    exact h.sample hi₂ hsample

/-- A row is one call for each group. -/
theorem shotBasedExpectation_recorded (h : Keeps B shots I) {theta : List ℝ} {shiftOp : ℤ} {shift e : ℝ}
    (hi : I k s calls) (hx : shotBasedExpectation B R ansatz theta shiftOp shift obs shots s = .ok (e, s')) :
    ∃ calls', shotBasedExpectation B.recorded R ansatz theta shiftOp shift obs shots (s, calls) =
      .ok (e, s', calls') ∧ I (k + (groupQwc obs).length) s' calls' := by
  unfold shotBasedExpectation at hx ⊢
  obtain ⟨c, hc, calls', rfl, hi'⟩ := foldlM_follows
    (S := fun k (b : ℝ × σ) (c : ℝ × σ × List (σ × ρ)) => ∃ calls, c = (b.1, b.2, calls) ∧ I k b.2 calls)
    (n := 1)
    (g := fun (total, p) group => evaluateGroup B.recorded R ansatz theta shiftOp shift obs shots total p group)
    (fun k b c group b' hs hstep => by
      obtain ⟨calls, rfl, hi⟩ := hs
      obtain ⟨calls', hc, hi'⟩ := evaluateGroup_recorded h hi hstep
      exact ⟨_, hc, calls', rfl, hi'⟩) ⟨calls, rfl, hi⟩ hx
  rw [Nat.mul_one] at hi'
  exact ⟨calls', hc, hi'⟩

theorem mapRows_recorded {f : ℕ → σ → Except Exn (ℝ × σ)}
    {g : ℕ → σ × List (σ × ρ) → Except Exn (ℝ × σ × List (σ × ρ))} {n : ℕ}
    (h : ∀ i k s s' e calls, I k s calls → f i s = .ok (e, s') →
      ∃ calls', g i (s, calls) = .ok (e, s', calls') ∧ I (k + n) s' calls') :
    ∀ {rows : List ℕ} {k : ℕ} {s s' : σ} {out : List ℝ} {calls : List (σ × ρ)}, I k s calls →
      mapRows f rows s = .ok (out, s') →
      ∃ calls', mapRows g rows (s, calls) = .ok (out, s', calls') ∧ I (k + rows.length * n) s' calls'
  | [], k, s, s', out, calls, hi, hx => by
    obtain ⟨rfl, rfl⟩ := Prod.mk.inj (Except.ok.inj hx)
    refine ⟨calls, rfl, ?_⟩
    rw [List.length_nil, Nat.zero_mul]
    exact hi
  | i :: rows, k, s, s', out, calls, hi, hx => by
    obtain ⟨⟨e, s₁⟩, h₁, hx⟩ := bind_eq_ok.mp hx
    obtain ⟨⟨es, s₂⟩, h₂, hx⟩ := bind_eq_ok.mp hx
    obtain ⟨rfl, rfl⟩ := Prod.mk.inj (Except.ok.inj hx)
    obtain ⟨calls₁, hg₁, hi₁⟩ := h i k s s₁ e calls hi h₁
    obtain ⟨calls', hg₂, hi'⟩ := mapRows_recorded h hi₁ h₂
    refine ⟨calls', bind_eq_ok.mpr ⟨_, hg₁, bind_eq_ok.mpr ⟨_, hg₂, rfl⟩⟩, ?_⟩
    rw [List.length_cons, show k + (rows.length + 1) * n = k + n + rows.length * n by ring]
    exact hi'

/-- **A batch and its record.** The recorded batch returns the same, and an invariant of the
calls holds of the record. -/
theorem shotBasedExpectationBatch_recorded (h : Keeps B shots I) {batch : EvalBatch ℝ} {out : List ℝ}
    (hi : I 0 s []) (hx : shotBasedExpectationBatch B R ansatz obs shots batch s = .ok (out, s')) :
    ∃ calls, shotBasedExpectationBatch B.recorded R ansatz obs shots batch (s, []) = .ok (out, s', calls) ∧
      I (batch.count * (groupQwc obs).length) s' calls := by
  unfold shotBasedExpectationBatch at hx ⊢
  obtain ⟨calls, hc, hi'⟩ := mapRows_recorded (I := I) (n := (groupQwc obs).length)
    (g := fun i p => do
      let op ← batch.opOf i
      let sh ← batch.deltaOf i
      shotBasedExpectation B.recorded R ansatz (batch.thetaOf i) op sh obs shots p)
    (fun i k s s' e calls hi hx => by
      obtain ⟨op, hop, hx⟩ := bind_eq_ok.mp hx
      obtain ⟨sh, hsh, hx⟩ := bind_eq_ok.mp hx
      obtain ⟨calls', hc, hi'⟩ := shotBasedExpectation_recorded h hi hx
      exact ⟨calls', bind_eq_ok.mpr ⟨op, hop, bind_eq_ok.mpr ⟨sh, hsh, hc⟩⟩, hi'⟩) hi hx
  rw [List.length_range, Nat.zero_add] at hi'
  exact ⟨calls, hc, hi'⟩

end

end Native

/-! ### The device or the fallback -/

section Routes

variable {σ ρ : Type} (available : σ → Bool) (FromDevice : σ × ρ → Prop) (Lost : σ → Prop)

/-- The calls so far: either the device is in use and answered them all, or one lost it. -/
def Routed (k : ℕ) (s : σ) (calls : List (σ × ρ)) : Prop :=
  calls.length = k ∧ ((available s = true ∧ ∀ c ∈ calls, FromDevice c ∧ ¬ Lost c.1) ∨
    ∃ c ∈ calls, ¬ FromDevice c ∧ Lost c.1)

variable {available FromDevice Lost} {k : ℕ} {s s' : σ} {calls : List (σ × ρ)}

theorem Routed.mono (h : Routed available FromDevice Lost k s calls) (hs : available s' = available s) :
    Routed available FromDevice Lost k s' calls := by
  unfold Routed
  rw [hs]
  exact h

theorem Routed.snoc (h : Routed available FromDevice Lost k s calls) {r : ρ}
    (hr : available s = true →
      (available s' = true ∧ FromDevice (s, r) ∧ ¬ Lost s) ∨ (¬ FromDevice (s, r) ∧ Lost s)) :
    Routed available FromDevice Lost (k + 1) s' (calls ++ [(s, r)]) := by
  obtain ⟨hlength, hcalls⟩ := h
  refine ⟨by rw [List.length_append, hlength, List.length_singleton], ?_⟩
  rcases hcalls with ⟨ha, hall⟩ | ⟨c, hc, hlost⟩
  · rcases hr ha with ⟨ha', hfrom⟩ | hlost
    · refine .inl ⟨ha', fun c hc => ?_⟩
      rcases List.mem_append.mp hc with hc | hc
      · exact hall c hc
      · obtain rfl := List.mem_singleton.mp hc
        exact hfrom
    · exact .inr ⟨(s, r), List.mem_append_right _ (List.mem_singleton_self _), hlost⟩
  · exact .inr ⟨c, List.mem_append_left _ hc, hlost⟩

/-- With the device gone, some call was not answered by it. -/
theorem Routed.exists_lost (h : Routed available FromDevice Lost k s calls) (hs : available s = false) :
    ∃ c ∈ calls, ¬ FromDevice c := by
  rcases h.2 with ⟨ha, -⟩ | ⟨c, hc, hfrom, -⟩
  · exact absurd (ha.symm.trans hs) (by decide)
  · exact ⟨c, hc, hfrom⟩

theorem Routed.fromDevice_iff (h : Routed available FromDevice Lost k s calls) :
    (∀ c ∈ calls, FromDevice c) ↔ ∀ c ∈ calls, ¬ Lost c.1 := by
  rcases h.2 with ⟨-, hall⟩ | ⟨c, hc, hfrom, hlost⟩
  · exact ⟨fun _ c hc => (hall c hc).2, fun _ c hc => (hall c hc).1⟩
  · exact ⟨fun hall => absurd (hall c hc) hfrom, fun hall => absurd hlost (hall c hc)⟩

end Routes

/-! ### The two backends -/

/-- A call that returns: its value and the state it leaves. -/
def returned {σ α : Type} (r : Except Exn α × σ) : Except Exn (α × σ) := r.1.map (·, r.2)

theorem returned_eq_ok {σ α : Type} {r : Except Exn α × σ} {a : α} {s : σ} :
    returned r = .ok (a, s) ↔ r = (.ok a, s) := by
  unfold returned
  rcases r with ⟨e | a', s'⟩
  · exact ⟨nofun, nofun⟩
  · constructor
    · intro h
      obtain ⟨rfl, rfl⟩ := Prod.mk.inj (Except.ok.inj h)
      rfl
    · intro h
      cases h
      rfl

/-- A backend as the shot path calls it: an exception ends the batch. -/
def Simulator.sampler {σ ρ : Type} (B : Simulator σ ρ) : Native.Sampler σ ρ where
  initializeState n s := do return (← returned (exec (B.initializeState n) s)).2
  applyGate op s := do return (← returned (exec (B.applyGate op) s)).2
  sample qubits shots s := returned (exec (B.sample qubits shots) s)

/-- A backend of which `initialize` and `apply_gate` leave the device in use, and `sample` is
answered by the device or loses it. -/
theorem Simulator.keeps_routed {σ ρ : Type} {B : Simulator σ ρ} {shots : ℕ} {available : σ → Bool}
    {FromDevice : σ × ρ → Prop} {Lost : σ → Prop}
    (hinit : ∀ n s, available (exec (B.initializeState n) s).2 = available s)
    (hgate : ∀ op s, available (exec (B.applyGate op) s).2 = available s)
    (hsample : ∀ s s' r, available s = true → exec (B.sample [] shots) s = (.ok r, s') →
      (available s' = true ∧ FromDevice (s, r) ∧ ¬ Lost s) ∨ (¬ FromDevice (s, r) ∧ Lost s)) :
    Native.Keeps B.sampler shots (Routed available FromDevice Lost) where
  initializeState {k n s s' calls} hi hx := by
    obtain ⟨⟨u, s₁⟩, hr, hs⟩ := bind_eq_ok.mp hx
    obtain rfl : s₁ = s' := Except.ok.inj hs
    have ha := hinit n s
    rw [returned_eq_ok.mp hr] at ha
    exact hi.mono ha
  applyGate {k op s s' calls} hi hx := by
    obtain ⟨⟨u, s₁⟩, hr, hs⟩ := bind_eq_ok.mp hx
    obtain rfl : s₁ = s' := Except.ok.inj hs
    have ha := hgate op s
    rw [returned_eq_ok.mp hr] at ha
    exact hi.mono ha
  sample {k s s' r calls} hi hx := hi.snoc fun ha => hsample s s' r ha (returned_eq_ok.mp hx)

/-- A fallback with its own `expectation_batch`. -/
structure Fallback (φ : Type) extends Simulator φ (List ℕ) where
  expectationBatch : Circuit ℝ → Observable ℝ → EvalBatch ℝ → Run Exn φ (List ℝ)

section Batch

open Native

variable {σ : Type} (B : Simulator σ (List ℕ)) (ansatz : Circuit ℝ) (obs : Observable ℝ) (batch : EvalBatch ℝ)
  (s : σ)

/-- The batch on the backend, when it returns. -/
noncomputable def shotBatch : Except Exn (List ℝ × σ) :=
  shotBasedExpectationBatch B.sampler shotReadout ansatz obs batch.shots batch s

/-- The same with a record of the calls to `sample`. -/
noncomputable def recordedBatch : Except Exn (List ℝ × σ × List (σ × List ℕ)) :=
  shotBasedExpectationBatch B.sampler.recorded shotReadout ansatz obs batch.shots batch (s, [])

end Batch

namespace QPUBackend

variable {δ φ : Type} (D : Device δ (List ℕ)) (F : Fallback φ)

/-- `expectation_batch`, when it returns. -/
noncomputable def expectationBatch (ansatz : Circuit ℝ) (obs : Observable ℝ) (batch : EvalBatch ℝ)
    (s : QPUBackend δ φ) : Except Exn (List ℝ × QPUBackend δ φ) :=
  if s.deviceAvailable then shotBatch (simulator D F.toSimulator) ansatz obs batch s
  else returned (exec (onFallback (F.expectationBatch ansatz obs batch)) s)

/-- The readout is what the device answers in this state. -/
def FromDevice (shots : ℕ) (c : QPUBackend δ φ × List ℕ) : Prop :=
  c.1.deviceAvailable = true ∧ ∃ d, exec (submission D c.1 [] shots) c.1.device = (.ok c.2, d)

/-- The submission throws in this state and the device is gone then. -/
def Lost (shots : ℕ) (s : QPUBackend δ φ) : Prop :=
  s.deviceAvailable = true ∧ ∃ e d d', exec (submission D s [] shots) s.device = (.error e, d) ∧
    exec D.recheckDevice (d, true) = (.ok (), d', false)

variable {D F} {s s' : QPUBackend δ φ}

theorem available_initializeState {F : Simulator φ (List ℕ)} (n : ℕ) (s : QPUBackend δ φ) :
    (exec (initializeState F n) s).2.deviceAvailable = s.deviceAvailable := by
  unfold initializeState
  rw [exec_modify_bind]
  rw [exec_get_bind]
  split <;> rfl

theorem available_applyGate {F : Simulator φ (List ℕ)} (op : GateOp ℝ) (s : QPUBackend δ φ) :
    (exec (applyGate F op) s).2.deviceAvailable = s.deviceAvailable := by
  unfold applyGate
  rw [exec_get_bind]
  split <;> rfl

/-- **A call to `sample` that returns** was answered by the device, or lost it. -/
theorem sample_routed {F : Simulator φ (List ℕ)} {shots : ℕ} {r : List ℕ} (ha : s.deviceAvailable = true)
    (hx : exec (sample D F [] shots) s = (.ok r, s')) :
    (s'.deviceAvailable = true ∧ FromDevice D shots (s, r) ∧ ¬ Lost D shots s) ∨
      (¬ FromDevice D shots (s, r) ∧ Lost D shots s) := by
  rcases hsub : exec (submission D s [] shots) s.device with ⟨e | r', d⟩
  · rw [exec_sample_error ha hsub, exec_handleFailure] at hx
    dsimp only at hx
    rw [ha] at hx
    rcases hcheck : exec D.recheckDevice (d, true) with ⟨e' | u, d', available⟩
    · rw [hcheck] at hx
      cases hx
    · rw [hcheck] at hx
      cases available with
      | true => cases hx
      | false =>
        refine .inr ⟨?_, ha, e, d, d', hsub, hcheck⟩
        rintro ⟨-, d₁, h₁⟩
        rw [hsub] at h₁
        cases h₁
  · rw [exec_sample_ok ha hsub] at hx
    obtain ⟨hr, rfl⟩ := Prod.mk.inj hx
    obtain rfl := Except.ok.inj hr
    refine .inl ⟨ha, ⟨ha, d, hsub⟩, ?_⟩
    rintro ⟨-, e, d₁, d₂, h₁, -⟩
    rw [hsub] at h₁
    cases h₁

/-- A batch that returns, and its record. -/
theorem batch_routed {ansatz : Circuit ℝ} {obs : Observable ℝ} {batch : EvalBatch ℝ} {out : List ℝ}
    (ha : s.deviceAvailable = true) (hx : expectationBatch D F ansatz obs batch s = .ok (out, s')) :
    ∃ calls, recordedBatch (simulator D F.toSimulator) ansatz obs batch s = .ok (out, s', calls) ∧
      Routed QPUBackend.deviceAvailable (FromDevice D batch.shots) (Lost D batch.shots)
        (batch.count * (Native.groupQwc obs).length) s' calls := by
  unfold expectationBatch at hx
  rw [if_pos ha] at hx
  have hkeeps : Native.Keeps (simulator D F.toSimulator).sampler batch.shots _ :=
    Simulator.keeps_routed (fun n s => available_initializeState n s) (fun op s => available_applyGate op s)
      fun _ _ _ ha hx => sample_routed ha hx
  exact Native.shotBasedExpectationBatch_recorded hkeeps ⟨rfl, .inl ⟨ha, nofun⟩⟩ hx

end QPUBackend

namespace CUNQABackend

variable {ν φ : Type} (N : Network ν (List ℕ)) (F : Fallback φ)

/-- `expectation_batch`, when it returns. -/
noncomputable def expectationBatch (ansatz : Circuit ℝ) (obs : Observable ℝ) (batch : EvalBatch ℝ)
    (s : CUNQABackend ν φ) : Except Exn (List ℝ × CUNQABackend ν φ) :=
  if s.usingCunqa then shotBatch (simulator N F.toSimulator) ansatz obs batch s
  else returned (exec (onFallback (F.expectationBatch ansatz obs batch)) s)

/-- The readout is what the vQPU in use answers in this state or, when that fails, the vQPU
found then. -/
def FromDevice (shots : ℕ) (c : CUNQABackend ν φ × List ℕ) : Prop :=
  c.1.usingCunqa = true ∧ ((∃ s₁, exec (runOnCunqa N [] shots) c.1 = (.ok c.2, s₁)) ∨
    ∃ e s₁ s₂ s₃, exec (runOnCunqa N [] shots) c.1 = (.error e, s₁) ∧
      exec (discoverQpu N) s₁ = (.ok (), s₂) ∧ s₂.usingCunqa = true ∧
      exec (runOnCunqa N [] shots) s₂ = (.ok c.2, s₃))

/-- The submission throws in this state and no vQPU is found then. -/
def Lost (shots : ℕ) (s : CUNQABackend ν φ) : Prop :=
  s.usingCunqa = true ∧ ∃ e s₁ s₂, exec (runOnCunqa N [] shots) s = (.error e, s₁) ∧
    exec (discoverQpu N) s₁ = (.ok (), s₂) ∧ s₂.usingCunqa = false

variable {N F} {s s' : CUNQABackend ν φ}

theorem usingCunqa_initializeState {F : Simulator φ (List ℕ)} (n : ℕ) (s : CUNQABackend ν φ) :
    (exec (initializeState F n) s).2.usingCunqa = s.usingCunqa := by
  unfold initializeState
  rw [exec_modify_bind]
  rw [exec_get_bind]
  split
  · split
    · split <;> rfl
    · rfl
  · rfl

theorem usingCunqa_applyGate {F : Simulator φ (List ℕ)} (op : GateOp ℝ) (s : CUNQABackend ν φ) :
    (exec (applyGate F op) s).2.usingCunqa = s.usingCunqa := by
  unfold applyGate
  rw [exec_get_bind]
  split <;> rfl

/-- A submission leaves the flag, whatever comes of it. -/
theorem usingCunqa_runOnCunqa (qubits : List ℕ) (shots : ℕ) (s : CUNQABackend ν φ) :
    (exec (runOnCunqa N qubits shots) s).2.usingCunqa = s.usingCunqa := by
  have hnetwork : ∀ {α : Type} (x : Run Exn ν α),
      Preserves (fun s' : CUNQABackend ν φ => s'.usingCunqa = s.usingCunqa) (onNetwork x) := by
    intro α x
    unfold onNetwork
    refine .zoom ?_ x
    exact fun _ _ hs => hs
  have hall : Preserves (fun s' => s'.usingCunqa = s.usingCunqa) (runOnCunqa (φ := φ) N qubits shots) := by
    unfold runOnCunqa
    refine .bind .get fun s₁ => .bind (.lift _) fun instructions => ?_
    split
    · exact .throw _
    · refine .bind (.modify fun _ hs => hs) fun _ => .bind (hnetwork _) fun _ => ?_
      refine .bind (hnetwork _) fun reply => ?_
      split
      · exact .throw _
      · exact .lift _
  exact hall s rfl

/-- `discover_qpu` catches everything. -/
theorem discoverQpu_returns (s : CUNQABackend ν φ) : ∃ s', exec (discoverQpu N) s = (.ok (), s') := by
  unfold discoverQpu
  rw [exec_tryCatch]
  split
  · exact ⟨_, rfl⟩
  · exact ⟨_, rfl⟩

/-- **A call to `sample` that returns** was answered by a vQPU, or lost it. -/
theorem sample_routed {F : Simulator φ (List ℕ)} {shots : ℕ} {r : List ℕ} (ha : s.usingCunqa = true)
    (hx : exec (sample N F [] shots) s = (.ok r, s')) :
    (s'.usingCunqa = true ∧ FromDevice N shots (s, r) ∧ ¬ Lost N shots s) ∨
      (¬ FromDevice N shots (s, r) ∧ Lost N shots s) := by
  unfold sample at hx
  rw [exec_get_bind] at hx
  rw [if_pos ha, exec_tryCatch] at hx
  rcases hrun : exec (runOnCunqa N [] shots) s with ⟨e | r', s₁⟩
  · obtain ⟨s₂, hdiscover⟩ := discoverQpu_returns (N := N) s₁
    rw [hrun] at hx
    dsimp only at hx
    unfold handleFailure at hx
    rw [exec_bind, hdiscover] at hx
    dsimp only at hx
    rw [exec_get_bind] at hx
    split at hx
    · rename_i hfound
      have hkept := usingCunqa_runOnCunqa (N := N) [] shots s₂
      rw [hx] at hkept
      refine .inl ⟨hkept.trans hfound, ⟨ha, .inr ⟨e, s₁, s₂, s', hrun, hdiscover, hfound, hx⟩⟩, ?_⟩
      rintro ⟨-, e', s₃, s₄, h₁, h₂, hgone⟩
      obtain ⟨-, rfl⟩ := Prod.mk.inj (hrun.symm.trans h₁)
      obtain ⟨-, rfl⟩ := Prod.mk.inj (hdiscover.symm.trans h₂)
      exact absurd (hfound.symm.trans hgone) (by decide)
    · rename_i hgone
      refine .inr ⟨?_, ha, e, s₁, s₂, hrun, hdiscover, Bool.eq_false_iff.mpr hgone⟩
      rintro ⟨-, ⟨s₃, h₁⟩ | ⟨e', s₃, s₄, s₅, h₁, h₂, hfound, -⟩⟩
      · rw [hrun] at h₁
        cases h₁
      · obtain ⟨-, rfl⟩ := Prod.mk.inj (hrun.symm.trans h₁)
        obtain ⟨-, rfl⟩ := Prod.mk.inj (hdiscover.symm.trans h₂)
        exact absurd hfound hgone
  · rw [hrun] at hx
    obtain ⟨hr, rfl⟩ := Prod.mk.inj hx
    obtain rfl := Except.ok.inj hr
    have hkept := usingCunqa_runOnCunqa (N := N) [] shots s
    rw [hrun] at hkept
    refine .inl ⟨hkept.trans ha, ⟨ha, .inl ⟨s₁, hrun⟩⟩, ?_⟩
    rintro ⟨-, e, s₂, s₃, h₁, -⟩
    rw [hrun] at h₁
    cases h₁

/-- A batch that returns, and its record. -/
theorem batch_routed {ansatz : Circuit ℝ} {obs : Observable ℝ} {batch : EvalBatch ℝ} {out : List ℝ}
    (ha : s.usingCunqa = true) (hx : expectationBatch N F ansatz obs batch s = .ok (out, s')) :
    ∃ calls, recordedBatch (simulator N F.toSimulator) ansatz obs batch s = .ok (out, s', calls) ∧
      Routed CUNQABackend.usingCunqa (FromDevice N batch.shots) (Lost N batch.shots)
        (batch.count * (Native.groupQwc obs).length) s' calls := by
  unfold expectationBatch at hx
  rw [if_pos ha] at hx
  have hkeeps : Native.Keeps (simulator N F.toSimulator).sampler batch.shots _ :=
    Simulator.keeps_routed (fun n s => usingCunqa_initializeState n s) (fun op s => usingCunqa_applyGate op s)
      fun _ _ _ ha hx => sample_routed ha hx
  exact Native.shotBasedExpectationBatch_recorded hkeeps ⟨rfl, .inl ⟨ha, nofun⟩⟩ hx

end CUNQABackend

/-- **Provenance.** A batch that is entered with the device available and returns asks `sample`
once for each group of each row; all outcomes came from the device exactly if no call to
`sample` lost it. -/
theorem outcomes_fromDevice_iff {δ ν φ : Type} (F : Fallback φ) (ansatz : Circuit ℝ) (obs : Observable ℝ)
    (batch : EvalBatch ℝ) :
    (∀ (D : Device δ (List ℕ)) (s s' : QPUBackend δ φ) (out : List ℝ), s.deviceAvailable = true →
      QPUBackend.expectationBatch D F ansatz obs batch s = .ok (out, s') →
      ∃ calls,
        recordedBatch (QPUBackend.simulator D F.toSimulator) ansatz obs batch s = .ok (out, s', calls) ∧
        calls.length = batch.count * (Native.groupQwc obs).length ∧
        ((∀ c ∈ calls, QPUBackend.FromDevice D batch.shots c) ↔
          ∀ c ∈ calls, ¬ QPUBackend.Lost D batch.shots c.1)) ∧
    ∀ (N : Network ν (List ℕ)) (s s' : CUNQABackend ν φ) (out : List ℝ), s.usingCunqa = true →
      CUNQABackend.expectationBatch N F ansatz obs batch s = .ok (out, s') →
      ∃ calls,
        recordedBatch (CUNQABackend.simulator N F.toSimulator) ansatz obs batch s = .ok (out, s', calls) ∧
        calls.length = batch.count * (Native.groupQwc obs).length ∧
        ((∀ c ∈ calls, CUNQABackend.FromDevice N batch.shots c) ↔
          ∀ c ∈ calls, ¬ CUNQABackend.Lost N batch.shots c.1) := by
  constructor
  · intro D s s' out ha hx
    obtain ⟨calls, hcalls, hrouted⟩ := QPUBackend.batch_routed ha hx
    exact ⟨calls, hcalls, hrouted.1, hrouted.fromDevice_iff⟩
  · intro N s s' out ha hx
    obtain ⟨calls, hcalls, hrouted⟩ := CUNQABackend.batch_routed ha hx
    exact ⟨calls, hcalls, hrouted.1, hrouted.fromDevice_iff⟩

/-! ### A device that is lost on the way -/

section Examples

/-- A device that answers `n` submissions and is gone then. The state counts the submissions. -/
def lasting (n : ℕ) : Device ℕ (List ℕ) where
  submitCircuit _ _ _ _ := do
    modify (· + 1)
    if (← get) ≤ n then return [0] else throw ⟨.runtimeError, "device lost"⟩
  recheckDevice := modify fun d => (d.1, decide (d.1 ≤ n))

/-- A vQPU that answers `n` circuits and is gone then. The state counts the circuits. -/
def lastingQpu (n : ℕ) : Network ℕ (List ℕ) where
  readRegistry := do return if (← get) ≤ n then some (CUNQABackend.registryOf 1) else none
  connect _ := pure ()
  send _ _ := modify (· + 1)
  receive _ := do return if (← get) ≤ n then some [] else none
  outcomes := cunqaOutcomes CUNQABackend.largest fun _ =>
    return .object [(ascii "counts", .object [(ascii "0", .unsigned 1)])]

/-- A fallback that answers something else. -/
def other : Fallback Unit := ⟨⟨fun _ => pure (), fun _ => pure (), fun _ _ => pure [1]⟩, fun _ _ _ => pure []⟩

/-- The dispatcher with its device. -/
def onLasting : QPUBackend ℕ Unit := ⟨true, 0, [], 0, ()⟩

/-- The CUNQA backend as constructed. -/
def onLastingQpu (n : ℕ) : CUNQABackend ℕ Unit := .new (lastingQpu n) 0 0 ()

/-- An ansatz of one qubit without gates. -/
def bare : Circuit ℝ := ⟨1, 0, [], []⟩

/-- The qubit in Y. -/
def oneY : Observable ℝ := ⟨1, [⟨1, 1, 1, 1⟩]⟩

/-- Two rows of one shot. -/
def twoRows : EvalBatch ℝ := ⟨2, 0, [], [], [], 1⟩

theorem outcomes_fromDevice_lasting :
    (∃ out s' calls,
      recordedBatch (QPUBackend.simulator (lasting 2) other.toSimulator) bare oneY twoRows onLasting =
        .ok (out, s', calls) ∧ calls.length = 2 * 1 ∧
      ((∀ c ∈ calls, QPUBackend.FromDevice (lasting 2) 1 c) ↔
        ∀ c ∈ calls, ¬ QPUBackend.Lost (lasting 2) 1 c.1)) ∧
    ∃ out s' calls,
      recordedBatch (CUNQABackend.simulator (lastingQpu 2) other.toSimulator) bare oneY twoRows
        (onLastingQpu 2) = .ok (out, s', calls) ∧ calls.length = 2 * 1 ∧
      ((∀ c ∈ calls, CUNQABackend.FromDevice (lastingQpu 2) 1 c) ↔
        ∀ c ∈ calls, ¬ CUNQABackend.Lost (lastingQpu 2) 1 c.1) := by
  constructor
  · have hqpu := (outcomes_fromDevice_iff (ν := ℕ) other bare oneY twoRows).1 (lasting 2) onLasting
    exact ⟨_, _, hqpu _ _ rfl rfl⟩
  · have hcunqa := (outcomes_fromDevice_iff (δ := ℕ) other bare oneY twoRows).2 (lastingQpu 2) (onLastingQpu 2)
    exact ⟨_, _, hcunqa _ _ rfl rfl⟩

/-- With a device that is lost in the second row both backends return, and not all outcomes came
from the device. -/
theorem outcomes_fromDevice_fails :
    (onLasting.deviceAvailable = true ∧ ∃ out s' calls,
      QPUBackend.expectationBatch (lasting 1) other bare oneY twoRows onLasting = .ok (out, s') ∧
      recordedBatch (QPUBackend.simulator (lasting 1) other.toSimulator) bare oneY twoRows onLasting =
        .ok (out, s', calls) ∧
      ∃ c ∈ calls, ¬ QPUBackend.FromDevice (lasting 1) 1 c) ∧
    ((onLastingQpu 1).usingCunqa = true ∧ ∃ out s' calls,
      CUNQABackend.expectationBatch (lastingQpu 1) other bare oneY twoRows (onLastingQpu 1) = .ok (out, s') ∧
      recordedBatch (CUNQABackend.simulator (lastingQpu 1) other.toSimulator) bare oneY twoRows
        (onLastingQpu 1) = .ok (out, s', calls) ∧
      ∃ c ∈ calls, ¬ CUNQABackend.FromDevice (lastingQpu 1) 1 c) := by
  constructor
  · obtain ⟨out, s', hx, hgone⟩ : ∃ out s',
        QPUBackend.expectationBatch (lasting 1) other bare oneY twoRows onLasting = .ok (out, s') ∧
        s'.deviceAvailable = false := ⟨_, _, rfl, rfl⟩
    obtain ⟨calls, hcalls, hrouted⟩ := QPUBackend.batch_routed rfl hx
    exact ⟨rfl, out, s', calls, hx, hcalls, hrouted.exists_lost hgone⟩
  · obtain ⟨out, s', hx, hgone⟩ : ∃ out s',
        CUNQABackend.expectationBatch (lastingQpu 1) other bare oneY twoRows (onLastingQpu 1) = .ok (out, s') ∧
        s'.usingCunqa = false := ⟨_, _, rfl, rfl⟩
    obtain ⟨calls, hcalls, hrouted⟩ := CUNQABackend.batch_routed rfl hx
    exact ⟨rfl, out, s', calls, hx, hcalls, hrouted.exists_lost hgone⟩

end Examples

end Qsycl
