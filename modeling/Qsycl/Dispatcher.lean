/-
# The dispatcher and its fallback

A `QPUBackend` whose fallback is the CPU backend, over whole runs: any calls
after a first `initialize`, some of which may throw, on any device. `Reached`
follows a run together with the qubit count of the last `initialize` and the
gates applied since.

Every submission carries exactly these gates; an answer of the fallback is that
of a backend prepared with them, unless the fallback cannot hold the circuit
(`answers_iff`). Left out are runs in which a gate reaches the fallback on a
qubit that it does not have, or a re-check clears the flag and then throws. The
invariant is `Tracks`.
-/
import Qsycl.CircuitRuns
import Qsycl.Runtime

namespace Qsycl.QPUBackend

open Runs

variable {δ γ : Type}

/-! ### Queries -/

def getState : Run Exn (QPUBackend δ (CPUSimulator γ)) (StateVec ℂ) := do
  let s ← get
  if s.deviceAvailable then
    throw ⟨.runtimeError, "get_state() is not supported on a real/remote QPU backend: no " ++
      "real QPU can report exact statevector amplitudes. Use sample() instead."⟩
  else return s.fallback.backend.getState

noncomputable def probabilities : Run Exn (QPUBackend δ (CPUSimulator γ)) (StateVec ℝ) := do
  let s ← get
  if s.deviceAvailable then
    throw ⟨.runtimeError, "probabilities() is not supported on a real/remote QPU backend: " ++
      "no real QPU can report exact probabilities. Use sample() instead."⟩
  else return s.fallback.backend.probabilities

/-! ### Submissions -/

/-- The circuits submitted: qubit counts and gates. -/
abbrev Submissions := List (ℕ × List (GateOp ℝ))

/-- The device, with a log of what is submitted to it. -/
def logged {ρ : Type} (D : Device δ ρ) : Device (δ × Submissions) ρ where
  submitCircuit n gates qubits shots := do
    modify fun d => (d.1, d.2 ++ [(n, gates)])
    zoom Prod.fst (fun d s => (d, s.2)) (D.submitCircuit n gates qubits shots)
  recheckDevice := zoom (fun s => (s.1.1, s.2)) (fun d s => ((d.1, s.1.2), d.2)) D.recheckDevice

/-! ### What the fallback holds -/

/-- `apply_gate` reads no qubit and no angle that is not there. -/
def Readable (op : GateOp ℝ) : Prop :=
  op.type = .MEASURE ∨ op.type.qubits ≤ op.qubits.length ∧ op.type.angles ≤ op.params.length

/-- The gate acts on qubits of a register of `n`: outside of it the kernels leave the
memory of the state vector. -/
def OnRegister (n : ℕ) (op : GateOp ℝ) : Prop :=
  op.type = .MEASURE ∨ ∀ q ∈ op.qubits.take op.type.qubits, q < n

/-- `b` is the backend after `initialize n` and these gates. -/
def Prepares (n : ℕ) (gates : List (GateOp ℝ)) (b : CPUBackend ℂ) : Prop :=
  (∀ op ∈ gates, OnRegister n op) ∧
    ∃ b₀ b₁ : CPUBackend ℂ, b₀.initializeState n = .ok b₁ ∧ b₁.run gates = .ok b

/-- The fallback can hold the circuit. -/
structure CanHold (n : ℕ) (gates : List (GateOp ℝ)) : Prop where
  pos : 1 ≤ n
  le : n ≤ 30
  readable : ∀ op ∈ gates, Readable op
  onRegister : ∀ op ∈ gates, OnRegister n op

/-- Whether a gate can be applied does not depend on the state. -/
theorem applyGate_ok_iff (op : GateOp ℝ) (b : CPUBackend ℂ) :
    (∃ b', b.applyGate op = .ok b') ↔ Readable op := by
  obtain ⟨type, qubits, params, label, dagger, symbolic⟩ := op
  unfold CPUBackend.applyGate dispatchGate Readable
  cases type with
  | H | X | Y | Z =>
    rcases qubits with _ | ⟨q, qs⟩ <;> simp [vecAt, GateType.qubits, GateType.angles, pure, Except.pure]
  | S | T =>
    rcases qubits with _ | ⟨q, qs⟩ <;> cases dagger <;>
      simp [vecAt, GateType.qubits, GateType.angles, pure, Except.pure]
  | U =>
    rcases qubits with _ | ⟨q, qs⟩ <;> rcases params with _ | ⟨x, _ | ⟨y, _ | ⟨z, ps⟩⟩⟩ <;>
      simp [vecAt, GateType.qubits, GateType.angles, pure, Except.pure]
  | RX | RY | RZ =>
    rcases qubits with _ | ⟨q, qs⟩ <;> rcases params with _ | ⟨x, ps⟩ <;>
      simp [vecAt, GateType.qubits, GateType.angles, pure, Except.pure]
  | CNOT | CZ | SWAP =>
    rcases qubits with _ | ⟨q, _ | ⟨r, qs⟩⟩ <;>
      simp [vecAt, GateType.qubits, GateType.angles, pure, Except.pure]
  | CRX | CRY | CRZ =>
    rcases qubits with _ | ⟨q, _ | ⟨r, qs⟩⟩ <;> rcases params with _ | ⟨x, ps⟩ <;>
      simp [vecAt, GateType.qubits, GateType.angles, pure, Except.pure]
  | MEASURE => simp [pure, Except.pure]

theorem run_ok_iff : ∀ (gates : List (GateOp ℝ)) (b : CPUBackend ℂ),
    (∃ b', b.run gates = .ok b') ↔ ∀ op ∈ gates, Readable op
  | [], b => ⟨nofun, fun _ => ⟨b, rfl⟩⟩
  | op :: gates, b => by
    rw [List.forall_mem_cons, ← applyGate_ok_iff op b]
    constructor
    · rintro ⟨b', h⟩
      obtain ⟨b₁, h₁, h₂⟩ := bind_eq_ok.mp (show b.applyGate op >>= _ = .ok b' from h)
      exact ⟨⟨b₁, h₁⟩, (run_ok_iff gates b₁).mp ⟨b', h₂⟩⟩
    · rintro ⟨⟨b₁, h₁⟩, hr⟩
      obtain ⟨b', h₂⟩ := (run_ok_iff gates b₁).mpr hr
      exact ⟨b', bind_eq_ok.mpr ⟨b₁, h₁, h₂⟩⟩

/-- A circuit that can be held is prepared, on any backend. -/
theorem CanHold.runs {n : ℕ} {gates : List (GateOp ℝ)} (h : CanHold n gates) (b : CPUBackend ℂ) :
    ∃ b₁ b₂, b.initializeState n = .ok b₁ ∧ b₁.run gates = .ok b₂ := by
  have hpos := h.pos
  have hle := h.le
  obtain ⟨b₂, hb₂⟩ := (run_ok_iff gates _).mpr h.readable
  exact ⟨_, b₂, if_neg (by omega), hb₂⟩

/-- Only a circuit that can be held is prepared. -/
theorem Prepares.canHold {n : ℕ} {gates : List (GateOp ℝ)} {b : CPUBackend ℂ} (h : Prepares n gates b) :
    CanHold n gates := by
  obtain ⟨hon, b₀, b₁, hinit, hrun⟩ := h
  have hreadable := (run_ok_iff gates b₁).mp ⟨b, hrun⟩
  unfold CPUBackend.initializeState at hinit
  split at hinit
  · cases hinit
  · exact ⟨by omega, by omega, hreadable, hon⟩

theorem Prepares.applyGate {n : ℕ} {gates : List (GateOp ℝ)} {op : GateOp ℝ} {b b' : CPUBackend ℂ}
    (h : Prepares n gates b) (hon : OnRegister n op) (hop : b.applyGate op = .ok b') :
    Prepares n (gates ++ [op]) b' := by
  obtain ⟨hgates, b₀, b₁, hinit, hrun⟩ := h
  refine ⟨List.forall_mem_append.mpr ⟨hgates, List.forall_mem_singleton.mpr hon⟩, b₀, b₁, hinit, ?_⟩
  unfold CPUBackend.run at hrun ⊢
  rw [List.foldlM_append, hrun, ok_bind]
  exact bind_eq_ok.mpr ⟨b', hop, rfl⟩

/-! ### The calls, on the fallback -/

section Calls

variable (draw : StateVec ℝ → γ → ℕ × γ)

/-- Samples leave the state vector. -/
theorem backend_sample (qubits : List ℕ) (shots : ℕ) (f : CPUSimulator γ) :
    (exec (CPUSimulator.sample draw qubits shots) f).2.backend = f.backend := by
  unfold CPUSimulator.sample
  rw [exec_get_bind]
  rw [exec_zoom]

variable {ε : Type} {s s' : QPUBackend ε (CPUSimulator γ)}

/-- A method of the backend under the fallback. -/
theorem exec_fallbackBackend (f : CPUBackend ℂ → Except Exn (CPUBackend ℂ)) (s : QPUBackend ε (CPUSimulator γ)) :
    exec (onFallback (CPUSimulator.onBackend f)) s = match f s.fallback.backend with
      | .ok b => (.ok (), { s with fallback := { s.fallback with backend := b } })
      | .error e => (.error e, s) := by
  unfold onFallback
  rw [exec_zoom, CPUSimulator.exec_onBackend]
  cases f s.fallback.backend <;> rfl

/-- The gates of a replay, on the fallback. -/
theorem exec_replayGates : ∀ (gates : List (GateOp ℝ)) (s : QPUBackend ε (CPUSimulator γ)),
    match s.fallback.backend.run gates with
    | .ok b => exec (gates.forM fun op => onFallback ((CPUSimulator.simulator draw).applyGate op)) s =
        (.ok (), { s with fallback := { s.fallback with backend := b } })
    | .error e => (exec (gates.forM fun op => onFallback ((CPUSimulator.simulator draw).applyGate op)) s).1 =
        .error e
  | [], s => rfl
  | op :: gates, s => by
    have hrun : s.fallback.backend.run (op :: gates) =
        s.fallback.backend.applyGate op >>= fun b => b.run gates := rfl
    have hforM : (op :: gates).forM (fun op => onFallback (δ := ε) ((CPUSimulator.simulator draw).applyGate op)) =
        onFallback ((CPUSimulator.simulator draw).applyGate op) >>= fun _ =>
          gates.forM fun op => onFallback ((CPUSimulator.simulator draw).applyGate op) := rfl
    have hstep : exec (onFallback ((CPUSimulator.simulator draw).applyGate op)) s =
        match s.fallback.backend.applyGate op with
        | .ok b => (.ok (), { s with fallback := { s.fallback with backend := b } })
        | .error e => (.error e, s) := exec_fallbackBackend (CPUBackend.applyGate op) s
    rw [hrun, hforM, exec_bind, hstep]
    cases s.fallback.backend.applyGate op with
    | error e => rfl
    | ok b => exact exec_replayGates gates { s with fallback := { s.fallback with backend := b } }

theorem exec_initializeFallback (n : ℕ) (s : QPUBackend ε (CPUSimulator γ)) :
    exec (onFallback ((CPUSimulator.simulator draw).initializeState n)) s =
      match s.fallback.backend.initializeState n with
      | .ok b => (.ok (), { s with fallback := { s.fallback with backend := b } })
      | .error e => (.error e, s) :=
  exec_fallbackBackend (CPUBackend.initializeState n) s

/-- A replay that answers has prepared the buffered circuit. -/
theorem replay_ok {qubits : List ℕ} {shots : ℕ} {outcomes : List ℕ}
    (h : exec (replay (CPUSimulator.simulator draw) qubits shots) s = (.ok outcomes, s'))
    (hon : 1 ≤ s.numQubits → s.numQubits ≤ 30 → ∀ op ∈ s.gateBuffer, OnRegister s.numQubits op) :
    ∃ b, Prepares s.numQubits s.gateBuffer b ∧
      exec (CPUSimulator.sample draw qubits shots) ⟨b, s.fallback.rng⟩ = (.ok outcomes, s'.fallback) := by
  unfold replay at h
  rw [exec_get_bind] at h
  rw [exec_bind, exec_initializeFallback] at h
  cases hinit : s.fallback.backend.initializeState s.numQubits with
  | error e =>
    rw [hinit] at h
    cases h
  | ok b₁ =>
    rw [hinit] at h
    dsimp only at h
    have hgates := exec_replayGates draw s.gateBuffer { s with fallback := { s.fallback with backend := b₁ } }
    rw [exec_bind] at h
    cases hrun : b₁.run s.gateBuffer with
    | error e =>
      rw [show CPUBackend.run _ _ = _ from hrun] at hgates
      rcases hx : exec (s.gateBuffer.forM fun op => onFallback ((CPUSimulator.simulator draw).applyGate op))
        { s with fallback := { s.fallback with backend := b₁ } } with ⟨r, s₁⟩
      rw [hx] at hgates h
      cases hgates
      cases h
    | ok b₂ =>
      rw [show CPUBackend.run _ _ = _ from hrun] at hgates
      rw [hgates] at h
      dsimp only at h
      unfold onFallback at h
      rw [exec_zoom] at h
      have hrange : 1 ≤ s.numQubits ∧ s.numQubits ≤ 30 := by
        unfold CPUBackend.initializeState at hinit
        split at hinit
        · cases hinit
        · omega
      refine ⟨b₂, ⟨hon hrange.1 hrange.2, _, b₁, hinit, hrun⟩, ?_⟩
      have hfst := congrArg Prod.fst h
      have hsnd := congrArg (fun r => r.2.fallback) h
      exact Prod.ext hfst hsnd

/-- A replay changes the fallback only. -/
theorem replay_frame (qubits : List ℕ) (shots : ℕ) (s : QPUBackend ε (CPUSimulator γ)) :
    ∃ f, (exec (replay (CPUSimulator.simulator draw) qubits shots) s).2 = { s with fallback := f } := by
  have hput : ∀ (f : CPUSimulator γ) (s' : QPUBackend ε (CPUSimulator γ)),
      (∃ f, s' = { s with fallback := f }) → ∃ f', { s' with fallback := f } = { s with fallback := f' } := by
    rintro f _ ⟨f', rfl⟩
    exact ⟨f, rfl⟩
  have hall : Preserves (fun s' => ∃ f, s' = { s with fallback := f })
      (replay (CPUSimulator.simulator draw) qubits shots) := by
    unfold replay onFallback
    refine .bind .get fun s₁ => .bind (.zoom hput _) fun _ => ?_
    exact .bind (.forM (fun _ => .zoom hput _) _) fun _ => .zoom hput _
  exact hall s ⟨s.fallback, rfl⟩

/-- A replay of a circuit that can be held leaves it prepared. -/
theorem replay_prepares (h : CanHold s.numQubits s.gateBuffer) (qubits : List ℕ) (shots : ℕ) :
    Prepares s.numQubits s.gateBuffer
      (exec (replay (CPUSimulator.simulator draw) qubits shots) s).2.fallback.backend := by
  obtain ⟨b₁, b₂, hinit, hrun⟩ := h.runs s.fallback.backend
  have hgates := exec_replayGates draw s.gateBuffer { s with fallback := { s.fallback with backend := b₁ } }
  rw [show CPUBackend.run _ _ = _ from hrun] at hgates
  unfold replay
  rw [exec_get_bind]
  rw [exec_bind, exec_initializeFallback, hinit]
  dsimp only
  rw [exec_bind, hgates]
  dsimp only
  unfold onFallback
  rw [exec_zoom]
  have hsample : (exec (CPUSimulator.sample draw qubits shots) ⟨b₂, s.fallback.rng⟩).2.backend = b₂ :=
    backend_sample draw qubits shots ⟨b₂, s.fallback.rng⟩
  show Prepares _ _ (exec (CPUSimulator.sample draw qubits shots) ⟨b₂, s.fallback.rng⟩).2.backend
  rw [hsample]
  exact ⟨h.onRegister, _, b₁, hinit, hrun⟩

end Calls

/-! ### Runs -/

/-- What follows a failed submission: the re-check does not clear the flag and then
throw, and a replay is of gates on the register. -/
structure Handled {ρ φ : Type} (D : Device δ ρ) (s : QPUBackend δ φ) (qubits : List ℕ) (shots : ℕ) : Prop where
  recheck : ∀ e d e' d' available, exec (submission D s qubits shots) s.device = (.error e, d) →
    exec D.recheckDevice (d, true) = (.error e', d', available) → available = true
  replay : ∀ e d d', exec (submission D s qubits shots) s.device = (.error e, d) →
    exec D.recheckDevice (d, true) = (.ok (), d', false) → 1 ≤ s.numQubits → s.numQubits ≤ 30 →
    ∀ op ∈ s.gateBuffer, OnRegister s.numQubits op

section Runs

variable (D : Device δ (List ℕ)) (draw : StateVec ℝ → γ → ℕ × γ)

/-- The dispatcher with the log of its submissions. -/
noncomputable abbrev dispatcher : Simulator (QPUBackend (δ × Submissions) (CPUSimulator γ)) (List ℕ) :=
  simulator (logged D) (CPUSimulator.simulator draw)

/-- The states of a run, with the qubit count of the last `initialize` and the gates applied
since. The run begins with `initialize`; the queries leave the state. -/
inductive Reached : QPUBackend (δ × Submissions) (CPUSimulator γ) → ℕ → List (GateOp ℝ) → Prop
  | start (s : QPUBackend (δ × Submissions) (CPUSimulator γ)) (n : ℕ) :
      Reached ((dispatcher D draw).after s (.initializeState n)) n []
  | initializeState {s : QPUBackend (δ × Submissions) (CPUSimulator γ)} {m : ℕ} {gates : List (GateOp ℝ)}
      (n : ℕ) : Reached s m gates → Reached ((dispatcher D draw).after s (.initializeState n)) n []
  | applyGate {s : QPUBackend (δ × Submissions) (CPUSimulator γ)} {n : ℕ} {gates : List (GateOp ℝ)}
      (op : GateOp ℝ) : Reached s n gates →
      (s.deviceAvailable = false → OnRegister s.fallback.backend.numQubits op) →
      Reached ((dispatcher D draw).after s (.applyGate op)) n (gates ++ [op])
  | sample {s : QPUBackend (δ × Submissions) (CPUSimulator γ)} {n : ℕ} {gates : List (GateOp ℝ)}
      (qubits : List ℕ) (shots : ℕ) : Reached s n gates →
      (s.deviceAvailable = true → Handled (logged D) s qubits shots) →
      Reached ((dispatcher D draw).after s (.sample qubits shots)) n gates

/-- What the calls in a state submit and answer, `n` and `gates` being what they should be about:
a submission is of this circuit, and an answer of the fallback is that of a backend prepared
with it. -/
structure Answers (s : QPUBackend (δ × Submissions) (CPUSimulator γ)) (n : ℕ) (gates : List (GateOp ℝ)) :
    Prop where
  submits : ∀ qubits shots,
    (exec ((dispatcher D draw).sample qubits shots) s).2.device.2 =
      s.device.2 ++ if s.deviceAvailable then [(n, gates)] else []
  sample : ∀ qubits shots outcomes s', (s.deviceAvailable = true → Handled (logged D) s qubits shots) →
    exec ((dispatcher D draw).sample qubits shots) s = (.ok outcomes, s') →
    s'.deviceAvailable = false → ∃ b, Prepares n gates b ∧
      exec (CPUSimulator.sample draw qubits shots) ⟨b, s.fallback.rng⟩ = (.ok outcomes, s'.fallback)
  getState : ∀ v, (exec getState s).1 = .ok v → ∃ b, Prepares n gates b ∧ v = b.getState
  probabilities : ∀ v, (exec probabilities s).1 = .ok v → ∃ b, Prepares n gates b ∧ v = b.probabilities

/-- The invariant: the buffer has the gates while the device is available; otherwise the
fallback is prepared with them, if it can hold them. -/
structure Tracks (s : QPUBackend (δ × Submissions) (CPUSimulator γ)) (n : ℕ) (gates : List (GateOp ℝ)) :
    Prop where
  count : s.numQubits = n
  buffer : s.deviceAvailable = true → s.gateBuffer = gates
  holds : s.deviceAvailable = false → CanHold n gates → Prepares n gates s.fallback.backend

variable {D draw} {s : QPUBackend (δ × Submissions) (CPUSimulator γ)} {n : ℕ} {gates : List (GateOp ℝ)}

/-- After `initialize`, from any state. -/
theorem tracks_initializeState (s : QPUBackend (δ × Submissions) (CPUSimulator γ)) (n : ℕ) :
    Tracks ((dispatcher D draw).after s (.initializeState n)) n [] := by
  show Tracks (exec (QPUBackend.initializeState (CPUSimulator.simulator draw) n) s).2 n []
  unfold QPUBackend.initializeState
  rw [exec_modify_bind]
  rw [exec_get_bind]
  split
  · rename_i h
    exact ⟨rfl, fun _ => rfl, fun hf => absurd (h.symm.trans hf) (by decide)⟩
  · rename_i h
    rw [exec_initializeFallback]
    dsimp only
    cases hinit : s.fallback.backend.initializeState n with
    | error e =>
      -- the fallback cannot hold `n` qubits
      refine ⟨rfl, fun ht => absurd ht h, fun _ hc => ?_⟩
      obtain ⟨b₁, _, hb₁, _⟩ := hc.runs s.fallback.backend
      rw [hinit] at hb₁
      cases hb₁
    | ok b => exact ⟨rfl, fun ht => absurd ht h, fun _ _ => ⟨nofun, _, b, hinit, rfl⟩⟩

theorem Tracks.applyGate (h : Tracks s n gates) (op : GateOp ℝ) :
    Tracks ((dispatcher D draw).after s (.applyGate op)) n (gates ++ [op]) := by
  show Tracks (exec (QPUBackend.applyGate (CPUSimulator.simulator draw) op) s).2 n (gates ++ [op])
  unfold QPUBackend.applyGate
  rw [exec_get_bind]
  split
  · rename_i ha
    exact ⟨h.count, fun _ => congrArg (· ++ [op]) (h.buffer ha), fun hf => absurd (ha.symm.trans hf) (by decide)⟩
  · rename_i ha
    unfold onFallback CPUSimulator.simulator
    rw [exec_zoom, CPUSimulator.exec_onBackend]
    refine ⟨h.count, fun ht => absurd ht ha, fun hf hc => ?_⟩
    obtain ⟨hgates, hop⟩ := List.forall_mem_append.mp hc.readable
    obtain ⟨hgates', hop'⟩ := List.forall_mem_append.mp hc.onRegister
    obtain ⟨b, hb⟩ := (applyGate_ok_iff op s.fallback.backend).mpr (List.forall_mem_singleton.mp hop)
    dsimp only
    rw [hb]
    exact (h.holds hf ⟨hc.pos, hc.le, hgates, hgates'⟩).applyGate (List.forall_mem_singleton.mp hop') hb

/-- The submission of a call to `sample` is logged. -/
theorem exec_submission (s : QPUBackend (δ × Submissions) (CPUSimulator γ)) (qubits : List ℕ) (shots : ℕ) :
    ∃ r d, exec (submission (logged D) s qubits shots) s.device =
      (r, (d, s.device.2 ++ [(s.numQubits, s.gateBuffer)])) :=
  ⟨_, _, rfl⟩

theorem exec_recheck (d : δ × Submissions) (available : Bool) :
    exec (logged D).recheckDevice (d, available) = ((exec D.recheckDevice (d.1, available)).1,
      ((exec D.recheckDevice (d.1, available)).2.1, d.2), (exec D.recheckDevice (d.1, available)).2.2) := rfl

variable (D draw) in
/-- **What `sample` does**: without a device the fallback answers; otherwise the circuit is
submitted, and the call returns or throws with the device available, or throws without, or
it replays. -/
theorem sample_cases (h : Tracks s n gates) (qubits : List ℕ) (shots : ℕ) :
    (s.deviceAvailable = false ∧ exec ((dispatcher D draw).sample qubits shots) s =
        ((exec (CPUSimulator.sample draw qubits shots) s.fallback).1,
          { s with fallback := (exec (CPUSimulator.sample draw qubits shots) s.fallback).2 })) ∨
    (s.deviceAvailable = true ∧ ∃ d : δ,
      (∃ r, exec ((dispatcher D draw).sample qubits shots) s =
        (r, { s with device := (d, s.device.2 ++ [(n, gates)]) })) ∨
      (¬ Handled (logged D) s qubits shots ∧ ∃ e, exec ((dispatcher D draw).sample qubits shots) s =
        (.error e, { s with deviceAvailable := false, device := (d, s.device.2 ++ [(n, gates)]) })) ∨
      ((Handled (logged D) s qubits shots → 1 ≤ n → n ≤ 30 → ∀ op ∈ gates, OnRegister n op) ∧
        exec ((dispatcher D draw).sample qubits shots) s = exec (replay (CPUSimulator.simulator draw) qubits shots)
          { s with deviceAvailable := false, device := (d, s.device.2 ++ [(n, gates)]) })) := by
  rcases Bool.eq_false_or_eq_true s.deviceAvailable with ha | ha
  · refine .inr ⟨ha, ?_⟩
    obtain ⟨r, d, hsub⟩ := exec_submission (D := D) s qubits shots
    have hcount := h.count
    have hbuffer := h.buffer ha
    cases r with
    | ok outcomes =>
      rw [hcount, hbuffer] at hsub
      exact ⟨d, .inl ⟨_, exec_sample_ok ha hsub⟩⟩
    | error e =>
      have hrun : exec ((dispatcher D draw).sample qubits shots) s = _ := exec_sample_error ha hsub
      rw [hrun, exec_handleFailure]
      dsimp only
      rw [ha]
      have hrecheck := exec_recheck (D := D) (d, s.device.2 ++ [(s.numQubits, s.gateBuffer)]) true
      rcases hr : exec D.recheckDevice (d, true) with ⟨e' | u, d', _ | _⟩ <;> rw [hr] at hrecheck <;>
        dsimp only at hrecheck <;> rw [hrecheck, ← hcount, ← hbuffer] <;> dsimp only
      · exact ⟨d', .inr (.inl ⟨fun hh => Bool.false_ne_true (hh.recheck _ _ _ _ _ hsub hrecheck), e', rfl⟩)⟩
      · refine ⟨d', .inl ⟨.error e', ?_⟩⟩
        rw [← ha]
      · exact ⟨d', .inr (.inr ⟨fun hh => hh.replay _ _ _ hsub hrecheck, rfl⟩)⟩
      · refine ⟨d', .inl ⟨.error e, ?_⟩⟩
        rw [← ha]
  · refine .inl ⟨ha, ?_⟩
    have hrun : exec ((dispatcher D draw).sample qubits shots) s = _ := exec_sample_unavailable ha
    rw [hrun, onFallback, exec_zoom]
    rfl

/-- A replay of the circuit. -/
theorem Tracks.replay (h : Tracks s n gates) (ha : s.deviceAvailable = true) (d : δ × Submissions)
    (qubits : List ℕ) (shots : ℕ) :
    Tracks (exec (replay (CPUSimulator.simulator draw) qubits shots)
      { s with deviceAvailable := false, device := d }).2 n gates := by
  obtain rfl := h.count
  obtain rfl := h.buffer ha
  obtain ⟨f, hf⟩ := replay_frame draw qubits shots { s with deviceAvailable := false, device := d }
  refine ⟨by rw [hf], fun ht => ?_, fun _ hc =>
    replay_prepares draw (s := { s with deviceAvailable := false, device := d }) hc qubits shots⟩
  rw [hf] at ht
  cases ht

theorem Tracks.sample (h : Tracks s n gates) (qubits : List ℕ) (shots : ℕ)
    (hhandled : s.deviceAvailable = true → Handled (logged D) s qubits shots) :
    Tracks ((dispatcher D draw).after s (.sample qubits shots)) n gates := by
  show Tracks (exec ((dispatcher D draw).sample qubits shots) s).2 n gates
  rcases sample_cases D draw h qubits shots with ⟨-, hx⟩ | ⟨ha, d, ⟨r, hx⟩ | ⟨hn, -⟩ | ⟨-, hx⟩⟩
  · rw [hx]
    refine ⟨h.count, h.buffer, fun hf hc => ?_⟩
    have hb := backend_sample draw qubits shots s.fallback
    show Prepares n gates (exec (CPUSimulator.sample draw qubits shots) s.fallback).2.backend
    rw [hb]
    exact h.holds hf hc
  · rw [hx]
    exact ⟨h.count, h.buffer, h.holds⟩
  · exact absurd (hhandled ha) hn
  · rw [hx]
    exact h.replay ha _ qubits shots

theorem tracks_of_reached (h : Reached D draw s n gates) : Tracks s n gates := by
  induction h with
  | start s n => exact tracks_initializeState s n
  | initializeState n _ _ => exact tracks_initializeState _ n
  | applyGate op _ _ ih => exact ih.applyGate op
  | sample qubits shots _ hhandled ih => exact ih.sample qubits shots hhandled

/-! ### Answers -/

theorem exec_getState : (exec getState s).1 =
    if s.deviceAvailable then .error ⟨.runtimeError,
      "get_state() is not supported on a real/remote QPU backend: no " ++
        "real QPU can report exact statevector amplitudes. Use sample() instead."⟩
    else .ok s.fallback.backend.getState := by
  unfold getState
  rw [exec_get_bind]
  split <;> rfl

theorem exec_probabilities : (exec probabilities s).1 =
    if s.deviceAvailable then .error ⟨.runtimeError,
      "probabilities() is not supported on a real/remote QPU backend: " ++
        "no real QPU can report exact probabilities. Use sample() instead."⟩
    else .ok s.fallback.backend.probabilities := by
  unfold probabilities
  rw [exec_get_bind]
  split <;> rfl

/-- A submission is of the gates since `initialize`. -/
theorem sample_submits (ht : Tracks s n gates) (qubits : List ℕ) (shots : ℕ) :
    (exec ((dispatcher D draw).sample qubits shots) s).2.device.2 =
      s.device.2 ++ if s.deviceAvailable then [(n, gates)] else [] := by
  rcases sample_cases D draw ht qubits shots with ⟨ha, hx⟩ | ⟨ha, d, ⟨r, hx⟩ | ⟨-, e, hx⟩ | ⟨-, hx⟩⟩
  · rw [hx, ha]
    exact (List.append_nil _).symm
  · rw [hx, ha]
    rfl
  · rw [hx, ha]
    rfl
  · obtain ⟨f, hf⟩ := replay_frame draw qubits shots
      { s with deviceAvailable := false, device := (d, s.device.2 ++ [(n, gates)]) }
    rw [hx, hf, ha]
    rfl

/-- An answer of the fallback is that of a prepared one, at once or after a replay. -/
theorem sample_prepared (ht : Tracks s n gates)
    (hprep : s.deviceAvailable = false → Prepares n gates s.fallback.backend) {qubits : List ℕ} {shots : ℕ}
    {outcomes : List ℕ} {s' : QPUBackend (δ × Submissions) (CPUSimulator γ)}
    (hhandled : s.deviceAvailable = true → Handled (logged D) s qubits shots)
    (hx : exec ((dispatcher D draw).sample qubits shots) s = (.ok outcomes, s')) (hf : s'.deviceAvailable = false) :
    ∃ b, Prepares n gates b ∧
      exec (CPUSimulator.sample draw qubits shots) ⟨b, s.fallback.rng⟩ = (.ok outcomes, s'.fallback) := by
  rcases sample_cases D draw ht qubits shots with ⟨ha, hy⟩ | ⟨ha, d, ⟨r, hy⟩ | ⟨-, e, hy⟩ | ⟨hon, hy⟩⟩
  · rw [hy] at hx
    refine ⟨s.fallback.backend, hprep ha, ?_⟩
    have hfst := congrArg Prod.fst hx
    have hsnd := congrArg (fun r => r.2.fallback) hx
    exact Prod.ext hfst hsnd
  · -- the device answered
    rw [hy] at hx
    have hs' := congrArg (fun r => r.2.deviceAvailable) hx
    exact absurd (ha.symm.trans hs') (by rw [hf]; decide)
  · rw [hy] at hx
    cases hx
  · rw [hy] at hx
    have hon' := hon (hhandled ha)
    rw [← ht.count, ← ht.buffer ha] at hon'
    obtain ⟨b, hb, hsample⟩ := replay_ok draw hx hon'
    dsimp only at hb hsample
    rw [ht.count, ht.buffer ha] at hb
    exact ⟨b, hb, hsample⟩

/-- **The dispatcher and its fallback are consistent** in a state that is reached exactly if
the device is available there or the fallback can hold the circuit. -/
theorem answers_iff (h : Reached D draw s n gates) :
    Answers D draw s n gates ↔ (s.deviceAvailable = false → CanHold n gates) := by
  have ht := tracks_of_reached h
  constructor
  · intro hanswers ha
    obtain ⟨b, hb, -⟩ := hanswers.getState s.fallback.backend.getState (by rw [exec_getState, ha]; rfl)
    exact hb.canHold
  · intro hcan
    have hprep : s.deviceAvailable = false → Prepares n gates s.fallback.backend := fun ha =>
      ht.holds ha (hcan ha)
    refine ⟨sample_submits ht, fun qubits shots outcomes s' hhandled hx hf => sample_prepared ht hprep hhandled hx hf,
      fun v hv => ?_, fun v hv => ?_⟩
    · rw [exec_getState] at hv
      split at hv
      · cases hv
      · rename_i ha
        cases hv
        exact ⟨_, hprep (Bool.eq_false_iff.mpr ha), rfl⟩
    · rw [exec_probabilities] at hv
      split at hv
      · cases hv
      · rename_i ha
        cases hv
        exact ⟨_, hprep (Bool.eq_false_iff.mpr ha), rfl⟩

end Runs

/-! ### Two runs -/

/-- A device that fails, and is found to be gone. -/
def lostDevice : Device Unit (List ℕ) :=
  ⟨fun _ _ _ _ => throw ⟨.runtimeError, "no device"⟩, modify fun d => (d.1, false)⟩

/-- A dispatcher as constructed, with or without the device. -/
noncomputable def constructed (available : Bool) : QPUBackend (Unit × Submissions) (CPUSimulator Unit) :=
  ⟨available, 0, [], ((), []), ⟨.new fun _ => .inOrder, ()⟩⟩

noncomputable def zeroDraw (_ : StateVec ℝ) (rng : Unit) : ℕ × Unit := (0, rng)

def hadamard : GateOp ℝ := ⟨.H, [0], [], "", false, []⟩

/-- After `initialize 1`, a gate and a sample that loses the device. -/
noncomputable def replayed : QPUBackend (Unit × Submissions) (CPUSimulator Unit) :=
  (dispatcher lostDevice zeroDraw).afterCalls (constructed true)
    [.initializeState 1, .applyGate hadamard, .sample [] 1]

theorem answers_replayed : Answers lostDevice zeroDraw replayed 1 [hadamard] := by
  have hon : ∀ op ∈ [hadamard], OnRegister 1 op :=
    List.forall_mem_singleton.mpr (.inr (by simp [hadamard, GateType.qubits]))
  refine (answers_iff (.sample [] 1 (.applyGate hadamard (.start (constructed true) 1) nofun) fun _ => ?_)).mpr
    fun _ => ⟨le_rfl, by decide, List.forall_mem_singleton.mpr (.inr ⟨le_rfl, le_rfl⟩), hon⟩
  exact ⟨fun _ _ _ _ _ _ => nofun, fun _ _ _ _ _ _ _ => hon⟩

/-- After `initialize 1` without the device and `initialize 31`, which throws. -/
noncomputable def overfull : QPUBackend (Unit × Submissions) (CPUSimulator Unit) :=
  (dispatcher lostDevice zeroDraw).afterCalls (constructed false) [.initializeState 1, .initializeState 31]

/-- The fallback then answers with the one qubit it has. -/
theorem answers_fails : Reached lostDevice zeroDraw overfull 31 [] ∧
    (∃ v, (exec getState overfull).1 = .ok v ∧ v.size = 2) ∧ ¬ Answers lostDevice zeroDraw overfull 31 [] := by
  have hreached : Reached lostDevice zeroDraw overfull 31 [] := .initializeState 31 (.start (constructed false) 1)
  have hunavailable : overfull.deviceAvailable = false := rfl
  have hanswer : (exec getState overfull).1 = .ok overfull.fallback.backend.getState := by
    rw [exec_getState, hunavailable]
    rfl
  refine ⟨hreached, ⟨_, hanswer, rfl⟩, fun h => ?_⟩
  obtain ⟨b, hb, -⟩ := h.getState _ hanswer
  exact absurd hb.canHold.le (by decide)

end Qsycl.QPUBackend
