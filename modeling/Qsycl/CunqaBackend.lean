/-
# The CUNQA backend

`CUNQABackend` (`cunqa_backend.cpp`) looks up a virtual QPU (vQPU) in a
registry, buffers the gates of a circuit and sends the whole circuit to the
vQPU when `sample` is called. When that fails it looks up the registry again,
and either sends the circuit to the vQPU found now or replays it on a local
fallback.

A vQPU has a capacity, which only `initialize` checks. `sent_fits_iff` says
exactly which runs send no circuit to a vQPU that is too small for it.
-/
import Qsycl.QpuBackend
import Qsycl.Json
import Qsycl.Translators

namespace Qsycl

open Runs

/-! ### The registry and the wire -/

structure QpuRegistryEntry where
  id : Bytes
  endpoint : Bytes
  device : Json
  maxQubits : ℕ

structure Task where
  shots : ℕ
  method : String
  avoidParallelization : Bool
  numClbits : ℕ
  numQubits : ℕ
  device : Json
  instructions : List (Instruction ℝ)
  sendingTo : List Json
  isDynamic : Bool
  id : String

/-- What the backend uses of the machine, on a state of the machine's own: `readRegistry`
parses the registry (`none` if there is no file), `connect`, `send` and `receive` are
those of the socket (`none` if no reply came), and `outcomes` reads the reply to a circuit
with some number of shots. -/
structure Network (ν ρ : Type) where
  readRegistry : Run Exn ν (Option Json)
  connect : QpuRegistryEntry → Run Exn ν Unit
  send : QpuRegistryEntry → Task → Run Exn ν Unit
  receive : QpuRegistryEntry → Run Exn ν (Option Bytes)
  outcomes : ℕ → Bytes → Except Exn ρ

def registryEntry (id : Bytes) (info : Json) : Except Exn QpuRegistryEntry := do
  let net ← info.atKey "net"
  let endpoint ← (← net.atKey "endpoint").getString
  let device ← net.atKey "device"
  let maxQubits ← (← (← info.atKey "backend").atKey "n_qubits").getSize
  return ⟨id, endpoint, device, maxQubits⟩

def discoverQpus {ν ρ : Type} (N : Network ν ρ) : Run Exn ν (List QpuRegistryEntry) := do
  match ← N.readRegistry with
  | none => return []
  | some registry => registry.items.mapM fun e => liftM (registryEntry e.1 e.2)

/-- The counts of a reply: Aer nests them, other simulators do not. -/
def cunqaCounts (response : Json) : Except Exn Json :=
  if response.contains "results" then do
    let result ← (← response.atKey "results").atIndex 0
    (← result.atKey "data").atKey "counts"
  else if response.contains "counts" then response.atKey "counts"
  else
    throw ⟨.runtimeError, "CUNQABackend: unrecognized result format from vQPU (no " ++
      "'results' or 'counts' key)"⟩

/-- How many outcomes a vector holds: `max_size()`, which is `PTRDIFF_MAX` bytes, or as many as
there is memory for. -/
structure OutcomeVector where
  maxSize : ℕ
  maxSize_lt : maxSize < 2 ^ 60

namespace OutcomeVector

variable (V : OutcomeVector)

def reserve (shots : ℕ) : Except Exn Unit :=
  if V.maxSize < shots then throw ⟨.lengthError, "vector::reserve"⟩ else return ()

/-- `n` times `push_back`. -/
def pushBack (outcomes : List ℕ) (value n : ℕ) : Except Exn (List ℕ) :=
  if V.maxSize < outcomes.length + n then throw ⟨.lengthError, "vector::_M_realloc_append"⟩
  else return outcomes ++ List.replicate n value

end OutcomeVector

/-- One outcome for each shot of each bitstring. -/
def expandCounts (V : OutcomeVector) (shots : ℕ) (counts : List (Bytes × Json)) : Except Exn (List ℕ) := do
  V.reserve shots
  counts.foldlM (fun outcomes e => do
    let value ← stoull 2 e.1
    let n ← e.2.getSize
    V.pushBack outcomes value n) []

def cunqaOutcomes (V : OutcomeVector) (parse : Bytes → Except Exn Json) (shots : ℕ) (reply : Bytes) :
    Except Exn (List ℕ) := do
  let response ← parse reply
  if response.contains "ERROR" then do
    let error ← (← response.atKey "ERROR").getString
    throw ⟨.runtimeError, "CUNQABackend: vQPU reported an error: " ++ text error⟩
  else do
    let counts ← cunqaCounts response
    expandCounts V shots counts.items

section Instructions

attribute [local instance] atLeastTwo_two

noncomputable def gateInstructions (op : GateOp ℝ) : Except Exn (List (Instruction ℝ)) := do
  (← deconstructGate op).mapM gateToInstruction

noncomputable def taskInstructions (numQubits : ℕ) (gateBuffer : List (GateOp ℝ)) (qubits : List ℕ) :
    Except Exn (List (Instruction ℝ)) :=
  cunqaInstructions numQubits gateBuffer qubits

end Instructions

/-! ### The backend -/

/-- The members of the backend, with the state of the machine and the number of the next
circuit. -/
structure CUNQABackend (ν φ : Type) where
  usingCunqa : Bool
  qpu : Option QpuRegistryEntry
  numQubits : ℕ
  gateBuffer : List (GateOp ℝ)
  circuitCounter : ℕ
  network : ν
  fallback : φ

namespace CUNQABackend

variable {ν φ ρ α : Type}

def onNetwork (x : Run Exn ν α) : Run Exn (CUNQABackend ν φ) α :=
  zoom CUNQABackend.network (fun n s => { s with network := n }) x

def onFallback (x : Run Exn φ α) : Run Exn (CUNQABackend ν φ) α :=
  zoom CUNQABackend.fallback (fun f s => { s with fallback := f }) x

variable (N : Network ν ρ) (F : Simulator φ ρ)

/-- Takes the first vQPU of the registry. -/
def discoverQpu : Run Exn (CUNQABackend ν φ) Unit :=
  tryCatch
    (do
      match ← onNetwork (discoverQpus N) with
      | [] => modify fun s => { s with usingCunqa := false, qpu := none }
      | entry :: _ => do
        onNetwork (N.connect entry)
        modify fun s => { s with usingCunqa := true, qpu := some entry })
    fun _ => modify fun s => { s with usingCunqa := false, qpu := none }

def new (circuitCounter : ℕ) (network : ν) (fallback : φ) : CUNQABackend ν φ :=
  (exec (discoverQpu N) ⟨false, none, 0, [], circuitCounter, network, fallback⟩).2

def initializeState (numQubits : ℕ) : Run Exn (CUNQABackend ν φ) Unit := do
  modify fun s => { s with numQubits := numQubits, gateBuffer := [] }
  let s ← get
  if s.usingCunqa then
    match s.qpu with
    | some entry =>
      if entry.maxQubits < numQubits then
        throw ⟨.runtimeError, "CUNQABackend: circuit needs " ++ toString numQubits ++
          " qubits but the discovered vQPU only supports " ++ toString entry.maxQubits⟩
      else pure ()
    | none => pure ()
  else onFallback (F.initializeState numQubits)

def applyGate (op : GateOp ℝ) : Run Exn (CUNQABackend ν φ) Unit := do
  let s ← get
  if s.usingCunqa then
    modify fun s => { s with gateBuffer := s.gateBuffer ++ [op] } -- buffered, not executed
  else onFallback (F.applyGate op)

def task (s : CUNQABackend ν φ) (entry : QpuRegistryEntry) (instructions : List (Instruction ℝ))
    (qubits : List ℕ) (shots : ℕ) : Task where
  shots := shots
  method := "automatic"
  avoidParallelization := false
  numClbits := (cunqaMeasured s.numQubits qubits).length
  numQubits := s.numQubits
  device := entry.device
  instructions := instructions
  sendingTo := []
  isDynamic := false
  id := "sycl_cunqa_" ++ toString s.circuitCounter

noncomputable def runOnCunqa (qubits : List ℕ) (shots : ℕ) : Run Exn (CUNQABackend ν φ) ρ := do
  let s ← get
  let instructions ← taskInstructions s.numQubits s.gateBuffer qubits
  match s.qpu with
  | none => throw ⟨.undefined, "null pointer"⟩
  | some entry => do
    modify fun s => { s with circuitCounter := s.circuitCounter + 1 }
    onNetwork (N.send entry (s.task entry instructions qubits shots))
    match ← onNetwork (N.receive entry) with
    | none => throw ⟨.runtimeError, "CUNQABackend: no reply received from vQPU"⟩
    | some reply => liftM (N.outcomes shots reply)

def replay (qubits : List ℕ) (shots : ℕ) : Run Exn (CUNQABackend ν φ) ρ := do
  let s ← get
  onFallback (F.initializeState s.numQubits)
  s.gateBuffer.forM fun op => onFallback (F.applyGate op)
  onFallback (F.sample qubits shots)

noncomputable def handleFailure (qubits : List ℕ) (shots : ℕ) : Run Exn (CUNQABackend ν φ) ρ := do
  discoverQpu N
  let s ← get
  if s.usingCunqa then runOnCunqa N qubits shots else replay F qubits shots

noncomputable def sample (qubits : List ℕ) (shots : ℕ) : Run Exn (CUNQABackend ν φ) ρ := do
  let s ← get
  if s.usingCunqa then tryCatch (runOnCunqa N qubits shots) fun _ => handleFailure N F qubits shots
  else onFallback (F.sample qubits shots)

noncomputable def simulator : Simulator (CUNQABackend ν φ) ρ := ⟨initializeState F, applyGate F, sample N F⟩

end CUNQABackend

/-! ### What is sent -/

/-- The circuits that were sent, each with the vQPU. -/
abbrev Sent := List (QpuRegistryEntry × Task)

/-- The vQPU is large enough for the circuit. -/
def Fits (t : QpuRegistryEntry × Task) : Prop := t.2.numQubits ≤ t.1.maxQubits

/-- The same machine, with a record of what is sent. -/
def Network.logged {ν ρ : Type} (N : Network ν ρ) : Network (ν × Sent) ρ where
  readRegistry := zoom Prod.fst (fun n p => (n, p.2)) N.readRegistry
  connect entry := zoom Prod.fst (fun n p => (n, p.2)) (N.connect entry)
  send entry task := do
    modify fun p => (p.1, p.2 ++ [(entry, task)])
    zoom Prod.fst (fun n p => (n, p.2)) (N.send entry task)
  receive entry := zoom Prod.fst (fun n p => (n, p.2)) (N.receive entry)
  outcomes := N.outcomes

/-- Every gate has a translation, so that the circuit can be sent at all. -/
def Translatable (gates : List (GateOp ℝ)) : Prop :=
  ∀ op ∈ gates, ∃ is, gateInstructions op = .ok is

theorem taskInstructions_ok_iff {n : ℕ} {gates : List (GateOp ℝ)} {qubits : List ℕ} :
    (∃ is, taskInstructions n gates qubits = .ok is) ↔ Translatable gates := by
  unfold Translatable
  rw [← mapM_ok_iff]
  constructor
  · rintro ⟨is, h⟩
    obtain ⟨lists, hl, -⟩ := bind_eq_ok.mp h
    exact ⟨lists, hl⟩
  · rintro ⟨lists, hl⟩
    exact ⟨_, bind_eq_ok.mpr ⟨lists, hl, rfl⟩⟩

namespace CUNQABackend

variable {ν φ ρ : Type} (N : Network ν ρ) (F : Simulator φ ρ)

theorem sent_discoverQpus (n : ν × Sent) : (exec (discoverQpus N.logged) n).2.2 = n.2 := by
  have hread : exec N.logged.readRegistry n =
      ((exec N.readRegistry n.1).1, ((exec N.readRegistry n.1).2, n.2)) := rfl
  unfold discoverQpus
  rw [exec_bind, hread]
  rcases exec N.readRegistry n.1 with ⟨e | registry, n'⟩
  · rfl
  · rcases registry with _ | registry
    · rfl
    · dsimp only
      rw [exec_mapM_lift]

variable {s : CUNQABackend (ν × Sent) φ} {qubits : List ℕ} {shots : ℕ}

/-- After `discover_qpu` the flag tells whether there is a vQPU. -/
theorem exec_discoverQpu (s : CUNQABackend (ν × Sent) φ) : ∃ (qpu : Option QpuRegistryEntry) (n : ν),
    exec (discoverQpu N.logged) s =
      (.ok (), { s with usingCunqa := qpu.isSome, qpu := qpu, network := (n, s.network.2) }) := by
  have hsent := sent_discoverQpus N s.network
  unfold discoverQpu
  rw [exec_tryCatch, exec_bind, onNetwork, exec_zoom]
  rcases hr : exec (discoverQpus N.logged) s.network with ⟨e | candidates, n, sent⟩
  · rw [hr] at hsent
    obtain rfl : sent = s.network.2 := hsent
    exact ⟨none, n, rfl⟩
  · rw [hr] at hsent
    obtain rfl : sent = s.network.2 := hsent
    rcases candidates with _ | ⟨entry, candidates⟩
    · exact ⟨none, n, rfl⟩
    · have hconnect : exec (N.logged.connect entry) (n, s.network.2) =
          ((exec (N.connect entry) n).1, ((exec (N.connect entry) n).2, s.network.2)) := rfl
      dsimp only
      rw [exec_bind, onNetwork, exec_zoom]
      dsimp only
      rw [hconnect]
      rcases exec (N.connect entry) n with ⟨e | u, n'⟩
      · exact ⟨none, n', rfl⟩
      · exact ⟨some entry, n', rfl⟩

variable (qubits shots) in
/-- A circuit with a gate that has no translation is not sent. -/
theorem exec_runOnCunqa_error (h : ¬ Translatable s.gateBuffer) :
    ∃ e, exec (runOnCunqa N.logged qubits shots) s = (.error e, s) := by
  unfold runOnCunqa
  rw [exec_get_bind]
  rw [exec_bind, exec_lift]
  rcases hi : taskInstructions s.numQubits s.gateBuffer qubits with e | is
  · exact ⟨e, rfl⟩
  · exact absurd (taskInstructions_ok_iff.mp ⟨is, hi⟩) h

variable (qubits shots) in
/-- The circuit is sent, whatever comes of it. -/
theorem exec_runOnCunqa (h : Translatable s.gateBuffer) {entry : QpuRegistryEntry} (hq : s.qpu = some entry) :
    ∃ r n t, t.numQubits = s.numQubits ∧ exec (runOnCunqa N.logged qubits shots) s =
      (r, { s with
        circuitCounter := s.circuitCounter + 1
        network := (n, s.network.2 ++ [(entry, t)]) }) := by
  obtain ⟨inUse, qpu, numQubits, gates, counter, ⟨n, sent⟩, fallback⟩ := s
  obtain rfl : qpu = some entry := hq
  obtain ⟨is, hi⟩ : ∃ is, taskInstructions numQubits gates qubits = .ok is := taskInstructions_ok_iff.mpr h
  unfold runOnCunqa
  rw [exec_get_bind]
  rw [exec_bind, exec_lift, hi]
  dsimp only
  rw [exec_modify_bind]
  rw [exec_bind, onNetwork, exec_zoom]
  dsimp only [Network.logged]
  rw [exec_modify_bind]
  rw [exec_zoom]
  dsimp only
  rcases exec (N.send entry _) n with ⟨e | u, n₁⟩
  · exact ⟨.error e, n₁, _, rfl, rfl⟩
  · dsimp only
    rw [exec_bind, onNetwork, exec_zoom]
    dsimp only
    rw [exec_zoom]
    dsimp only
    rcases exec (N.receive entry) n₁ with ⟨e | reply, n₂⟩
    · exact ⟨.error e, n₂, _, rfl, rfl⟩
    · rcases reply with _ | reply
      · exact ⟨_, n₂, _, rfl, rfl⟩
      · exact ⟨_, n₂, _, rfl, rfl⟩

variable (qubits shots) in
/-- A replay changes the fallback only. -/
theorem exec_replay (s : CUNQABackend (ν × Sent) φ) : ∃ r f,
    exec (replay F qubits shots) s = (r, { s with fallback := f }) := by
  have hput : ∀ (f : φ) (s' : CUNQABackend (ν × Sent) φ),
      (∃ f, s' = { s with fallback := f }) → ∃ f', { s' with fallback := f } = { s with fallback := f' } := by
    rintro f _ ⟨f', rfl⟩
    exact ⟨f, rfl⟩
  have hall : Preserves (fun s' => ∃ f, s' = { s with fallback := f }) (replay F qubits shots) := by
    unfold replay onFallback
    refine .bind .get fun s₁ => .bind (.zoom hput _) fun _ => ?_
    exact .bind (.forM (fun _ => .zoom hput _) _) fun _ => .zoom hput _
  obtain ⟨f, hf⟩ := hall s ⟨s.fallback, rfl⟩
  exact ⟨_, f, Prod.ext rfl hf⟩

/-! ### The condition -/

section Runs

/-- The condition on a call, `accepted` being whether the last `initialize` returned: a
circuit that can be sent is sampled only if its qubit count was accepted, and if the
submission fails, a vQPU that is found then is large enough too. -/
def Admissible (s : CUNQABackend (ν × Sent) φ) (accepted : Bool) : Simulator.Call → Prop
  | .sample qubits shots => s.usingCunqa = true → Translatable s.gateBuffer →
    accepted = true ∧ ∀ e s', exec (runOnCunqa N.logged qubits shots) s = (.error e, s') →
      ∀ entry, (exec (discoverQpu N.logged) s').2.qpu = some entry → s.numQubits ≤ entry.maxQubits
  | _ => True

/-- Whether the last `initialize` returned. -/
noncomputable def accepts (s : CUNQABackend (ν × Sent) φ) (accepted : Bool) : Simulator.Call → Bool
  | .initializeState numQubits => (exec (initializeState F numQubits) s).1.toBool
  | _ => accepted

/-- Every call of a run from `s` on meets the condition. -/
def AllAdmissible : CUNQABackend (ν × Sent) φ → Bool → List Simulator.Call → Prop
  | _, _, [] => True
  | s, accepted, call :: calls => Admissible N s accepted call ∧
    AllAdmissible ((simulator N.logged F).after s call) (accepts F s accepted call) calls

/-- What a call to `sample` does: the circuits in `new` are sent. -/
structure Sampled (s s' : CUNQABackend (ν × Sent) φ) (qubits : List ℕ) (shots : ℕ) (new : Sent) : Prop where
  count : s'.numQubits = s.numQubits
  buffer : s'.gateBuffer = s.gateBuffer
  sent : s'.network.2 = s.network.2 ++ new
  inUse : s'.usingCunqa = true → s.usingCunqa = true ∧ ∃ entry, s'.qpu = some entry
  /-- what is sent fits if the vQPU in use and the one found after a failure are large enough -/
  fits : (∀ t ∈ new, Fits t) ↔ (s.usingCunqa = true → Translatable s.gateBuffer →
    (∀ entry, s.qpu = some entry → s.numQubits ≤ entry.maxQubits) ∧
    ∀ e s₁, exec (runOnCunqa N.logged qubits shots) s = (.error e, s₁) →
      ∀ entry, (exec (discoverQpu N.logged) s₁).2.qpu = some entry → s.numQubits ≤ entry.maxQubits)
  /-- the vQPU in use afterwards got the circuit -/
  current : s'.usingCunqa = true → Translatable s.gateBuffer → ∀ entry, s'.qpu = some entry →
    ∃ t ∈ new, t.1 = entry ∧ t.2.numQubits = s.numQubits

variable (qubits shots) in
/-- After a failure the circuit is replayed on the fallback or sent to the vQPU found. -/
theorem handleFailure_cases (s : CUNQABackend (ν × Sent) φ) :
    ((exec (discoverQpu N.logged) s).2.qpu = none ∧ ∃ r n f,
      exec (handleFailure N.logged F qubits shots) s =
        (r, { s with usingCunqa := false, qpu := none, network := (n, s.network.2), fallback := f })) ∨
    ∃ entry n, (exec (discoverQpu N.logged) s).2.qpu = some entry ∧
      exec (handleFailure N.logged F qubits shots) s = exec (runOnCunqa N.logged qubits shots)
        { s with usingCunqa := true, qpu := some entry, network := (n, s.network.2) } := by
  obtain ⟨qpu, n, hdiscover⟩ := exec_discoverQpu N s
  unfold handleFailure
  rw [exec_bind, hdiscover]
  dsimp only
  rw [exec_get_bind]
  rcases qpu with _ | entry
  · obtain ⟨r, f, hr⟩ := exec_replay F qubits shots
      { s with usingCunqa := none.isSome, qpu := none, network := (n, s.network.2) }
    exact .inl ⟨rfl, r, n, f, hr⟩
  · exact .inr ⟨entry, n, rfl, rfl⟩

theorem sampled_untranslatable (h : s.usingCunqa = true) (hb : ¬ Translatable s.gateBuffer) :
    Sampled N s (exec (sample N.logged F qubits shots) s).2 qubits shots [] := by
  obtain ⟨e, hx⟩ := exec_runOnCunqa_error N qubits shots hb
  have hfits : (∀ t ∈ ([] : Sent), Fits t) ↔ (s.usingCunqa = true → Translatable s.gateBuffer →
      (∀ entry, s.qpu = some entry → s.numQubits ≤ entry.maxQubits) ∧
      ∀ e s₁, exec (runOnCunqa N.logged qubits shots) s = (.error e, s₁) →
        ∀ entry, (exec (discoverQpu N.logged) s₁).2.qpu = some entry → s.numQubits ≤ entry.maxQubits) :=
    ⟨fun _ _ ht => absurd ht hb, fun _ _ ht => nomatch ht⟩
  unfold sample
  rw [exec_get_bind]
  rw [if_pos h, exec_tryCatch, hx]
  dsimp only
  rcases handleFailure_cases N F qubits shots s with ⟨-, r, n, f, hr⟩ | ⟨entry, n, -, hr⟩
  · rw [hr]
    exact ⟨rfl, rfl, (List.append_nil _).symm, nofun, hfits, nofun⟩
  · obtain ⟨e', hx'⟩ := exec_runOnCunqa_error N qubits shots
      (s := { s with usingCunqa := true, qpu := some entry, network := (n, s.network.2) }) hb
    rw [hr, hx']
    exact ⟨rfl, rfl, (List.append_nil _).symm, fun _ => ⟨h, entry, rfl⟩, hfits, fun _ ht => absurd ht hb⟩

theorem sampled_translatable (h : s.usingCunqa = true) {entry : QpuRegistryEntry} (hq : s.qpu = some entry)
    (hb : Translatable s.gateBuffer) :
    ∃ new, Sampled N s (exec (sample N.logged F qubits shots) s).2 qubits shots new := by
  obtain ⟨r, n, t, ht, hx⟩ := exec_runOnCunqa N qubits shots hb hq
  have hfirst : Fits (entry, t) ↔ ∀ entry, s.qpu = some entry → s.numQubits ≤ entry.maxQubits := by
    show t.numQubits ≤ entry.maxQubits ↔ _
    rw [hq, ht]
    exact ⟨fun hc _ he => Option.some.inj he ▸ hc, fun hc => hc entry rfl⟩
  unfold sample
  rw [exec_get_bind]
  rw [if_pos h, exec_tryCatch, hx]
  rcases r with e | a
  · dsimp only
    set s₁ : CUNQABackend (ν × Sent) φ := { s with
      circuitCounter := s.circuitCounter + 1
      network := (n, s.network.2 ++ [(entry, t)]) } with hs₁
    have hfound : (∀ e s₂, exec (runOnCunqa N.logged qubits shots) s = (.error e, s₂) →
        ∀ entry, (exec (discoverQpu N.logged) s₂).2.qpu = some entry → s.numQubits ≤ entry.maxQubits) ↔
        ∀ entry, (exec (discoverQpu N.logged) s₁).2.qpu = some entry → s.numQubits ≤ entry.maxQubits := by
      rw [hx]
      constructor
      · exact fun hall => hall e s₁ rfl
      · rintro hall e' s₂ he
        obtain ⟨-, rfl⟩ := Prod.mk.inj he
        exact hall
    rcases handleFailure_cases N F qubits shots s₁
      with ⟨hnone, r, n', f, hr⟩ | ⟨entry', n', hsome, hr⟩
    · refine ⟨[(entry, t)], ?_⟩
      rw [hr]
      refine ⟨rfl, rfl, rfl, nofun, ?_, nofun⟩
      rw [List.forall_mem_singleton, hfirst, hfound, hnone]
      exact ⟨fun hf _ _ => ⟨hf, nofun⟩, fun hall => (hall h hb).1⟩
    · obtain ⟨r, n₂, t', ht', hx'⟩ := exec_runOnCunqa N qubits shots
        (s := { s₁ with usingCunqa := true, qpu := some entry', network := (n', s₁.network.2) }) hb rfl
      have hsecond : Fits (entry', t') ↔ s.numQubits ≤ entry'.maxQubits := by
        show t'.numQubits ≤ _ ↔ _
        rw [ht']
      refine ⟨[(entry, t), (entry', t')], ?_⟩
      rw [hr, hx']
      refine ⟨rfl, rfl, List.append_assoc _ _ _, fun _ => ⟨h, entry', rfl⟩, ?_, fun _ _ entry₂ he =>
        ⟨_, List.mem_cons_of_mem _ List.mem_cons_self, Option.some.inj he, ht'⟩⟩
      rw [List.forall_mem_cons, List.forall_mem_singleton, hfirst, hsecond, hfound, hsome]
      constructor
      · rintro ⟨hf, hf'⟩ _ _
        exact ⟨hf, fun _ he => Option.some.inj he ▸ hf'⟩
      · intro hall
        exact ⟨(hall h hb).1, (hall h hb).2 entry' rfl⟩
  · refine ⟨[(entry, t)], rfl, rfl, rfl, fun _ => ⟨h, entry, hq⟩, ?_, ?_⟩
    · rw [List.forall_mem_singleton, hfirst, hx]
      exact ⟨fun hf _ _ => ⟨hf, nofun⟩, fun hall => (hall h hb).1⟩
    · intro _ _ entry' he
      exact ⟨_, List.mem_cons_self, Option.some.inj (hq.symm.trans he), ht⟩

theorem sampled (hd : s.usingCunqa = true → ∃ entry, s.qpu = some entry) (qubits : List ℕ) (shots : ℕ) :
    ∃ new, Sampled N s ((simulator N.logged F).after s (.sample qubits shots)) qubits shots new := by
  show ∃ new, Sampled N s (exec (sample N.logged F qubits shots) s).2 qubits shots new
  rcases Bool.eq_false_or_eq_true s.usingCunqa with h | h
  · by_cases hb : Translatable s.gateBuffer
    · obtain ⟨entry, hq⟩ := hd h
      exact sampled_translatable N F h hq hb
    · exact ⟨[], sampled_untranslatable N F h hb⟩
  · have hx : exec (sample N.logged F qubits shots) s = exec (onFallback (F.sample qubits shots)) s := by
      unfold sample
      rw [exec_get_bind]
      rw [if_neg (by rw [h]; decide)]
    rw [hx]
    refine ⟨[], rfl, rfl, (List.append_nil _).symm, fun hu => ?_, ⟨fun _ hu => ?_, fun _ _ ht => nomatch ht⟩,
      fun hu => ?_⟩
    all_goals exact absurd (h.symm.trans hu) (by decide)

/-! ### Runs -/

/-- While the backend is in use there is a vQPU. -/
def Discovered (s : CUNQABackend (ν × Sent) φ) : Prop := s.usingCunqa = true → ∃ entry, s.qpu = some entry

/-- The invariant: `initialize` returned exactly if the vQPU in use is large enough, as long as
the circuit can be sent. -/
structure Inv (s : CUNQABackend (ν × Sent) φ) (accepted : Bool) : Prop where
  discovered : Discovered s
  capacity : s.usingCunqa = true → Translatable s.gateBuffer →
    (accepted = true ↔ ∀ entry, s.qpu = some entry → s.numQubits ≤ entry.maxQubits)

theorem inv_new (counter : ℕ) (n : ν) (f : φ) : Inv (new N.logged counter (n, []) f) true := by
  obtain ⟨qpu, n', hdiscover⟩ := exec_discoverQpu N ⟨false, none, 0, [], counter, (n, []), f⟩
  unfold new
  rw [hdiscover]
  refine ⟨fun hu => Option.isSome_iff_exists.mp hu, fun _ _ => ?_⟩
  exact ⟨fun _ entry _ => Nat.zero_le _, fun _ => rfl⟩

/-- The state after `initialize` on a vQPU. -/
theorem exec_initializeState (h : s.usingCunqa = true) {entry : QpuRegistryEntry} (hq : s.qpu = some entry)
    (n : ℕ) : (exec (initializeState F n) s).2 = { s with numQubits := n, gateBuffer := [] } ∧
      ((exec (initializeState F n) s).1.toBool = true ↔ n ≤ entry.maxQubits) := by
  unfold initializeState
  rw [exec_modify_bind]
  rw [exec_get_bind]
  rw [if_pos h, hq]
  dsimp only
  by_cases hn : entry.maxQubits < n
  · rw [if_pos hn]
    refine ⟨rfl, nofun, fun hle => ?_⟩
    omega
  · rw [if_neg hn]
    refine ⟨rfl, fun _ => ?_, fun _ => rfl⟩
    omega

/-- Without a vQPU the fallback is initialized, and gates are applied to it. -/
theorem exec_initializeState_fallback (h : s.usingCunqa = false) (n : ℕ) : ∃ f,
    (exec (initializeState F n) s).2 = { s with numQubits := n, gateBuffer := [], fallback := f } := by
  unfold initializeState
  rw [exec_modify_bind]
  rw [exec_get_bind]
  rw [if_neg (by rw [h]; decide)]
  exact ⟨_, rfl⟩

theorem exec_applyGate (h : s.usingCunqa = true) (op : GateOp ℝ) :
    (exec (applyGate F op) s).2 = { s with gateBuffer := s.gateBuffer ++ [op] } := by
  unfold applyGate
  rw [exec_get_bind]
  rw [if_pos h, exec_modify]

theorem exec_applyGate_fallback (h : s.usingCunqa = false) (op : GateOp ℝ) : ∃ f,
    (exec (applyGate F op) s).2 = { s with fallback := f } := by
  unfold applyGate
  rw [exec_get_bind]
  rw [if_neg (by rw [h]; decide)]
  exact ⟨_, rfl⟩

/-- Only `sample` sends circuits, and there is a vQPU after every call. -/
theorem after_discovered (hd : Discovered s) (call : Simulator.Call) :
    Discovered ((simulator N.logged F).after s call) ∧
      s.network.2 <+: ((simulator N.logged F).after s call).network.2 := by
  rcases call with n | op | ⟨qubits, shots⟩
  · show Discovered (exec (initializeState F n) s).2 ∧ _ <+: (exec (initializeState F n) s).2.network.2
    rcases Bool.eq_false_or_eq_true s.usingCunqa with h | h
    · obtain ⟨entry, hq⟩ := hd h
      rw [(exec_initializeState F h hq n).1]
      exact ⟨hd, List.prefix_refl _⟩
    · obtain ⟨f, hf⟩ := exec_initializeState_fallback F h n
      rw [hf]
      exact ⟨hd, List.prefix_refl _⟩
  · show Discovered (exec (applyGate F op) s).2 ∧ _ <+: (exec (applyGate F op) s).2.network.2
    rcases Bool.eq_false_or_eq_true s.usingCunqa with h | h
    · rw [exec_applyGate F h op]
      exact ⟨hd, List.prefix_refl _⟩
    · obtain ⟨f, hf⟩ := exec_applyGate_fallback F h op
      rw [hf]
      exact ⟨hd, List.prefix_refl _⟩
  · obtain ⟨new, hnew⟩ := sampled N F hd qubits shots
    exact ⟨fun hu => (hnew.inUse hu).2, new, hnew.sent.symm⟩

theorem sent_afterCalls : ∀ (calls : List Simulator.Call) {s : CUNQABackend (ν × Sent) φ}, Discovered s →
    s.network.2 <+: ((simulator N.logged F).afterCalls s calls).network.2
  | [], _, _ => List.prefix_refl _
  | call :: calls, _, hd =>
    (after_discovered N F hd call).2.trans (sent_afterCalls calls (after_discovered N F hd call).1)

/-- **A call** sends only circuits that fit exactly if it meets the condition, and it then keeps
the invariant. -/
theorem after_inv {accepted : Bool} (hi : Inv s accepted) (call : Simulator.Call) : ∃ new,
    ((simulator N.logged F).after s call).network.2 = s.network.2 ++ new ∧
    ((∀ t ∈ new, Fits t) ↔ Admissible N s accepted call) ∧
    (Admissible N s accepted call → Inv ((simulator N.logged F).after s call) (accepts F s accepted call)) := by
  have hd := (after_discovered N F hi.discovered call).1
  rcases call with n | op | ⟨qubits, shots⟩
  · have hx : (simulator N.logged F).after s (.initializeState n) = (exec (initializeState F n) s).2 := rfl
    rcases Bool.eq_false_or_eq_true s.usingCunqa with h | h
    · obtain ⟨entry, hq⟩ := hi.discovered h
      obtain ⟨hstate, hbool⟩ := exec_initializeState F h hq n
      rw [hx, hstate] at hd ⊢
      refine ⟨[], (List.append_nil _).symm, ⟨fun _ => trivial, fun _ _ ht => nomatch ht⟩, fun _ => ⟨hd, ?_⟩⟩
      intro _ _
      show (exec (initializeState F n) s).1.toBool = true ↔ ∀ entry, s.qpu = some entry → n ≤ entry.maxQubits
      rw [hbool, hq]
      exact ⟨fun hc _ he => Option.some.inj he ▸ hc, fun hc => hc entry rfl⟩
    · obtain ⟨f, hf⟩ := exec_initializeState_fallback F h n
      rw [hx, hf] at hd ⊢
      refine ⟨[], (List.append_nil _).symm, ⟨fun _ => trivial, fun _ _ ht => nomatch ht⟩, fun _ => ⟨hd, ?_⟩⟩
      exact fun hu => absurd (h.symm.trans hu) (by decide)
  · have hx : (simulator N.logged F).after s (.applyGate op) = (exec (applyGate F op) s).2 := rfl
    rcases Bool.eq_false_or_eq_true s.usingCunqa with h | h
    · rw [hx, exec_applyGate F h op] at hd ⊢
      refine ⟨[], (List.append_nil _).symm, ⟨fun _ => trivial, fun _ _ ht => nomatch ht⟩, fun _ => ⟨hd, ?_⟩⟩
      intro _ hb
      exact hi.capacity h fun op' hop => hb op' (List.mem_append_left _ hop)
    · obtain ⟨f, hf⟩ := exec_applyGate_fallback F h op
      rw [hx, hf] at hd ⊢
      refine ⟨[], (List.append_nil _).symm, ⟨fun _ => trivial, fun _ _ ht => nomatch ht⟩, fun _ => ⟨hd, ?_⟩⟩
      exact fun hu => absurd (h.symm.trans hu) (by decide)
  · obtain ⟨new, hnew⟩ := sampled N F hi.discovered qubits shots
    have hfits : (∀ t ∈ new, Fits t) ↔ Admissible N s accepted (.sample qubits shots) := by
      rw [hnew.fits]
      unfold Admissible
      constructor
      · intro hall hu hb
        exact ⟨(hi.capacity hu hb).mpr (hall hu hb).1, (hall hu hb).2⟩
      · intro hall hu hb
        exact ⟨(hi.capacity hu hb).mp (hall hu hb).1, (hall hu hb).2⟩
    refine ⟨new, hnew.sent, hfits, fun hadm => ⟨hd, fun hu hb => ?_⟩⟩
    rw [hnew.buffer] at hb
    refine ⟨fun _ entry hq => ?_, fun _ => (hadm (hnew.inUse hu).1 hb).1⟩
    obtain ⟨t, ht, rfl, hcount⟩ := hnew.current hu hb entry hq
    have hfit := hfits.mpr hadm t ht
    unfold Fits at hfit
    rw [hnew.count]
    omega

/-- **A run** in which the circuits sent so far fit. -/
theorem fits_run : ∀ (calls : List Simulator.Call) {s : CUNQABackend (ν × Sent) φ} {accepted : Bool}, Inv s accepted →
    (∀ t ∈ s.network.2, Fits t) →
    ((∀ t ∈ ((simulator N.logged F).afterCalls s calls).network.2, Fits t) ↔ AllAdmissible N F s accepted calls)
  | [], _, _, _, hs => ⟨fun _ => trivial, fun _ => hs⟩
  | call :: calls, s, accepted, hi, hs => by
    obtain ⟨new, hsent, hfits, hinv⟩ := after_inv N F hi call
    have hkept := sent_afterCalls N F calls (after_discovered N F hi.discovered call).1
    show (∀ t ∈ ((simulator N.logged F).afterCalls ((simulator N.logged F).after s call) calls).network.2, Fits t) ↔
      Admissible N s accepted call ∧ _
    constructor
    · intro hall
      have hnew : ∀ t ∈ ((simulator N.logged F).after s call).network.2, Fits t := fun t ht => hall t (hkept.subset ht)
      have hadm := hfits.mp fun t ht => hnew t (by rw [hsent]; exact List.mem_append_right _ ht)
      exact ⟨hadm, (fits_run calls (hinv hadm) hnew).mp hall⟩
    · rintro ⟨hadm, hall⟩
      refine (fits_run calls (hinv hadm) fun t ht => ?_).mpr hall
      rw [hsent] at ht
      exact (List.mem_append.mp ht).elim (hs t) (hfits.mpr hadm t)

/-- **Capacity.** In a run from the constructor, every circuit is sent to a vQPU that is large
enough for it exactly if every call meets the condition. -/
theorem sent_fits_iff (counter : ℕ) (n : ν) (f : φ) (calls : List Simulator.Call) :
    (∀ t ∈ ((simulator N.logged F).afterCalls (new N.logged counter (n, []) f) calls).network.2, Fits t) ↔
      AllAdmissible N F (new N.logged counter (n, []) f) true calls := by
  refine fits_run N F calls (inv_new N counter n f) ?_
  obtain ⟨qpu, n', hdiscover⟩ := exec_discoverQpu N ⟨false, none, 0, [], counter, (n, []), f⟩
  unfold new
  rw [hdiscover]
  exact fun _ ht => nomatch ht

end Runs

/-! ### Two runs that send a circuit that does not fit -/

def largest : OutcomeVector := ⟨2 ^ 60 - 1, by decide⟩

def registryOf (maxQubits : ℕ) : Json := .object [(ascii "vqpu", .object
  [(ascii "backend", .object [(ascii "n_qubits", .unsigned maxQubits)]),
    (ascii "net", .object [(ascii "device", .null), (ascii "endpoint", .string (ascii "tcp://10.0.0.1:5555"))])])]

/-- A vQPU of two qubits, which answers. -/
def small : Network Unit (List ℕ) where
  readRegistry := pure (some (registryOf 2))
  connect _ := pure ()
  send _ _ := pure ()
  receive _ := pure (some [])
  outcomes := cunqaOutcomes largest fun _ => return .object [(ascii "counts", .object [(ascii "000", .unsigned 1)])]

/-- A vQPU of three qubits, which does not answer, and in its place one of two qubits. The state
counts the looks at the registry. -/
def replaced : Network ℕ (List ℕ) where
  readRegistry := do
    modify (· + 1)
    return some (registryOf (if (← get) = 1 then 3 else 2))
  connect _ := pure ()
  send _ _ := pure ()
  receive _ := pure none
  outcomes := cunqaOutcomes largest fun _ => return .null

def unreached : Simulator Unit (List ℕ) := ⟨fun _ => pure (), fun _ => pure (), fun _ _ => pure []⟩

/-- Three qubits: `initialize` throws and `sample` sends the circuit all the same; or
`initialize` returns and `sample` sends it again, to the next vQPU. -/
theorem fits_fails :
    (∃ t ∈ ((simulator small.logged unreached).afterCalls (new small.logged 0 ((), []) ())
      [.initializeState 3, .sample [] 1]).network.2, ¬ Fits t) ∧
    ∃ t ∈ ((simulator replaced.logged unreached).afterCalls (new replaced.logged 0 (0, []) ())
      [.initializeState 3, .sample [] 1]).network.2, ¬ Fits t := by
  refine ⟨⟨_, List.mem_cons_self, ?_⟩, ⟨_, List.mem_cons_of_mem _ List.mem_cons_self, ?_⟩⟩
  · show ¬ 3 ≤ 2
    decide
  · show ¬ 3 ≤ 2
    decide

end CUNQABackend

end Qsycl
