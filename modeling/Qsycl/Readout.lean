/-
# The readout of the simulators

A simulator packs the bits of a drawn index at the measured qubits into a
64-bit word, the first measured qubit lowest; `sample_counts` prints the word,
the highest bit first, and counts the strings. `sampleCounts_readout` says when
the two agree: with at most 64 measured qubits the histogram is that of the
keys of the drawn indices (`readoutKey`), and with more a shift leaves the
width of the word.
-/
import Qsycl.Runtime

namespace Qsycl

open Runs SortedMap WorkItems

/-! ### The GPU backend as a simulator -/

/-- `|amplitude|^2` of every basis state. -/
noncomputable def GPUBackend.probabilities (b : GPUBackend ℂ) : Except Exn (StateVec ℝ) := do
  let hostState ← b.getState
  return ⟨hostState.size, fun i => Complex.normSq (hostState.cell i)⟩

/-- The GPU backend with the generator of its samples. -/
structure GPUSimulator (γ : Type) where
  backend : GPUBackend ℂ
  rng : γ

namespace GPUSimulator

variable {γ : Type}

/-- A failed `initialize` may leave a null pointer. -/
def initializeState (allocated : ℕ → Bool) (numQubits : ℕ) : Run Exn (GPUSimulator γ) Unit := do
  let s ← get
  let r := GPUBackend.initializeState (allocated numQubits) numQubits s.backend
  set { s with backend := r.2 }
  liftM r.1

noncomputable def applyGate (op : GateOp ℝ) : Run Exn (GPUSimulator γ) Unit := do
  let s ← get
  let b ← GPUBackend.applyGate op s.backend
  set { s with backend := b }

variable (draw : StateVec ℝ → γ → ℕ × γ)

noncomputable def sample (qubits : List ℕ) (shots : ℕ) : Run Exn (GPUSimulator γ) (List ℕ) := do
  let s ← get
  let probs ← s.backend.probabilities
  let which := if qubits.isEmpty then List.range s.backend.numQubits else qubits
  zoom GPUSimulator.rng (fun rng s => { s with rng := rng }) (shotLoop draw probs which shots)

/-- `GPUBackend`; `allocated` says for which qubit counts the device has the memory. -/
noncomputable def simulator (allocated : ℕ → Bool) : Simulator (GPUSimulator γ) (List ℕ) where
  initializeState := initializeState allocated
  applyGate := applyGate
  sample := sample draw

end GPUSimulator

/-! ### Words of bits -/

theorem shiftLeft64_one {k : ℕ} (h : k < 64) : shiftLeft64 1 k = .ok (2 ^ k) := by
  unfold shiftLeft64
  rw [if_neg (by omega), Nat.one_shiftLeft, Nat.mod_eq_of_lt (Nat.pow_lt_pow_right (by decide) h)]
  rfl

theorem shiftRight64_eq {x k : ℕ} (h : k < 64) : shiftRight64 x k = .ok (x >>> k) := by
  unfold shiftRight64
  rw [if_neg (by omega)]
  rfl

/-- The bits of an index at some qubits, the first qubit lowest. -/
def pack (i : ℕ) : List ℕ → ℕ
  | [] => 0
  | q :: which => Nat.bit (i.testBit q) (pack i which)

theorem testBit_pack (i : ℕ) : ∀ (which : List ℕ) (k : ℕ),
    (pack i which).testBit k = (which[k]?.map i.testBit).getD false
  | [], k => by simp [pack]
  | q :: which, 0 => by simp [pack]
  | q :: which, k + 1 => by
    unfold pack
    rw [Nat.testBit_bit_succ, testBit_pack i which k, List.getElem?_cons_succ]

/-- One more bit. -/
theorem bit_shiftLeft (b : Bool) (n k : ℕ) :
    Nat.bit b n <<< k = (if b then 2 ^ k else 0) ||| n <<< (k + 1) := by
  have hlt : (if b then 2 ^ k else 0) < 2 ^ (k + 1) := by
    have := Nat.pow_lt_pow_right (by decide : 1 < 2) (Nat.lt_succ_self k)
    split <;> omega
  rw [Nat.or_comm, ← Nat.shiftLeft_add_eq_or_of_lt hlt, Nat.shiftLeft_eq, Nat.shiftLeft_eq, Nat.bit_val]
  cases b
  · simp only [Bool.toNat_false, Bool.false_eq_true, if_false]
    ring
  · simp only [Bool.toNat_true, if_true]
    ring

/-- The loop over the measured qubits packs their bits. -/
theorem packReadout_eq {i : ℕ} : ∀ {which : List ℕ} {k readout : ℕ}, (∀ q ∈ which, q < 64) →
    k + which.length ≤ 64 → packReadout i which k readout = .ok (readout ||| pack i which <<< k)
  | [], k, readout, _, _ => by
    simp only [packReadout, pack, Nat.zero_shiftLeft, Nat.or_zero]
    rfl
  | q :: which, k, readout, hq, hlen => by
    rw [List.length_cons] at hlen
    have hq' : ∀ q ∈ which, q < 64 := fun q h => hq q (List.mem_cons_of_mem _ h)
    have hmask : i &&& 2 ^ q ≠ 0 ↔ i.testBit q = true := by
      rw [Nat.and_two_pow]
      cases i.testBit q <;> simp
    unfold packReadout pack
    rw [shiftLeft64_one (hq q List.mem_cons_self), ok_bind, bit_shiftLeft]
    by_cases hb : i.testBit q = true
    · rw [if_pos (hmask.mpr hb), shiftLeft64_one (by omega), ok_bind, packReadout_eq hq' (by omega), if_pos hb,
        Nat.or_assoc]
    · rw [if_neg (mt hmask.mp hb), packReadout_eq hq' (by omega), if_neg hb, Nat.zero_or]

namespace QuantumRuntime

/-- The character of a bit. -/
def bitChar (b : Bool) : UInt8 := if b then 49 else 48

/-- The low bits of a value, the highest first. -/
def bitsOf (k value : ℕ) : Bytes := ((List.range k).map fun j => bitChar (value.testBit j)).reverse

theorem bitString_eq (value : ℕ) : ∀ {k : ℕ}, k ≤ 64 → bitString value k = .ok (bitsOf k value)
  | 0, _ => rfl
  | k + 1, h => by
    have hbit : value >>> k &&& 1 ≠ 0 ↔ value.testBit k = true := by
      unfold Nat.testBit
      rw [Nat.and_comm, bne_iff_ne]
    have hchar : (if value >>> k &&& 1 ≠ 0 then 49 else 48) = bitChar (value.testBit k) := by
      unfold bitChar
      by_cases hb : value.testBit k = true
      · rw [if_pos (hbit.mpr hb), if_pos hb]
      · rw [if_neg (mt hbit.mp hb), if_neg hb]
    unfold bitString bitsOf
    rw [shiftRight64_eq (by omega), ok_bind, bitString_eq value (by omega), ok_bind, List.range_succ,
      List.map_append, List.reverse_append, hchar]
    rfl

/-- A string of more than 64 bits shifts past the width. -/
theorem bitString_error (value : ℕ) {k : ℕ} (h : 64 < k) :
    bitString value k = .error ⟨.undefined, "shift past the width"⟩ := by
  obtain ⟨k, rfl⟩ : ∃ j, k = j + 1 := ⟨k - 1, by omega⟩
  unfold bitString shiftRight64
  rw [if_pos (by omega)]
  rfl

/-- The key of an index: character `k` from the right is its bit at the `k`-th measured qubit. -/
def readoutKey (measured : List ℕ) (i : ℕ) : Bytes := (measured.map fun q => bitChar (i.testBit q)).reverse

/-- **Packed and printed.** -/
theorem bitsOf_pack (measured : List ℕ) (i : ℕ) :
    bitsOf measured.length (pack i measured) = readoutKey measured i := by
  unfold bitsOf readoutKey
  congr 1
  refine List.ext_getElem (by simp) fun k hk hk' => ?_
  rw [List.length_map] at hk'
  simp only [List.getElem_map, List.getElem_range, testBit_pack, List.getElem?_eq_getElem hk', Option.map_some,
    Option.getD_some]

/-! ### The histogram -/

theorem tally_increment {l : List Bytes} {counts : List (Bytes × ℕ)} (h : Tally l counts) (bits : Bytes) :
    Tally (bits :: l) (increment bits counts) := by
  unfold increment
  rw [h.lookup_beq bits]
  exact h.insert bits

/-- The counts of some values of up to 64 bits. -/
theorem countShots_tally {k : ℕ} (hk : k ≤ 64) : ∀ (raw : List ℕ) {l : List Bytes} {counts : List (Bytes × ℕ)},
    Tally l counts → ∃ counts', countShots k raw counts = .ok counts' ∧
      Tally (raw.map (bitsOf k) ++ l) counts'
  | [], _, counts, h => ⟨counts, rfl, h⟩
  | value :: raw, l, counts, h => by
    obtain ⟨counts', hcounts, htally⟩ := countShots_tally hk raw (tally_increment h (bitsOf k value))
    refine ⟨counts', ?_, htally.perm List.perm_middle⟩
    unfold countShots
    rw [bitString_eq value hk, ok_bind, hcounts]

/-- What `sample_counts` makes of the drawn indices. -/
def readCounts (measured drawn : List ℕ) : Except Exn (List (Bytes × ℕ)) := do
  let raw ← drawn.mapM fun i => packReadout i measured 0 0
  countShots measured.length raw []

/-- The readout law: the counts are those of the keys of the drawn indices, the keys are as
long as the readout, and there is one shot for each index. -/
structure ReadoutLaw (measured drawn : List ℕ) (shots : ℕ) (counts : List (Bytes × ℕ)) : Prop where
  tally : Tally (drawn.map (readoutKey measured)) counts
  length : ∀ e ∈ counts, e.1.length = measured.length
  sum : (counts.map Prod.snd).sum = shots

/-- **The law holds** exactly for a readout of up to 64 bits, and without shots. -/
theorem readCounts_law {measured : List ℕ} (drawn : List ℕ) (hq : ∀ q ∈ measured, q < 64) :
    (∃ counts, readCounts measured drawn = .ok counts ∧ ReadoutLaw measured drawn drawn.length counts) ↔
      measured.length ≤ 64 ∨ drawn = [] := by
  constructor
  · rintro ⟨counts, hcounts, -⟩
    by_contra hnot
    rw [not_or] at hnot
    obtain ⟨raw, hraw, hcount⟩ := bind_eq_ok.mp hcounts
    rcases drawn with _ | ⟨i, drawn⟩
    · exact hnot.2 rfl
    · -- the first string is too long
      rw [List.mapM_cons] at hraw
      obtain ⟨value, -, hraw⟩ := bind_eq_ok.mp hraw
      obtain ⟨values, -, hraw⟩ := bind_eq_ok.mp hraw
      cases hraw
      unfold countShots at hcount
      rw [bitString_error value (by omega)] at hcount
      cases hcount
  · rintro (hlen | rfl)
    · have hraw : drawn.mapM (fun i => packReadout i measured 0 0) =
          .ok (drawn.map fun i => pack i measured) := by
        refine mapM_eq_ok fun i _ => ?_
        rw [packReadout_eq hq (by omega), Nat.zero_or, Nat.shiftLeft_zero]
      obtain ⟨counts, hcounts, htally⟩ :=
        countShots_tally hlen (drawn.map fun i => pack i measured) Tally.nil
      have hkeys : (drawn.map fun i => pack i measured).map (bitsOf measured.length) ++ [] =
          drawn.map (readoutKey measured) := by
        rw [List.append_nil, List.map_map]
        exact List.map_congr_left fun i _ => bitsOf_pack measured i
      rw [hkeys] at htally
      refine ⟨counts, ?_, htally, fun e he => ?_, ?_⟩
      · unfold readCounts
        rw [hraw, ok_bind, hcounts]
      · obtain ⟨i, -, hi⟩ := List.mem_map.mp (htally.mem_of_mem he)
        rw [← hi]
        simp [readoutKey]
      · rw [htally.sum, List.length_map]
    · exact ⟨[], rfl, .nil, nofun, rfl⟩

end QuantumRuntime

/-! ### Runs on the simulators -/

/-- The qubits that a run reads out: all of them if none is marked. -/
def Circuit.readout (circuit : Circuit ℝ) : List ℕ :=
  if circuit.measured.isEmpty then List.range circuit.numQubits else circuit.measured

namespace Circuit.Legal

variable {circuit : Circuit ℝ} {calls : List (GateCall ℝ)}

theorem readout_lt (h : circuit.Legal calls) : ∀ q ∈ circuit.readout, q < circuit.numQubits := by
  unfold Circuit.readout
  split
  · exact fun q hq => List.mem_range.mp hq
  · exact h.measured

theorem readout_ne_nil (h : circuit.Legal calls) : circuit.readout.isEmpty = false := by
  have hpos := h.pos
  unfold Circuit.readout
  split
  · rw [List.isEmpty_eq_false_iff, Ne, List.range_eq_nil]
    omega
  · rename_i hm
    simpa using hm

end Circuit.Legal

section Simulators

variable {γ : Type} (draw : StateVec ℝ → γ → ℕ × γ)

/-- The indices that some shots draw. -/
def draws (probs : StateVec ℝ) : ℕ → γ → List ℕ
  | 0, _ => []
  | shots + 1, rng => (draw probs rng).1 :: draws probs shots (draw probs rng).2

@[simp] theorem length_draws (probs : StateVec ℝ) :
    ∀ (shots : ℕ) (rng : γ), (draws draw probs shots rng).length = shots
  | 0, _ => rfl
  | shots + 1, rng => by rw [draws, List.length_cons, length_draws probs shots]

/-- The loop over the shots reads the drawn indices. -/
theorem exec_shotLoop (probs : StateVec ℝ) (which : List ℕ) : ∀ (shots : ℕ) (rng : γ),
    (exec (shotLoop draw probs which shots) rng).1 =
      (draws draw probs shots rng).mapM fun i => packReadout i which 0 0
  | 0, _ => rfl
  | shots + 1, rng => by
    unfold shotLoop
    rw [draws, List.mapM_cons, exec_get_bind]
    rw [exec_set_bind]
    rw [exec_bind, exec_lift]
    rcases packReadout (draw probs rng).1 which 0 0 with e | readout
    · rfl
    · dsimp only
      rw [exec_bind, ok_bind, ← exec_shotLoop probs which shots (draw probs rng).2]
      rcases exec (shotLoop draw probs which shots) _ with ⟨e | results, rng'⟩ <;> rfl

namespace QuantumRuntime

/-- What `sample_counts` returns after a run. -/
theorem exec_sampleCounts {φ : Type} {B : Simulator φ (List ℕ)} {circuit : Circuit ℝ} {rt : QuantumRuntime φ}
    {f : φ}
    (hrun : exec (run B circuit) rt = (.ok (), ⟨f, circuit.numQubits⟩)) (shots : ℕ) :
    (exec (sampleCounts B circuit shots) rt).1 =
      (exec (B.sample circuit.readout shots) f).1 >>= fun raw => countShots circuit.readout.length raw [] := by
  have hlen : (if circuit.measured.isEmpty then circuit.numQubits else circuit.measured.length) =
      circuit.readout.length := by
    unfold Circuit.readout
    split
    · rw [List.length_range]
    · rfl
  have hraw : exec (sample B circuit shots) rt = ((exec (B.sample circuit.readout shots) f).1,
      ⟨(exec (B.sample circuit.readout shots) f).2, circuit.numQubits⟩) := by
    unfold sample
    rw [exec_bind, hrun]
    dsimp only
    rw [exec_get_bind]
    rfl
  unfold sampleCounts
  dsimp only
  rw [hlen, exec_bind, hraw]
  rcases exec (B.sample circuit.readout shots) f with ⟨e | raw, f'⟩ <;> rfl

/-- The same with samples that are read from drawn indices. -/
theorem exec_sampleCounts_drawn {φ : Type} {B : Simulator φ (List ℕ)} {circuit : Circuit ℝ} {shots : ℕ}
    {rt : QuantumRuntime φ} {f : φ} {drawn : List ℕ}
    (hrun : exec (run B circuit) rt = (.ok (), ⟨f, circuit.numQubits⟩))
    (hsample : (exec (B.sample circuit.readout shots) f).1 =
      drawn.mapM fun i => packReadout i circuit.readout 0 0) :
    (exec (sampleCounts B circuit shots) rt).1 = readCounts circuit.readout drawn := by
  rw [exec_sampleCounts hrun, hsample]
  rfl

/-- **Runs on the CPU backend.** -/
theorem sampleCounts_cpu {circuit : Circuit ℝ} (hc : circuit.Built) (hbound : circuit.isParametric = false)
    (hn : circuit.numQubits ≤ 30) (shots : ℕ) (rt : QuantumRuntime (CPUSimulator γ)) :
    ∃ s, exec (run (CPUSimulator.simulator draw) circuit) rt = (.ok (), ⟨s, circuit.numQubits⟩) ∧
      (exec (sampleCounts (CPUSimulator.simulator draw) circuit shots) rt).1 =
        readCounts circuit.readout (draws draw s.backend.probabilities shots s.rng) := by
  obtain ⟨calls, hl⟩ := Circuit.legal_of_built hc
  obtain ⟨b, hrun, -⟩ := run_prepares draw hl hbound hn rt
  refine ⟨_, hrun, exec_sampleCounts_drawn hrun ?_⟩
  show (exec (CPUSimulator.sample draw circuit.readout shots) _).1 = _
  unfold CPUSimulator.sample
  rw [exec_get_bind]
  rw [hl.readout_ne_nil, if_neg Bool.false_ne_true, exec_zoom, exec_shotLoop]

end QuantumRuntime

/-- A call on an allocated state vector returns. -/
theorem GPUBackend.applyGate_ok {b : GPUBackend ℂ} (h : b.stateDev.isSome = true) (g : GateCall ℝ) :
    ∃ b', b.applyGate g.op = .ok b' ∧ b'.stateDev.isSome = true := by
  obtain ⟨state, hs⟩ := Option.isSome_iff_exists.mp h
  have hlaunch : ∀ (range : ℕ) (item : ℕ → Access ℕ ℂ), ∃ b', b.parallelFor range item = .ok b' ∧
      b'.stateDev.isSome = true := by
    intro range item
    refine ⟨{ b with queue := b.queue.next, stateDev := some (b.queue.launch range item state) }, ?_, rfl⟩
    unfold GPUBackend.parallelFor
    rw [hs]
    rfl
  unfold GPUBackend.applyGate
  rw [dispatchGate_op]
  rcases g.kernel with ⟨q, m⟩ | ⟨c, t, m⟩ | ⟨a, d⟩
  · exact hlaunch _ _
  · exact hlaunch _ _
  · exact hlaunch _ _

namespace QuantumRuntime

/-- The gates of a run on the GPU backend. -/
theorem exec_gates_gpu (allocated : ℕ → Bool) (rng : γ) (n : ℕ) :
    ∀ (calls : List (GateCall ℝ)) {b : GPUBackend ℂ},
    b.stateDev.isSome = true → ∃ b', b'.stateDev.isSome = true ∧
      exec ((calls.map GateCall.op).forM fun op => onBackend ((GPUSimulator.simulator draw allocated).applyGate op))
        ⟨⟨b, rng⟩, n⟩ = (.ok (), ⟨⟨b', rng⟩, n⟩)
  | [], b, h => ⟨b, h, rfl⟩
  | g :: calls, b, h => by
    obtain ⟨b₁, hb₁, h₁⟩ := GPUBackend.applyGate_ok h g
    obtain ⟨b', h', hgates⟩ := exec_gates_gpu allocated rng n calls h₁
    refine ⟨b', h', ?_⟩
    have hstep : exec (onBackend ((GPUSimulator.simulator draw allocated).applyGate g.op))
        (⟨⟨b, rng⟩, n⟩ : QuantumRuntime (GPUSimulator γ)) = (.ok (), ⟨⟨b₁, rng⟩, n⟩) := by
      unfold onBackend GPUSimulator.simulator GPUSimulator.applyGate
      rw [exec_zoom, exec_get_bind]
      rw [exec_bind, exec_lift, hb₁]
      rfl
    show exec (onBackend _ >>= fun _ => (calls.map GateCall.op).forM _) _ = _
    rw [exec_bind, hstep]
    exact hgates

/-- **Runs on the GPU backend**, with enough device memory. -/
theorem sampleCounts_gpu {circuit : Circuit ℝ} (hc : circuit.Built) (hbound : circuit.isParametric = false)
    (hn : circuit.numQubits ≤ 30) {allocated : ℕ → Bool} (ha : allocated circuit.numQubits = true) (shots : ℕ)
    (rt : QuantumRuntime (GPUSimulator γ)) :
    ∃ s probs, exec (run (GPUSimulator.simulator draw allocated) circuit) rt = (.ok (), ⟨s, circuit.numQubits⟩) ∧
      s.backend.probabilities = .ok probs ∧
      (exec (sampleCounts (GPUSimulator.simulator draw allocated) circuit shots) rt).1 =
        readCounts circuit.readout (draws draw probs shots s.rng) := by
  obtain ⟨calls, hl⟩ := Circuit.legal_of_built hc
  have hpos := hl.pos
  have hinit : exec (onBackend ((GPUSimulator.simulator draw allocated).initializeState circuit.numQubits))
      { rt with numQubits := circuit.numQubits } = (.ok (), ⟨⟨⟨rt.backend.backend.queue,
        some (Function.update (fun _ => 0) 0 1), 1 <<< circuit.numQubits, circuit.numQubits⟩, rt.backend.rng⟩,
        circuit.numQubits⟩) := by
    have hok : GPUBackend.initializeState true circuit.numQubits rt.backend.backend = (.ok (),
        ⟨rt.backend.backend.queue, some (Function.update (fun _ => 0) 0 1), 1 <<< circuit.numQubits,
          circuit.numQubits⟩) := by
      unfold GPUBackend.initializeState
      rw [if_neg (by omega)]
      rfl
    unfold onBackend GPUSimulator.simulator GPUSimulator.initializeState
    rw [exec_zoom, exec_get_bind]
    rw [ha, hok]
    rfl
  obtain ⟨b, hb, hgates⟩ := exec_gates_gpu draw allocated rt.backend.rng circuit.numQubits calls
    (b := ⟨rt.backend.backend.queue, some (Function.update (fun _ => 0) 0 1), 1 <<< circuit.numQubits,
      circuit.numQubits⟩) rfl
  have hrun : exec (run (GPUSimulator.simulator draw allocated) circuit) rt =
      (.ok (), ⟨⟨b, rt.backend.rng⟩, circuit.numQubits⟩) := by
    unfold run
    rw [hbound, if_neg Bool.false_ne_true, exec_modify_bind]
    rw [exec_bind, hinit, hl.ops]
    exact hgates
  obtain ⟨state, hstate⟩ := Option.isSome_iff_exists.mp hb
  have hprobs : b.probabilities = .ok ⟨b.dim, fun i => Complex.normSq (state i)⟩ := by
    unfold GPUBackend.probabilities GPUBackend.getState
    rw [hstate]
    rfl
  refine ⟨_, _, hrun, hprobs, exec_sampleCounts_drawn hrun ?_⟩
  show (exec (GPUSimulator.sample draw circuit.readout shots) _).1 = _
  unfold GPUSimulator.sample
  rw [exec_get_bind]
  rw [exec_bind, exec_lift, hprobs]
  dsimp only
  rw [hl.readout_ne_nil, if_neg Bool.false_ne_true, exec_zoom, exec_shotLoop]

/-- **The readout law.** After a run of a bound circuit on up to 30 qubits, `sample_counts` of
either simulator returns the histogram of the keys of the drawn indices, for one index per
shot, exactly if at most 64 qubits are read out or there are no shots. -/
theorem sampleCounts_readout {circuit : Circuit ℝ} (hc : circuit.Built) (hbound : circuit.isParametric = false)
    (hn : circuit.numQubits ≤ 30) (shots : ℕ) :
    (∀ rt : QuantumRuntime (CPUSimulator γ), ∃ s,
      exec (run (CPUSimulator.simulator draw) circuit) rt = (.ok (), ⟨s, circuit.numQubits⟩) ∧
      ((∃ counts, (exec (sampleCounts (CPUSimulator.simulator draw) circuit shots) rt).1 = .ok counts ∧
        ReadoutLaw circuit.readout (draws draw s.backend.probabilities shots s.rng) shots counts) ↔
        circuit.readout.length ≤ 64 ∨ shots = 0)) ∧
    ∀ (allocated : ℕ → Bool) (rt : QuantumRuntime (GPUSimulator γ)), allocated circuit.numQubits = true →
      ∃ s probs, exec (run (GPUSimulator.simulator draw allocated) circuit) rt = (.ok (), ⟨s, circuit.numQubits⟩) ∧
      s.backend.probabilities = .ok probs ∧
      ((∃ counts, (exec (sampleCounts (GPUSimulator.simulator draw allocated) circuit shots) rt).1 = .ok counts ∧
        ReadoutLaw circuit.readout (draws draw probs shots s.rng) shots counts) ↔
        circuit.readout.length ≤ 64 ∨ shots = 0) := by
  obtain ⟨calls, hl⟩ := Circuit.legal_of_built hc
  have hq : ∀ q ∈ circuit.readout, q < 64 := fun q hq => by
    have := hl.readout_lt q hq
    omega
  have hlaw : ∀ (probs : StateVec ℝ) (rng : γ),
      (∃ counts, readCounts circuit.readout (draws draw probs shots rng) = .ok counts ∧
        ReadoutLaw circuit.readout (draws draw probs shots rng) shots counts) ↔
      circuit.readout.length ≤ 64 ∨ shots = 0 := by
    intro probs rng
    have h := readCounts_law (draws draw probs shots rng) hq
    rwa [length_draws, ← List.length_eq_zero_iff, length_draws] at h
  constructor
  · intro rt
    obtain ⟨s, hrun, hcounts⟩ := sampleCounts_cpu draw hc hbound hn shots rt
    refine ⟨s, hrun, ?_⟩
    rw [hcounts]
    exact hlaw _ _
  · intro allocated rt ha
    obtain ⟨s, probs, hrun, hprobs, hcounts⟩ := sampleCounts_gpu draw hc hbound hn ha shots rt
    refine ⟨s, probs, hrun, hprobs, ?_⟩
    rw [hcounts]
    exact hlaw _ _

end QuantumRuntime

end Simulators

/-! ### Two circuits -/

namespace QuantumRuntime

/-- A runtime as constructed. -/
def idle : QuantumRuntime (CPUSimulator Unit) := ⟨⟨.new fun _ => .inOrder, ()⟩, 0⟩

def idleGpu : QuantumRuntime (GPUSimulator Unit) := ⟨⟨.new fun _ => .inOrder, ()⟩, 0⟩

/-- A generator that draws the first index. -/
def drawFirst (_ : StateVec ℝ) (rng : Unit) : ℕ × Unit := (0, rng)

theorem sampleCounts_readout_hadamard :
    (∃ counts, (exec (sampleCounts (CPUSimulator.simulator drawFirst) hadamardCircuit 2) idle).1 = .ok counts ∧
      (counts.map Prod.snd).sum = 2) ∧
    ∃ counts, (exec (sampleCounts (GPUSimulator.simulator drawFirst fun _ => true) hadamardCircuit 2) idleGpu).1 =
      .ok counts ∧ (counts.map Prod.snd).sum = 2 := by
  obtain ⟨hcpu, hgpu⟩ := sampleCounts_readout drawFirst built_hadamardCircuit rfl (by decide) 2
  obtain ⟨s, -, hs⟩ := hcpu idle
  obtain ⟨g, probs, -, -, hg⟩ := hgpu (fun _ => true) idleGpu rfl
  obtain ⟨counts, hcounts, hlaw⟩ := hs.mpr (.inl (by decide))
  obtain ⟨counts', hcounts', hlaw'⟩ := hg.mpr (.inl (by decide))
  exact ⟨⟨counts, hcounts, hlaw.sum⟩, counts', hcounts', hlaw'.sum⟩

/-- One qubit that is read out many times. -/
def rereadCircuit (k : ℕ) : Circuit ℝ := ⟨1, 0, [], List.replicate k 0⟩

theorem built_rereadCircuit : ∀ k : ℕ, (rereadCircuit k).Built
  | 0 => .new (n := 1) rfl
  | k + 1 => by
    refine .measure (q := 0) (built_rereadCircuit k) ?_
    unfold rereadCircuit Circuit.measure
    rw [List.replicate_succ']
    rfl

/-- With 65 measured qubits the highest bit is shifted by 64. -/
theorem readout_fails : (rereadCircuit 65).Built ∧ (rereadCircuit 65).isParametric = false ∧
    (exec (sampleCounts (CPUSimulator.simulator drawFirst) (rereadCircuit 65) 1) idle).1 =
      .error ⟨.undefined, "shift past the width"⟩ := by
  refine ⟨built_rereadCircuit 65, rfl, ?_⟩
  obtain ⟨s, -, hcounts⟩ := sampleCounts_cpu drawFirst (built_rereadCircuit 65) rfl (by decide) 1 idle
  have hreadout : (rereadCircuit 65).readout.length = 65 := rfl
  have hdraws : draws drawFirst s.backend.probabilities 1 s.rng = [0] := rfl
  have hpack : [0].mapM (fun i => packReadout i (rereadCircuit 65).readout 0 0) = .ok [0] := rfl
  rw [hcounts, hdraws]
  unfold readCounts
  rw [hpack, ok_bind, hreadout]
  unfold countShots
  rw [bitString_error 0 (by decide)]
  rfl

end QuantumRuntime

end Qsycl
