/-
# QAOA from start to answer

`algorithms.cpp` adds to `VQA::minimize` the starting points, the restarts and,
for QAOA, the answer: the optimized state is sampled and the cheapest of the
sampled bitstrings is reported. Of a MaxCut cost the reported bitstring is the
largest of the sampled cuts, and neither it nor the energy of any circuit goes
beyond the brute-force optimum (`qaoa_maxcut`).

The methods that code here only calls are parameters: `minimize` of the
optimizers, the backend of the runtime, and the random starting points.
-/
import Qsycl.Maxcut
import Qsycl.Optimizers
import Qsycl.Runtime

namespace Qsycl

open Runs SortedMap Search Qubits

/-! ### Restarts -/

/-- What `run_restarts` reads of the results of an optimization. The energies
are compared as values of a `double`, one of which is the infinity. -/
structure ResultView (ρ E : Type) where
  new : ρ
  energy : ρ → E
  evaluations : ρ → ℕ
  infinity : E

structure Sweep (ρ E : Type) where
  best : ρ
  bestRestart : ℕ
  energies : List E
  evaluations : ℕ

section Restarts

variable {σ ρ E : Type} [LT E] [DecidableLT E] (V : ResultView ρ E)
  (minimize : List ℝ → VQAOptions → Run Exn σ ρ) (base : VQAOptions)

/-- The constructor of `VQA`. -/
def checkVQA (ansatz : Circuit ℝ) (H : Observable ℝ) : Except Exn Unit :=
  if H.numQubits ≠ ansatz.numQubits then
    throw ⟨.invalidArgument, "VQA: observable and ansatz must act on the same number of qubits"⟩
  else if ansatz.numParams = 0 then
    throw ⟨.invalidArgument, "VQA: ansatz has no parameters (use Circuit::new_param())"⟩
  else
    return

/-- Restart `r`; the seed is 64 bits wide. -/
def restartStep (starts : List (List ℝ)) (r : ℕ) (s : E × Sweep ρ E) : Run Exn σ (E × Sweep ρ E) := do
  let opt := { base with seed := (base.seed + r) % 2 ^ 64 }
  let res ← minimize (← checkedAt starts r) opt
  let sweep := { s.2 with
    evaluations := s.2.evaluations + V.evaluations res
    energies := s.2.energies ++ [V.energy res] }
  if V.energy res < s.1 then return (V.energy res, { sweep with best := res, bestRestart := r })
  else return (s.1, sweep)

def runRestarts (ansatz : Circuit ℝ) (H : Observable ℝ) (restarts : ℕ) (starts : List (List ℝ)) :
    Run Exn σ (Sweep ρ E) :=
  if restarts = 0 then
    throw ⟨.invalidArgument, "restarts must be at least 1"⟩
  else do
    checkVQA ansatz H
    let s ← (List.range restarts).foldlM (fun s r => restartStep V minimize base starts r s)
      (V.infinity, ⟨V.new, 0, [], 0⟩)
    if s.1 < V.infinity then return s.2
    else throw ⟨.runtimeError, "all restarts produced a non-finite energy"⟩

end Restarts

/-! ### QAOA -/

structure QAOAOptions where
  p : ℕ
  vqa : VQAOptions
  restarts : ℕ
  seed : ℕ
  initialPoint : List ℝ
  initRange : ℝ
  sampleShots : ℕ

/-- Costs are read as values of a `double`: a real number or the infinity. -/
structure QAOAResult where
  best : VQAResult
  bestRestart : ℕ
  restartEnergies : List (WithTop ℝ)
  totalEvaluations : ℕ
  bestBitstring : ℕ
  bestCost : WithTop ℝ
  counts : List (ℕ × ℕ)

noncomputable section

def exactResults : ResultView VQAResult (WithTop ℝ) := ⟨.new, fun res => res.energy, (·.evaluations), ⊤⟩

def Ansatz.qaoaLinearRamp (p : ℕ) (delta : ℝ) : List ℝ :=
  (List.range p).flatMap fun k =>
    let s := ((k : ℝ) + 0.5) / p
    [s * delta, -(1 - s) * delta]

/-- Reads the answer off the samples. -/
def readAnswer (cost : Observable ℝ) (out : QAOAResult) (samples : List ℕ) : Except Exn QAOAResult :=
  if samples.isEmpty then
    throw ⟨.runtimeError, "qaoa: the backend returned no samples"⟩
  else do
    let counts := samples.foldl (fun counts x => SortedMap.insert x ((counts.lookup x).getD 0 + 1) counts)
      out.counts
    let (bestCost, bestBitstring) ← counts.foldlM (fun (best : WithTop ℝ × ℕ) entry => do
      let c ← diagonalCost cost entry.1
      return if (c : WithTop ℝ) < best.1 then ((c : WithTop ℝ), entry.1) else best) (⊤, out.bestBitstring)
    return { out with counts := counts, bestCost := bestCost, bestBitstring := bestBitstring }

section Qaoa

variable {φ : Type} (B : Simulator φ (List ℕ)) (randomParameters : ℕ → ℕ → ℝ → ℝ → List ℝ)
  (minimize : Circuit ℝ → Observable ℝ → List ℝ → VQAOptions → Run Exn (QuantumRuntime φ) VQAResult)

/-- The starting points for a circuit of `P` parameters. -/
def qaoaStarts (options : QAOAOptions) (P : ℕ) : List (List ℝ) :=
  (List.range (max options.restarts 1)).map fun r =>
    if r = 0 ∧ options.initialPoint ≠ [] then options.initialPoint
    else if r = 0 then Ansatz.qaoaLinearRamp options.p 0.75
    else randomParameters P ((options.seed + r) % 2 ^ 64) (-options.initRange) options.initRange

attribute [local instance] atLeastTwo_two

def qaoa (cost : Observable ℝ) (options : QAOAOptions) : Run Exn (QuantumRuntime φ) QAOAResult :=
  if options.p = 0 then
    throw ⟨.invalidArgument, "qaoa: p must be at least 1"⟩
  else if !cost.isDiagonal then
    throw ⟨.invalidArgument, "qaoa: the cost Hamiltonian must be diagonal (only Z/I terms); " ++
      "use vqe() for other Hamiltonians"⟩
  else do
    let circuit ← Ansatz.qaoa cost options.p
    if options.initialPoint ≠ [] ∧ options.initialPoint.length ≠ circuit.numParams then
      throw ⟨.invalidArgument, s!"qaoa: initial_point must have 2*p = {circuit.numParams} entries"⟩
    else
      let s ← runRestarts exactResults (minimize circuit cost) options.vqa circuit cost options.restarts
        (qaoaStarts randomParameters options circuit.numParams)
      let bound ← circuit.bind s.best.theta (-1) 0
      let samples ← QuantumRuntime.sample B bound options.sampleShots
      readAnswer cost ⟨s.best, s.bestRestart, s.energies, s.evaluations, 0, 0, []⟩ samples

end Qaoa

end

/-! ### The answer -/

section Answer

variable {edges : List (Edge ℝ)} {n : ℕ}

/-- The counts of a list of samples, added to those of `l`. -/
theorem tally_samples : ∀ {samples l : List ℕ} {counts : List (ℕ × ℕ)}, Tally l counts →
    Tally (samples.reverse ++ l)
      (samples.foldl (fun counts x => SortedMap.insert x ((counts.lookup x).getD 0 + 1) counts) counts)
  | [], _, _, h => h
  | x :: samples, l, counts, h => by
    have hx : Tally (x :: l) (SortedMap.insert x ((counts.lookup x).getD 0 + 1) counts) := by
      rw [h.lookup_beq x]
      exact h.insert x
    rw [List.reverse_cons, List.append_assoc]
    exact tally_samples hx

/-- What `qaoa` reports of some samples: one that cuts the most of them, with its cost. -/
structure QaoaAnswer (edges : List (Edge ℝ)) (samples : List ℕ) (optimum : ℝ) (out : QAOAResult) : Prop where
  counts : Tally samples out.counts
  sampled : out.bestBitstring ∈ samples
  cost : out.bestCost = ((-cutValue edges out.bestBitstring : ℝ) : WithTop ℝ)
  largest : ∀ x ∈ samples, cutValue edges x ≤ cutValue edges out.bestBitstring
  le_optimum : cutValue edges out.bestBitstring ≤ optimum

/-- The search for the cheapest of the keys. -/
theorem foldlM_cheapest (hn : n ≤ 64) (he : ∀ e ∈ edges, e.Within n) (counts : List (ℕ × ℕ))
    (start : WithTop ℝ × ℕ) : ∃ best, counts.foldlM (fun (best : WithTop ℝ × ℕ) entry => do
      let c ← diagonalCost (maxcutObservable n edges true) entry.1
      return if (c : WithTop ℝ) < best.1 then ((c : WithTop ℝ), entry.1) else best) start = .ok best ∧
    Best (fun x => ((-cutValue edges x : ℝ) : WithTop ℝ)) start (counts.map Prod.fst) best := by
  have hcost : ∀ bits, diagonalCost (maxcutObservable n edges true) bits = .ok (-cutValue edges bits) :=
    fun bits => by rw [diagonalCost_maxcut hn he, if_pos rfl, sub_zero]
  let g : WithTop ℝ × ℕ → ℕ × ℕ → WithTop ℝ × ℕ := fun best entry =>
    if ((-cutValue edges entry.1 : ℝ) : WithTop ℝ) < best.1 then
      (((-cutValue edges entry.1 : ℝ) : WithTop ℝ), entry.1) else best
  refine ⟨_, foldlM_eq_ok (g := g) start fun entry _ best => ?_, ?_⟩
  · rw [hcost]
    rfl
  · have hbest := Best.foldl (f := fun x => ((-cutValue edges x : ℝ) : WithTop ℝ))
      (counts.map Prod.fst) start
    rwa [List.foldl_map] at hbest

/-- **Every list of samples but the empty one has an answer.** -/
theorem readAnswer_maxcut (hn : n ≤ 64) (he : ∀ e ∈ edges, e.Within n) {optimum : ℝ}
    (hopt : ∀ y, cutValue edges y ≤ optimum) {samples : List ℕ} (hs : samples ≠ []) {out : QAOAResult}
    (hout : out.counts = []) : ∃ out', readAnswer (maxcutObservable n edges true) out samples = .ok out' ∧
      out'.best = out.best ∧ QaoaAnswer edges samples optimum out' := by
  have htally : Tally samples (samples.foldl
      (fun counts x => SortedMap.insert x ((counts.lookup x).getD 0 + 1) counts) out.counts) := by
    have h := @tally_samples samples [] [] Tally.nil
    rw [List.append_nil] at h
    rw [hout]
    exact h.perm samples.reverse_perm
  have hkeys : ∀ x, x ∈ _ ↔ x ∈ samples := fun x => htally.keys_perm.mem_iff.trans List.mem_dedup
  obtain ⟨best, hrun, hbest⟩ := foldlM_cheapest hn he
    (samples.foldl (fun counts x => SortedMap.insert x ((counts.lookup x).getD 0 + 1) counts) out.counts)
    (⊤, out.bestBitstring)
  obtain ⟨x₀, hx₀⟩ := List.exists_mem_of_ne_nil samples hs
  obtain ⟨x, hx, rfl⟩ := hbest.exists_mem ((hkeys x₀).mpr hx₀) (WithTop.coe_lt_top _)
  let c : WithTop ℝ := ((-cutValue edges x : ℝ) : WithTop ℝ)
  refine ⟨{ out with counts := _, bestCost := c, bestBitstring := x }, ?_, rfl,
    ⟨htally, (hkeys x).mp hx, rfl, fun y hy => ?_, hopt x⟩⟩
  · rw [readAnswer, if_neg (by simpa using hs)]
    exact bind_eq_ok.mpr ⟨_, hrun, rfl⟩
  · have hle := hbest.le y ((hkeys y).mpr hy)
    exact neg_le_neg_iff.mp (WithTop.coe_le_coe.mp hle)

/-- A run of `qaoa` that returns has sampled the circuit at the reported parameters and
read its answer off these samples. -/
theorem exec_qaoa {φ : Type} {B : Simulator φ (List ℕ)} {randomParameters : ℕ → ℕ → ℝ → ℝ → List ℝ}
    {minimize : Circuit ℝ → Observable ℝ → List ℝ → VQAOptions → Run Exn (QuantumRuntime φ) VQAResult}
    {cost : Observable ℝ} {options : QAOAOptions} {rt rt' : QuantumRuntime φ} {out : QAOAResult}
    (h : exec (qaoa B randomParameters minimize cost options) rt = (.ok out, rt')) :
    ∃ circuit bound samples out₀ rt₁, Ansatz.qaoa cost options.p = .ok circuit ∧
      circuit.bind out₀.best.theta (-1) 0 = .ok bound ∧
      exec (QuantumRuntime.sample B bound options.sampleShots) rt₁ = (.ok samples, rt') ∧
      out₀.counts = [] ∧ readAnswer cost out₀ samples = .ok out := by
  rw [qaoa] at h
  split at h
  · cases h
  split at h
  · cases h
  obtain ⟨circuit, rt₀, hcircuit, h⟩ := exec_bind_eq_ok.mp h
  rw [exec_lift, Prod.mk.injEq] at hcircuit
  split at h
  · cases h
  obtain ⟨sweep, rt₁, -, h⟩ := exec_bind_eq_ok.mp h
  obtain ⟨bound, rt₂, hbound, h⟩ := exec_bind_eq_ok.mp h
  obtain ⟨samples, rt₃, hsamples, h⟩ := exec_bind_eq_ok.mp h
  rw [exec_lift, Prod.mk.injEq] at hbound h
  exact ⟨circuit, bound, samples, _, rt₂, hcircuit.1, hbound.1, h.2 ▸ hsamples, rfl, h.1⟩

/-- **QAOA of a MaxCut cost.** The energy of the circuit of `ansatz::qaoa` is at least the
negated brute-force optimum, at all angles; and what `qaoa` reports of the samples, which is an
answer for all but the empty list, is a sampled bitstring with its cost, the largest cut of
them, and not beyond the optimum. -/
theorem qaoa_maxcut (hn : 1 ≤ n) (hn' : n ≤ 26) (he : ∀ e ∈ edges, e.Within n) (p : ℕ) :
    ∃ cost optimum, maxcut n edges true = .ok cost ∧ maxcutBruteForce n edges = .ok optimum ∧
      (∀ theta : List ℝ, theta.length = 2 * p → ∃ circuit bound, Ansatz.qaoa cost p = .ok circuit ∧
        circuit.bind theta (-1) 0 = .ok bound ∧ ∀ b : CPUBackend ℂ, ∃ b₀ b' e,
          b.initializeState n = .ok b₀ ∧ b₀.run bound.ops = .ok b' ∧
          expectationValue b'.getState cost = .ok e ∧ -optimum.1 ≤ e) ∧
      (∀ samples ≠ [], ∀ out, out.counts = [] → ∃ out', readAnswer cost out samples = .ok out' ∧
        QaoaAnswer edges samples optimum.1 out') ∧
      ∀ (φ : Type) (B : Simulator φ (List ℕ)) randomParameters minimize options,
        options.p = p → ∀ rt out rt', exec (qaoa B randomParameters minimize cost options) rt = (.ok out, rt') →
        ∃ circuit bound samples rt₁, Ansatz.qaoa cost p = .ok circuit ∧
          circuit.bind out.best.theta (-1) 0 = .ok bound ∧
          exec (QuantumRuntime.sample B bound options.sampleShots) rt₁ = (.ok samples, rt') ∧
          QaoaAnswer edges samples optimum.1 out := by
  obtain ⟨optimum, hbrute, -, -, htop⟩ := maxcutBruteForce_spec hn hn' edges
  have hopt : ∀ y, cutValue edges y ≤ optimum.1 :=
    cutValue_le_of_topZero hn (fun e hmem => ⟨(he e hmem).1, (he e hmem).2.1⟩) htop
  have hn64 : n ≤ 64 := by omega
  have hl := legal_maxcutObservable hn hn64 he true
  have hd : (maxcutObservable n edges true).isDiagonal = true := isDiagonal_maxcutObservable true
  refine ⟨_, optimum, maxcut_eq hn hn64 he true, hbrute, fun theta htheta => ?_,
    fun samples hs out hout => ?_, fun φ B randomParameters minimize options hp rt out rt' hrun => ?_⟩
  · obtain ⟨hq, hf⟩ := Ansatz.qaoa_eq hl hd p
    have hlegal : Circuit.Legal ⟨n, 2 * p,
        (Ansatz.qaoaCircuitCalls (maxcutObservable n edges true) p).map GateCall.op, []⟩ _ :=
      ⟨hn, rfl, hf, fun q hq => absurd hq List.not_mem_nil⟩
    have hb := (Circuit.bind_eq_ok _ _ hlegal.ops theta (-1) 0 _).mpr
      ⟨htheta, fun h => absurd h (by decide), rfl⟩
    refine ⟨_, _, hq, hb, fun b => ?_⟩
    have hfits := (hlegal.bind hb).fits
    obtain ⟨b₀, b', hinit, hrun, hholds⟩ := CPUBackend.prepare_holds (n := n) hn (by omega) hfits b
    have hnorm := ((isUnitary_circuitOperator hfits).sum_normSq (zeroState (n := n))).trans
      (sum_normSq_zeroState n)
    obtain ⟨e, he', hle⟩ := neg_le_expectationValue hn hn64 he hopt hholds hnorm
    exact ⟨b₀, b', e, hinit, hrun, he', hle⟩
  · obtain ⟨out', hread, -, hanswer⟩ := readAnswer_maxcut hn64 he hopt hs hout
    exact ⟨out', hread, hanswer⟩
  · obtain ⟨circuit, bound, samples, out₀, rt₁, hcircuit, hbound, hsamples, hout, hread⟩ := exec_qaoa hrun
    have hs : samples ≠ [] := by
      rintro rfl
      cases hread
    obtain ⟨out', hread', hbest, hanswer⟩ := readAnswer_maxcut hn64 he hopt hs hout
    obtain rfl : out' = out := Except.ok.inj (hread'.symm.trans hread)
    exact ⟨circuit, bound, samples, rt₁, hp ▸ hcircuit, hbest ▸ hbound, hsamples, hanswer⟩

/-- One edge of weight -3 between two nodes, with samples that all cut it. -/
theorem qaoa_maxcut_two : ∃ cost optimum,
    maxcut 2 [⟨0, 1, -3⟩] true = .ok cost ∧ maxcutBruteForce 2 [⟨0, 1, -3⟩] = .ok optimum ∧
      ∃ out, readAnswer cost ⟨.new, 0, [], 0, 0, 0, []⟩ [1, 2, 1] = .ok out ∧
        QaoaAnswer [⟨0, 1, (-3 : ℝ)⟩] [1, 2, 1] optimum.1 out := by
  have he : ∀ e ∈ [(⟨0, 1, -3⟩ : Edge ℝ)], e.Within 2 := by simp [Edge.Within]
  obtain ⟨cost, optimum, hcost, hopt, -, hanswer, -⟩ := qaoa_maxcut (by decide) (by decide) he 1
  exact ⟨cost, optimum, hcost, hopt, hanswer _ (by decide) _ rfl⟩

end Answer

end Qsycl
