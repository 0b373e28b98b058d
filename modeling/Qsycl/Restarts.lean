/-
# The best of several restarts

`run_restarts` keeps the result with the least energy, starting from infinity,
and throws if no energy is below infinity. Energies are doubles: NaN and the
infinity are below nothing, so neither is ever kept. The negative infinity is,
and it is not finite (`runRestarts_best`).
-/
import Qsycl.Algorithms
import Qsycl.Lib.Ieee

namespace Qsycl

open Runs Search Ieee

section Restarts

variable {σ ρ α : Type} [LinearOrder α] {V : ResultView ρ (Value α)}

/-! ### What restarts return -/

section Loop

variable {minimize : List ℝ → VQAOptions → Run Exn σ ρ} {base : VQAOptions} {starts : List (List ℝ)}

/-- The optimizations from restart `r` on return these results, one after the other. -/
inductive Restarted (minimize : List ℝ → VQAOptions → Run Exn σ ρ) (base : VQAOptions)
    (starts : List (List ℝ)) : ℕ → List ρ → σ → σ → Prop
  | nil {r : ℕ} {s : σ} : Restarted minimize base starts r [] s s
  | cons {r : ℕ} {start : List ℝ} {res : ρ} {results : List ρ} {s s₁ s' : σ} : starts[r]? = some start →
      exec (minimize start { base with seed := (base.seed + r) % 2 ^ 64 }) s = (.ok res, s₁) →
      Restarted minimize base starts (r + 1) results s₁ s' →
      Restarted minimize base starts r (res :: results) s s'

variable (V)

/-- What a restart does with its result. -/
def takeResult (s : Value α × Sweep ρ (Value α)) (x : ρ × ℕ) : Value α × Sweep ρ (Value α) :=
  let sweep := { s.2 with
    evaluations := s.2.evaluations + V.evaluations x.1
    energies := s.2.energies ++ [V.energy x.1] }
  if V.energy x.1 < s.1 then (V.energy x.1, { sweep with best := x.1, bestRestart := x.2 }) else (s.1, sweep)

theorem exec_restartStep {r : ℕ} {start : List ℝ} {res : ρ} {s s₁ : σ} (hstart : starts[r]? = some start)
    (hres : exec (minimize start { base with seed := (base.seed + r) % 2 ^ 64 }) s = (.ok res, s₁))
    (acc : Value α × Sweep ρ (Value α)) :
    exec (restartStep V minimize base starts r acc) s = (.ok (takeResult V acc (res, r)), s₁) := by
  have hat : checkedAt starts r = .ok start := by rw [checkedAt, hstart]
  rw [restartStep, hat]
  refine (exec_bind _ _ s).trans ?_
  rw [exec_lift]
  refine (exec_bind _ _ s).trans ?_
  rw [hres, takeResult]
  dsimp only
  split <;> rfl

theorem exec_restarts {r : ℕ} {results : List ρ} {s s' : σ} (h : Restarted minimize base starts r results s s') :
    ∀ acc : Value α × Sweep ρ (Value α),
      exec ((List.range' r results.length).foldlM (fun a i => restartStep V minimize base starts i a) acc) s =
        (.ok ((results.zipIdx r).foldl (takeResult V) acc), s') := by
  induction h with
  | nil => exact fun acc => rfl
  | cons hstart hres _ ih =>
    intro acc
    rw [List.length_cons, List.range'_succ, List.foldlM_cons, exec_bind, exec_restartStep V hstart hres]
    exact ih _

end Loop

/-! ### The search -/

/-- The energy of a result as the search compares it. -/
def energyKey (V : ResultView ρ (Value α)) (x : ρ × ℕ) : WithTop (WithBot α) := (V.energy x.1).key

/-- One round of the loop is one of the search. -/
theorem takeResult_facts (acc : Value α × Sweep ρ (Value α)) (x : ρ × ℕ) (h : acc.1 ≠ .nan) :
    (takeResult V acc x).1 ≠ .nan ∧ ((takeResult V acc x).1.key,
      ((takeResult V acc x).2.best, (takeResult V acc x).2.bestRestart)) =
        (if energyKey V x < acc.1.key then (energyKey V x, x)
          else (acc.1.key, (acc.2.best, acc.2.bestRestart))) ∧
      (takeResult V acc x).2.energies = acc.2.energies ++ [V.energy x.1] ∧
      (takeResult V acc x).2.evaluations = acc.2.evaluations + V.evaluations x.1 := by
  have hlt := Value.lt_iff_key (V.energy x.1) h
  rw [takeResult]
  by_cases hx : V.energy x.1 < acc.1
  · have hnan : V.energy x.1 ≠ .nan := fun heq => by
      rw [heq] at hx
      cases hx
    rw [if_pos hx, energyKey, if_pos (hlt.mp hx)]
    exact ⟨hnan, rfl, rfl, rfl⟩
  · rw [if_neg hx, energyKey, if_neg fun hk => hx (hlt.mpr hk)]
    exact ⟨h, rfl, rfl, rfl⟩

/-- The loop is a search for the least energy, with a record of all results. -/
theorem foldl_takeResult : ∀ (l : List (ρ × ℕ)) (acc : Value α × Sweep ρ (Value α)), acc.1 ≠ .nan →
    let out := l.foldl (takeResult V) acc
    out.1 ≠ .nan ∧ (out.1.key, (out.2.best, out.2.bestRestart)) =
        l.foldl (fun best x => if energyKey V x < best.1 then (energyKey V x, x) else best)
          (acc.1.key, (acc.2.best, acc.2.bestRestart)) ∧
      out.2.energies = acc.2.energies ++ l.map (fun x => V.energy x.1) ∧
      out.2.evaluations = acc.2.evaluations + (l.map fun x => V.evaluations x.1).sum
  | [], acc, h => ⟨h, rfl, by simp, by simp⟩
  | x :: l, acc, h => by
    obtain ⟨hnan, hkey, henergies, hevaluations⟩ := takeResult_facts (V := V) acc x h
    obtain ⟨hnan', hfound, henergies', hevaluations'⟩ := foldl_takeResult l (takeResult V acc x) hnan
    refine ⟨hnan', ?_, ?_, ?_⟩
    · rw [hkey] at hfound
      exact hfound
    · rw [List.foldl_cons, henergies', henergies]
      simp
    · rw [List.foldl_cons, hevaluations', hevaluations]
      simp [add_assoc]

/-- What the loop ends with: nothing below infinity, or the first of the results with the least energy. -/
structure Swept (V : ResultView ρ (Value α)) (results : List ρ) (out : Value α × Sweep ρ (Value α)) : Prop where
  number : out.1 ≠ .nan
  le : ∀ res ∈ results, out.1.key ≤ (V.energy res).key
  kept : out.1.key < ⊤ → results[out.2.bestRestart]? = some out.2.best ∧
    out.1.key = (V.energy out.2.best).key ∧
    ∀ r < out.2.bestRestart, ∀ res, results[r]? = some res → out.1.key < (V.energy res).key
  energies : out.2.energies = results.map V.energy
  evaluations : out.2.evaluations = (results.map V.evaluations).sum

/-- The entries before the one of restart `r` are those of the restarts before it. -/
theorem mem_before {results : List ρ} {before after : List (ρ × ℕ)} {res : ρ} {r : ℕ}
    (h : results.zipIdx = before ++ (res, r) :: after) {i : ℕ} (hi : i < r) {res' : ρ}
    (hres' : results[i]? = some res') : (res', i) ∈ before := by
  have hentry : ∀ j : ℕ, (results.zipIdx)[j]? = results[j]?.map fun a => (a, j) := fun j => by simp
  have hr : r = before.length := by
    have hat := hentry before.length
    rw [h, List.getElem?_append_right le_rfl, Nat.sub_self, List.getElem?_cons_zero] at hat
    obtain ⟨a, -, ha⟩ := Option.map_eq_some_iff.mp hat.symm
    exact (congrArg Prod.snd ha).symm
  have hat := hentry i
  rw [h, List.getElem?_append_left (hr ▸ hi), hres', Option.map_some] at hat
  exact List.mem_of_getElem? hat

theorem map_zipIdx_fst {γ : Type} (results : List ρ) (f : ρ → γ) :
    results.zipIdx.map (fun x => f x.1) = results.map f := by
  have hcomp : (fun x : ρ × ℕ => f x.1) = f ∘ Prod.fst := rfl
  rw [hcomp, ← List.map_map, List.zipIdx_map_fst]

theorem swept (results : List ρ) :
    Swept V results (results.zipIdx.foldl (takeResult V) (.posInf, ⟨V.new, 0, [], 0⟩)) := by
  obtain ⟨hnan, hfound, henergies, hevaluations⟩ :=
    foldl_takeResult (V := V) results.zipIdx (.posInf, ⟨V.new, 0, [], 0⟩) (by simp)
  generalize results.zipIdx.foldl (takeResult V) (.posInf, ⟨V.new, 0, [], 0⟩) = out at *
  have hbest := Best.foldl (f := energyKey V) results.zipIdx (⊤, (V.new, 0))
  have hfirst := Best.foldl_first (f := energyKey V) results.zipIdx (⊤, (V.new, 0))
  have hstart : ((.posInf : Value α).key, (V.new, 0)) = ((⊤, (V.new, 0)) : WithTop (WithBot α) × (ρ × ℕ)) := rfl
  rw [hstart] at hfound
  rw [← hfound] at hbest hfirst
  refine ⟨hnan, fun res hres => ?_, fun hlt => ?_, ?_, ?_⟩
  · obtain ⟨r, hr⟩ := List.mem_iff_getElem?.mp hres
    exact hbest.le (res, r) (List.mem_zipIdx_iff_getElem?.mpr hr)
  · rcases hfirst with hnone | ⟨before, ⟨res, r⟩, after, hsplit, hres, -, hfirst⟩
    · exact absurd (congrArg Prod.fst hnone) hlt.ne
    · simp only [Prod.mk.injEq] at hres
      obtain ⟨hkey, hselRes, hselR⟩ := hres
      have hmem : (res, r) ∈ results.zipIdx := hsplit ▸ List.mem_append_right _ List.mem_cons_self
      rw [hselRes, hselR]
      refine ⟨List.mem_zipIdx_iff_getElem?.mp hmem, hkey, fun i hi res' hres' => ?_⟩
      exact hkey ▸ hfirst _ (mem_before hsplit hi hres')
  · rw [henergies, map_zipIdx_fst results V.energy]
    rfl
  · rw [hevaluations, map_zipIdx_fst results V.evaluations, zero_add]

/-! ### What is reported -/

/-- The sweep reports the first of the results with the least finite energy. -/
structure Sweep.Reports (V : ResultView ρ (Value α)) (results : List ρ) (sweep : Sweep ρ (Value α)) : Prop where
  selected : results[sweep.bestRestart]? = some sweep.best
  least : ∃ x, V.energy sweep.best = .finite x ∧ ∀ res ∈ results, ∀ y, V.energy res = .finite y → x ≤ y
  first : ∀ r < sweep.bestRestart, ∀ res, results[r]? = some res → V.energy res ≠ V.energy sweep.best
  energies : sweep.energies = results.map V.energy
  evaluations : sweep.evaluations = (results.map V.evaluations).sum

/-- A sweep is reported if some energy is finite, and an exception thrown otherwise. -/
def ReportsBest (V : ResultView ρ (Value α)) (results : List ρ) (outcome : Except Exn (Sweep ρ (Value α))) : Prop :=
  ((∃ e, outcome = .error e) ↔ ∀ res ∈ results, ∀ x, V.energy res ≠ .finite x) ∧
    ∀ sweep, outcome = .ok sweep → sweep.Reports V results

/-- A finite energy that is kept is the least of them. -/
theorem Swept.reports {results : List ρ} {out : Value α × Sweep ρ (Value α)} (h : Swept V results out)
    (hlt : out.1.key < ⊤) {x : α} (hx : V.energy out.2.best = .finite x) : out.2.Reports V results := by
  obtain ⟨hat, hkey, hfirst⟩ := h.kept hlt
  refine ⟨hat, ⟨x, hx, fun res hres y hy => ?_⟩, fun r hr res hres heq => ?_, h.energies, h.evaluations⟩
  · have hle := h.le res hres
    rwa [hkey, hx, hy, Value.key_finite_le] at hle
  · have hbefore := hfirst r hr res hres
    rw [hkey, heq] at hbefore
    exact lt_irrefl _ hbefore

/-- The check of `run_restarts` passes what is below infinity. -/
theorem Swept.reportsBest_iff {results : List ρ} {out : Value α × Sweep ρ (Value α)} (h : Swept V results out) :
    ReportsBest V results (if out.1 < .posInf then .ok out.2
      else .error ⟨.runtimeError, "all restarts produced a non-finite energy"⟩) ↔
      ∀ res ∈ results, V.energy res ≠ .negInf := by
  have hcheck : out.1 < .posInf ↔ out.1.key < ⊤ := Value.lt_iff_key out.1 (by simp)
  by_cases hlt : out.1.key < ⊤
  · rw [if_pos (hcheck.mpr hlt)]
    obtain ⟨hat, hkey, -⟩ := h.kept hlt
    have hmem : out.2.best ∈ results := List.mem_of_getElem? hat
    rcases Value.key_lt_top.mp (hkey ▸ hlt) with hneg | ⟨x, hx⟩
    · -- the negative infinity is kept, and is not finite
      refine iff_of_false (fun hreports => ?_) fun hnone => hnone _ hmem hneg
      obtain ⟨x, hx, -⟩ := (hreports.2 _ rfl).least
      rw [hneg] at hx
      cases hx
    · refine iff_of_true ⟨iff_of_false nofun fun hnone => hnone _ hmem x hx, fun sweep hsweep => ?_⟩
        fun res hres hneg => ?_
      · rw [← Except.ok.inj hsweep]
        exact h.reports hlt hx
      · have hle := h.le res hres
        rw [hkey, hx, hneg] at hle
        exact (WithTop.coe_lt_coe.mpr (WithBot.bot_lt_coe x)).not_ge hle
  · rw [if_neg fun hpos => hlt (hcheck.mp hpos)]
    have hkeys : ∀ res ∈ results, ¬ (V.energy res).key < ⊤ :=
      fun res hres hres' => hlt ((h.le res hres).trans_lt hres')
    refine iff_of_true ⟨iff_of_true ⟨_, rfl⟩ fun res hres x hx => ?_, nofun⟩ fun res hres hneg => ?_
    · exact hkeys res hres (Value.key_lt_top.mpr (.inr ⟨x, hx⟩))
    · exact hkeys res hres (Value.key_lt_top.mpr (.inl hneg))

/-- **Restarts.** When all restarts return, `run_restarts` throws if none has a
finite energy and otherwise reports the first with the least finite energy, the
energies of all and the sum of their evaluations: for all results but those with
an energy of negative infinity. -/
theorem runRestarts_best {minimize : List ℝ → VQAOptions → Run Exn σ ρ} {base : VQAOptions}
    {starts : List (List ℝ)} {ansatz : Circuit ℝ} {H : Observable ℝ} {results : List ρ} {s s' : σ}
    (hV : V.infinity = .posInf) (hvqa : checkVQA ansatz H = .ok ()) (hne : results ≠ [])
    (hresults : Restarted minimize base starts 0 results s s') :
    ReportsBest V results (exec (runRestarts V minimize base ansatz H results.length starts) s).1 ↔
      ∀ res ∈ results, V.energy res ≠ .negInf := by
  have hlen : results.length ≠ 0 := fun h => hne (List.length_eq_zero_iff.mp h)
  have hrun := exec_restarts V hresults (.posInf, ⟨V.new, 0, [], 0⟩)
  have hexec : (exec (runRestarts V minimize base ansatz H results.length starts) s).1 =
      (let out := results.zipIdx.foldl (takeResult V) (.posInf, ⟨V.new, 0, [], 0⟩)
      if out.1 < .posInf then .ok out.2
      else .error ⟨.runtimeError, "all restarts produced a non-finite energy"⟩) := by
    rw [runRestarts, if_neg hlen, hvqa, hV, List.range_eq_range', exec_bind, exec_lift]
    dsimp only
    rw [exec_bind, hrun]
    dsimp only
    split <;> rfl
  rw [hexec]
  exact (swept results).reportsBest_iff

end Restarts

/-! ### Runs -/

/-- Results that are their energies. -/
def energiesOnly : ResultView (Value ℤ) (Value ℤ) := ⟨.nan, id, fun _ => 1, .posInf⟩

noncomputable def spsaOptions : VQAOptions := ⟨.SPSA, .ParameterShift, 0, 0, 0, 0, 0, 0, 0, 0, 0, true, 0⟩

/-- Three restarts, the first of which ends in NaN. -/
theorem runRestarts_best_three : ReportsBest energiesOnly [.nan, .finite 2, .finite 1]
    (exec (runRestarts energiesOnly
      (fun _ opt => pure (if opt.seed = 0 then .nan else .finite (3 - opt.seed)) :
        List ℝ → VQAOptions → Run Exn Unit (Value ℤ))
      spsaOptions ⟨1, 1, [], []⟩ ⟨1, []⟩ 3 [[0], [1], [2]]) ()).1 :=
  (runRestarts_best rfl rfl (by simp) (.cons rfl rfl (.cons rfl rfl (.cons rfl rfl .nil)))).mpr
    (by simp [energiesOnly])

/-- A single restart that ends in the negative infinity is reported. -/
theorem runRestarts_best_fails : ¬ ReportsBest energiesOnly [.negInf]
    (exec (runRestarts energiesOnly (fun _ _ => pure .negInf : List ℝ → VQAOptions → Run Exn Unit (Value ℤ))
      spsaOptions ⟨1, 1, [], []⟩ ⟨1, []⟩ 1 [[0]]) ()).1 := by
  intro h
  obtain ⟨x, hx, -⟩ := (h.2 ⟨.negInf, 0, [.negInf], 1⟩ rfl).least
  cases hx

end Qsycl
