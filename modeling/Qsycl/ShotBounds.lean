/-
# What a device can answer

The shot path trusts the device that runs its circuits: the outcomes are
whatever `sample` answers, too few of them, noisy or plainly wrong. Even so an
estimate never exceeds the sum of the absolute coefficients, as each term enters
with a mean sign.

A diagonal observable needs more: its terms form one group and no qubit is
rotated, so the device runs the bound ansatz once and the estimate is the mean of
`diagonal_cost` over the outcomes (`shotBasedExpectation_diagonal`). The estimates
of QAOA on a device are therefore between the smallest and the largest cost,
whatever the device does, and no noise reports an energy below the optimum.

Key theorem: `estimates_bounded`.
-/
import Qsycl.Signs
import Qsycl.Vqe

namespace Qsycl.Native

open Qubits

/-- A sum is no larger than the bounds of what is summed. -/
theorem abs_sum_map_le {α M : Type*} [AddCommGroup M] [LinearOrder M] [IsOrderedAddMonoid M] {f bound : α → M} :
    ∀ {l : List α}, (∀ a ∈ l, |f a| ≤ bound a) → |(l.map f).sum| ≤ (l.map bound).sum
  | [], _ => by simp
  | a :: l, h => by
    have ih := abs_sum_map_le fun a ha => h a (List.mem_cons_of_mem _ ha)
    rw [List.map_cons, List.sum_cons, List.map_cons, List.sum_cons]
    exact (abs_add_le _ _).trans (add_le_add (h a List.mem_cons_self) ih)

variable {σ : Type} {B : Sampler σ (List ℕ)} {ansatz : Circuit ℝ} {obs : Observable ℝ} {shots : ℕ}

/-! ### Any observable -/

section Any

variable {theta : List ℝ} {shiftOp : ℤ} {shift : ℝ}

/-- A mean of signs. -/
theorem abs_meanSign_le (mask : ℕ) (outcomes : List ℕ) : |shotReadout.meanSign mask outcomes| ≤ 1 := by
  let sign : ℕ → ℤ := fun outcome => if popcount64 (outcome &&& mask) &&& 1 ≠ 0 then -1 else 1
  have hsign : ∀ outcome, |sign outcome| ≤ 1 := by
    intro outcome
    simp only [sign]
    split <;> simp
  have hsum : |(outcomes.map sign).sum| ≤ (outcomes.length : ℤ) := by
    have hle := @abs_sum_map_le _ _ _ _ _ sign (fun _ => 1) outcomes fun outcome _ => hsign outcome
    simpa using hle
  have hmean : shotReadout.meanSign mask outcomes = ((outcomes.map sign).sum : ℝ) / (outcomes.length : ℝ) := by
    simp only [shotReadout, sign, foldl_add_map, zero_add]
  rw [hmean, abs_div, Nat.abs_cast]
  refine div_le_one_of_le₀ ?_ (Nat.cast_nonneg _)
  exact_mod_cast hsum

/-- The sum over a group moves by no more than its coefficients. -/
theorem evaluateGroup_near {total total' : ℝ} {s s' : σ} {group : List ℕ} (hg : group ∈ groupQwc obs)
    (h : evaluateGroup B shotReadout ansatz theta shiftOp shift obs shots total s group = .ok (total', s')) :
    |total' - total| ≤ (group.map fun t => |(maskOf obs t).coeff|).sum := by
  have hnonneg : 0 ≤ (group.map fun t => |(maskOf obs t).coeff|).sum :=
    List.sum_nonneg fun c hc => by
      obtain ⟨t, -, rfl⟩ := List.mem_map.mp hc
      exact abs_nonneg _
  rw [evaluateGroup, mapM_maskOf hg, ok_bind] at h
  obtain ⟨bound, -, h⟩ := bind_eq_ok.mp h
  obtain ⟨rotated, -, h⟩ := bind_eq_ok.mp h
  obtain ⟨s₁, -, h⟩ := bind_eq_ok.mp h
  obtain ⟨s₂, -, h⟩ := bind_eq_ok.mp h
  obtain ⟨⟨outcomes, s₃⟩, -, h⟩ := bind_eq_ok.mp h
  simp only at h
  split at h
  · obtain ⟨rfl, -⟩ := Prod.mk.inj (Except.ok.inj h)
    rw [sub_self, abs_zero]
    exact hnonneg
  · obtain ⟨rfl, -⟩ := Prod.mk.inj (Except.ok.inj h)
    rw [foldl_add_map, add_sub_cancel_left, List.map_map]
    refine abs_sum_map_le fun t _ => ?_
    rw [Function.comp, abs_mul]
    exact mul_le_of_le_one_right (abs_nonneg _) (abs_meanSign_le _ _)

/-- A loop over groups moves the sum by no more than its rounds do. -/
theorem foldlM_near {f : ℝ → σ → List ℕ → Except Exn (ℝ × σ)} {width : List ℕ → ℝ} :
    ∀ {groups : List (List ℕ)} {total total' : ℝ} {s s' : σ},
    (∀ g ∈ groups, ∀ {total total' s s'}, f total s g = .ok (total', s') → |total' - total| ≤ width g) →
    groups.foldlM (fun (total, s) g => f total s g) (total, s) = .ok (total', s') →
    |total' - total| ≤ (groups.map width).sum
  | [], total, total', s, s', _, h => by
    obtain ⟨rfl, -⟩ := Prod.mk.inj (Except.ok.inj h)
    simp
  | g :: groups, total, total', s, s', hf, h => by
    rw [List.foldlM_cons] at h
    obtain ⟨⟨mid, s₁⟩, hfirst, hrest⟩ := bind_eq_ok.mp h
    have hg := hf g List.mem_cons_self hfirst
    have ih := foldlM_near (f := f) (fun g hg => hf g (List.mem_cons_of_mem _ hg)) hrest
    calc |total' - total| = |(mid - total) + (total' - mid)| := by ring_nf
      _ ≤ |mid - total| + |total' - mid| := abs_add_le _ _
      _ ≤ width g + (groups.map width).sum := add_le_add hg ih
      _ = ((g :: groups).map width).sum := by rw [List.map_cons, List.sum_cons]

/-- **No estimate exceeds the coefficients.** -/
theorem abs_estimate_le {s s' : σ} {e : ℝ}
    (h : shotBasedExpectation B shotReadout ansatz theta shiftOp shift obs shots s = .ok (e, s')) :
    |e| ≤ (obs.masks.map fun m => |m.coeff|).sum := by
  have hnear := foldlM_near (f := evaluateGroup B shotReadout ansatz theta shiftOp shift obs shots)
    (fun g hg _ _ _ _ => evaluateGroup_near hg) h
  rwa [sub_zero, sum_groups obs fun m => |m.coeff|] at hnear

/-- What holds of each answer holds of all that a loop over rows collects. -/
theorem mapRows_forall {f : ℕ → σ → Except Exn (ℝ × σ)} {P : ℝ → Prop} :
    ∀ {rows : List ℕ} {s s' : σ} {es : List ℝ}, (∀ i ∈ rows, ∀ {s e s'}, f i s = .ok (e, s') → P e) →
    mapRows f rows s = .ok (es, s') → ∀ e ∈ es, P e
  | [], s, s', es, _, h => by
    obtain ⟨rfl, -⟩ := Prod.mk.inj (Except.ok.inj h)
    exact nofun
  | i :: rows, s, s', es, hf, h => by
    obtain ⟨⟨e, s₁⟩, hfirst, h⟩ := bind_eq_ok.mp h
    obtain ⟨⟨out, s₂⟩, hrest, h⟩ := bind_eq_ok.mp h
    obtain ⟨rfl, -⟩ := Prod.mk.inj (Except.ok.inj h)
    have ih := mapRows_forall (fun i hi => hf i (List.mem_cons_of_mem _ hi)) hrest
    exact List.forall_mem_cons.mpr ⟨hf i List.mem_cons_self hfirst, ih⟩

/-- A batch has one answer for each request. -/
theorem batch_forall {batch : EvalBatch ℝ} {P : ℝ → Prop} {s s' : σ} {es : List ℝ}
    (hP : ∀ theta shiftOp shift {s e s'},
      shotBasedExpectation B shotReadout ansatz theta shiftOp shift obs shots s = .ok (e, s') → P e)
    (h : shotBasedExpectationBatch B shotReadout ansatz obs shots batch s = .ok (es, s')) :
    es.length = batch.count ∧ ∀ e ∈ es, P e := by
  have hlen : es.length = (List.range batch.count).length := length_mapRows h
  refine ⟨hlen.trans List.length_range, mapRows_forall (fun i _ s e s' hrow => ?_) h⟩
  obtain ⟨op, -, hrow⟩ := bind_eq_ok.mp hrow
  obtain ⟨sh, -, hrow⟩ := bind_eq_ok.mp hrow
  exact hP _ op sh hrow

end Any

/-! ### Diagonal observables -/

section Diagonal

/-- The mean of the costs of some outcomes, 0 if there are none. -/
noncomputable def meanCost (cost : ℕ → ℝ) (outcomes : List ℕ) : ℝ := (outcomes.map cost).sum / outcomes.length

variable (B ansatz shots) in
/-- One run of the bound ansatz, and the mean of the costs that the device answers. -/
noncomputable def runMeanCost (theta : List ℝ) (shiftOp : ℤ) (shift : ℝ) (cost : ℕ → ℝ) (s : σ) :
    Except Exn (ℝ × σ) := do
  let bound ← ansatz.bind theta shiftOp shift
  let s ← B.initializeState ansatz.numQubits s
  let s ← bound.ops.foldlM (fun s op => B.applyGate op s) s
  let (outcomes, s) ← B.sample [] shots s
  return (meanCost cost outcomes, s)

/-- A group whose terms are measured in Z takes every other such term. -/
theorem placeTerm_diagonal {n t : ℕ} {m : PauliMask ℝ} (hm : m.x = 0) {g : Group}
    (hg : ∀ q b, g.basis q = some b → b = 2) :
    placeTerm n m t [g] = [⟨g.terms ++ [t], writeBasis n m g.basis⟩] := by
  have hc : g.compatible n m = true := by
    rw [Group.compatible, List.all_eq_true]
    intro q _
    by_cases htouch : (m.x ||| m.z).testBit q = true
    · rw [htouch, Bool.not_true, Bool.false_or]
      rw [hm, Nat.zero_or] at htouch
      split
      · rename_i b hb
        simp [hg q b hb, termBasis, hm, htouch]
      · rfl
    · simp [htouch]
  rw [placeTerm, if_pos hc]

theorem writeBasis_diagonal {n : ℕ} {m : PauliMask ℝ} (hm : m.x = 0) {basis : ℕ → Option ℕ}
    (hb : ∀ q b, basis q = some b → b = 2) (q b : ℕ) (h : writeBasis n m basis q = some b) : b = 2 := by
  unfold writeBasis at h
  by_cases htouch : q < n ∧ (m.x ||| m.z).testBit q = true
  · rw [if_pos htouch] at h
    have hz : m.z.testBit q = true := by simpa [hm] using htouch.2
    have hbasis : termBasis m q = 2 := by simp [termBasis, hm, hz]
    rw [← Option.some.inj h, hbasis]
  · rw [if_neg htouch] at h
    exact hb q b h

theorem foldl_placeTerm_diagonal (n : ℕ) : ∀ (masks : List (PauliMask ℝ)) (t : ℕ) (g : Group),
    (∀ m ∈ masks, m.x = 0) → (∀ q b, g.basis q = some b → b = 2) →
    ∃ basis, (masks.zipIdx t).foldl (fun groups (m, t) => placeTerm n m t groups) [g] =
      [⟨g.terms ++ List.range' t masks.length, basis⟩]
  | [], t, g, _, _ => ⟨g.basis, by simp⟩
  | m :: masks, t, g, hx, hg => by
    obtain ⟨hm, hms⟩ := List.forall_mem_cons.mp hx
    obtain ⟨basis, ih⟩ := foldl_placeTerm_diagonal n masks (t + 1) ⟨g.terms ++ [t], writeBasis n m g.basis⟩ hms
      (writeBasis_diagonal hm hg)
    refine ⟨basis, ?_⟩
    rw [List.zipIdx_cons, List.foldl_cons]
    change List.foldl _ (placeTerm n m t [g]) _ = _
    rw [placeTerm_diagonal hm hg, ih, List.length_cons, List.range'_succ, List.append_assoc, List.singleton_append]

/-- **One group holds all terms** of a diagonal observable. -/
theorem groupQwc_diagonal (hd : obs.isDiagonal = true) (hne : obs.masks ≠ []) :
    groupQwc obs = [List.range obs.masks.length] := by
  have hx := isDiagonal_x hd
  rw [groupQwc]
  generalize obs.masks = masks at hx hne
  obtain ⟨m, masks, rfl⟩ := List.exists_cons_of_ne_nil hne
  obtain ⟨hm, hms⟩ := List.forall_mem_cons.mp hx
  have hbasis := @writeBasis_diagonal obs.numQubits m hm (fun _ => none) fun _ _ h =>
    absurd h.symm (Option.some_ne_none _)
  obtain ⟨basis, h⟩ := foldl_placeTerm_diagonal obs.numQubits masks 1
    ⟨[0], writeBasis obs.numQubits m fun _ => none⟩ hms hbasis
  rw [List.zipIdx_cons, List.foldl_cons]
  simp only [placeTerm, Nat.zero_add]
  rw [h, List.length_cons, List.range_eq_range', List.range'_succ]
  rfl

/-- No qubit is rotated. -/
theorem foldlM_rotateQubit_zero : ∀ (qs : List ℕ) (c : Circuit ℝ), qs.foldlM (rotateQubit 0 0) c = .ok c
  | [], _ => rfl
  | q :: qs, c => by
    have hq : rotateQubit 0 0 c q = .ok c := by
      rw [rotateQubit, Nat.zero_testBit, if_neg Bool.false_ne_true, if_neg Bool.false_ne_true]
      rfl
    rw [List.foldlM_cons, hq, ok_bind, foldlM_rotateQubit_zero qs c]

theorem foldl_or_zero {f : PauliMask ℝ → ℕ} : ∀ {masks : List (PauliMask ℝ)}, (∀ m ∈ masks, f m = 0) →
    masks.foldl (fun needs m => needs ||| f m) 0 = 0
  | [], _ => rfl
  | m :: masks, h => by
    obtain ⟨hm, hms⟩ := List.forall_mem_cons.mp h
    rw [List.foldl_cons, hm, Nat.zero_or, foldl_or_zero hms]

/-- The mean signs of the terms add up to the mean cost. -/
theorem sum_meanSign {masks : List (PauliMask ℝ)} (hm : ∀ m ∈ masks, m.x = 0 ∧ m.z < 2 ^ 64) (outcomes : List ℕ) :
    (masks.map fun m => m.coeff * shotReadout.meanSign (m.x ||| m.z) outcomes).sum =
      meanCost (fun j => (masks.map fun m => m.coeff * maskSign j m.z).sum) outcomes := by
  induction masks with
  | nil => simp [meanCost]
  | cons m masks ih =>
    obtain ⟨⟨hx, hz⟩, hms⟩ := List.forall_mem_cons.mp hm
    have hcast : (((outcomes.map fun o => (maskSign o m.z : ℤ)).sum : ℤ) : ℝ) =
        (outcomes.map fun o => (maskSign o m.z : ℝ)).sum := by
      simp [Int.cast_list_sum, Function.comp_def, maskSign]
    rw [List.map_cons, List.sum_cons, ih hms, hx, Nat.zero_or, meanSign_signs hz, hcast]
    simp only [meanCost, List.map_cons, List.sum_cons, List.sum_map_add, List.sum_map_mul_left]
    ring

variable {theta : List ℝ} {shiftOp : ℤ} {shift : ℝ}

/-- **A diagonal observable needs one run.** Its estimate is the mean of the
costs of the outcomes. -/
theorem shotBasedExpectation_diagonal (ho : obs.Legal) (hd : obs.isDiagonal = true) (hne : obs.masks ≠ [])
    (s : σ) : shotBasedExpectation B shotReadout ansatz theta shiftOp shift obs shots s =
      runMeanCost B ansatz shots theta shiftOp shift obs.diagonalEntry s := by
  have hx := isDiagonal_x hd
  have hgroups := groupQwc_diagonal hd hne
  have hgroup : List.range obs.masks.length ∈ groupQwc obs := by
    rw [hgroups]
    exact List.mem_singleton_self _
  have hmasks : (List.range obs.masks.length).map (maskOf obs) = obs.masks := map_getD_range _ _
  have hneedsX : obs.masks.foldl (fun needs m => needs ||| Nat.ldiff m.x m.z) 0 = 0 :=
    foldl_or_zero fun m hm => by
      rw [hx m hm]
      exact Nat.zero_of_testBit_eq_false fun i => by simp
  have hneedsY : obs.masks.foldl (fun needs m => needs ||| (m.x &&& m.z)) 0 = 0 :=
    foldl_or_zero fun m hm => by rw [hx m hm, Nat.zero_and]
  have hz : ∀ m ∈ obs.masks, m.x = 0 ∧ m.z < 2 ^ 64 := fun m hm =>
    ⟨hx m hm, (ho.fits m hm).z.trans_le (Nat.pow_le_pow_right (by norm_num) ho.le)⟩
  have hcost : obs.diagonalEntry = fun j => (obs.masks.map fun m => m.coeff * maskSign j m.z).sum :=
    funext fun j => diagonalEntry_signs obs j
  -- what is returned is the mean cost, also if there are no outcomes
  have hreturn : ∀ (outcomes : List ℕ) (t : σ),
      (if shotReadout.isEmpty outcomes then return (0, t) else
        return (obs.masks.foldl (fun total m => total + m.coeff * shotReadout.meanSign (m.x ||| m.z) outcomes) 0, t) :
          Except Exn (ℝ × σ)) = return (meanCost obs.diagonalEntry outcomes, t) := by
    intro outcomes t
    by_cases hempty : outcomes = []
    · simp [hempty, meanCost, shotReadout]
    · rw [if_neg (by simpa [shotReadout] using hempty), foldl_add_map, zero_add, sum_meanSign hz, ← hcost]
  rw [shotBasedExpectation, hgroups, List.foldlM_cons]
  simp only [evaluateGroup, mapM_maskOf hgroup, hmasks, ok_bind, hneedsX, hneedsY, foldlM_rotateQubit_zero,
    hreturn]
  rw [runMeanCost]
  simp only [List.foldlM_nil, bind_pure]

/-! ### The spectrum -/

/-- A mean lies between the bounds of what is averaged. -/
theorem meanCost_between {cost : ℕ → ℝ} {lo hi : ℝ} (h : ∀ j, lo ≤ cost j ∧ cost j ≤ hi) {outcomes : List ℕ}
    (hne : outcomes ≠ []) : lo ≤ meanCost cost outcomes ∧ meanCost cost outcomes ≤ hi := by
  have hpos : (0 : ℝ) < outcomes.length := Nat.cast_pos.mpr (List.length_pos_iff.mpr hne)
  have hlo := List.card_nsmul_le_sum (outcomes.map cost) lo
  have hhi := List.sum_le_card_nsmul (outcomes.map cost) hi
  simp only [List.forall_mem_map, List.length_map, nsmul_eq_mul] at hlo hhi
  rw [meanCost, le_div_iff₀ hpos, div_le_iff₀ hpos]
  constructor
  · linarith [hlo fun j _ => (h j).1]
  · linarith [hhi fun j _ => (h j).2]

/-- A cost does not depend on the bits past the qubits. -/
theorem diagonalEntry_mod (ho : obs.Legal) (j : ℕ) :
    obs.diagonalEntry j = obs.diagonalEntry (j % 2 ^ obs.numQubits) := by
  rw [diagonalEntry_signs, diagonalEntry_signs]
  refine congrArg List.sum (List.map_congr_left fun m hm => ?_)
  have hz := (ho.fits m hm).z
  have hand : j &&& m.z = j % 2 ^ obs.numQubits &&& m.z := by
    rw [← Nat.mod_eq_of_lt (Nat.and_lt_two_pow j hz), Nat.and_mod_two_pow, Nat.mod_eq_of_lt hz]
  rw [maskSign_eq, maskSign_eq, hand]

/-- Every cost is the energy of a basis state. -/
theorem diagonalEntry_bounds (ho : obs.Legal) (hd : obs.isDiagonal = true) (j : ℕ) :
    ground (isHermitian_operator obs.numQubits obs) ≤ obs.diagonalEntry j ∧
      obs.diagonalEntry j ≤ top (isHermitian_operator obs.numQubits obs) := by
  let x := bits obs.numQubits (j % 2 ^ obs.numQubits)
  have hx : index x = j % 2 ^ obs.numQubits := index_bits (Nat.mod_lt _ (Nat.two_pow_pos _))
  rw [diagonalEntry_mod ho, ← hx, ← expect_basis ho hd]
  exact ⟨ground_le_expect _ (sum_normSq_single x), expect_le_top _ (sum_normSq_single x)⟩

variable (B shots) in
/-- The device never answers a run with no outcome at all. -/
def Measures : Prop := ∀ ⦃s outcomes s'⦄, B.sample [] shots s = .ok (outcomes, s') → outcomes ≠ []

theorem estimate_between (ho : obs.Legal) (hd : obs.isDiagonal = true) (hB : Measures B shots) {s s' : σ} {e : ℝ}
    (h : shotBasedExpectation B shotReadout ansatz theta shiftOp shift obs shots s = .ok (e, s')) :
    ground (isHermitian_operator obs.numQubits obs) ≤ e ∧ e ≤ top (isHermitian_operator obs.numQubits obs) := by
  by_cases hne : obs.masks = []
  · -- without terms nothing is run
    have hgroups : groupQwc obs = [] := by simp [groupQwc, hne]
    have hzero : obs.diagonalEntry 0 = 0 := by simp [Observable.diagonalEntry, hne]
    rw [shotBasedExpectation, hgroups, List.foldlM_nil] at h
    obtain ⟨rfl, -⟩ := Prod.mk.inj (Except.ok.inj h)
    rw [← hzero]
    exact diagonalEntry_bounds ho hd 0
  · rw [shotBasedExpectation_diagonal ho hd hne, runMeanCost] at h
    obtain ⟨bound, -, h⟩ := bind_eq_ok.mp h
    obtain ⟨s₁, -, h⟩ := bind_eq_ok.mp h
    obtain ⟨s₂, -, h⟩ := bind_eq_ok.mp h
    obtain ⟨⟨outcomes, s₃⟩, hsample, h⟩ := bind_eq_ok.mp h
    obtain ⟨rfl, -⟩ := Prod.mk.inj (Except.ok.inj h)
    exact meanCost_between (diagonalEntry_bounds ho hd) (hB hsample)

end Diagonal

/-- **What a device can answer.** Whatever the device does, an estimate is at most the sum
of the absolute coefficients. For a diagonal observable with terms the device runs the bound
ansatz once, and the estimate is the mean of the costs of its outcomes; so, if it answers
every run with some outcome, the estimates lie between the least and the largest eigenvalue. -/
theorem estimates_bounded (B : Sampler σ (List ℕ)) (ansatz : Circuit ℝ) (shots : ℕ) {n : ℕ} {terms : List (Term ℝ)}
    (hobs : Observable.ofTerms n terms = .ok obs) :
    (∀ batch s es s', shotBasedExpectationBatch B shotReadout ansatz obs shots batch s = .ok (es, s') →
      es.length = batch.count ∧ ∀ e ∈ es, |e| ≤ (obs.masks.map fun m => |m.coeff|).sum) ∧
    (obs.isDiagonal = true → obs.masks ≠ [] → ∃ cost : ℕ → ℝ, (∀ j, diagonalCost obs j = .ok (cost j)) ∧
      ∀ theta shiftOp shift s, shotBasedExpectation B shotReadout ansatz theta shiftOp shift obs shots s =
        runMeanCost B ansatz shots theta shiftOp shift cost s) ∧
    (obs.isDiagonal = true → Measures B shots →
      ∀ batch s es s', shotBasedExpectationBatch B shotReadout ansatz obs shots batch s = .ok (es, s') → ∀ e ∈ es,
        ground (isHermitian_operator obs.numQubits obs) ≤ e ∧ e ≤ top (isHermitian_operator obs.numQubits obs)) := by
  have ho := legal_of_ofTerms hobs
  refine ⟨fun batch s es s' h => ?_, fun hd hne => ?_, fun hd hB batch s es s' h => ?_⟩
  · exact batch_forall (fun _ _ _ _ _ _ => abs_estimate_le) h
  · refine ⟨obs.diagonalEntry, diagonalCost_entry hd, fun theta shiftOp shift s => ?_⟩
    exact shotBasedExpectation_diagonal ho hd hne s
  · exact (batch_forall (fun _ _ _ _ _ _ => estimate_between ho hd hB) h).2

/-- RY(θ₀) in Z, on a device that answers 1, 0 and 1 whatever it runs. -/
theorem estimates_bounded_one :
    let B : Sampler Unit (List ℕ) := ⟨fun _ s => .ok s, fun _ s => .ok s, fun _ _ s => .ok ([1, 0, 1], s)⟩
    let ansatz : Circuit ℝ := ⟨1, 1, [GateCall.op (.ry 0 ⟨0, 1, 0⟩)], []⟩
    let obs : Observable ℝ := ⟨1, [⟨1, 0, 1, 0⟩]⟩
    let batch : EvalBatch ℝ := .ofRequests [⟨[1], -1, 0⟩]
    ∃ es s', shotBasedExpectationBatch B shotReadout ansatz obs 3 batch () = .ok (es, s') ∧
      es.length = 1 ∧ ∀ e ∈ es, |e| ≤ (obs.masks.map fun m => |m.coeff|).sum ∧
        ground (isHermitian_operator 1 obs) ≤ e ∧ e ≤ top (isHermitian_operator 1 obs) := by
  intro B ansatz obs batch
  have hobs : Observable.ofTerms 1 [.dense 1 ['Z']] = .ok obs := rfl
  have hd : obs.isDiagonal = true := by simp [obs, Observable.isDiagonal]
  have hB : Measures B 3 := by
    intro s outcomes s' hsample
    obtain ⟨rfl, -⟩ := Prod.mk.inj (Except.ok.inj hsample)
    exact List.cons_ne_nil _ _
  have hrow : ∀ i ∈ List.range 1, ∀ s, ∃ s', (do
      let op ← batch.opOf i
      let sh ← batch.deltaOf i
      shotBasedExpectation B shotReadout ansatz (batch.thetaOf i) op sh obs 3 s) =
        .ok (meanCost obs.diagonalEntry [1, 0, 1], s') := by
    intro i hi s
    obtain rfl : i = 0 := by simpa using hi
    exact ⟨(), shotBasedExpectation_diagonal (legal_of_ofTerms hobs) hd (List.cons_ne_nil _ _) s⟩
  obtain ⟨s', h⟩ : ∃ s', shotBasedExpectationBatch B shotReadout ansatz obs 3 batch () =
      .ok ([meanCost obs.diagonalEntry [1, 0, 1]], s') := mapRows_eq _ () hrow
  obtain ⟨hany, -, hdiagonal⟩ := estimates_bounded B ansatz 3 hobs
  exact ⟨_, s', h, rfl, fun e he => ⟨(hany batch () _ s' h).2 e he, hdiagonal hd hB batch () _ s' h e he⟩⟩

end Qsycl.Native
