/-
# Two-local circuits

The builder of alternating rotation layers and entangling blocks
(`ansatz.cpp`). Its parameters are handed out layer by layer, in a layer
rotation by rotation, in a rotation qubit by qubit, and each is an `int`: the
order that `ansatz.hpp` documents holds while their numbers are below
`2 ^ 31` (`appendTwoLocal_order`). The pairs of an entangling block join
different qubits, each two at most once (`pairsSpec`).
-/
import Qsycl.Ansatz
import Qsycl.CircuitRuns

namespace Qsycl

namespace Ansatz

/-! ### The pairs of an entangling block -/

inductive Entanglement
  | Linear | Circular | Full | Pairwise
  deriving DecidableEq, Repr

/-- `for (i = start; i + 1 < n; i += step)` over the pairs `(i, i + 1)`. -/
def neighbours (n start step : ℕ) : List (ℕ × ℕ) :=
  ((List.range' start n step).takeWhile fun i => i + 1 < n).map fun i => (i, i + 1)

/-- The (control, target) pairs of one entangling block over `n` qubits. -/
def entanglementPairs (n : ℕ) (e : Entanglement) : List (ℕ × ℕ) :=
  if n < 2 then []
  else match e with
    | .Linear => neighbours n 0 1
    | .Circular => neighbours n 0 1 ++ if 2 < n then [(n - 1, 0)] else []
    | .Full => (List.range n).flatMap fun i => (List.range' (i + 1) (n - (i + 1))).map fun j => (i, j)
    | .Pairwise => neighbours n 0 2 ++ neighbours n 1 2

/-- The loop stops at the first index that is too large, and so are all later ones. -/
theorem takeWhile_range' (n step : ℕ) (hstep : 0 < step) : ∀ count start : ℕ,
    (List.range' start count step).takeWhile (fun i => i + 1 < n) =
      (List.range' start count step).filter fun i => i + 1 < n
  | 0, _ => rfl
  | count + 1, start => by
    rw [List.range'_succ]
    by_cases h : start + 1 < n
    · rw [List.takeWhile_cons_of_pos (by simpa using h), List.filter_cons_of_pos (by simpa using h),
        takeWhile_range' n step hstep count]
    · rw [List.takeWhile_cons_of_neg (by simpa using h), List.filter_cons_of_neg (by simpa using h)]
      refine (List.filter_eq_nil_iff.mpr fun i hi => ?_).symm
      obtain ⟨k, -, rfl⟩ := List.mem_range'.mp hi
      simp only [decide_eq_true_eq]
      omega

theorem mem_neighbours {n start step : ℕ} (hstep : 0 < step) {p : ℕ × ℕ} :
    p ∈ neighbours n start step ↔ p.2 = p.1 + 1 ∧ p.2 < n ∧ ∃ k, p.1 = start + step * k := by
  obtain ⟨a, b⟩ := p
  simp only [neighbours, takeWhile_range' n step hstep, List.mem_map, List.mem_filter, List.mem_range',
    decide_eq_true_eq, Prod.mk.injEq]
  constructor
  · rintro ⟨i, ⟨⟨k, -, rfl⟩, hi⟩, rfl, rfl⟩
    exact ⟨rfl, hi, k, rfl⟩
  · rintro ⟨rfl, hb, k, rfl⟩
    refine ⟨start + step * k, ⟨⟨k, ?_, rfl⟩, hb⟩, rfl, rfl⟩
    have hk : k ≤ step * k := Nat.le_mul_of_pos_left k hstep
    omega

theorem nodup_neighbours (n start : ℕ) {step : ℕ} (hstep : 0 < step) : (neighbours n start step).Nodup := by
  rw [neighbours, takeWhile_range' n step hstep]
  have hinj : Function.Injective fun i : ℕ => (i, i + 1) := fun i j h => (Prod.mk.inj h).1
  exact ((List.nodup_range' step hstep).filter _).map hinj

/-- The pairs as edges between qubits. -/
def edges (pairs : List (ℕ × ℕ)) : List (Sym2 ℕ) := pairs.map fun p => s(p.1, p.2)

/-- No two pairs share a qubit. -/
def QubitDisjoint (pairs : List (ℕ × ℕ)) : Prop := (pairs.flatMap fun p => [p.1, p.2]).Nodup

/-- What an entangling block over `n` qubits is made of. -/
structure PairsSpec (n : ℕ) : Prop where
  ends : ∀ e, ∀ p ∈ entanglementPairs n e, p.1 ≠ p.2 ∧ p.1 < n ∧ p.2 < n
  distinct : ∀ e, (edges (entanglementPairs n e)).Nodup
  full : ∀ i < n, ∀ j < n, i ≠ j → s(i, j) ∈ edges (entanglementPairs n .Full)
  pairwise : (entanglementPairs n .Pairwise).Perm (entanglementPairs n .Linear)
  runs : ∃ first second, entanglementPairs n .Pairwise = first ++ second ∧
    QubitDisjoint first ∧ QubitDisjoint second

theorem mem_entanglementPairs {n : ℕ} {e : Entanglement} {p : ℕ × ℕ} : p ∈ entanglementPairs n e ↔
    match e with
    | .Linear | .Pairwise => p.2 = p.1 + 1 ∧ p.2 < n
    | .Circular => (p.2 = p.1 + 1 ∧ p.2 < n) ∨ (2 < n ∧ p = (n - 1, 0))
    | .Full => p.1 < p.2 ∧ p.2 < n := by
  obtain ⟨a, b⟩ := p
  unfold entanglementPairs
  by_cases hn : n < 2
  · rw [if_pos hn]
    cases e <;> simp only [List.not_mem_nil, false_iff] <;> omega
  rw [if_neg hn]
  cases e with
  | Linear =>
    rw [mem_neighbours Nat.one_pos]
    exact ⟨fun h => ⟨h.1, h.2.1⟩, fun h => ⟨h.1, h.2, a, by omega⟩⟩
  | Circular =>
    rw [List.mem_append, mem_neighbours Nat.one_pos]
    refine or_congr ⟨fun h => ⟨h.1, h.2.1⟩, fun h => ⟨h.1, h.2, a, by omega⟩⟩ ?_
    by_cases h2 : 2 < n <;> simp [h2]
  | Full =>
    simp only [List.mem_flatMap, List.mem_range, List.mem_map, List.mem_range', Prod.mk.injEq]
    constructor
    · rintro ⟨i, hi, j, ⟨k, hk, rfl⟩, rfl, rfl⟩
      omega
    · rintro ⟨hab, hb⟩
      exact ⟨a, hab.trans hb, b, ⟨b - (a + 1), by omega, by omega⟩, rfl, rfl⟩
  | Pairwise =>
    rw [List.mem_append, mem_neighbours Nat.two_pos, mem_neighbours Nat.two_pos]
    constructor
    · rintro (⟨h, hb, -⟩ | ⟨h, hb, -⟩) <;> exact ⟨h, hb⟩
    · rintro ⟨h, hb⟩
      -- an even first end is in the first run, an odd one in the second
      rcases Nat.even_or_odd' a with ⟨k, hk | hk⟩
      · exact .inl ⟨h, hb, k, by omega⟩
      · exact .inr ⟨h, hb, k, by omega⟩

theorem nodup_entanglementPairs (n : ℕ) (e : Entanglement) : (entanglementPairs n e).Nodup := by
  unfold entanglementPairs
  by_cases hn : n < 2
  · rw [if_pos hn]
    exact List.nodup_nil
  rw [if_neg hn]
  cases e with
  | Linear => exact nodup_neighbours n 0 Nat.one_pos
  | Circular =>
    refine (nodup_neighbours n 0 Nat.one_pos).append ?_ fun p hp hp' => ?_
    · split
      · exact List.nodup_singleton _
      · exact List.nodup_nil
    · obtain ⟨h, hlt, -⟩ := (mem_neighbours Nat.one_pos).mp hp
      split at hp'
      · obtain rfl := List.mem_singleton.mp hp'
        cases h
      · cases hp'
  | Full =>
    refine List.nodup_flatMap.mpr ⟨fun i _ => ?_, ?_⟩
    · exact (List.nodup_range' 1 Nat.one_pos).map fun j k h => (Prod.mk.inj h).2
    · refine List.nodup_range.pairwise_of_forall_ne fun i _ j _ hij => ?_
      refine List.disjoint_left.mpr fun p hp hp' => hij ?_
      obtain ⟨k, -, rfl⟩ := List.mem_map.mp hp
      obtain ⟨l, -, h⟩ := List.mem_map.mp hp'
      exact (Prod.mk.inj h).1.symm
  | Pairwise =>
    refine (nodup_neighbours n 0 Nat.two_pos).append (nodup_neighbours n 1 Nat.two_pos) fun p hp hp' => ?_
    obtain ⟨-, -, k, hk⟩ := (mem_neighbours Nat.two_pos).mp hp
    obtain ⟨-, -, l, hl⟩ := (mem_neighbours Nat.two_pos).mp hp'
    omega

/-- A run in steps of two uses each qubit once. -/
theorem qubitDisjoint_neighbours (n start : ℕ) : QubitDisjoint (neighbours n start 2) := by
  refine List.nodup_flatMap.mpr ⟨fun p hp => ?_, ?_⟩
  · have h := ((mem_neighbours Nat.two_pos).mp hp).1
    simp only [List.nodup_cons, List.mem_singleton, List.not_mem_nil, not_false_eq_true, List.nodup_nil,
      and_true]
    omega
  · refine (nodup_neighbours n start Nat.two_pos).pairwise_of_forall_ne fun p hp q hq hpq => ?_
    obtain ⟨hp2, -, k, hk⟩ := (mem_neighbours Nat.two_pos).mp hp
    obtain ⟨hq2, -, l, hl⟩ := (mem_neighbours Nat.two_pos).mp hq
    have hne : p.1 ≠ q.1 := fun h => hpq (Prod.ext h (by omega))
    refine List.disjoint_left.mpr fun x hx hx' => ?_
    simp only [List.mem_cons, List.not_mem_nil, or_false] at hx hx'
    omega

/-- **The pairs of an entangling block.** -/
theorem pairsSpec (n : ℕ) : PairsSpec n where
  ends e p hp := by
    have h := mem_entanglementPairs.mp hp
    cases e with
    | Circular =>
      rcases h with h | ⟨hn, rfl⟩
      · omega
      · exact ⟨by omega, by omega, by omega⟩
    | _ =>
      simp only at h
      omega
  distinct e := by
    refine (nodup_entanglementPairs n e).map_on fun p hp q hq h => ?_
    have hp := mem_entanglementPairs.mp hp
    have hq := mem_entanglementPairs.mp hq
    rcases Sym2.eq_iff.mp h with ⟨h1, h2⟩ | ⟨h1, h2⟩
    · exact Prod.ext h1 h2
    · -- two opposite pairs would close a cycle of length two
      cases e with
      | Circular =>
        rcases hp with hp | ⟨hn, rfl⟩
        · rcases hq with hq | ⟨hn, rfl⟩
          · omega
          · simp only at h1 h2
            omega
        · rcases hq with hq | ⟨-, rfl⟩
          · simp only at h1 h2
            omega
          · rfl
      | _ =>
        simp only at hp hq
        omega
  full i hi j hj hij := by
    rcases Nat.lt_or_gt_of_ne hij with h | h
    · exact List.mem_map.mpr ⟨(i, j), mem_entanglementPairs.mpr ⟨h, hj⟩, rfl⟩
    · exact List.mem_map.mpr ⟨(j, i), mem_entanglementPairs.mpr ⟨h, hi⟩, Sym2.eq_swap⟩
  pairwise := (List.perm_ext_iff_of_nodup (nodup_entanglementPairs n _) (nodup_entanglementPairs n _)).mpr
    fun _ => (mem_entanglementPairs (e := .Pairwise)).trans (mem_entanglementPairs (e := .Linear)).symm
  runs := by
    by_cases hn : n < 2
    · exact ⟨[], [], by rw [entanglementPairs, if_pos hn]; rfl, List.nodup_nil, List.nodup_nil⟩
    · exact ⟨neighbours n 0 2, neighbours n 1 2, by rw [entanglementPairs, if_neg hn],
        qubitDisjoint_neighbours n 0, qubitDisjoint_neighbours n 1⟩

/-- Five qubits in two runs. -/
example : entanglementPairs 5 .Pairwise = [(0, 1), (2, 3), (1, 2), (3, 4)] := by decide

/-! ### The builder -/

section Build

variable {R : Type} [CommRing R]

def newParams (n : ℕ) : Builder R (List (Param R)) :=
  ExceptT.mk fun c => (.ok (c.newParams n).1, (c.newParams n).2)

/-- One rotation for each angle; other letters add nothing. -/
def rotationLayer (axis : Char) (angles : List (Param R)) : Builder R Unit :=
  angles.zipIdx.forM fun (a, q) => match axis with
    | 'X' => .call (·.rx q a)
    | 'Y' => .call (·.ry q a)
    | 'Z' => .call (·.rz q a)
    | _ => pure ()

def normalizeRotations (rotations : List Char) : Except Exn (List Char) :=
  if rotations.isEmpty then
    throw ⟨.invalidArgument, "ansatz: rotation string must not be empty"⟩
  else
    rotations.mapM fun ch =>
      let up := ch.toUpper
      if up ≠ 'X' ∧ up ≠ 'Y' ∧ up ≠ 'Z' then
        throw ⟨.invalidArgument, "ansatz: rotation must be X, Y or Z, got '" ++ (ch.toString ++ "'")⟩
      else return up

/-- The lambda `layer` of `append_two_local`. -/
def twoLocalLayer (n : ℕ) (rots : List Char) : Builder R Unit :=
  rots.forM fun axis => do rotationLayer axis (← newParams n)

def appendTwoLocal (rotations : List Char) (reps : ℕ) (entanglement : Entanglement)
    (finalRotationLayer : Bool) : Builder R Unit := do
  let rots ← liftM (normalizeRotations rotations)
  let circuit ← get
  let n := circuit.numQubits
  let pairs := entanglementPairs n entanglement
  (List.range reps).forM fun _ => do
    twoLocalLayer n rots
    pairs.forM fun (c, t) => .call (·.cnot c t)
  if finalRotationLayer ∨ reps = 0 then twoLocalLayer n rots -- no layer at all otherwise

def appendRealAmplitudes (reps : ℕ) (entanglement : Entanglement) : Builder R Unit :=
  appendTwoLocal ['Y'] reps entanglement true

def appendEfficientSu2 (reps : ℕ) (entanglement : Entanglement) : Builder R Unit :=
  appendTwoLocal ['Y', 'Z'] reps entanglement true

/-- The letters X, Y and Z in either case. -/
def Axes (rotations : List Char) : Prop := ∀ ch ∈ rotations, ch.toUpper ∈ ['X', 'Y', 'Z']

theorem normalizeRotations_ok {rotations : List Char} (hne : rotations ≠ []) (h : Axes rotations) :
    normalizeRotations rotations = .ok (rotations.map Char.toUpper) := by
  rw [normalizeRotations, if_neg (by simpa using hne)]
  refine mapM_eq_ok fun ch hch => ?_
  have hup := h ch hch
  simp only [List.mem_cons, List.not_mem_nil, or_false] at hup
  dsimp only
  rw [if_neg (by tauto)]
  rfl

/-- No other string is accepted. -/
theorem axes_of_normalizeRotations {rotations rots : List Char} (h : normalizeRotations rotations = .ok rots) :
    rotations ≠ [] ∧ Axes rotations := by
  by_cases hne : rotations = []
  · rw [hne, normalizeRotations, List.isEmpty_nil] at h
    cases h
  · rw [normalizeRotations, if_neg (by simpa using hne)] at h
    refine ⟨hne, fun ch hch => ?_⟩
    obtain ⟨up, hup⟩ := mapM_ok_iff.mp ⟨rots, h⟩ ch hch
    by_contra hno
    simp only [List.mem_cons, List.not_mem_nil, or_false, not_or] at hno
    rw [if_pos hno] at hup
    cases hup

/-! ### What it emits -/

variable {n P : ℕ}

theorem newParams_fst : ∀ (m : ℕ) (c : Circuit R),
    (c.newParams m).1 = (List.range m).map fun q => handed (c.numParams + q)
  | 0, _ => rfl
  | m + 1, c => by
    show handed c.numParams :: (Circuit.newParams { c with numParams := c.numParams + 1 } m).1 = _
    rw [newParams_fst m, List.range_succ_eq_map, List.map_cons, List.map_map]
    refine congrArg _ (List.map_congr_left fun q _ => ?_)
    rw [Function.comp_apply, Nat.add_assoc, Nat.add_comm 1 q]

theorem emits_newParams (m : ℕ) :
    Emits n P (newParams m : Builder R _) ((List.range m).map fun q => handed (P + q)) (P + m) [] := by
  refine ⟨fun c _ hP => ?_, Nat.le_add_right P m, by simp⟩
  subst hP
  show (Except.ok (c.newParams m).1, (c.newParams m).2) = _
  rw [newParams_fst, Circuit.newParams_snd, List.map_nil, List.append_nil]

def rotation (axis : Char) (q : ℕ) (a : Param R) : GateCall R :=
  match axis with
  | 'X' => .rx q a
  | 'Y' => .ry q a
  | _ => .rz q a

omit [CommRing R] in
theorem rotation_qubits (axis : Char) (q : ℕ) (a : Param R) :
    (rotation axis q a).qubits = [q] ∧ (rotation axis q a).args = [a] := by
  unfold rotation
  split <;> exact ⟨rfl, rfl⟩

omit [CommRing R] in
theorem emits_rotationLayer {axis : Char} (haxis : axis ∈ ['X', 'Y', 'Z']) {angles : List (Param R)}
    (hn : angles.length ≤ n) (ha : ∀ a ∈ angles, a.isSymbolic = true → a.index.toNat < P) :
    Emits n P (rotationLayer axis angles) () P (angles.zipIdx.map fun e => rotation axis e.2 e.1) := by
  rw [List.map_eq_flatMap]
  refine emits_forM fun e he => ?_
  obtain ⟨hlt, hmem⟩ : e.2 < angles.length ∧ e.1 ∈ angles := by
    obtain ⟨hlt, heq⟩ := List.getElem?_eq_some_iff.mp (List.mem_zipIdx_iff_getElem?.mp he)
    exact ⟨hlt, heq ▸ List.getElem_mem hlt⟩
  have hfits : (rotation axis e.2 e.1).Fits n P := by
    obtain ⟨hq, hargs⟩ := rotation_qubits axis e.2 e.1
    refine ⟨?_, ?_, ?_⟩
    · rw [hq]
      simpa using hlt.trans_le hn
    · rw [hq]
      exact List.nodup_singleton _
    · rw [hargs]
      simpa using ha e.1 hmem
  simp only [List.mem_cons, List.not_mem_nil, or_false] at haxis
  rcases haxis with rfl | rfl | rfl <;> exact emits_call hfits

/-- The rotations of one letter, with the parameters from `P` on. -/
def rotationCalls (n : ℕ) (axis : Char) (P : ℕ) : List (GateCall R) :=
  (List.range n).map fun q => rotation axis q (handed (P + q))

def layerCalls (n : ℕ) (rots : List Char) (P : ℕ) : List (GateCall R) :=
  rots.zipIdx.flatMap fun e => rotationCalls n e.1 (P + e.2 * n)

def pairCalls (pairs : List (ℕ × ℕ)) : List (GateCall R) := pairs.map fun p => .cnot p.1 p.2

/-- The calls of `append_two_local`, from parameter `P` on. -/
def twoLocalCalls (n : ℕ) (rots : List Char) (reps : ℕ) (pairs : List (ℕ × ℕ)) (final : Bool) (P : ℕ) :
    List (GateCall R) :=
  (List.range reps).flatMap (fun l => layerCalls n rots (P + l * (rots.length * n)) ++ pairCalls pairs) ++
    if final ∨ reps = 0 then layerCalls n rots (P + reps * (rots.length * n)) else []

theorem emits_rotation {axis : Char} (haxis : axis ∈ ['X', 'Y', 'Z']) :
    Emits n P (do rotationLayer axis (← newParams n) : Builder R Unit) () (P + n) (rotationCalls n axis P) := by
  let angles : List (Param R) := (List.range n).map fun q => handed (P + q)
  have hangles : ∀ a ∈ angles, a.isSymbolic = true → a.index.toNat < P + n := by
    intro a ha _
    obtain ⟨q, hq, rfl⟩ := List.mem_map.mp ha
    have hqn := List.mem_range.mp hq
    have hlt := toNat_handed_lt (R := R) (P + q)
    omega
  have hcalls : angles.zipIdx.map (fun e => rotation axis e.2 e.1) = rotationCalls n axis P := by
    refine List.ext_getElem (by simp [angles, rotationCalls]) fun i h1 h2 => ?_
    simp [angles, rotationCalls]
  have h := emits_rotationLayer haxis (n := n) (by simp [angles]) hangles
  rw [hcalls] at h
  exact (emits_newParams n).bind h

theorem emits_twoLocalLayer {rots : List Char} (h : ∀ axis ∈ rots, axis ∈ ['X', 'Y', 'Z']) :
    Emits n P (twoLocalLayer n rots : Builder R Unit) () (P + rots.length * n) (layerCalls n rots P) :=
  emits_forM_alloc rots P fun axis haxis _ => emits_rotation (h axis haxis)

omit [CommRing R] in
theorem emits_pairs {pairs : List (ℕ × ℕ)} (h : ∀ p ∈ pairs, p.1 ≠ p.2 ∧ p.1 < n ∧ p.2 < n) :
    Emits n P (pairs.forM fun (c, t) => .call (·.cnot c t) : Builder R Unit) () P (pairCalls pairs) := by
  refine emits_calls (g := fun p : ℕ × ℕ => .cnot p.1 p.2) fun p hp => ?_
  obtain ⟨hne, h1, h2⟩ := h p hp
  exact ⟨by simp [GateCall.qubits, h1, h2], by simp [GateCall.qubits, hne], by simp [GateCall.args]⟩

def layers (reps : ℕ) (final : Bool) : ℕ := reps + if final ∨ reps = 0 then 1 else 0

theorem emits_block {rots : List Char} (h : ∀ axis ∈ rots, axis ∈ ['X', 'Y', 'Z']) {pairs : List (ℕ × ℕ)}
    (hp : ∀ p ∈ pairs, p.1 ≠ p.2 ∧ p.1 < n ∧ p.2 < n) :
    Emits n P (do
        twoLocalLayer n rots
        pairs.forM fun (c, t) => .call (·.cnot c t) : Builder R Unit) () (P + rots.length * n)
      (layerCalls n rots P ++ pairCalls pairs) :=
  (emits_twoLocalLayer h).bind (emits_pairs hp)

theorem emits_blocks {rots : List Char} (h : ∀ axis ∈ rots, axis ∈ ['X', 'Y', 'Z']) {pairs : List (ℕ × ℕ)}
    (hp : ∀ p ∈ pairs, p.1 ≠ p.2 ∧ p.1 < n ∧ p.2 < n) (reps : ℕ) :
    Emits n P ((List.range reps).forM fun _ => do
        twoLocalLayer n rots
        pairs.forM fun (c, t) => .call (·.cnot c t) : Builder R Unit) () (P + reps * (rots.length * n))
      ((List.range reps).flatMap fun l =>
        layerCalls n rots (P + l * (rots.length * n)) ++ pairCalls pairs) := by
  have hloop := emits_forM_alloc (List.range reps) P fun _ _ P => emits_block (R := R) (P := P) h hp
  have hzip : (List.range reps).zipIdx = (List.range reps).map fun l => (l, l) :=
    List.ext_getElem (by simp) fun i h1 h2 => by simp
  rwa [List.length_range, hzip, List.flatMap_map] at hloop

theorem emits_lastLayer {rots : List Char} (h : ∀ axis ∈ rots, axis ∈ ['X', 'Y', 'Z']) (p : Prop)
    [Decidable p] : Emits n P (if p then twoLocalLayer n rots else pure () : Builder R Unit) ()
      (P + (if p then 1 else 0) * (rots.length * n)) (if p then layerCalls n rots P else []) := by
  by_cases hp : p
  · rw [if_pos hp, if_pos hp, if_pos hp, Nat.one_mul]
    exact emits_twoLocalLayer h
  · rw [if_neg hp, if_neg hp, if_neg hp, Nat.zero_mul]
    exact emits_pure ()

/-- **What `append_two_local` appends.** -/
theorem emits_appendTwoLocal {rotations : List Char} (hne : rotations ≠ []) (h : Axes rotations) (reps : ℕ)
    (e : Entanglement) (final : Bool) :
    Emits n P (appendTwoLocal rotations reps e final : Builder R Unit) ()
      (P + layers reps final * (rotations.length * n))
      (twoLocalCalls n (rotations.map Char.toUpper) reps (entanglementPairs n e) final P) := by
  have hrots : ∀ axis ∈ rotations.map Char.toUpper, axis ∈ ['X', 'Y', 'Z'] := by
    intro axis haxis
    obtain ⟨ch, hch, rfl⟩ := List.mem_map.mp haxis
    exact h ch hch
  have hbody := Emits.bind
    (f := fun _ => if final ∨ reps = 0 then twoLocalLayer n (rotations.map Char.toUpper) else pure ())
    (emits_blocks (R := R) (P := P) hrots ((pairsSpec n).ends e) reps)
    (emits_lastLayer hrots (final ∨ reps = 0))
  rw [List.length_map, Nat.add_assoc, ← Nat.add_mul] at hbody
  refine ⟨fun c hn hP => ?_, hbody.le, ?_⟩
  · have hexec := hbody.exec c hn hP
    have hstart : (appendTwoLocal rotations reps e final : Builder R Unit).exec c = Builder.exec (do
        (List.range reps).forM fun _ => do
          twoLocalLayer n (rotations.map Char.toUpper)
          (entanglementPairs n e).forM fun (c, t) => .call (·.cnot c t)
        if final ∨ reps = 0 then twoLocalLayer n (rotations.map Char.toUpper)) c := by
      rw [appendTwoLocal, Builder.exec_bind, normalizeRotations_ok hne h]
      subst hn
      rfl
    rw [hstart, twoLocalCalls, List.length_map]
    exact hexec
  · rw [twoLocalCalls, List.length_map]
    exact hbody.fits

/-! ### The documented order -/

/-- The indices of the parameters of some operations, in order. -/
def paramIndices (ops : List (GateOp R)) : List ℤ := ops.flatMap fun op => op.symbolic.map (·.index)

/-- The rotations of `layers` layers with the parameters `k`, `k + 1`, …: layer by layer, letter by letter,
qubit by qubit. -/
def orderedRotations (n k layers : ℕ) (rots : List Char) : List (GateOp R) :=
  (List.range layers).flatMap fun l => rots.zipIdx.flatMap fun e => (List.range n).map fun q =>
    (rotation e.1 q ⟨(k + (l * rots.length + e.2) * n + q : ℕ), 1, 0⟩).op

/-- What `append_two_local` promises to add to `c`, with the letters `rots` in upper case. -/
structure AddsTwoLocal (rots : List Char) (reps : ℕ) (e : Entanglement) (final : Bool) (c c' : Circuit R) :
    Prop where
  numQubits : c'.numQubits = c.numQubits
  measured : c'.measured = c.measured
  numParams : c'.numParams = c.numParams + c.numQubits * rots.length * layers reps final
  added : ∃ ops, c'.ops = c.ops ++ ops ∧
    ops.filter (·.type ≠ .CNOT) = orderedRotations c.numQubits c.numParams (layers reps final) rots ∧
    (ops.filter (·.type ≠ .CNOT)).length = c.numQubits * rots.length * layers reps final ∧
    paramIndices ops =
      (List.range' c.numParams (c.numQubits * rots.length * layers reps final)).map Nat.cast ∧
    ops.filter (·.type = .CNOT) =
      (List.replicate reps (entanglementPairs c.numQubits e)).flatten.map fun p => (GateCall.cnot p.1 p.2).op
  pairs : PairsSpec c.numQubits

omit [CommRing R] in
theorem kind_rotation (axis : Char) (q : ℕ) (a : Param R) : (rotation axis q a).op.type ≠ .CNOT := by
  unfold rotation
  split <;> exact nofun

omit [CommRing R] in
theorem symbolic_rotation (axis : Char) (q : ℕ) (a : Param R) :
    (rotation axis q a).op.symbolic = if a.isSymbolic then [a] else [] := by
  unfold rotation
  split <;> simp [GateCall.op, GateCall.args]

theorem mem_layerCalls {rots : List Char} {g : GateCall R} (hg : g ∈ layerCalls n rots P) :
    ∃ axis q k, g = rotation axis q (handed k) := by
  obtain ⟨e, -, hg⟩ := List.mem_flatMap.mp hg
  obtain ⟨q, -, rfl⟩ := List.mem_map.mp hg
  exact ⟨_, _, _, rfl⟩

theorem filter_layer_pairs (rots : List Char) (pairs : List (ℕ × ℕ)) :
    ((layerCalls n rots P ++ pairCalls pairs : List (GateCall R)).map GateCall.op).filter (·.type ≠ .CNOT) =
        (layerCalls n rots P).map GateCall.op ∧
      ((layerCalls n rots P ++ pairCalls pairs : List (GateCall R)).map GateCall.op).filter (·.type = .CNOT) =
        (pairCalls pairs).map GateCall.op := by
  have hlayer : ∀ op ∈ (layerCalls n rots P : List (GateCall R)).map GateCall.op, op.type ≠ .CNOT := by
    intro op hop
    obtain ⟨g, hg, rfl⟩ := List.mem_map.mp hop
    obtain ⟨axis, q, k, rfl⟩ := mem_layerCalls hg
    exact kind_rotation axis q _
  have hpairs : ∀ op ∈ (pairCalls pairs : List (GateCall R)).map GateCall.op, op.type = .CNOT := by
    intro op hop
    obtain ⟨g, hg, rfl⟩ := List.mem_map.mp hop
    obtain ⟨p, -, rfl⟩ := List.mem_map.mp hg
    rfl
  rw [List.map_append, List.filter_append, List.filter_append]
  constructor
  · rw [List.filter_eq_self.mpr fun op hop => by simpa using hlayer op hop,
      List.filter_eq_nil_iff.mpr fun op hop => by simpa using hpairs op hop, List.append_nil]
  · rw [List.filter_eq_nil_iff.mpr fun op hop => by simpa using hlayer op hop,
      List.filter_eq_self.mpr fun op hop => by simpa using hpairs op hop, List.nil_append]

theorem filter_twoLocal (rots : List Char) (reps : ℕ) (pairs : List (ℕ × ℕ)) (final : Bool) :
    ((twoLocalCalls n rots reps pairs final P : List (GateCall R)).map GateCall.op).filter (·.type ≠ .CNOT) =
        (List.range (layers reps final)).flatMap (fun l =>
          (layerCalls n rots (P + l * (rots.length * n)) : List (GateCall R)).map GateCall.op) ∧
      ((twoLocalCalls n rots reps pairs final P : List (GateCall R)).map GateCall.op).filter (·.type = .CNOT) =
        (List.replicate reps pairs).flatten.map fun p => (GateCall.cnot p.1 p.2).op := by
  have hpairs : (pairCalls pairs : List (GateCall R)).map GateCall.op =
      pairs.map fun p => (GateCall.cnot p.1 p.2).op := List.map_map
  have hlast := filter_layer_pairs (R := R) (n := n) (P := P + reps * (rots.length * n)) rots []
  simp only [pairCalls, List.map_nil, List.append_nil] at hlast
  have hreps : (List.range reps).flatMap (fun _ => pairs.map fun p => (GateCall.cnot (R := R) p.1 p.2).op) =
      (List.replicate reps pairs).flatten.map fun p => (GateCall.cnot p.1 p.2).op := by
    rw [List.flatMap_def, List.map_const', List.length_range, List.map_flatten, List.map_replicate]
  rw [twoLocalCalls, List.map_append, List.map_flatMap, List.filter_append, List.filter_append,
    List.filter_flatMap, List.filter_flatMap]
  simp only [filter_layer_pairs, hpairs, hreps]
  unfold layers
  by_cases hf : final ∨ reps = 0
  · rw [if_pos hf, if_pos hf, hlast.1, hlast.2, List.range_succ, List.flatMap_append]
    simp
  · rw [if_neg hf, if_neg hf]
    simp

/-- Small numbers are handed out in the documented order. -/
theorem layers_ordered {rots : List Char} {k count : ℕ} (h : k + count * (rots.length * n) ≤ 2 ^ 31) :
    (List.range count).flatMap (fun l =>
      (layerCalls n rots (k + l * (rots.length * n)) : List (GateCall R)).map GateCall.op) =
      orderedRotations n k count rots := by
  refine List.flatMap_congr fun l hl => ?_
  rw [layerCalls, List.map_flatMap]
  refine List.flatMap_congr fun e he => ?_
  rw [rotationCalls, List.map_map]
  refine List.map_congr_left fun q hq => ?_
  have hl : l + 1 ≤ count := List.mem_range.mp hl
  have he : e.2 + 1 ≤ rots.length := (List.getElem?_eq_some_iff.mp (List.mem_zipIdx_iff_getElem?.mp he)).1
  have hq := List.mem_range.mp hq
  have hnumber : k + l * (rots.length * n) + e.2 * n + q = k + (l * rots.length + e.2) * n + q := by ring
  have hlt : k + l * (rots.length * n) + e.2 * n + q < 2 ^ 31 :=
    calc k + l * (rots.length * n) + e.2 * n + q < k + l * (rots.length * n) + (e.2 + 1) * n := by
          rw [Nat.succ_mul]
          omega
      _ ≤ k + l * (rots.length * n) + rots.length * n := Nat.add_le_add_left (Nat.mul_le_mul_right n he) _
      _ = k + (l + 1) * (rots.length * n) := by ring
      _ ≤ k + count * (rots.length * n) := Nat.add_le_add_left (Nat.mul_le_mul_right _ hl) _
      _ ≤ 2 ^ 31 := h
  rw [Function.comp_apply, handed_of_lt hlt, hnumber]

/-- Blocks of consecutive numbers, one after another. -/
theorem flatMap_range' (k d : ℕ) : ∀ count : ℕ,
    (List.range count).flatMap (fun i => List.range' (k + i * d) d) = List.range' k (count * d)
  | 0 => by simp
  | count + 1 => by
    rw [List.range_succ, List.flatMap_append, flatMap_range' k d count, List.flatMap_singleton, Nat.succ_mul,
      List.range'_append_1]

omit [CommRing R] in
theorem paramIndices_flatMap {α : Type} (l : List α) (f : α → List (GateOp R)) :
    paramIndices (l.flatMap f) = l.flatMap fun x => paramIndices (f x) := List.flatMap_assoc

theorem paramIndices_ordered (k count : ℕ) (rots : List Char) :
    paramIndices (orderedRotations n k count rots : List (GateOp R)) =
      (List.range' k (n * rots.length * count)).map Nat.cast := by
  have hletter : ∀ (axis : Char) (P : ℕ), paramIndices ((List.range n).map fun q =>
      (rotation axis q (⟨(P + q : ℕ), 1, 0⟩ : Param R)).op) = (List.range' P n).map Nat.cast := by
    intro axis P
    rw [paramIndices, List.flatMap_map, List.range'_eq_map_range, List.map_map, List.map_eq_flatMap]
    refine List.flatMap_congr fun q _ => ?_
    have hsymbolic : (⟨(P + q : ℕ), 1, 0⟩ : Param R).isSymbolic = true :=
      decide_eq_true (Int.natCast_nonneg _)
    rw [symbolic_rotation, if_pos hsymbolic]
    rfl
  have hlayer : ∀ l : ℕ, paramIndices (rots.zipIdx.flatMap fun e => (List.range n).map fun q =>
      (rotation e.1 q (⟨(k + (l * rots.length + e.2) * n + q : ℕ), 1, 0⟩ : Param R)).op) =
      (List.range' (k + l * (rots.length * n)) (rots.length * n)).map Nat.cast := by
    intro l
    rw [paramIndices_flatMap]
    simp only [hletter]
    rw [← flatMap_range' _ n, List.map_flatMap, List.range_eq_range', ← List.zipIdx_map_snd 0 rots,
      List.flatMap_map]
    refine List.flatMap_congr fun e _ => ?_
    rw [show k + (l * rots.length + e.2) * n = k + l * (rots.length * n) + e.2 * n by ring]
  rw [orderedRotations, paramIndices_flatMap]
  simp only [hlayer]
  rw [← List.map_flatMap, flatMap_range', show count * (rots.length * n) = n * rots.length * count by ring]

omit [CommRing R] in
theorem paramIndices_filter (calls : List (GateCall R)) :
    paramIndices ((calls.map GateCall.op).filter (·.type ≠ .CNOT)) = paramIndices (calls.map GateCall.op) := by
  induction calls with
  | nil => rfl
  | cons g calls ih =>
    rw [List.map_cons, List.filter_cons]
    by_cases hg : g.op.type = .CNOT
    · have hnone : g.op.symbolic = [] := by cases g <;> first | rfl | cases hg
      rw [if_neg (by simpa using hg), ih, paramIndices, paramIndices, List.flatMap_cons, hnone]
      rfl
    · rw [if_pos (by simpa using hg), paramIndices, paramIndices, List.flatMap_cons, List.flatMap_cons]
      exact congrArg _ ih

/-- No `int` reaches `2 ^ 31`. -/
theorem paramIndices_lt {rots : List Char} {i : ℤ} (count : ℕ) (P : ℕ → ℕ)
    (hi : i ∈ paramIndices ((List.range count).flatMap fun l =>
      (layerCalls n rots (P l) : List (GateCall R)).map GateCall.op)) : i < 2 ^ 31 := by
  obtain ⟨op, hop, hi⟩ := List.mem_flatMap.mp hi
  obtain ⟨a, ha, rfl⟩ := List.mem_map.mp hi
  obtain ⟨l, -, hop⟩ := List.mem_flatMap.mp hop
  obtain ⟨g, hg, rfl⟩ := List.mem_map.mp hop
  obtain ⟨axis, q, k, rfl⟩ := mem_layerCalls hg
  rw [symbolic_rotation] at ha
  split at ha
  · obtain rfl := List.mem_singleton.mp ha
    exact castInt_lt k
  · cases ha

theorem length_orderedRotations (n k count : ℕ) (rots : List Char) :
    (orderedRotations n k count rots : List (GateOp R)).length = n * rots.length * count := by
  simp only [orderedRotations, List.length_flatMap, List.length_map, List.length_range, List.map_const',
    List.sum_replicate, List.length_zipIdx, smul_eq_mul]
  ring

section Claim

variable {c : Circuit R} {rotations : List Char} {reps : ℕ} {e : Entanglement} {final : Bool}

/-- With all numbers below `2 ^ 31` the promise is kept. -/
theorem adds_of_le (hne : rotations ≠ []) (h : Axes rotations)
    (hle : c.numParams + c.numQubits * rotations.length * layers reps final ≤ 2 ^ 31) :
    ∃ c', (appendTwoLocal rotations reps e final).exec c = (.ok (), c') ∧
      AddsTwoLocal (rotations.map Char.toUpper) reps e final c c' := by
  have hcount : c.numQubits * rotations.length * layers reps final =
      layers reps final * (rotations.length * c.numQubits) := by ring
  have hexec := (emits_appendTwoLocal (R := R) hne h reps e final).exec c rfl rfl
  obtain ⟨hrot, hcnot⟩ := filter_twoLocal (R := R) (n := c.numQubits) (P := c.numParams)
    (rotations.map Char.toUpper) reps (entanglementPairs c.numQubits e) final
  have hsmall :
      c.numParams + layers reps final * ((rotations.map Char.toUpper).length * c.numQubits) ≤ 2 ^ 31 := by
    rwa [List.length_map, ← hcount]
  rw [layers_ordered hsmall] at hrot
  refine ⟨_, hexec, rfl, rfl, ?_, ⟨_, rfl, hrot, ?_, ?_, hcnot⟩, pairsSpec _⟩
  · rw [List.length_map, hcount]
  · rw [hrot, length_orderedRotations]
  · rw [← paramIndices_filter, hrot, paramIndices_ordered]

/-- The last of too many numbers is not an `int`. -/
theorem not_adds_of_lt (hn : 0 < c.numQubits) (hne : rotations ≠ []) (h : Axes rotations)
    (hlt : 2 ^ 31 < c.numParams + c.numQubits * rotations.length * layers reps final) :
    ¬ ∃ c', (appendTwoLocal rotations reps e final).exec c = (.ok (), c') ∧
      AddsTwoLocal (rotations.map Char.toUpper) reps e final c c' := by
  rintro ⟨c', hc', hadds⟩
  obtain ⟨ops, hops, -, -, hindices, -⟩ := hadds.added
  rw [(emits_appendTwoLocal (R := R) hne h reps e final).exec c rfl rfl, Prod.mk.injEq] at hc'
  have hadded := List.append_cancel_left ((congrArg Circuit.ops hc'.2).trans hops)
  rw [← hadded, ← paramIndices_filter, (filter_twoLocal _ _ _ _).1, List.length_map] at hindices
  have hpos : 0 < c.numQubits * rotations.length * layers reps final := by
    have hlayers : 0 < layers reps final := by
      unfold layers
      split <;> omega
    exact Nat.mul_pos (Nat.mul_pos hn (List.length_pos_iff.mpr hne)) hlayers
  let last := c.numParams + c.numQubits * rotations.length * layers reps final - 1
  have hmem : (last : ℤ) ∈ (List.range' c.numParams
      (c.numQubits * rotations.length * layers reps final)).map (Nat.cast : ℕ → ℤ) := by
    refine List.mem_map.mpr ⟨last, List.mem_range'_1.mpr ?_, rfl⟩
    omega
  rw [← hindices] at hmem
  have hint := paramIndices_lt _ _ hmem
  omega

/-- **The documented order.** On a circuit of the API with `k` parameters, for every non-empty string over
X, Y and Z in either case, `append_two_local` returns and adds the rotations with the parameters `k`,
`k + 1`, … in the documented order, and the entangling blocks, exactly if the last of these numbers is below
`2 ^ 31`. -/
theorem appendTwoLocal_order (hc : Circuit.Built c) (hne : rotations ≠ []) (h : Axes rotations) (reps : ℕ)
    (e : Entanglement) (final : Bool) :
    (∃ c', (appendTwoLocal rotations reps e final).exec c = (.ok (), c') ∧
      AddsTwoLocal (rotations.map Char.toUpper) reps e final c c') ↔
    c.numParams + c.numQubits * rotations.length * layers reps final ≤ 2 ^ 31 := by
  obtain ⟨calls, hl⟩ := Circuit.legal_of_built hc
  refine ⟨fun hadds => ?_, adds_of_le hne h⟩
  by_contra hlt
  exact not_adds_of_lt hl.pos hne h (not_le.mp hlt) hadds

end Claim

/-- A circuit of one qubit that was asked for `k` parameters. -/
theorem built_params : ∀ k : ℕ, Circuit.Built (⟨1, k, [], []⟩ : Circuit R)
  | 0 => .new (n := 1) rfl
  | k + 1 => .newParam (built_params k)

/-- RY and RZ on two qubits, a CNOT, and RY and RZ again. -/
theorem appendTwoLocal_order_two : ∃ c', (appendTwoLocal ['y', 'Z'] 1 .Linear true).exec
    (⟨2, 0, [], []⟩ : Circuit ℤ) = (.ok (), c') ∧ AddsTwoLocal ['Y', 'Z'] 1 .Linear true ⟨2, 0, [], []⟩ c' :=
  (appendTwoLocal_order (.new (n := 2) rfl) (by decide) (by simp [Axes]) 1 .Linear true).mpr
    (by decide)

/-- After `2 ^ 31` parameters the next one is negative as an `int`. -/
theorem appendTwoLocal_order_fails : ¬ ∀ c : Circuit ℤ, Circuit.Built c →
    ∃ c', (appendTwoLocal ['Y'] 0 .Linear true).exec c = (.ok (), c') ∧
      AddsTwoLocal ['Y'] 0 .Linear true c c' := by
  intro hall
  refine not_adds_of_lt (c := (⟨1, 2 ^ 31, [], []⟩ : Circuit ℤ)) Nat.one_pos (by decide)
    (by simp [Axes]) ?_ (hall _ (built_params (2 ^ 31)))
  exact Nat.lt_succ_self _

end Build

end Ansatz

end Qsycl
