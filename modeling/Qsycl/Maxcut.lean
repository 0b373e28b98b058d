/-
# MaxCut

The cost operator of MaxCut and its brute-force optimum (`hamiltonians.cpp`).
On a bitstring the cost is the negated weight of the edges it cuts
(`diagonalCost_maxcut`). The search tries only the bitstrings with the top node
on side 0; a cut and its complement have equal weight, so it finds the best of
all (`maxcutBruteForce_spec`).
-/
import Qsycl.Diagonal
import Qsycl.Lib.Search

namespace Qsycl

open Words Qubits Search

/-! ### The builders -/

/-- A weighted undirected graph edge. -/
structure Edge (R : Type) where
  u : ℕ
  v : ℕ
  weight : R
  deriving DecidableEq, Repr

section Builders

variable {R : Type} [Field R]

/-- The loop body of `maxcut`. -/
def maxcutStep (numNodes : ℕ) : Observable R × R → Edge R → Except Exn (Observable R × R)
  | (H, constant), e =>
    if numNodes ≤ e.u ∨ numNodes ≤ e.v then
      throw ⟨.outOfRange, "maxcut: edge endpoint out of range"⟩
    else if e.u = e.v then
      throw ⟨.invalidArgument, "maxcut: self-loops are not allowed"⟩
    else do
      let H ← H.addTerm (0.5 * e.weight) [('Z', e.u), ('Z', e.v)]
      return (H, constant - 0.5 * e.weight)

def maxcut [DecidableEq R] (numNodes : ℕ) (edges : List (Edge R)) (includeConstant : Bool) :
    Except Exn (Observable R) := do
  let H ← Observable.new numNodes
  let (H, constant) ← edges.foldlM (maxcutStep numNodes) (H, 0)
  if includeConstant ∧ constant ≠ 0 then H.addTermDense constant (List.replicate numNodes 'I')
  else return H

/-- The endpoints are positions of a 64-bit word. -/
def cutValue (edges : List (Edge R)) (bits : ℕ) : R :=
  edges.foldl (fun cut e =>
    if (bits >>> e.u) &&& 1 ≠ (bits >>> e.v) &&& 1 then cut + e.weight else cut) 0

def maxcutBruteForce [LinearOrder R] (numNodes : ℕ) (edges : List (Edge R)) : Except Exn (R × ℕ) :=
  if numNodes = 0 ∨ 26 < numNodes then
    throw ⟨.invalidArgument, "maxcut_brute_force: num_nodes must be in [1, 26]"⟩
  else
    -- the top node is on side 0
    let limit := 1 <<< (numNodes - 1)
    return (List.range limit).foldl (fun best x =>
      if best.1 < cutValue edges x then (cutValue edges x, x) else best) (-1, 0)

/-- The edges that `maxcut` accepts. -/
def Edge.Within (n : ℕ) (e : Edge R) : Prop := e.u < n ∧ e.v < n ∧ e.u ≠ e.v

/-! ### The observable -/

/-- The mask of `Z_u Z_v`. -/
def Edge.mask (e : Edge R) : PauliMask R := ⟨0.5 * e.weight, 0, 2 ^ e.u ||| 2 ^ e.v, 0⟩

/-- Half the total weight, subtracted edge by edge. -/
def maxcutConstant (edges : List (Edge R)) : R := -(edges.map fun e => 0.5 * e.weight).sum

theorem addTerm_edge {n : ℕ} (masks : List (PauliMask R)) {e : Edge R} (he : e.Within n) :
    Observable.addTerm ⟨n, masks⟩ (0.5 * e.weight) [('Z', e.u), ('Z', e.v)] =
      .ok ⟨n, masks ++ [e.mask]⟩ := by
  obtain ⟨hu, hv, hne⟩ := he
  have hseen : 2 ^ e.u &&& 2 ^ e.v = 0 := by
    refine Nat.eq_of_testBit_eq fun k => ?_
    rw [Nat.testBit_and, Nat.testBit_two_pow, Nat.testBit_two_pow, Nat.zero_testBit]
    by_cases hk : e.u = k
    · simp [hk ▸ hne.symm]
    · simp [hk]
  simp [Observable.addTerm, Observable.addFactor, Nat.one_shiftLeft, hseen, hu.not_ge, hv.not_ge,
    Edge.mask, bind, Except.bind, pure, Except.pure]

theorem foldlM_maxcutStep {n : ℕ} : ∀ {edges : List (Edge R)} (masks : List (PauliMask R)) (constant : R),
    (∀ e ∈ edges, e.Within n) → edges.foldlM (maxcutStep n) (⟨n, masks⟩, constant) =
      .ok (⟨n, masks ++ edges.map Edge.mask⟩, constant + maxcutConstant edges)
  | [], masks, constant, _ => by simp [maxcutConstant]; rfl
  | e :: edges, masks, constant, h => by
    obtain ⟨he, hes⟩ := List.forall_mem_cons.mp h
    have hstep : maxcutStep n (⟨n, masks⟩, constant) e =
        .ok (⟨n, masks ++ [e.mask]⟩, constant - 0.5 * e.weight) := by
      obtain ⟨hu, hv, hne⟩ := he
      rw [maxcutStep, if_neg (by omega), if_neg hne, addTerm_edge masks ⟨hu, hv, hne⟩]
      rfl
    rw [List.foldlM_cons, hstep, ok_bind, foldlM_maxcutStep _ _ hes]
    congr 2
    · simp
    · simp only [maxcutConstant, List.map_cons, List.sum_cons]
      ring

/-- The masks of the constant term. -/
def constantMasks [DecidableEq R] (constant : R) (includeConstant : Bool) : List (PauliMask R) :=
  if includeConstant ∧ constant ≠ 0 then [⟨constant, 0, 0, 0⟩] else []

theorem denseFactors_identity : ∀ n k : ℕ, Observable.denseFactors k (List.replicate n 'I') = []
  | 0, _ => rfl
  | n + 1, k => denseFactors_identity n (k + 1)

/-- **What `maxcut` builds.** -/
theorem maxcut_eq [DecidableEq R] {n : ℕ} (hn : 1 ≤ n) (hn' : n ≤ 64) {edges : List (Edge R)}
    (he : ∀ e ∈ edges, e.Within n) (includeConstant : Bool) : maxcut n edges includeConstant =
      .ok ⟨n, edges.map Edge.mask ++ constantMasks (maxcutConstant edges) includeConstant⟩ := by
  have hnew : (Observable.new n : Except Exn (Observable R)) = .ok ⟨n, []⟩ := if_neg (by omega)
  rw [maxcut, hnew, ok_bind, foldlM_maxcutStep [] 0 he, ok_bind, zero_add, List.nil_append,
    constantMasks]
  dsimp only
  split
  · rw [Observable.addTermDense, List.length_replicate, if_neg (not_not.mpr rfl), denseFactors_identity]
    rfl
  · rw [List.append_nil]
    rfl

/-- The step rejects every other edge. -/
theorem within_of_maxcutStep {n : ℕ} {s s' : Observable R × R} {e : Edge R} (h : maxcutStep n s e = .ok s') :
    e.Within n := by
  rw [maxcutStep] at h
  split at h
  · cases h
  · split at h
    · cases h
    · rename_i hrange hloop
      exact ⟨by omega, by omega, hloop⟩

theorem within_of_foldlM {n : ℕ} : ∀ {edges : List (Edge R)} {s s' : Observable R × R},
    edges.foldlM (maxcutStep n) s = .ok s' → ∀ e ∈ edges, e.Within n
  | [], _, _, _ => by simp
  | e :: edges, s, s', h => by
    rw [List.foldlM_cons] at h
    obtain ⟨mid, hstep, hrest⟩ := bind_eq_ok.mp h
    exact List.forall_mem_cons.mpr ⟨within_of_maxcutStep hstep, within_of_foldlM hrest⟩

/-- What `maxcut` accepts. -/
theorem maxcut_accepts [DecidableEq R] {n : ℕ} {edges : List (Edge R)} {b : Bool} {H : Observable R}
    (h : maxcut n edges b = .ok H) : 1 ≤ n ∧ n ≤ 64 ∧ ∀ e ∈ edges, e.Within n := by
  rw [maxcut] at h
  obtain ⟨H₀, hnew, h⟩ := bind_eq_ok.mp h
  obtain ⟨s, hedges, -⟩ := bind_eq_ok.mp h
  rw [Observable.new] at hnew
  split at hnew
  · cases hnew
  · rename_i hn
    exact ⟨by omega, by omega, within_of_foldlM hedges⟩

end Builders

section Values

variable {edges : List (Edge ℝ)} {n : ℕ}

/-- The observable of `maxcut` with its constant. -/
noncomputable def maxcutObservable (n : ℕ) (edges : List (Edge ℝ)) (includeConstant : Bool) : Observable ℝ :=
  ⟨n, edges.map Edge.mask ++ constantMasks (maxcutConstant edges) includeConstant⟩

theorem mem_constantMasks {c : ℝ} {b : Bool} {m : PauliMask ℝ} (h : m ∈ constantMasks c b) :
    m = ⟨c, 0, 0, 0⟩ := by
  rw [constantMasks] at h
  split at h
  · exact List.mem_singleton.mp h
  · cases h

/-- A mask of Z factors counts no Y factor. -/
theorem fits_of_z {m : PauliMask ℝ} (hx : m.x = 0) (hny : m.ny = 0) (hz : m.z < 2 ^ n) : m.Fits n := by
  refine ⟨hx ▸ Nat.two_pow_pos n, hz, ?_⟩
  rw [hny, numY, Finset.sum_eq_zero fun q _ => ?_]
  have hflips : (m.string n q).flips = false := flips_string hx q
  simp [Pauli.ny, hflips]

theorem legal_maxcutObservable (hn : 1 ≤ n) (hn' : n ≤ 64) (he : ∀ e ∈ edges, e.Within n) (b : Bool) :
    (maxcutObservable n edges b).Legal := by
  refine ⟨hn, hn', fun m hm => ?_⟩
  rcases List.mem_append.mp hm with hm | hm
  · obtain ⟨e, hmem, rfl⟩ := List.mem_map.mp hm
    obtain ⟨hu, hv, -⟩ := he e hmem
    have hpow : ∀ {q : ℕ}, q < n → 2 ^ q < 2 ^ n := fun hq => Nat.pow_lt_pow_right Nat.one_lt_two hq
    exact fits_of_z rfl rfl (Nat.or_lt_two_pow (hpow hu) (hpow hv))
  · rw [mem_constantMasks hm]
    exact fits_of_z rfl rfl (Nat.two_pow_pos n)

theorem isDiagonal_maxcutObservable (b : Bool) : (maxcutObservable n edges b).isDiagonal = true := by
  rw [Observable.isDiagonal, List.all_eq_true]
  intro m hm
  rcases List.mem_append.mp hm with hm | hm
  · obtain ⟨e, -, rfl⟩ := List.mem_map.mp hm
    exact decide_eq_true rfl
  · rw [mem_constantMasks hm]
    exact decide_eq_true rfl

/-! ### The cost is the negated cut -/

/-- Whether a bitstring puts the ends of an edge on different sides. -/
def Edge.cut (e : Edge ℝ) (bits : ℕ) : Bool := bits.testBit e.u != bits.testBit e.v

theorem cutValue_eq (edges : List (Edge ℝ)) (bits : ℕ) :
    cutValue edges bits = (edges.map fun e => if e.cut bits then e.weight else 0).sum := by
  have hbit : ∀ q : ℕ, bits >>> q &&& 1 = (bits.testBit q).toNat := by
    intro q
    rw [Nat.and_one_is_mod, Nat.shiftRight_eq_div_pow, Nat.testBit_eq_decide_div_mod_eq]
    rcases Nat.mod_two_eq_zero_or_one (bits / 2 ^ q) with h | h <;> simp [h]
  have hstep : ∀ (cut : ℝ) (e : Edge ℝ),
      (if bits >>> e.u &&& 1 ≠ bits >>> e.v &&& 1 then cut + e.weight else cut) =
        cut + if e.cut bits then e.weight else 0 := by
    intro cut e
    rw [hbit, hbit, Edge.cut]
    cases bits.testBit e.u <;> cases bits.testBit e.v <;> simp
  simp only [cutValue, hstep]
  rw [foldl_add_map, zero_add]

/-- The set bits of a word among two positions. -/
theorem bitSum_pair {u v : ℕ} (hu : u < 64) (hv : v < 64) (hne : u ≠ v) (bits : ℕ) :
    bitSum 64 (bits &&& (2 ^ u ||| 2 ^ v)) = (bits.testBit u).toNat + (bits.testBit v).toNat := by
  have hbit : ∀ i, ((bits &&& (2 ^ u ||| 2 ^ v)).testBit i).toNat =
      (if i = u then (bits.testBit u).toNat else 0) + if i = v then (bits.testBit v).toNat else 0 := by
    intro i
    rw [Nat.testBit_and, Nat.testBit_or, Nat.testBit_two_pow, Nat.testBit_two_pow]
    by_cases hiu : i = u
    · have hiv : i ≠ v := hiu ▸ hne
      simp [hiu, hne]
    · by_cases hiv : i = v
      · simp [hiv, hne.symm]
      · simp [hiu, hiv, Ne.symm hiu, Ne.symm hiv]
  rw [bitSum, Finset.sum_congr rfl fun i _ => hbit i, Finset.sum_add_distrib, Finset.sum_ite_eq',
    Finset.sum_ite_eq', if_pos (Finset.mem_range.mpr hu), if_pos (Finset.mem_range.mpr hv)]

/-- The sign of a ZZ term is that of the cut. -/
theorem sign_edge (hn : n ≤ 64) {e : Edge ℝ} (he : e.Within n) (bits : ℕ) :
    e.mask.coeff * (if parity64 (bits &&& e.mask.z) ≠ 0 then -1 else 1) +
      (if e.cut bits then e.weight else 0) = 0.5 * e.weight := by
  obtain ⟨hu, hv, hne⟩ := he
  rw [parity64, parity_sign, Edge.mask]
  dsimp only
  rw [bitSum_pair (by omega) (by omega) hne, Edge.cut]
  cases bits.testBit e.u <;> cases bits.testBit e.v <;> norm_num <;> ring

theorem sum_constantMasks (c : ℝ) (b : Bool) (f : ℕ → ℝ) (hf : f 0 = 1) :
    ((constantMasks c b).map fun m => m.coeff * f m.z).sum = if b then c else 0 := by
  rw [constantMasks]
  by_cases hb : b = true
  · by_cases hc : c = 0
    · simp [hb, hc]
    · simp [hb, hc, hf]
  · simp [hb]

/-- **The cost of a bitstring is its negated cut**, less half the total weight
without the constant. -/
theorem diagonalCost_maxcut (hn : n ≤ 64) (he : ∀ e ∈ edges, e.Within n) (b : Bool) (bits : ℕ) :
    diagonalCost (maxcutObservable n edges b) bits =
      .ok (-cutValue edges bits - if b then 0 else maxcutConstant edges) := by
  have hedges : ((edges.map Edge.mask).map fun m =>
      m.coeff * (if parity64 (bits &&& m.z) ≠ 0 then -1 else 1)).sum =
      -maxcutConstant edges - cutValue edges bits := by
    rw [List.map_map, cutValue_eq, maxcutConstant, neg_neg, eq_sub_iff_add_eq, ← List.sum_map_add]
    exact congrArg List.sum (List.map_congr_left fun e hmem => sign_edge hn (he e hmem) bits)
  have hconstant := sum_constantMasks (maxcutConstant edges) b
    (fun z => if parity64 (bits &&& z) ≠ 0 then -1 else 1) (by simp [parity64, parity])
  rw [diagonalCost, isDiagonal_maxcutObservable, foldl_add_map, zero_add]
  simp only [maxcutObservable, List.map_append, List.sum_append, hedges, hconstant]
  refine congrArg Except.ok ?_
  cases b
  · simp
    ring
  · simp only [if_true]
    ring

/-- **The observable of MaxCut.** Where `maxcut` accepts the edges, it does with and
without the constant: the cost of a bitstring is its negated cut, and without the
constant half the total weight more. -/
theorem maxcut_cost {b : Bool} {H : Observable ℝ} (h : maxcut n edges b = .ok H) :
    ∃ H₁ H₀, maxcut n edges true = .ok H₁ ∧ maxcut n edges false = .ok H₀ ∧ ∀ bits,
      diagonalCost H₁ bits = .ok (-cutValue edges bits) ∧
      diagonalCost H₀ bits = .ok (-cutValue edges bits + (edges.map Edge.weight).sum / 2) := by
  obtain ⟨hn, hn', he⟩ := maxcut_accepts h
  refine ⟨_, _, maxcut_eq hn hn' he true, maxcut_eq hn hn' he false, fun bits => ⟨?_, ?_⟩⟩
  · have hcost := diagonalCost_maxcut hn' he true bits
    rwa [if_pos rfl, sub_zero] at hcost
  · have hcost := diagonalCost_maxcut hn' he false bits
    have hhalf : maxcutConstant edges = -((edges.map Edge.weight).sum / 2) := by
      rw [maxcutConstant, List.sum_map_mul_left]
      ring
    rwa [if_neg Bool.false_ne_true, hhalf, sub_neg_eq_add] at hcost

/-- Two edges between the same nodes, whose weights cancel. -/
theorem maxcut_cost_two : ∃ H₁ H₀, maxcut 64 [⟨0, 63, 1⟩, ⟨63, 0, -1⟩] true = .ok H₁ ∧
    maxcut 64 [⟨0, 63, 1⟩, ⟨63, 0, -1⟩] false = .ok H₀ ∧ ∀ bits,
      diagonalCost H₁ bits = .ok (-cutValue [⟨0, 63, (1 : ℝ)⟩, ⟨63, 0, -1⟩] bits) ∧
      diagonalCost H₀ bits = .ok (-cutValue [⟨0, 63, (1 : ℝ)⟩, ⟨63, 0, -1⟩] bits +
        ([(⟨0, 63, 1⟩ : Edge ℝ), ⟨63, 0, -1⟩].map Edge.weight).sum / 2) :=
  maxcut_cost (maxcut_eq (by decide) le_rfl (by simp [Edge.Within]) false)

/-! ### The brute force -/

/-- A cut depends on the nodes only, and its complement has the same weight. -/
theorem cutValue_congr (he : ∀ e ∈ edges, e.u < n ∧ e.v < n) {bits bits' : ℕ} (flip : Bool)
    (h : ∀ q < n, bits'.testBit q = (flip ^^ bits.testBit q)) :
    cutValue edges bits' = cutValue edges bits := by
  rw [cutValue_eq, cutValue_eq]
  refine congrArg List.sum (List.map_congr_left fun e hmem => ?_)
  obtain ⟨hu, hv⟩ := he e hmem
  have hcut : e.cut bits' = e.cut bits := by
    rw [Edge.cut, Edge.cut, h e.u hu, h e.v hv]
    cases flip <;> cases bits.testBit e.u <;> cases bits.testBit e.v <;> rfl
  rw [hcut]

/-- Every cut has its weight on a bitstring with the top node on side 0. -/
theorem exists_topZero (hn : 1 ≤ n) (he : ∀ e ∈ edges, e.u < n ∧ e.v < n) (y : ℕ) :
    ∃ x < 2 ^ (n - 1), cutValue edges x = cutValue edges y := by
  let flip := y.testBit (n - 1)
  let x := ((if flip then 2 ^ n - 1 else 0) ^^^ y) % 2 ^ n
  have hx : ∀ q, x.testBit q = (decide (q < n) && (flip ^^ y.testBit q)) := by
    intro q
    rw [Nat.testBit_mod_two_pow, Nat.testBit_xor]
    by_cases hq : q < n
    · cases flip <;> simp [hq]
    · simp [hq]
  refine ⟨x, lt_two_pow_of_testBit fun q hq => ?_, cutValue_congr he flip fun q hq => ?_⟩
  · rw [hx, Bool.and_eq_true, decide_eq_true_iff] at hq
    have hne : q ≠ n - 1 := fun heq => by simp [heq, flip] at hq
    omega
  · rw [hx, decide_eq_true hq, Bool.true_and]

/-- What no such bitstring exceeds, no bitstring does. -/
theorem cutValue_le_of_topZero (hn : 1 ≤ n) (he : ∀ e ∈ edges, e.u < n ∧ e.v < n) {b : ℝ}
    (hb : ∀ x < 2 ^ (n - 1), cutValue edges x ≤ b) (y : ℕ) : cutValue edges y ≤ b := by
  obtain ⟨x, hx, hxy⟩ := exists_topZero hn he y
  exact hxy ▸ hb x hx

/-- The search ends with the best of the bitstrings it tries: the empty cut
beats the initial `-1`. -/
theorem maxcutBruteForce_spec (hn : 1 ≤ n) (hn' : n ≤ 26) (edges : List (Edge ℝ)) :
    ∃ best, maxcutBruteForce n edges = .ok best ∧ best.2 < 2 ^ (n - 1) ∧ cutValue edges best.2 = best.1 ∧
      ∀ x < 2 ^ (n - 1), cutValue edges x ≤ best.1 := by
  have hbest : Best (β := ℝᵒᵈ) (cutValue edges) (-1, 0) (List.range (1 <<< (n - 1))) _ :=
    Best.foldl _ _
  have hmem : ∀ {x : ℕ}, x ∈ List.range (1 <<< (n - 1)) ↔ x < 2 ^ (n - 1) := by simp [Nat.one_shiftLeft]
  have hlt : (-1 : ℝ) < cutValue edges 0 := by simp [cutValue_eq, Edge.cut]
  obtain ⟨x, hx, hfound⟩ := hbest.exists_mem (hmem.mpr (Nat.two_pow_pos _)) hlt
  refine ⟨_, if_neg (by omega), ?_, ?_, fun y hy => hbest.le y (hmem.mpr hy)⟩
  · exact (congrArg (fun r : ℝ × ℕ => r.2 < 2 ^ (n - 1)) hfound).mpr (hmem.mp hx)
  · exact (congrArg (fun r : ℝ × ℕ => cutValue edges r.2 = r.1) hfound).mpr rfl

/-- **The brute force finds the largest cut**, over all bitstrings, whatever the
signs of the weights. -/
theorem maxcutBruteForce_optimal (hn : 1 ≤ n) (hn' : n ≤ 26) (he : ∀ e ∈ edges, e.u < n ∧ e.v < n) :
    ∃ b x, maxcutBruteForce n edges = .ok (b, x) ∧ x < 2 ^ (n - 1) ∧ cutValue edges x = b ∧
      ∀ y, cutValue edges y ≤ b := by
  obtain ⟨⟨b, x⟩, hrun, hx, hb, hle⟩ := maxcutBruteForce_spec hn hn' edges
  exact ⟨b, x, hrun, hx, hb, cutValue_le_of_topZero hn he hle⟩

/-- A negative edge and a loop. -/
theorem maxcutBruteForce_optimal_two : ∃ b x, maxcutBruteForce 2 [⟨0, 1, -3⟩, ⟨1, 1, 2⟩] = .ok (b, x) ∧
    ∀ y, cutValue [⟨0, 1, (-3 : ℝ)⟩, ⟨1, 1, 2⟩] y ≤ b := by
  have he : ∀ e ∈ [(⟨0, 1, -3⟩ : Edge ℝ), ⟨1, 1, 2⟩], e.u < 2 ∧ e.v < 2 := by simp
  obtain ⟨b, x, hrun, -, -, hle⟩ := maxcutBruteForce_optimal (by decide) (by decide) he
  exact ⟨b, x, hrun, hle⟩

/-- On a square with one negative diagonal the best cut separates neighbours. -/
example : maxcutBruteForce 4
    [⟨0, 1, 1⟩, ⟨1, 2, 1⟩, ⟨2, 3, 1⟩, ⟨3, 0, 1⟩, ⟨0, 2, -1⟩] = .ok ((4 : ℚ), 5) := by decide +kernel

/-! ### The energy -/

/-- **No normalized state has an energy below the negated best cut.** -/
theorem neg_le_expectationValue (hn : 1 ≤ n) (hn' : n ≤ 64) (he : ∀ e ∈ edges, e.Within n) {best : ℝ}
    (hbest : ∀ y, cutValue edges y ≤ best) {psi : StateVec ℂ} {ψ : State (Fin n)} (hψ : psi.Holds ψ)
    (hnorm : ∑ x, Complex.normSq (ψ x) = 1) :
    ∃ e, expectationValue psi (maxcutObservable n edges true) = .ok e ∧ -best ≤ e := by
  have hl := legal_maxcutObservable hn hn' he true
  have hd : (maxcutObservable n edges true).isDiagonal = true := isDiagonal_maxcutObservable true
  refine ⟨_, expectationValue_holds hl hψ, ?_⟩
  rw [operator_eq_diagonal hd]
  refine (le_average (fun x => Complex.normSq_nonneg _) hnorm fun x => ?_).trans_eq (expect_diagonal _ ψ).symm
  have hcost := (diagonalCost_eq hl hd x).symm.trans (diagonalCost_maxcut hn' he true (index x))
  rw [Except.ok.inj hcost, if_pos rfl, sub_zero]
  exact neg_le_neg (hbest _)

end Values

end Qsycl
