/-
# The batched evaluator is the reference

A row of the batched evaluator goes through the same operators as the bound
circuit of its request: the compiled gate `k` has the kernel of the bound call
`k` in every row (`compileOp_op`), a launch applies each row's kernel to that
row alone (`launchOp_row`), and the masks are evaluated as on the host
(`rowEnergy_eq`). So a batch gives the energies that the default
`expectation_batch` gives on the CPU backend, as long as the index of no
gate with an angle wraps to another one (`expectationBatch_agree`).
-/
import Qsycl.GradientCorrect
import Qsycl.Native

namespace Qsycl.Native

open WorkItems Words Qubits Matrix

/-! ### Signs -/

/-- The product with `0x0101…` collects all bytes in the top one. -/
theorem ofBytes_mul_top {f : ℕ → ℕ} (hf : ∀ i, f i ≤ 8) :
    (ofBytes 8 f * 0x0101010101010101 % 2 ^ 64) >>> 56 = ∑ i ∈ Finset.range 8, f i := by
  have h0 := hf 0
  have h1 := hf 1
  have h2 := hf 2
  have h3 := hf 3
  have h4 := hf 4
  have h5 := hf 5
  have h6 := hf 6
  have h7 := hf 7
  have top : ∀ low s high : ℕ, low < 2 ^ 56 → s < 256 →
      ((low + 2 ^ 56 * (s + 256 * high)) % 2 ^ 64) >>> 56 = s := by
    intro low s high hl hs
    rw [Nat.shiftRight_eq_div_pow]
    omega
  have hsum : ∑ i ∈ Finset.range 8, f i = f 0 + f 1 + f 2 + f 3 + f 4 + f 5 + f 6 + f 7 := by
    simp [Finset.sum_range_succ]
  have hprod : ofBytes 8 f * 0x0101010101010101 =
      (f 0 + 2 ^ 8 * (f 0 + f 1) + 2 ^ 16 * (f 0 + f 1 + f 2) + 2 ^ 24 * (f 0 + f 1 + f 2 + f 3) +
        2 ^ 32 * (f 0 + f 1 + f 2 + f 3 + f 4) + 2 ^ 40 * (f 0 + f 1 + f 2 + f 3 + f 4 + f 5) +
        2 ^ 48 * (f 0 + f 1 + f 2 + f 3 + f 4 + f 5 + f 6)) +
      2 ^ 56 * ((f 0 + f 1 + f 2 + f 3 + f 4 + f 5 + f 6 + f 7) + 256 *
        ((f 1 + f 2 + f 3 + f 4 + f 5 + f 6 + f 7) + 2 ^ 8 * (f 2 + f 3 + f 4 + f 5 + f 6 + f 7) +
          2 ^ 16 * (f 3 + f 4 + f 5 + f 6 + f 7) + 2 ^ 24 * (f 4 + f 5 + f 6 + f 7) +
          2 ^ 32 * (f 5 + f 6 + f 7) + 2 ^ 40 * (f 6 + f 7) + 2 ^ 48 * f 7)) := by
    simp only [ofBytes, Nat.reduceAdd, Nat.zero_add]
    ring
  rw [hprod, hsum]
  exact top _ _ _ (by omega) (by omega)

/-- **The population count counts.** -/
theorem popcount64_eq {v : ℕ} (hv : v < 2 ^ 64) : popcount64 v = bitSum 64 v := by
  have h := swar_eq 8 v (by norm_num; exact hv)
  have h' : popcount64 v = (swar 8 v * 0x0101010101010101 % 2 ^ 64) >>> 56 := rfl
  rw [h', h, ofBytes_mul_top fun i => bitSum_le 8 _, ← bitSum_bytes 8 v]

/-- Both routines give the same sign. -/
theorem popcount64_parity {v : ℕ} (hv : v < 2 ^ 64) : popcount64 v &&& 1 = parity v := by
  rw [popcount64_eq hv, parity_eq, Nat.and_one_is_mod]

/-- The loop over a row is the loop of `expectation_value`. -/
theorem rowSums_eq (dim : ℕ) (row : ℕ → ℂ) {m : PauliMask ℝ} (h : m.z < 2 ^ 64) :
    rowSums dim row m = termSums ⟨dim, row⟩ m := by
  have hz : ∀ j : ℕ, j &&& m.z < 2 ^ 64 := fun j => Nat.and_lt_two_pow j h
  have hstep : ∀ (s : ℝ × ℝ) (j : ℕ),
      let t := star (row (j ^^^ m.x)) * row j
      (s.1 + (if popcount64 (j &&& m.z) &&& 1 ≠ 0 then -t.re else t.re),
        s.2 + (if popcount64 (j &&& m.z) &&& 1 ≠ 0 then -t.im else t.im)) =
      (s.1 + (if parity (j &&& m.z) ≠ 0 then -1 else 1) * t.re,
        s.2 + (if parity (j &&& m.z) ≠ 0 then -1 else 1) * t.im) := by
    intro s j
    simp only [popcount64_parity (hz j)]
    split <;> simp
  unfold rowSums termSums
  exact congrArg (fun f => (List.range dim).foldl f (0, 0)) (funext fun s => funext fun j => hstep s j)

theorem rowEnergy_eq {n : ℕ} (hn : n ≤ 64) {obs : Observable ℝ} (h : ∀ m ∈ obs.masks, m.Fits n)
    (row : ℕ → ℂ) : rowEnergy obs.masks (2 ^ n) row = (expect (obs.operator n) (view n row)).re := by
  have hψ : StateVec.Holds ⟨2 ^ n, row⟩ (view n row) := ⟨rfl, rfl⟩
  have hm : ∀ m ∈ obs.masks, m.coeff * (timesIPow m.ny (rowSums (2 ^ n) row m)).1 =
      m.coeff * (expect (pauliString (m.string n)) (view n row)).re := by
    intro m hm
    have hz : m.z < 2 ^ 64 := lt_of_lt_of_le (h m hm).z (Nat.pow_le_pow_right (by norm_num) hn)
    rw [rowSums_eq (2 ^ n) row hz]
    change m.coeff * (termExpectation ⟨2 ^ n, row⟩ m).1 = _
    rw [termExpectation_eq hψ (h m hm) hn]
  rw [rowEnergy, foldl_add_map, zero_add, List.map_congr_left hm, expect_operator_re]

/-! ### The compiled gates -/

/-- The kernel that gate `opIndex` runs in row `b`. -/
noncomputable def DevOp.kernel (d : DevOp) (dev : DeviceBatch) (opIndex : ℤ) (b : ℕ) : Kernel :=
  if d.isSwap then .swap d.qa.toNat d.qb.toNat
  else if 0 ≤ d.control then .controlled d.control.toNat d.target.toNat (rowMatrix d dev opIndex b)
  else .single d.target.toNat (rowMatrix d dev opIndex b)

/-- The bound call with the index `k`. -/
def boundCall (theta : List ℝ) (op : ℤ) (delta : ℝ) (k : ℤ) (g : GateCall ℝ) : GateCall ℝ :=
  if op = k then (g.resolve theta).shiftFirst delta else g.resolve theta

theorem bindCalls_eq (calls : List (GateCall ℝ)) (theta : List ℝ) (op : ℤ) (delta : ℝ) :
    bindCalls calls theta op delta = calls.mapIdx fun k => boundCall theta op delta k := by
  by_cases hop : 0 ≤ op
  · rw [bindCalls, if_pos hop]
    refine List.ext_getElem (by simp) fun k h1 h2 => ?_
    simp only [List.getElem_modify, List.getElem_map, List.getElem_mapIdx, boundCall]
    exact if_congr (by omega) rfl rfl
  · rw [bindCalls, if_neg hop]
    refine List.ext_getElem (by simp) fun k h1 h2 => ?_
    simp only [List.getElem_map, List.getElem_mapIdx, boundCall]
    rw [if_neg (by omega)]

/-- The reference to an angle. -/
noncomputable def angleRef (a : Param ℝ) : AngleRef :=
  if a.isSymbolic then toAngleRef a else ⟨-1, 0, a.offset⟩

/-- Row `b` of the device holds the parameters `theta`. -/
def DeviceBatch.Row (dev : DeviceBatch) (b : ℕ) (theta : List ℝ) : Prop :=
  ∀ i < dev.numParams, dev.theta (b * dev.numParams + i) = theta.getD i 0

theorem evalAngle_angleRef {dev : DeviceBatch} {b : ℕ} {theta : List ℝ} (h : dev.Row b theta)
    {a : Param ℝ} (ha : a.isSymbolic = true → a.index.toNat < dev.numParams) :
    evalAngle (angleRef a) dev.theta b dev.numParams = a.resolve theta := by
  by_cases hs : a.isSymbolic = true
  · have hi : 0 ≤ a.index := by simpa [Param.isSymbolic] using hs
    rw [angleRef, if_pos hs, evalAngle, Param.resolve]
    simp only [toAngleRef, hi, if_true, h _ (ha hs)]
  · rw [angleRef, if_neg hs, evalAngle, Param.resolve_of_not_symbolic (by simpa using hs)]
    exact if_neg (by norm_num)

theorem rotationAngle_eq {op : GateOp ℝ} {a : Param ℝ} (hp : op.params = [a.offset])
    (hs : op.symbolic = if [a].any Param.isSymbolic then [a] else []) :
    rotationAngle op = .ok (angleRef a) := by
  by_cases ha : a.isSymbolic = true
  · simp [rotationAngle, GateOp.isParametric, hs, ha, angleRef, vecAt]
  · simp [rotationAngle, GateOp.isParametric, hs, ha, hp, angleRef, vecAt]

theorem uAngle_eq {op : GateOp ℝ} {args : List (Param ℝ)} (hp : op.params = args.map (·.offset))
    (hs : op.symbolic = if args.any Param.isSymbolic then args else []) {i : ℕ} {a : Param ℝ}
    (ha : args[i]? = some a) : uAngle op i = .ok (angleRef a) := by
  have hv : vecAt op.params i = .ok a.offset := by simp [vecAt, hp, ha]
  by_cases hany : args.any Param.isSymbolic = true
  · rw [hany, if_pos rfl] at hs
    by_cases has : a.isSymbolic = true
    · simp [uAngle, hs, ha, has, angleRef]
      rfl
    · simp [uAngle, hs, ha, has, angleRef, hv]
  · rw [if_neg hany] at hs
    have has : ¬ a.isSymbolic = true := fun hc =>
      hany (List.any_eq_true.mpr ⟨a, List.mem_of_getElem? ha, hc⟩)
    simp [uAngle, hs, has, angleRef, hv]

theorem vec_eta (m : Matrix2x2 ℂ) : ![m.m00, m.m01, m.m10, m.m11] = m := by
  funext i
  fin_cases i <;> rfl

/-- The program of a gate call. -/
noncomputable def devOp : GateCall ℝ → DevOp
  | .h q => .fixed { DevOp.new with target := q } Gates.H (-1)
  | .x q => .fixed { DevOp.new with target := q } Gates.X (-1)
  | .y q => .fixed { DevOp.new with target := q } Gates.Y (-1)
  | .z q => .fixed { DevOp.new with target := q } Gates.Z (-1)
  | .s q => .fixed { DevOp.new with target := q } Gates.S (-1)
  | .sdg q => .fixed { DevOp.new with target := q } Gates.Sdg (-1)
  | .t q => .fixed { DevOp.new with target := q } Gates.T (-1)
  | .tdg q => .fixed { DevOp.new with target := q } Gates.Tdg (-1)
  | .u q a b c =>
    { DevOp.new with target := q, shape := .U3, a0 := angleRef a, a1 := angleRef b, a2 := angleRef c }
  | .rx q a => { DevOp.new with target := q, shape := .RX, a0 := angleRef a }
  | .ry q a => { DevOp.new with target := q, shape := .RY, a0 := angleRef a }
  | .rz q a => { DevOp.new with target := q, shape := .RZ, a0 := angleRef a }
  | .cnot a b => .fixed { DevOp.new with target := b } Gates.X a
  | .cz a b => .fixed { DevOp.new with target := b } Gates.Z a
  | .swap a b => { DevOp.new with isSwap := true, qa := a, qb := b }
  | .crx a b p => { DevOp.new with target := b, control := a, shape := .RX, a0 := angleRef p }
  | .cry a b p => { DevOp.new with target := b, control := a, shape := .RY, a0 := angleRef p }
  | .crz a b p => { DevOp.new with target := b, control := a, shape := .RZ, a0 := angleRef p }

/-- **What `compile` makes of a gate call.** -/
theorem compileOp_op (g : GateCall ℝ) : compileOp g.op = .ok (some (devOp g)) := by
  cases g with
  | u q a b c =>
    have h : ∀ {i : ℕ} {d : Param ℝ}, [a, b, c][i]? = some d →
        uAngle (GateCall.u q a b c).op i = .ok (angleRef d) := fun h => uAngle_eq rfl rfl h
    have h0 := h (i := 0) rfl
    have h1 := h (i := 1) rfl
    have h2 := h (i := 2) rfl
    change (uAngle (GateCall.u q a b c).op 0 >>= fun a0 => uAngle (GateCall.u q a b c).op 1 >>= fun a1 =>
      uAngle (GateCall.u q a b c).op 2 >>= fun a2 => pure _) = _
    rw [h0, h1, h2]
    rfl
  | rx _ a | ry _ a | rz _ a | crx _ _ a | cry _ _ a | crz _ _ a =>
    change (rotationAngle (GateCall.op _) >>= fun a0 => pure _) = _
    rw [rotationAngle_eq (a := a) rfl rfl]
    rfl
  | _ => rfl

section Kernel

variable {dev : DeviceBatch} {b : ℕ} {k : ℤ} {theta : List ℝ}

theorem kernel_fixed (q : ℕ) (m : Matrix2x2 ℂ) :
    (DevOp.fixed { DevOp.new with target := q } m (-1)).kernel dev k b = .single q m := by
  simp [DevOp.kernel, DevOp.fixed, DevOp.new, rowMatrix, vec_eta]

theorem kernel_fixed_controlled (c t : ℕ) (m : Matrix2x2 ℂ) :
    (DevOp.fixed { DevOp.new with target := t } m c).kernel dev k b = .controlled c t m := by
  simp [DevOp.kernel, DevOp.fixed, DevOp.new, rowMatrix, vec_eta]

/-- The first angle of a gate in a row. -/
theorem firstAngle_eq (hrow : dev.Row b theta) {a : Param ℝ}
    (ha : a.isSymbolic = true → a.index.toNat < dev.numParams) :
    (if dev.shiftOp b = k then
        evalAngle (angleRef a) dev.theta b dev.numParams + dev.shift b
      else evalAngle (angleRef a) dev.theta b dev.numParams) =
      if dev.shiftOp b = k then a.resolve theta + dev.shift b else a.resolve theta := by
  rw [evalAngle_angleRef hrow ha]

/-- A gate whose kernel depends on the first angle only. -/
theorem kernel_rotation (hrow : dev.Row b theta) {g : GateCall ℝ} {a : Param ℝ}
    (ha : a.isSymbolic = true → a.index.toNat < dev.numParams) (K : ℝ → Kernel)
    (hdev : (devOp g).kernel dev k b = K (if dev.shiftOp b = k then
        evalAngle (angleRef a) dev.theta b dev.numParams + dev.shift b
      else evalAngle (angleRef a) dev.theta b dev.numParams))
    (hresolve : (g.resolve theta).kernel = K (a.resolve theta))
    (hshift : ((g.resolve theta).shiftFirst (dev.shift b)).kernel = K (a.resolve theta + dev.shift b)) :
    (devOp g).kernel dev k b = (boundCall theta (dev.shiftOp b) (dev.shift b) k g).kernel := by
  rw [hdev, firstAngle_eq hrow ha, boundCall]
  split
  · exact hshift.symm
  · exact hresolve.symm

/-- A gate without angles is not shifted. -/
theorem boundCall_of_fixed {g : GateCall ℝ} (hg : g.args = []) (theta : List ℝ) (op : ℤ) (delta : ℝ) (k : ℤ) :
    boundCall theta op delta k g = g.resolve theta := by
  have hsame : (g.resolve theta).shiftFirst delta = g.resolve theta := by
    cases g <;> first | rfl | cases hg
  rw [boundCall, hsame, ite_self]

/-- **The compiled gate is the bound call**, in every row. -/
theorem kernel_devOp (hrow : dev.Row b theta) {n : ℕ} {g : GateCall ℝ} (hg : g.Fits n dev.numParams) :
    (devOp g).kernel dev k b =
      (boundCall theta (dev.shiftOp b) (dev.shift b) k g).kernel := by
  have hfix : g.args = [] → boundCall theta (dev.shiftOp b) (dev.shift b) k g = g.resolve theta :=
    fun ha => boundCall_of_fixed ha theta _ _ k
  have hb := hg.bound
  cases g with
  | u q a c d =>
    have ha := firstAngle_eq (k := k) hrow (hb a (by simp [GateCall.args]))
    have hc := evalAngle_angleRef hrow (hb c (by simp [GateCall.args]))
    have hd := evalAngle_angleRef hrow (hb d (by simp [GateCall.args]))
    have hm : (devOp (.u q a c d)).kernel dev k b = .single q (Gates.U
        (if dev.shiftOp b = k then a.resolve theta + dev.shift b else a.resolve theta)
        (c.resolve theta) (d.resolve theta)) := by
      rw [← ha, ← hc, ← hd]
      rfl
    rw [hm, boundCall]
    split <;> rfl
  | rx q a => exact kernel_rotation hrow (hb a (by simp [GateCall.args])) (.single q <| Gates.RX ·) rfl rfl rfl
  | ry q a => exact kernel_rotation hrow (hb a (by simp [GateCall.args])) (.single q <| Gates.RY ·) rfl rfl rfl
  | rz q a => exact kernel_rotation hrow (hb a (by simp [GateCall.args])) (.single q <| Gates.RZ ·) rfl rfl rfl
  | crx c t a =>
    refine kernel_rotation hrow (hb a (by simp [GateCall.args])) (.controlled c t <| Gates.RX ·) ?_ rfl rfl
    simp [devOp, DevOp.kernel, DevOp.new, rowMatrix, Gates.RX]
  | cry c t a =>
    refine kernel_rotation hrow (hb a (by simp [GateCall.args])) (.controlled c t <| Gates.RY ·) ?_ rfl rfl
    simp [devOp, DevOp.kernel, DevOp.new, rowMatrix, Gates.RY]
  | crz c t a =>
    refine kernel_rotation hrow (hb a (by simp [GateCall.args])) (.controlled c t <| Gates.RZ ·) ?_ rfl rfl
    simp [devOp, DevOp.kernel, DevOp.new, rowMatrix, Gates.RZ]
  | cnot c t => rw [hfix rfl]; exact kernel_fixed_controlled c t _
  | cz c t => rw [hfix rfl]; exact kernel_fixed_controlled c t _
  | swap a d => rw [hfix rfl]; rfl
  | _ => rw [hfix rfl]; exact kernel_fixed _ _

end Kernel

/-! ### Launches for all rows -/

theorem matrixItem_eq {d : DevOp} (hd : d.isSwap = false) (dev : DeviceBatch) (k : ℤ) (b i : ℕ) :
    matrixItem d dev k b i = ((d.kernel dev k b).item i).atOffset (b * dev.dim) := by
  by_cases hc : 0 ≤ d.control
  · simp only [matrixItem, DevOp.kernel, hd, hc, true_and, if_true, Kernel.item, controlledItem,
      Bool.false_eq_true, if_false, ite_not]
    split <;> rfl
  · simp only [matrixItem, DevOp.kernel, hd, hc, false_and, if_false, Kernel.item,
      Bool.false_eq_true]
    rfl

theorem swapRowItem_eq {d : DevOp} (hd : d.isSwap = true) (dev : DeviceBatch) (k : ℤ) (b i : ℕ) :
    swapRowItem d dev b i = ((d.kernel dev k b).item i).atOffset (b * dev.dim) := by
  simp only [swapRowItem, DevOp.kernel, hd, if_true, Kernel.item, swapItem]
  split <;> rfl

/-- The launch of the gate with the index `k`. -/
noncomputable def launchOp (rows : ℕ) (dev : DeviceBatch) (eq : Queue) (k : ℤ) (d : DevOp)
    (state : ℕ → ℂ) : ℕ → ℂ :=
  if d.isSwap then launch2 eq rows dev.dim (swapRowItem d dev) state
  else launch2 eq rows (dev.dim / 2) (matrixItem d dev k) state

/-- **A launch acts on every row by the row's own kernel.** -/
theorem launchOp_row {rows n : ℕ} {k : ℤ} {dev : DeviceBatch} (hdim : dev.dim = 2 ^ n) {d : DevOp}
    (hf : ∀ b < rows, (d.kernel dev k b).Fits n) (eq : Queue) (state : ℕ → ℂ) {b j : ℕ}
    (hb : b < rows) (hj : j < 2 ^ n) :
    launchOp rows dev eq k d state (b * 2 ^ n + j) =
      (d.kernel dev k b).action (fun i => state (b * 2 ^ n + i)) j := by
  cases hd : d.isSwap
  · have hitems : ∀ b, (d.kernel dev k b).items (2 ^ n) = 2 ^ n / 2 := by
      intro b
      simp only [DevOp.kernel, hd, Bool.false_eq_true, if_false]
      split <;> rfl
    have hmeets : ∀ b < rows, KernelMeets (2 ^ n / 2) (2 ^ n) (d.kernel dev k b).item
        (d.kernel dev k b).touches (d.kernel dev k b).action := fun b hb => by
      have := Kernel.meets (hf b hb)
      rwa [hitems b] at this
    rw [launchOp, hd, if_neg (by simp), launch2, Queue.launch, hdim]
    simp only [matrixItem_eq hd, hdim]
    exact launch_rows hmeets ((eq 0).perm _) state hb hj
  · have hitems : ∀ b, (d.kernel dev k b).items (2 ^ n) = 2 ^ n := by
      intro b
      simp only [DevOp.kernel, hd, if_true]
      rfl
    have hmeets : ∀ b < rows, KernelMeets (2 ^ n) (2 ^ n) (d.kernel dev k b).item
        (d.kernel dev k b).touches (d.kernel dev k b).action := fun b hb => by
      have := Kernel.meets (hf b hb)
      rwa [hitems b] at this
    rw [launchOp, hd, if_pos rfl, launch2, Queue.launch, hdim]
    simp only [swapRowItem_eq hd dev k, hdim]
    exact launch_rows hmeets ((eq 0).perm _) state hb hj

/-- Row `b` of the flat array. -/
def rowState (n : ℕ) (state : ℕ → ℂ) (b : ℕ) : State (Fin n) := view n fun j => state (b * 2 ^ n + j)

theorem launchOp_rowState {rows n : ℕ} {k : ℤ} {dev : DeviceBatch} (hdim : dev.dim = 2 ^ n) {d : DevOp}
    (hf : ∀ b < rows, (d.kernel dev k b).Fits n) (eq : Queue) (state : ℕ → ℂ) {b : ℕ}
    (hb : b < rows) :
    rowState n (launchOp rows dev eq k d state) b =
      (d.kernel dev k b).operator n *ᵥ rowState n state b := by
  rw [rowState, view_congr fun j hj => launchOp_row hdim hf eq state hb hj, Kernel.view_action (hf b hb)]
  rfl

/-- What the rows of the device ask for. -/
structure DeviceBatch.Rows (dev : DeviceBatch) (rows n : ℕ) (theta : ℕ → List ℝ) : Prop where
  dim : dev.dim = 2 ^ n
  row : ∀ b < rows, dev.Row b (theta b)

theorem Fits_boundCall {n P : ℕ} {g : GateCall ℝ} (h : g.Fits n P) (theta : List ℝ) (op : ℤ)
    (delta : ℝ) (k : ℤ) : (boundCall theta op delta k g).kernel.Fits n := by
  have hq : (boundCall theta op delta k g).qubits = g.qubits := by
    unfold boundCall
    split <;> simp [GateCall.shiftFirst, GateCall.resolve]
  have hc : ∀ a ∈ (boundCall theta op delta k g).args, a.isSymbolic = false := by
    unfold boundCall
    split
    · exact GateCall.const_shiftFirst delta (g.const_resolve theta)
    · exact g.const_resolve theta
  have hf : (boundCall theta op delta k g).Fits n P :=
    ⟨hq ▸ h.inRange, hq ▸ h.distinct, fun a ha hs => by simp [hc a ha] at hs⟩
  exact hf.kernel

/-- The calls that a row goes through: the indices of the gates are `int`s. -/
def rowCalls (calls : List (GateCall ℝ)) (theta : List ℝ) (op : ℤ) (delta : ℝ) : List (GateCall ℝ) :=
  calls.mapIdx fun k => boundCall theta op delta (castInt k)

/-- **A run takes every row through its own calls.** -/
theorem runProgram_holds {rows n : ℕ} {dev : DeviceBatch} {theta : ℕ → List ℝ}
    (hdev : dev.Rows rows n theta) : ∀ (calls : List (GateCall ℝ)) (k : ℕ) (eq : Queue)
    (state : ℕ → ℂ), (∀ g ∈ calls, g.Fits n dev.numParams) → ∀ b < rows,
    rowState n (runProgram rows dev eq k (calls.map devOp) state) b =
      circuitOperator n (calls.mapIdx fun i =>
        boundCall (theta b) (dev.shiftOp b) (dev.shift b) (castInt (k + i))) *ᵥ rowState n state b
  | [], k, eq, state, _, b, hb => by
    rw [List.mapIdx_nil, circuitOperator, one_mulVec]
    rfl
  | g :: calls, k, eq, state, hf, b, hb => by
    have hg := hf g List.mem_cons_self
    have hk : ∀ b < rows, (devOp g).kernel dev (castInt k) b =
        (boundCall (theta b) (dev.shiftOp b) (dev.shift b) (castInt k) g).kernel := fun b hb =>
      kernel_devOp (hdev.row b hb) hg
    have hstep := launchOp_rowState (k := castInt k) hdev.dim
      (fun b hb => hk b hb ▸ Fits_boundCall hg _ _ _ _) eq state hb
    have ih := runProgram_holds hdev calls (k + 1) eq.next (launchOp rows dev eq (castInt k) (devOp g) state)
      (fun g hg => hf g (List.mem_cons_of_mem _ hg)) b hb
    rw [List.map_cons, List.mapIdx_cons, circuitOperator, ← mulVec_mulVec]
    refine ih.trans ?_
    rw [hstep, hk b hb]
    simp only [Nat.add_assoc, Nat.add_comm 1, Nat.add_zero]
    rfl

/-! ### The whole batch -/

theorem compile_eq {ansatz : Circuit ℝ} {calls : List (GateCall ℝ)}
    (h : ansatz.ops = calls.map GateCall.op) : compile ansatz = .ok (calls.map devOp) := by
  have hm : ansatz.ops.mapM compileOp = .ok (calls.map fun g => some (devOp g)) := by
    rw [h, List.mapM_map]
    exact mapM_eq_ok fun g _ => compileOp_op g
  rw [compile, hm]
  change Except.ok (List.filterMap id _) = _
  rw [List.filterMap_map]
  simp

/-- The first two launches set every row to the zero state. -/
theorem initial_rows {rows n : ℕ} (q q' : Queue) (m : ℕ → ℂ) {b : ℕ} (hb : b < rows) :
    rowState n (q'.launch rows (fun b => .store (b * 2 ^ n) 1 .done)
      (q.launch (rows * 2 ^ n) (fun idx => .store idx 0 .done) m)) b = zeroState := by
  funext x
  have hx := index_lt x
  have hcell : b * 2 ^ n + index x < rows * 2 ^ n :=
    calc b * 2 ^ n + index x < b * 2 ^ n + 2 ^ n := by omega
      _ = (b + 1) * 2 ^ n := (Nat.succ_mul b _).symm
      _ ≤ rows * 2 ^ n := Nat.mul_le_mul_right _ hb
  simp only [rowState, view, zeroState, ← index_eq_zero]
  by_cases h0 : index x = 0
  · rw [if_pos h0, h0, Nat.add_zero]
    refine Queue.launch_store (f := fun b => b * 2 ^ n) (fun _ => 1) (fun i _ j _ he => ?_) q' _ hb
    exact Nat.eq_of_mul_eq_mul_right (by positivity) he
  · have hne : ∀ i < rows, i * 2 ^ n ≠ b * 2 ^ n + index x := fun i _ he => by
      have := row_cell_inj (k := 0) (by positivity) hx (by simpa using he)
      exact h0 this.2.symm
    rw [if_neg h0, Queue.launch_store_of_ne (f := fun b => b * 2 ^ n) (fun _ => 1) q' _ hne]
    exact Queue.launch_store (f := fun idx => idx) (fun _ => 0) (fun i _ j _ he => he) q m hcell

theorem getD_take_drop {l : List ℝ} {P b i : ℕ} (hi : i < P) :
    ((l.drop (b * P)).take P).getD i 0 = l.getD (b * P + i) 0 := by
  simp [List.getD_eq_getElem?_getD, hi, List.getElem?_drop]

/-- The launches of a batch give each row the energy of its calls. -/
theorem runBatch_eq {rows n : ℕ} {dev : DeviceBatch} {theta : ℕ → List ℝ}
    (hdev : dev.Rows rows n theta) {calls : List (GateCall ℝ)}
    (hf : ∀ g ∈ calls, g.Fits n dev.numParams) {obs : Observable ℝ} (hn : n ≤ 64)
    (ho : ∀ m ∈ obs.masks, m.Fits n) (q : Device) :
    runBatch q rows dev (calls.map devOp) obs.masks = (List.range rows).map fun b =>
      energy n obs (rowCalls calls (theta b) (dev.shiftOp b) (dev.shift b)) := by
  refine List.map_congr_left fun b hb => ?_
  have hb : b < rows := List.mem_range.mp hb
  rw [Queue.launch_store (f := fun b => b) _ (fun i _ j _ he => he) _ _ hb, hdev.dim, rowEnergy_eq hn ho]
  have hrun := runProgram_holds hdev calls 0 q.queue.next.next
    (q.queue.next.launch rows (fun b => .store (b * 2 ^ n) 1 .done)
      (q.queue.launch (rows * 2 ^ n) (fun idx => .store idx 0 .done) q.state)) hf b hb
  rw [initial_rows _ _ _ hb] at hrun
  simp only [Nat.zero_add] at hrun
  rw [energy, preparedState, rowCalls]
  exact congrArg (fun ψ => (expect (obs.operator n) ψ).re) hrun

theorem map_getD_range {α : Type} (l : List α) (d : α) : (List.range l.length).map (l.getD · d) = l :=
  List.ext_getElem (by simp) fun i h1 h2 => by simp [h2]

/-- The columns of a batch that `add` built can be read. -/
theorem mapM_column {α : Type} {requests : List (Request ℝ)} {column : ℕ → Except Exn α}
    {f : Request ℝ → α} (d : α) (h : ∀ i r, requests[i]? = some r → column i = .ok (f r)) :
    (List.range requests.length).mapM column = .ok (requests.map f) := by
  have hread := mapM_eq_ok (l := List.range requests.length) (g := ((requests.map f).getD · d))
    fun i hi => by
      have hi : i < requests.length := List.mem_range.mp hi
      simpa [hi] using h i requests[i] (List.getElem?_eq_getElem hi)
  rw [hread, ← List.length_map f, map_getD_range]

section Batch

variable {ansatz : Circuit ℝ} {calls : List (GateCall ℝ)} {obs : Observable ℝ}

/-- **The batched evaluator** returns the energies of the calls of its rows. -/
theorem expectationBatch_rows (hc : ansatz.Legal calls) (ho : obs.Legal)
    (hno : obs.numQubits = ansatz.numQubits) {requests : List (Request ℝ)}
    (hP : ∀ r ∈ requests, r.theta.length = ansatz.numParams) {q : Device} (hq : q.allocated = true) :
    expectationBatch q ansatz obs (.ofRequests requests) =
      .ok (requests.map fun r => energy obs.numQubits obs (rowCalls calls r.theta r.op r.delta)) := by
  have hbatch := ofRequests_eq hP
  by_cases hne : requests = []
  · subst hne
    simp [expectationBatch, hbatch, hno]
    rfl
  have hread : ∀ b (hb : b < requests.length),
      (EvalBatch.ofRequests requests).thetaOf b = requests[b].theta := fun b hb =>
    (ofRequests_request hP (List.getElem?_eq_getElem hb)).1
  have hops := mapM_column (-1) fun i r hi => (ofRequests_request hP hi).2.1
  have hdeltas := mapM_column 0 fun i r hi => (ofRequests_request hP hi).2.2
  let dev : DeviceBatch := ⟨1 <<< ansatz.numQubits, ansatz.numParams,
    ((EvalBatch.ofRequests requests).thetas.getD · 0), ((requests.map (·.op)).getD · (-1)),
    ((requests.map (·.delta)).getD · 0)⟩
  have hrun : expectationBatch q ansatz obs (.ofRequests requests) =
      .ok (runBatch q requests.length dev (calls.map devOp) obs.masks) := by
    have hcount : (EvalBatch.ofRequests requests).count = requests.length := by rw [hbatch]
    have hparams : (EvalBatch.ofRequests requests).numParams = ansatz.numParams := by
      simp [hbatch, hne]
    simp [expectationBatch, hno, hcount, hparams, hne, compile_eq hc.ops, hq, hops, hdeltas, dev, pure,
      Except.pure]
  let theta : ℕ → List ℝ := (EvalBatch.ofRequests requests).thetaOf
  have hdev : dev.Rows requests.length obs.numQubits theta := by
    refine ⟨by rw [hno, ← Nat.one_shiftLeft], fun b hb i hi => ?_⟩
    have hparams : (EvalBatch.ofRequests requests).numParams = ansatz.numParams := by
      simp [hbatch, hne]
    simp only [theta, EvalBatch.thetaOf, hparams]
    exact (getD_take_drop hi).symm
  rw [hrun, runBatch_eq hdev (hno ▸ hc.fits) ho.le ho.fits q]
  refine congrArg Except.ok (List.ext_getElem (by simp) fun b h1 h2 => ?_)
  have hb : b < requests.length := by simpa using h2
  simp [dev, theta, hb, hread b hb]

/-- The gates with an angle are below position `N`. -/
def AngledBelow (N : ℕ) (ops : List (GateOp ℝ)) : Prop :=
  ∀ (k : ℕ) (op : GateOp ℝ), ops[k]? = some op → op.params ≠ [] → k < N

theorem angledBelow_of_length {N : ℕ} {ops : List (GateOp ℝ)} (h : ops.length ≤ N) : AngledBelow N ops :=
  fun _ _ hk _ => (List.getElem?_eq_some_iff.mp hk).1.trans_le h

/-- A row goes through the calls of its bound circuit if it tells their indices apart. -/
theorem rowCalls_eq (hc : ansatz.Legal calls) {N : ℕ} (hN : AngledBelow N ansatz.ops) {op : ℤ}
    (hop : ∀ k < N, op = castInt k ↔ op = k) (theta : List ℝ) (delta : ℝ) :
    rowCalls calls theta op delta = bindCalls calls theta op delta := by
  rw [bindCalls_eq, rowCalls]
  refine List.ext_getElem (by simp) fun k h1 h2 => ?_
  have hk : k < calls.length := by simpa using h1
  rw [List.getElem_mapIdx, List.getElem_mapIdx]
  by_cases hargs : calls[k].args = []
  · rw [boundCall_of_fixed hargs, boundCall_of_fixed hargs]
  · have hat : ansatz.ops[k]? = some calls[k].op := by
      rw [hc.ops, List.getElem?_map, List.getElem?_eq_getElem hk]
      rfl
    have hparams : calls[k].op.params ≠ [] := fun h => hargs (List.map_eq_nil_iff.mp h)
    exact if_congr (hop k (hN k _ hat hparams)) rfl rfl

/-- **The batched evaluator** returns the energies of the bound circuits, if the gates with an
angle have `int`s for positions. -/
theorem expectationBatch_eq (hc : ansatz.Legal calls) (ho : obs.Legal)
    (hno : obs.numQubits = ansatz.numQubits) (hN : AngledBelow (2 ^ 31) ansatz.ops)
    {requests : List (Request ℝ)} (hr : ∀ r ∈ requests, Accepts ansatz r) {q : Device}
    (hq : q.allocated = true) : expectationBatch q ansatz obs (.ofRequests requests) =
      .ok (requests.map fun r => energy obs.numQubits obs (bindCalls calls r.theta r.op r.delta)) := by
  rw [expectationBatch_rows hc ho hno (fun r h => (hr r h).length_eq hc) hq]
  exact congrArg Except.ok (List.map_congr_left fun r _ => by
    rw [rowCalls_eq hc hN fun k hk => by rw [castInt_of_lt hk]])

/-! ### Agreement -/

/-- A request that `Circuit::bind` accepts, for no gate (-1) or for one with an angle. -/
structure Proper (ansatz : Circuit ℝ) (r : Request ℝ) : Prop where
  accepts : Accepts ansatz r
  lower : -1 ≤ r.op
  upper : r.op < 2 ^ 31

/-- Every request has an energy such that for every batch of proper requests the batched
evaluator on any device and the default `expectation_batch` on any CPU backend both return the
energies of the requests, in order. -/
def BatchesAgree (ansatz : Circuit ℝ) (obs : Observable ℝ) : Prop :=
  ∃ energyOf : Request ℝ → ℝ, ∀ requests : List (Request ℝ), (∀ r ∈ requests, Proper ansatz r) →
    (∀ q : Device, q.allocated = true →
      expectationBatch q ansatz obs (.ofRequests requests) = .ok (requests.map energyOf)) ∧
    ∀ b : CPUBackend ℂ, ∃ b', CPUBackend.methods.expectationBatch ansatz obs (.ofRequests requests) b =
      .ok (requests.map energyOf, b')

theorem batchesAgree (hc : ansatz.Legal calls) (hn : ansatz.numQubits ≤ 30) (ho : obs.Legal)
    (hno : obs.numQubits = ansatz.numQubits) (hN : AngledBelow (2 ^ 32 - 1) ansatz.ops) :
    BatchesAgree ansatz obs := by
  refine ⟨fun r => energy obs.numQubits obs (bindCalls calls r.theta r.op r.delta), fun requests hr =>
    ⟨fun q hq => ?_, fun b => CPUBackend.expectationBatch_eq hc hn ho hno (fun r h => (hr r h).accepts) b⟩⟩
  rw [expectationBatch_rows hc ho hno (fun r h => (hr r h).accepts.length_eq hc) hq]
  refine congrArg Except.ok (List.map_congr_left fun r h => ?_)
  obtain ⟨-, hlower, hupper⟩ := hr r h
  rw [rowCalls_eq hc hN fun k hk => ?_]
  rcases Nat.lt_or_ge k (2 ^ 31) with hsmall | hlarge
  · rw [castInt_of_lt hsmall]
  · rw [castInt_eq_sub hlarge (by omega)]
    omega

theorem rowCalls_late {K : ℕ} {op : ℤ} (hop : op = castInt K) (t delta : ℝ) :
    rowCalls (lateCalls K) [t] op delta = List.replicate K (.z 0) ++ [.rx 0 (.const (t + delta))] := by
  have hz : (List.replicate K (GateCall.z 0 : GateCall ℝ)).mapIdx
      (fun k => boundCall [t] op delta (castInt k)) = List.replicate K (.z 0) := by
    refine List.ext_getElem (by simp) fun k h1 h2 => ?_
    rw [List.getElem_mapIdx, List.getElem_replicate, boundCall_of_fixed rfl]
    rfl
  have hangle : (⟨0, 1, 0⟩ : Param ℝ).resolve [t] = t := by simp [Param.resolve]
  rw [rowCalls, lateCalls, List.mapIdx_append, hz, List.length_replicate, List.mapIdx_cons, List.mapIdx_nil,
    Nat.zero_add, boundCall, if_pos hop]
  exact congrArg (fun a => List.replicate K (GateCall.z 0) ++ [GateCall.rx 0 (.const (a + delta))]) hangle

/-- The index of gate `2 ^ 32 - 1` is the -1 of the requests that shift no gate. -/
theorem not_batchesAgree_late : ¬ BatchesAgree (lateRotation (2 ^ 32 - 1)) zCost := by
  rintro ⟨energyOf, h⟩
  have hl := legal_lateRotation (2 ^ 32 - 1)
  have ho : zCost.Legal := legal_of_ofTerms ofTerms_zCost
  have hcast : (-1 : ℤ) = castInt (2 ^ 32 - 1) := by
    rw [castInt_eq_sub (by norm_num) (by norm_num)]
    norm_num
  have hr : ∀ r ∈ [(⟨[0], -1, Real.pi⟩ : Request ℝ)], Proper (lateRotation (2 ^ 32 - 1)) r := by
    intro r hr
    rw [List.mem_singleton.mp hr]
    exact ⟨⟨_, (Circuit.bind_eq_ok _ _ hl.ops _ _ _ _).mpr ⟨rfl, fun h => absurd h (by decide), rfl⟩⟩,
      le_rfl, by norm_num⟩
  obtain ⟨hnative, hcpu⟩ := h _ hr
  have hnative := (hnative ⟨true, fun _ => .inOrder, fun _ => 0, fun _ => 0⟩ rfl).symm.trans
    (expectationBatch_rows hl ho rfl (fun r h => (hr r h).accepts.length_eq hl) rfl)
  obtain ⟨b', hcpu⟩ := hcpu (.new fun _ => .inOrder)
  obtain ⟨b'', hcpu'⟩ := CPUBackend.expectationBatch_eq hl (show 1 ≤ 30 by decide) ho rfl
    (fun r h => (hr r h).accepts) (.new fun _ => .inOrder)
  have hhost := (Prod.mk.inj (Except.ok.inj (hcpu.symm.trans hcpu'))).1
  have hboth := (List.cons.inj ((Except.ok.inj hnative).symm.trans hhost)).1
  have hplain : bindCalls (lateCalls (2 ^ 32 - 1)) [0] (-1) Real.pi =
      bindCalls (lateCalls (2 ^ 32 - 1)) [0] (-1) 0 := by
    rw [bindCalls, bindCalls, if_neg (by decide), if_neg (by decide)]
  have hzero : energy 1 zCost (bindCalls (lateCalls (2 ^ 32 - 1)) [0] (-1) 0) = Real.cos 0 :=
    requestEnergy_late _ 0
  beta_reduce at hboth
  rw [rowCalls_late hcast, hplain] at hboth
  have hvalues : Real.cos (0 + Real.pi) = Real.cos 0 := (energy_late _ _).symm.trans (hboth.trans hzero)
  rw [zero_add, Real.cos_pi, Real.cos_zero] at hvalues
  norm_num at hvalues

/-- **Host and device agree.** On an ansatz of the API with at most 30 qubits and an observable
on its qubits, the batched evaluator and the default `expectation_batch` return the same energies
as long as the gates with an angle have positions below `2 ^ 32 - 1`. A bound above that would
not do. -/
theorem expectationBatch_agree (N : ℕ) : (∀ ansatz : Circuit ℝ, Circuit.Built ansatz → ansatz.numQubits ≤ 30 →
    AngledBelow N ansatz.ops → ∀ (terms : List (Term ℝ)) (obs : Observable ℝ),
      Observable.ofTerms ansatz.numQubits terms = .ok obs → BatchesAgree ansatz obs) ↔ N < 2 ^ 32 := by
  refine ⟨fun h => ?_, fun hN ansatz hb hn hbelow terms obs hobs => ?_⟩
  · by_contra hN
    have hlength : (lateRotation (2 ^ 32 - 1)).ops.length ≤ N := by
      rw [length_lateRotation]
      omega
    exact not_batchesAgree_late (h _ (built_lateRotation _) (show 1 ≤ 30 by decide)
      (angledBelow_of_length hlength) [.dense 1 ['Z']] zCost ofTerms_zCost)
  · obtain ⟨calls, hc⟩ := Circuit.legal_of_built hb
    exact batchesAgree hc hn (legal_of_ofTerms hobs) (ofTerms_ok hobs).2.1
      fun k op hk hop => (hbelow k op hk hop).trans_le (by omega)

/-- RY(θ₀) on qubit 0 and CX to qubit 1, measured in Z₀ Z₁: a batch of the row
θ₀ = 1/2 shifted by 1. -/
theorem expectationBatch_agree_two :
    let ansatz : Circuit ℝ := ⟨2, 1, [GateCall.op (.ry 0 ⟨0, 1, 0⟩), GateCall.op (.cnot 0 1)], []⟩
    let obs : Observable ℝ := ⟨2, [⟨1, 0, 3, 0⟩]⟩
    let q : Device := ⟨true, fun _ => .inOrder, fun _ => 0, fun _ => 0⟩
    ∃ e : ℝ, expectationBatch q ansatz obs (.ofRequests [⟨[1 / 2], 0, 1⟩]) = .ok [e] ∧
      ∃ b', CPUBackend.methods.expectationBatch ansatz obs (.ofRequests [⟨[1 / 2], 0, 1⟩])
        (.new fun _ => .inOrder) = .ok ([e], b') := by
  intro ansatz obs q
  have hb : Circuit.Built ansatz := by
    have h0 : Circuit.Built (⟨2, 1, [], []⟩ : Circuit ℝ) := .newParam (.new (n := 2) rfl)
    exact .gate (g := .cnot 0 1) (.gate (g := .ry 0 ⟨0, 1, 0⟩) h0 rfl) rfl
  have hobs : Observable.ofTerms 2 [.dense 1 ['Z', 'Z']] = .ok obs := rfl
  obtain ⟨energyOf, h⟩ := (expectationBatch_agree 2).mpr (by norm_num) ansatz hb (by decide)
    (angledBelow_of_length (by decide)) _ obs hobs
  obtain ⟨hq, hcpu⟩ := h [⟨[1 / 2], 0, 1⟩] fun r hr => by
    rw [List.mem_singleton.mp hr]
    exact ⟨⟨_, rfl⟩, by decide, by decide⟩
  exact ⟨_, hq q rfl, hcpu _⟩

/-- RX(θ₀) at position `2 ^ 32 - 1`, with a request that shifts no gate. -/
theorem expectationBatch_agree_fails : Circuit.Built (lateRotation (2 ^ 32 - 1)) ∧
    Observable.ofTerms 1 [.dense 1 ['Z']] = .ok zCost ∧ ¬ BatchesAgree (lateRotation (2 ^ 32 - 1)) zCost :=
  ⟨built_lateRotation _, rfl, not_batchesAgree_late⟩

end Batch

end Qsycl.Native
