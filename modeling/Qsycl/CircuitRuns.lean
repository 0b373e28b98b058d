/-
# Runs of the circuit API

A caller holds some circuits and calls their methods in any order, with any
angle expressions; a call that throws leaves everything as it was
(`World.after`). `new_param` casts the number of the parameter to `int`
(`handed`), so the run is followed as long as fewer than `2 ^ 31` parameters
are taken from each circuit (`Addressed`).

In every world reached (`Reached`) each circuit is well formed and `bind`
replaces each angle by the value of the expression the caller wrote
(`circuit_runs`). The invariant (`Traced`) is that the operations are those of
gate calls whose angles are the written expressions.
-/
import Qsycl.Simulation

namespace Qsycl

/-! ### Angle expressions -/

section Angles

variable {R : Type} [CommRing R]

/-- An angle as the caller writes it: a number, parameter `k`, a `Param` made by hand,
and the operators of `Param`. -/
inductive AngleExpr (R : Type)
  | const (c : R)
  | param (k : ℕ)
  | made (p : Param R)
  | mulLeft (c : R) (e : AngleExpr R)
  | mulRight (e : AngleExpr R) (c : R)
  | addRight (e : AngleExpr R) (c : R)
  | addLeft (c : R) (e : AngleExpr R)
  | subRight (e : AngleExpr R) (c : R)
  | subLeft (c : R) (e : AngleExpr R)
  | neg (e : AngleExpr R)

namespace AngleExpr

/-- What the operators compute. -/
def toParam : AngleExpr R → Param R
  | const c => .const c
  | param k => handed k
  | made p => p
  | mulLeft c e => c * e.toParam
  | mulRight e c => e.toParam * c
  | addRight e c => e.toParam + c
  | addLeft c e => c + e.toParam
  | subRight e c => e.toParam - c
  | subLeft c e => c - e.toParam
  | neg e => -e.toParam

/-- What the expression means at `theta`. -/
def value (theta : List R) : AngleExpr R → R
  | const c => c
  | param k => theta.getD k 0
  | made p => p.resolve theta
  | mulLeft c e => c * e.value theta
  | mulRight e c => e.value theta * c
  | addRight e c => e.value theta + c
  | addLeft c e => c + e.value theta
  | subRight e c => e.value theta - c
  | subLeft c e => c - e.value theta
  | neg e => -e.value theta

omit [CommRing R] in
/-- The parameters in an expression. -/
def params : AngleExpr R → List ℕ
  | const _ | made _ => []
  | param k => [k]
  | mulLeft _ e | mulRight e _ | addRight e _ | addLeft _ e | subRight e _ | subLeft _ e | neg e => e.params

end AngleExpr

theorem Param.resolve_mul (c : R) (p : Param R) (theta : List R) :
    (c * p).resolve theta = c * p.resolve theta := by
  show Param.resolve ⟨p.index, p.scale * c, p.offset * c⟩ theta = _
  unfold Param.resolve
  split <;> ring

theorem Param.resolve_add (p : Param R) (c : R) (theta : List R) :
    (p + c).resolve theta = p.resolve theta + c := by
  show Param.resolve ⟨p.index, p.scale, p.offset + c⟩ theta = _
  unfold Param.resolve
  split <;> ring

/-- **The operators compute what they mean.** -/
theorem AngleExpr.resolve_toParam (theta : List R) : ∀ {e : AngleExpr R}, (∀ k ∈ e.params, k < 2 ^ 31) →
    e.toParam.resolve theta = e.value theta
  | const _, _ => rfl
  | param k, h => resolve_handed (h k List.mem_cons_self) theta
  | made _, _ => rfl
  | mulLeft c e, h => by
    rw [toParam, Param.resolve_mul, resolve_toParam (e := e) theta h]
    rfl
  | mulRight e c, h => by
    show (c * e.toParam).resolve theta = e.value theta * c
    rw [Param.resolve_mul, resolve_toParam (e := e) theta h, mul_comm]
  | addRight e c, h => by
    rw [toParam, Param.resolve_add, resolve_toParam (e := e) theta h]
    rfl
  | addLeft c e, h => by
    show (e.toParam + c).resolve theta = c + e.value theta
    rw [Param.resolve_add, resolve_toParam (e := e) theta h, add_comm]
  | subRight e c, h => by
    show (e.toParam + -c).resolve theta = e.value theta - c
    rw [Param.resolve_add, resolve_toParam (e := e) theta h, sub_eq_add_neg]
  | subLeft c e, h => by
    show ((-1 : R) * e.toParam + c).resolve theta = c - e.value theta
    rw [Param.resolve_add, Param.resolve_mul, resolve_toParam (e := e) theta h]
    ring
  | neg e, h => by
    show ((-1 : R) * e.toParam).resolve theta = -e.value theta
    rw [Param.resolve_mul, resolve_toParam (e := e) theta h, neg_one_mul]

end Angles

/-! ### Well-formed circuits -/

/-- The number of qubits a gate needs. -/
def GateType.qubits : GateType → ℕ
  | .CNOT | .CZ | .SWAP | .CRX | .CRY | .CRZ => 2
  | _ => 1

/-- The number of angles that `apply_gate` reads. -/
def GateType.angles : GateType → ℕ
  | .U => 3
  | .RX | .RY | .RZ | .CRX | .CRY | .CRZ => 1
  | _ => 0

/-- An operation of a circuit with `n` qubits and `P` parameters. -/
structure GateOp.WellFormed {R : Type} (n P : ℕ) (op : GateOp R) : Prop where
  numQubits : op.qubits.length = op.type.qubits
  inRange : ∀ q ∈ op.qubits, q < n
  distinct : op.qubits.Nodup
  numAngles : op.params.length = op.type.angles
  symbolic : op.symbolic = [] ∨ op.symbolic.length = op.params.length ∧ op.isParametric = true ∧
    ∀ a ∈ op.symbolic, a.isSymbolic = true → a.index.toNat < P

structure Circuit.WellFormed {R : Type} (c : Circuit R) : Prop where
  ops : ∀ op ∈ c.ops, op.WellFormed c.numQubits c.numParams
  measured : ∀ q ∈ c.measured, q < c.numQubits

/-- The operation of a call that fits. -/
theorem GateCall.Fits.wellFormed {R : Type} {n P : ℕ} {g : GateCall R} (h : g.Fits n P) :
    g.op.WellFormed n P where
  numQubits := by cases g <;> rfl
  inRange := h.inRange
  distinct := h.distinct
  numAngles := by cases g <;> rfl
  symbolic := by
    unfold GateOp.isParametric GateCall.op
    dsimp only
    split
    · rename_i hs
      exact .inr ⟨by rw [List.length_map], hs, h.bound⟩
    · exact .inl rfl

theorem Circuit.Legal.wellFormed {R : Type} {c : Circuit R} {calls : List (GateCall R)} (h : c.Legal calls) :
    c.WellFormed where
  ops op hop := by
    rw [h.ops] at hop
    obtain ⟨g, hg, rfl⟩ := List.mem_map.mp hop
    exact (h.fits g hg).wellFormed
  measured := h.measured

/-- A well-formed operation has the qubits and the angles that `apply_gate` reads. -/
theorem GateOp.WellFormed.applies {n P : ℕ} {op : GateOp ℝ} (h : op.WellFormed n P) (b : CPUBackend ℂ) :
    ∃ b', b.applyGate op = .ok b' := by
  obtain ⟨type, qubits, params, label, dagger, symbolic⟩ := op
  have hq : qubits.length = type.qubits := h.numQubits
  have ha : params.length = type.angles := h.numAngles
  unfold CPUBackend.applyGate dispatchGate
  cases type with
  | H | X | Y | Z =>
    obtain ⟨q, rfl⟩ := List.length_eq_one_iff.mp hq
    exact ⟨_, rfl⟩
  | S | T =>
    obtain ⟨q, rfl⟩ := List.length_eq_one_iff.mp hq
    cases dagger <;> exact ⟨_, rfl⟩
  | U =>
    obtain ⟨q, rfl⟩ := List.length_eq_one_iff.mp hq
    obtain ⟨x, y, z, rfl⟩ := List.length_eq_three.mp ha
    exact ⟨_, rfl⟩
  | RX | RY | RZ =>
    obtain ⟨q, rfl⟩ := List.length_eq_one_iff.mp hq
    obtain ⟨x, rfl⟩ := List.length_eq_one_iff.mp ha
    exact ⟨_, rfl⟩
  | CNOT | CZ | SWAP =>
    obtain ⟨q, r, rfl⟩ := List.length_eq_two.mp hq
    exact ⟨_, rfl⟩
  | CRX | CRY | CRZ =>
    obtain ⟨q, r, rfl⟩ := List.length_eq_two.mp hq
    obtain ⟨x, rfl⟩ := List.length_eq_one_iff.mp ha
    exact ⟨_, rfl⟩
  | MEASURE => exact ⟨b, rfl⟩

/-! ### Circuits with what was written -/

section Runs

variable {R : Type} [CommRing R]

/-- A circuit the caller holds, and the angles the caller wrote for each operation. -/
structure Held (R : Type) where
  circuit : Circuit R
  angles : List (List (AngleExpr R))

/-- The values of the written angles at `theta`, with `shift` added to the first one of
operation `shiftOp`. -/
def boundValues (angles : List (List (AngleExpr R))) (theta : List R) (shiftOp : ℤ) (shift : R) :
    List (List R) :=
  let values := angles.map fun es => es.map (AngleExpr.value theta)
  if 0 ≤ shiftOp then values.modify shiftOp.toNat fun vs => vs.modify 0 (· + shift) else values

/-- The operation with numbers for its angles. -/
def GateOp.withAngles (op : GateOp R) (values : List R) : GateOp R :=
  { op with params := values, symbolic := [] }

/-- What a caller relies on: the circuit is well formed, `bind` accepts what it should
and puts the values of the written angles in place of the angles, and the backend
executes each operation. -/
structure Held.Sound (h : Held ℝ) : Prop where
  wellFormed : h.circuit.WellFormed
  accepts : ∀ theta shiftOp shift, (∃ c, h.circuit.bind theta shiftOp shift = .ok c) ↔
    theta.length = h.circuit.numParams ∧
      (0 ≤ shiftOp → ∃ op, h.circuit.ops[shiftOp.toNat]? = some op ∧ 0 < op.type.angles)
  bound : ∀ theta shiftOp shift c, h.circuit.bind theta shiftOp shift = .ok c →
    c.isParametric = false ∧ c.numParams = 0 ∧ c.numQubits = h.circuit.numQubits ∧
      c.measured = h.circuit.measured ∧
      c.ops = List.zipWith GateOp.withAngles h.circuit.ops (boundValues h.angles theta shiftOp shift)
  applies : ∀ op ∈ h.circuit.ops, ∀ b : CPUBackend ℂ, ∃ b', b.applyGate op = .ok b'

/-- The invariant: the operations are those of gate calls that fit, and the angles of these
calls are the written ones, in numbers that are `int`s. -/
def Held.Traced (h : Held R) : Prop :=
  ∃ calls, h.circuit.Legal calls ∧ calls.map GateCall.args = h.angles.map (·.map AngleExpr.toParam) ∧
    ∀ es ∈ h.angles, ∀ e ∈ es, ∀ k ∈ e.params, k < 2 ^ 31

/-! ### Binding -/

/-- Resolving a call at `theta` puts in the values of the written angles. -/
theorem resolve_written {g : GateCall R} {es : List (AngleExpr R)} (hg : g.args = es.map AngleExpr.toParam)
    (hes : ∀ e ∈ es, ∀ k ∈ e.params, k < 2 ^ 31) (theta : List R) :
    (g.resolve theta).op = g.op.withAngles (es.map (AngleExpr.value theta)) ∧
      (g.resolve theta).args = es.map fun e => .const (e.value theta) := by
  have hargs : (g.resolve theta).args = es.map fun e => Param.const (e.value theta) := by
    rw [GateCall.resolve, GateCall.args_mapArgs, hg, List.map_map]
    refine List.map_congr_left fun e he => ?_
    rw [Function.comp_apply, AngleExpr.resolve_toParam theta (hes e he)]
  refine ⟨?_, hargs⟩
  rw [GateCall.op_of_const (g.const_resolve theta), hargs, List.map_map]
  rw [GateCall.resolve, GateCall.kind_mapArgs, GateCall.qubits_mapArgs]
  rfl

theorem resolve_all_written (theta : List R) : ∀ {calls : List (GateCall R)}
    {angles : List (List (AngleExpr R))}, calls.map GateCall.args = angles.map (·.map AngleExpr.toParam) →
    (∀ es ∈ angles, ∀ e ∈ es, ∀ k ∈ e.params, k < 2 ^ 31) →
    (calls.map (GateCall.resolve theta)).map GateCall.op = List.zipWith GateOp.withAngles
        (calls.map GateCall.op) (angles.map fun es => es.map (AngleExpr.value theta)) ∧
      (calls.map (GateCall.resolve theta)).map GateCall.args =
        angles.map fun es => es.map fun e => .const (e.value theta)
  | [], [], _, _ => ⟨rfl, rfl⟩
  | [], _ :: _, h, _ => nomatch h
  | _ :: _, [], h, _ => nomatch h
  | g :: calls, es :: angles, h, hes => by
    rw [List.map_cons, List.map_cons, List.cons.injEq] at h
    obtain ⟨hop, hargs⟩ := resolve_written h.1 (hes es List.mem_cons_self) theta
    obtain ⟨hops, hall⟩ := resolve_all_written theta h.2 fun fs hfs => hes fs (List.mem_cons_of_mem _ hfs)
    simp only [List.map_cons, List.zipWith_cons_cons, hop, hargs, hops, hall, and_self]

omit [CommRing R] in
theorem zipWith_modify {α β γ : Type} {F : α → β → γ} {g : β → β} {G : γ → γ}
    (hG : ∀ a b, G (F a b) = F a (g b)) : ∀ (as : List α) (bs : List β) (i : ℕ),
    (List.zipWith F as bs).modify i G = List.zipWith F as (bs.modify i g)
  | [], _, _ => by simp
  | _ :: _, [], _ => by simp
  | a :: as, b :: bs, 0 => by simp [hG]
  | a :: as, b :: bs, i + 1 => by simp [zipWith_modify hG as bs i]

omit [CommRing R] in
theorem map_modify {α β : Type} {F : α → β} {f : α → α} {g : β → β} (hF : ∀ a, F (f a) = g (F a)) :
    ∀ (as : List α) (i : ℕ), (as.modify i f).map F = (as.map F).modify i g
  | [], _ => by simp
  | a :: as, 0 => by simp [hF]
  | a :: as, i + 1 => by simp [map_modify hF as i]

theorem map_const_modify (shift : R) (vs : List R) :
    (vs.modify 0 (· + shift)).map Param.const =
      (vs.map Param.const).modify 0 fun a => Param.const (a.offset + shift) :=
  map_modify (g := fun a => Param.const (a.offset + shift)) (fun _ => rfl) vs 0

/-- **Binding puts in the values of the written angles.** -/
theorem bindCalls_written {calls : List (GateCall R)} {angles : List (List (AngleExpr R))}
    (h : calls.map GateCall.args = angles.map (·.map AngleExpr.toParam))
    (hes : ∀ es ∈ angles, ∀ e ∈ es, ∀ k ∈ e.params, k < 2 ^ 31) (theta : List R) (shiftOp : ℤ) (shift : R) :
    (bindCalls calls theta shiftOp shift).map GateCall.op =
        List.zipWith GateOp.withAngles (calls.map GateCall.op) (boundValues angles theta shiftOp shift) ∧
      (bindCalls calls theta shiftOp shift).map GateCall.args =
        (boundValues angles theta shiftOp shift).map (·.map Param.const) := by
  obtain ⟨hops, hargs⟩ := resolve_all_written theta h hes
  have hargs' : (calls.map (GateCall.resolve theta)).map GateCall.args =
      (angles.map fun es => es.map (AngleExpr.value theta)).map (·.map Param.const) := by
    rw [hargs, List.map_map]
    exact List.map_congr_left fun es _ => by rw [Function.comp_apply, List.map_map]; rfl
  unfold bindCalls boundValues
  dsimp only
  split
  · have hconst : ∀ g ∈ calls.map (GateCall.resolve theta), ∀ a ∈ g.args, a.isSymbolic = false := by
      intro g hg
      obtain ⟨g, -, rfl⟩ := List.mem_map.mp hg
      exact g.const_resolve theta
    constructor
    · have hshift : ∀ (op : GateOp R) (vs : List R),
          { op.withAngles vs with params := (op.withAngles vs).params.modify 0 (· + shift) } =
            op.withAngles (vs.modify 0 (· + shift)) := fun _ _ => rfl
      rw [← modify_map_op _ _ _ hconst, hops]
      exact zipWith_modify hshift _ _ _
    · rw [map_modify (g := fun as => as.modify 0 fun a => Param.const (a.offset + shift))
        (fun g => GateCall.args_mapFirst _ g), hargs']
      exact (map_modify (map_const_modify shift) _ _).symm
  · exact ⟨hops, hargs'⟩

/-! ### Worlds -/

/-- What the caller holds: the circuits, and the numbers of the parameters that were handed out. -/
structure World (R : Type) where
  held : List (Held R)
  numbers : List ℕ

def World.empty : World R := ⟨[], []⟩

/-- A call of the API. A gate call comes with its angles as they are written. -/
inductive Call (R : Type)
  | new (numQubits : ℕ)
  | copy (i : ℕ)
  | assign (i j : ℕ)
  | gate (i : ℕ) (g : GateCall R) (angles : List (AngleExpr R))
  | measure (i qubit : ℕ)
  | newParam (i : ℕ)
  | newParams (i n : ℕ)
  | bind (i : ℕ) (theta : List R) (shiftOp : ℤ) (shift : R)

/-- The angles of a bound circuit are numbers. -/
def boundAngles (angles : List (List (AngleExpr R))) (theta : List R) (shiftOp : ℤ) (shift : R) :
    List (List (AngleExpr R)) :=
  (boundValues angles theta shiftOp shift).map (·.map .const)

/-- What a call that returns does. -/
def World.perform (w : World R) : Call R → Except Exn (World R)
  | .new n => do
    let c ← Circuit.new n
    return { w with held := w.held ++ [⟨c, []⟩] }
  | .copy i => do
    let h ← vecAt w.held i
    return { w with held := w.held ++ [h] }
  | .assign i j => do
    let h ← vecAt w.held j
    return { w with held := w.held.set i h }
  | .gate i g es => do
    let h ← vecAt w.held i
    let c ← h.circuit.gate g
    return { w with held := w.held.set i ⟨c, h.angles ++ [es]⟩ }
  | .measure i q => do
    let h ← vecAt w.held i
    let c ← h.circuit.measure q
    return { w with held := w.held.set i { h with circuit := c } }
  | .newParam i => do
    let h ← vecAt w.held i
    let c := h.circuit.newParam.2
    return ⟨w.held.set i { h with circuit := c }, w.numbers ++ [h.circuit.numParams]⟩
  | .newParams i n => do
    let h ← vecAt w.held i
    let c := (h.circuit.newParams n).2
    return ⟨w.held.set i { h with circuit := c }, w.numbers ++ List.range' h.circuit.numParams n⟩
  | .bind i theta shiftOp shift => do
    let h ← vecAt w.held i
    let c ← h.circuit.bind theta shiftOp shift
    return { w with held := w.held ++ [⟨c, boundAngles h.angles theta shiftOp shift⟩] }

/-- The world after a call; a call that throws changes nothing. -/
def World.after (w : World R) (call : Call R) : World R :=
  match w.perform call with
  | .ok w' => w'
  | .error _ => w

/-- The angles of a gate call are those that are written, with parameters that were handed
out. -/
def Call.Written (w : World R) : Call R → Prop
  | .gate _ g es => g.args = es.map AngleExpr.toParam ∧ ∀ e ∈ es, ∀ k ∈ e.params, k ∈ w.numbers
  | _ => True

/-- The worlds that some calls lead to, each of which meets `cond` in the world it is made in. -/
inductive Reached (cond : World R → Call R → Prop) : World R → Prop
  | start : Reached cond .empty
  | call {w : World R} {call : Call R} : Reached cond w → call.Written w → cond w call →
      Reached cond (w.after call)

/-- The numbers of the parameters that the call hands out are `int`s. -/
def Call.Addressed (w : World R) : Call R → Prop
  | .newParam i => ∀ h, w.held[i]? = some h → h.circuit.numParams < 2 ^ 31
  | .newParams i n => ∀ h, w.held[i]? = some h → h.circuit.numParams + n ≤ 2 ^ 31
  | _ => True

/-! ### The invariant -/

/-- Every circuit is traced, and every number handed out is an `int`. -/
structure World.Traced (w : World R) : Prop where
  held : ∀ h ∈ w.held, h.Traced
  numbers : ∀ k ∈ w.numbers, k < 2 ^ 31

theorem Held.Traced.gate {h : Held R} (ht : h.Traced) {g : GateCall R} {es : List (AngleExpr R)} {c : Circuit R}
    (hc : h.circuit.gate g = .ok c) (hg : g.args = es.map AngleExpr.toParam)
    (hes : ∀ e ∈ es, ∀ k ∈ e.params, k < 2 ^ 31) : Held.Traced ⟨c, h.angles ++ [es]⟩ := by
  obtain ⟨calls, hl, hargs, hall⟩ := ht
  obtain ⟨hf, rfl⟩ := (Circuit.gate_eq_ok _ g c).mp hc
  refine ⟨calls ++ [g], ⟨hl.pos, by simp [hl.ops], fun g' hg' => ?_, hl.measured⟩, by simp [hargs, hg],
    fun fs hfs => ?_⟩
  · rcases List.mem_append.mp hg' with hg' | hg'
    · exact hl.fits g' hg'
    · exact List.mem_singleton.mp hg' ▸ hf
  · rcases List.mem_append.mp hfs with hfs | hfs
    · exact hall fs hfs
    · exact List.mem_singleton.mp hfs ▸ hes

theorem Held.Traced.measure {h : Held R} (ht : h.Traced) {q : ℕ} {c : Circuit R}
    (hc : h.circuit.measure q = .ok c) : Held.Traced { h with circuit := c } := by
  obtain ⟨calls, hl, hargs⟩ := ht
  unfold Circuit.measure at hc
  split at hc
  · cases hc
  · rename_i hq
    cases hc
    refine ⟨calls, ⟨hl.pos, hl.ops, hl.fits, fun q' hq' => ?_⟩, hargs⟩
    rcases List.mem_append.mp hq' with hq' | hq'
    · exact hl.measured q' hq'
    · rw [List.mem_singleton.mp hq']
      exact not_le.mp hq

theorem Circuit.newParams_snd : ∀ (n : ℕ) (c : Circuit R),
    (c.newParams n).2 = { c with numParams := c.numParams + n }
  | 0, _ => rfl
  | n + 1, c => by
    show (Circuit.newParams { c with numParams := c.numParams + 1 } n).2 = _
    rw [newParams_snd n, Nat.add_assoc, Nat.add_comm 1 n]

theorem Held.Traced.newParams {h : Held R} (ht : h.Traced) (n : ℕ) :
    Held.Traced { h with circuit := (h.circuit.newParams n).2 } := by
  obtain ⟨calls, hl, hargs⟩ := ht
  rw [Circuit.newParams_snd]
  exact ⟨calls, ⟨hl.pos, hl.ops, fun g hg => (hl.fits g hg).mono (Nat.le_add_right _ n), hl.measured⟩, hargs⟩

theorem Held.Traced.bind {h : Held R} (ht : h.Traced) {theta : List R} {shiftOp : ℤ} {shift : R} {c : Circuit R}
    (hc : h.circuit.bind theta shiftOp shift = .ok c) :
    Held.Traced ⟨c, boundAngles h.angles theta shiftOp shift⟩ := by
  obtain ⟨calls, hl, hargs, hall⟩ := ht
  refine ⟨_, hl.bind hc, ?_, fun es hes e he k hk => ?_⟩
  · rw [(bindCalls_written hargs hall theta shiftOp shift).2, boundAngles, List.map_map]
    refine List.map_congr_left fun vs _ => ?_
    rw [Function.comp_apply, List.map_map]
    rfl
  · -- a number has no parameters
    obtain ⟨vs, -, rfl⟩ := List.mem_map.mp hes
    obtain ⟨v, -, rfl⟩ := List.mem_map.mp he
    cases hk

theorem vecAt_eq_ok {α : Type} {v : List α} {i : ℕ} {a : α} : vecAt v i = .ok a ↔ v[i]? = some a := by
  unfold vecAt
  cases v[i]? with
  | none => exact ⟨nofun, nofun⟩
  | some b => exact ⟨fun h => Except.ok.inj h ▸ rfl, fun h => Option.some.inj h ▸ rfl⟩

/-- Another circuit held. -/
theorem World.Traced.append {w : World R} (hw : w.Traced) {h : Held R} (hh : h.Traced) :
    World.Traced { w with held := w.held ++ [h] } := by
  refine ⟨fun h' hh' => ?_, hw.numbers⟩
  rcases List.mem_append.mp hh' with hh' | hh'
  · exact hw.held h' hh'
  · exact List.mem_singleton.mp hh' ▸ hh

theorem World.Traced.set {w : World R} (hw : w.Traced) (i : ℕ) {h : Held R} (hh : h.Traced) :
    World.Traced { w with held := w.held.set i h } := by
  refine ⟨fun h' hh' => ?_, hw.numbers⟩
  rcases List.mem_or_eq_of_mem_set hh' with hh' | rfl
  · exact hw.held h' hh'
  · exact hh

/-- More parameters handed out. -/
theorem World.Traced.handOut {w : World R} (hw : w.Traced) {i : ℕ} {h : Held R} (hh : h.Traced) {ks : List ℕ}
    (hks : ∀ k ∈ ks, k < 2 ^ 31) : World.Traced ⟨w.held.set i h, w.numbers ++ ks⟩ := by
  refine ⟨(hw.set i hh).held, fun k hk => ?_⟩
  rcases List.mem_append.mp hk with hk | hk
  · exact hw.numbers k hk
  · exact hks k hk

/-- **What one call preserves.** -/
theorem World.Traced.perform {w w' : World R} (hw : w.Traced) {call : Call R} (hwritten : call.Written w)
    (haddr : call.Addressed w) (hp : w.perform call = .ok w') : w'.Traced := by
  have hat : ∀ {i : ℕ} {h : Held R}, vecAt w.held i = .ok h → w.held[i]? = some h ∧ h.Traced := fun hv =>
    ⟨vecAt_eq_ok.mp hv, hw.held _ (List.mem_of_getElem? (vecAt_eq_ok.mp hv))⟩
  cases call with
  | new n =>
    obtain ⟨c, hc, hp⟩ := bind_eq_ok.mp hp
    cases hp
    refine hw.append ⟨[], ?_, rfl, nofun⟩
    unfold Circuit.new at hc
    split at hc
    · cases hc
    · cases hc
      exact ⟨by dsimp only; omega, rfl, nofun, nofun⟩
  | copy i =>
    obtain ⟨h, hv, hp⟩ := bind_eq_ok.mp hp
    cases hp
    exact hw.append (hat hv).2
  | assign i j =>
    obtain ⟨h, hv, hp⟩ := bind_eq_ok.mp hp
    cases hp
    exact hw.set i (hat hv).2
  | gate i g es =>
    obtain ⟨h, hv, hp⟩ := bind_eq_ok.mp hp
    obtain ⟨c, hc, hp⟩ := bind_eq_ok.mp hp
    cases hp
    exact hw.set i ((hat hv).2.gate hc hwritten.1 fun e he k hk => hw.numbers k (hwritten.2 e he k hk))
  | measure i q =>
    obtain ⟨h, hv, hp⟩ := bind_eq_ok.mp hp
    obtain ⟨c, hc, hp⟩ := bind_eq_ok.mp hp
    cases hp
    exact hw.set i ((hat hv).2.measure hc)
  | newParam i =>
    obtain ⟨h, hv, hp⟩ := bind_eq_ok.mp hp
    cases hp
    refine hw.handOut ((hat hv).2.newParams 1) fun k hk => ?_
    exact List.mem_singleton.mp hk ▸ haddr h (hat hv).1
  | newParams i n =>
    obtain ⟨h, hv, hp⟩ := bind_eq_ok.mp hp
    cases hp
    refine hw.handOut ((hat hv).2.newParams n) fun k hk => ?_
    have hle := haddr h (hat hv).1
    rw [List.mem_range'_1] at hk
    omega
  | bind i theta shiftOp shift =>
    obtain ⟨h, hv, hp⟩ := bind_eq_ok.mp hp
    obtain ⟨c, hc, hp⟩ := bind_eq_ok.mp hp
    cases hp
    exact hw.append ((hat hv).2.bind hc)

/-- A gate call that is accepted. -/
theorem World.after_gate {w : World R} {i : ℕ} {h : Held R} (hv : w.held[i]? = some h) {g : GateCall R}
    (es : List (AngleExpr R)) (hg : g.Fits h.circuit.numQubits h.circuit.numParams) :
    w.after (.gate i g es) = { w with
      held := w.held.set i ⟨{ h.circuit with ops := h.circuit.ops ++ [g.op] }, h.angles ++ [es]⟩ } := by
  have hp : w.perform (.gate i g es) = .ok { w with
      held := w.held.set i ⟨{ h.circuit with ops := h.circuit.ops ++ [g.op] }, h.angles ++ [es]⟩ } :=
    bind_eq_ok.mpr ⟨h, vecAt_eq_ok.mpr hv,
      bind_eq_ok.mpr ⟨_, (Circuit.gate_eq_ok _ _ _).mpr ⟨hg, rfl⟩, rfl⟩⟩
  unfold World.after
  rw [hp]

theorem traced_of_reached {w : World R} (h : Reached Call.Addressed w) : w.Traced := by
  induction h with
  | start => exact ⟨nofun, nofun⟩
  | @call w call _ hwritten haddr ih =>
    unfold World.after
    cases hp : w.perform call with
    | ok w' => exact ih.perform hwritten haddr hp
    | error e => exact ih

end Runs

/-! ### The circuits of a run -/

/-- A traced circuit does what its caller relies on. -/
theorem Held.Traced.sound {h : Held ℝ} (ht : h.Traced) : h.Sound := by
  obtain ⟨calls, hl, hargs, hall⟩ := ht
  have hbind := Circuit.bind_eq_ok h.circuit calls hl.ops
  refine ⟨hl.wellFormed, fun theta shiftOp shift => ?_, fun theta shiftOp shift c hc => ?_,
    fun op hop b => (hl.wellFormed.ops op hop).applies b⟩
  · have hop : (∃ g, calls[shiftOp.toNat]? = some g ∧ g.args ≠ []) ↔
        ∃ op, h.circuit.ops[shiftOp.toNat]? = some op ∧ 0 < op.type.angles := by
      rw [hl.ops, List.getElem?_map]
      cases hg : calls[shiftOp.toNat]? with
      | none => simp
      | some g => cases g <;> simp [GateCall.args, GateCall.op, GateCall.kind, GateType.angles]
    rw [← hop]
    constructor
    · rintro ⟨c, hc⟩
      obtain ⟨hlen, hshift, -⟩ := (hbind _ _ _ c).mp hc
      exact ⟨hlen, hshift⟩
    · rintro ⟨hlen, hshift⟩
      exact ⟨_, (hbind _ _ _ _).mpr ⟨hlen, hshift, rfl⟩⟩
  · obtain ⟨-, -, rfl⟩ := (hbind _ _ _ c).mp hc
    have hops := (bindCalls_written hargs hall theta shiftOp shift).1
    refine ⟨?_, rfl, rfl, rfl, by rw [hl.ops]; exact hops⟩
    unfold Circuit.isParametric
    rw [List.any_eq_false]
    intro op hop
    obtain ⟨g, hg, rfl⟩ := List.mem_map.mp hop
    rw [GateCall.op_of_const (mem_bindCalls hg).1]
    simp [GateOp.isParametric]

/-- **Runs of the API.** As long as the numbers of the parameters are `int`s, every circuit
in every world reached is sound. -/
theorem circuit_runs {w : World ℝ} (hw : Reached Call.Addressed w) : ∀ h ∈ w.held, h.Sound :=
  fun h hh => ((traced_of_reached hw).held h hh).sound

/-- A circuit of one qubit from which `k` parameters were taken. -/
def manyParams (k : ℕ) : World ℝ := ⟨[⟨⟨1, k, [], []⟩, []⟩], List.range k⟩

theorem reached_manyParams : ∀ k : ℕ, Reached (fun _ _ => True) (manyParams k)
  | 0 => by
    have h : Reached (fun _ _ => True) (World.empty.after (.new 1) : World ℝ) := .call .start trivial trivial
    exact h
  | k + 1 => by
    have h : Reached (fun _ _ => True) ((manyParams k).after (.newParam 0)) :=
      .call (reached_manyParams k) trivial trivial
    have heq : (manyParams k).after (.newParam 0) = manyParams (k + 1) := by
      show (⟨_, List.range k ++ [k]⟩ : World ℝ) = ⟨_, List.range (k + 1)⟩
      rw [List.range_succ]
      rfl
    rwa [heq] at h

/-- A parameter whose number is no `int` becomes the constant 0. -/
theorem not_sound_of_not_symbolic {k : ℕ} (hk : (handed k : Param ℝ).isSymbolic = false) :
    ¬ Held.Sound ⟨⟨1, k + 1, [GateCall.op (.rx 0 (handed k))], []⟩, [[.param k]]⟩ := by
  intro h
  have hlen : (List.replicate (k + 1) (1 : ℝ)).length = k + 1 := List.length_replicate
  obtain ⟨c, hc⟩ := (h.accepts (List.replicate (k + 1) 1) (-1) 0).mpr ⟨hlen, nofun⟩
  have hbound := (h.bound _ _ _ c hc).2.2.2.2
  have hop : GateCall.op (.rx 0 (handed k)) = (⟨.RX, [0], [(0 : ℝ)], "RX", false, []⟩ : GateOp ℝ) :=
    GateCall.op_of_const fun a ha => List.mem_singleton.mp ha ▸ hk
  have hvalue : (List.replicate (k + 1) (1 : ℝ)).getD k 0 = 1 := by simp
  unfold Circuit.bind at hc
  rw [if_neg (not_not.mpr hlen), if_neg (by decide)] at hc
  cases hc
  rw [hop] at hbound
  have hparams : [[(0 : ℝ)]] = [[(List.replicate (k + 1) (1 : ℝ)).getD k 0]] :=
    congrArg (·.map GateOp.params) hbound
  rw [hvalue] at hparams
  simp at hparams

theorem reached_not_sound {k : ℕ} (hk : (handed k : Param ℝ).isSymbolic = false) :
    ∃ w : World ℝ, Reached (fun _ _ => True) w ∧ ∃ h ∈ w.held, ¬ h.Sound := by
  have hwritten : Call.Written (manyParams (k + 1)) (.gate 0 (.rx 0 (handed k)) [.param k]) := by
    refine ⟨rfl, fun e he j hj => ?_⟩
    rw [List.mem_singleton.mp he] at hj
    rw [List.mem_singleton.mp hj]
    exact List.mem_range.mpr (Nat.lt_succ_self k)
  have hfits : GateCall.Fits 1 (k + 1) (.rx 0 (handed k : Param ℝ)) := by
    refine ⟨by simp [GateCall.qubits], by simp [GateCall.qubits], fun a ha hs => ?_⟩
    rw [List.mem_singleton.mp ha, hk] at hs
    cases hs
  have hafter := World.after_gate (w := manyParams (k + 1)) (i := 0) rfl [.param k] hfits
  have hreached : Reached (fun _ _ => True) ((manyParams (k + 1)).after
      (.gate 0 (.rx 0 (handed k)) [.param k])) := .call (reached_manyParams (k + 1)) hwritten trivial
  rw [hafter] at hreached
  exact ⟨_, hreached, _, List.mem_singleton_self _, not_sound_of_not_symbolic hk⟩

/-- With one parameter too many, the last one becomes a constant. -/
theorem circuit_runs_fails :
    ¬ ∀ w : World ℝ, Reached (fun _ _ => True) w → ∀ h ∈ w.held, h.Sound := by
  intro hall
  have hk : (handed (2 ^ 31) : Param ℝ).isSymbolic = false :=
    decide_eq_false (not_le.mpr (castInt_neg le_rfl (Nat.pow_lt_pow_right one_lt_two (Nat.lt_succ_self 31))))
  obtain ⟨w, hw, h, hh, hnot⟩ := reached_not_sound hk
  exact hnot (hall w hw h hh)

/-- The circuit of one rotation, by twice a parameter. -/
theorem circuit_runs_rotation :
    Held.Sound ⟨⟨1, 1, [GateCall.op (.rx 0 (.mk 0 2 0))], []⟩, [[.mulLeft 2 (.param 0)]]⟩ := by
  have hangle : ((2 : ℝ) * (handed 0 : Param ℝ)) = ⟨0, 2, 0⟩ := by
    rw [handed_of_lt (Nat.two_pow_pos 31)]
    show Param.mk _ ((1 : ℝ) * 2) ((0 : ℝ) * 2) = _
    rw [one_mul, zero_mul]
    rfl
  have hparam : Reached Call.Addressed (manyParams 1) := by
    have h : Reached Call.Addressed ((World.empty.after (.new 1)).after (.newParam 0) : World ℝ) := by
      refine .call (.call .start trivial trivial) trivial fun h hh => ?_
      cases Option.some.inj hh
      exact Nat.two_pow_pos 31
    exact h
  have hfits : GateCall.Fits 1 1 (.rx 0 (Param.mk 0 2 0 : Param ℝ)) :=
    ⟨by simp [GateCall.qubits], by simp [GateCall.qubits], by simp [GateCall.args]⟩
  have hafter := World.after_gate (w := manyParams 1) (i := 0) rfl [.mulLeft 2 (.param 0)] hfits
  have hreached : Reached Call.Addressed ((manyParams 1).after
      (.gate 0 (.rx 0 ⟨0, 2, 0⟩) [.mulLeft 2 (.param 0)])) := by
    refine .call hparam ⟨congrArg (fun a => [a]) hangle.symm, fun e he k hk => ?_⟩ trivial
    rw [List.mem_singleton.mp he] at hk
    exact hk
  rw [hafter] at hreached
  exact circuit_runs hreached _ (List.mem_singleton_self _)

end Qsycl
