/-
# Ansatz builders

The library of parameterized circuits (`ansatz.hpp`, `ansatz.cpp`). A builder
appends to a circuit by calls of its methods; if one throws, what was appended
before stays. What a builder does when nothing throws is `Emits`: the
parameters it allocates and the gate calls it makes, which compose along the
code.
-/
import Qsycl.Observable

namespace Qsycl

/-- Code that changes a circuit and may throw midway. -/
abbrev Builder (R : Type) := ExceptT Exn (StateM (Circuit R))

namespace Builder

variable {R : Type}

/-- The result of a builder and the circuit it leaves. -/
def exec {α : Type} (b : Builder R α) (c : Circuit R) : Except Exn α × Circuit R := b.run.run c

/-- A method of the circuit, which leaves it alone if it throws. -/
def call (method : Circuit R → Except Exn (Circuit R)) : Builder R Unit :=
  ExceptT.mk fun c => match method c with
    | .ok c' => (.ok (), c')
    | .error e => (.error e, c)

def newParam [Zero R] [One R] : Builder R (Param R) :=
  ExceptT.mk fun c => (.ok c.newParam.1, c.newParam.2)

/-- A builder as a function that returns a fresh circuit. -/
def build (numQubits : ℕ) (b : Builder R Unit) : Except Exn (Circuit R) := do
  let c ← Circuit.new numQubits
  let r := b.exec c
  r.1.map fun _ => r.2

theorem exec_bind {α β : Type} (b : Builder R α) (f : α → Builder R β) (c : Circuit R) :
    (b >>= f).exec c = match b.exec c with
      | (.ok a, c') => (f a).exec c'
      | (.error e, c') => (.error e, c') := by
  simp only [exec, ExceptT.run_bind, StateT.run_bind]
  rcases b.run.run c with ⟨a | e, c'⟩ <;> rfl

end Builder

namespace Ansatz

variable {R : Type} [Ring R] [OfNat R 2]

/-- The qubits in the support of a mask, in increasing order. -/
def support (n z : ℕ) : List ℕ := (List.range n).filter fun q => (z >>> q) &&& 1 ≠ 0

/-- The gadget of one cost term: fan-in of the parity onto the last qubit of
the term, a rotation there, and the fan-in undone. -/
def qaoaTerm (n : ℕ) (gamma : Param R) (term : PauliMask R) : Builder R Unit := do
  if term.z = 0 then
    return  -- identity: global phase only
  let qs := support n term.z
  let some target := qs.getLast? | throw ⟨.undefined, "back() of an empty vector"⟩
  -- both loops run over the positions below `qs.size() - 1`
  qs.dropLast.forM fun q => .call (·.cnot q target)
  .call (·.rz target ((2 * term.coeff) * gamma))
  qs.dropLast.reverse.forM fun q => .call (·.cnot q target)

def qaoaLayer (n : ℕ) (masks : List (PauliMask R)) : Builder R Unit := do
  let gamma ← Builder.newParam
  let beta ← Builder.newParam
  masks.forM (qaoaTerm n gamma)
  (List.range n).forM fun q => .call (·.rx q ((2 : R) * beta))

def appendQaoaLayers (cost : Observable R) (p : ℕ) : Builder R Unit := do
  let circuit ← get
  if cost.numQubits ≠ circuit.numQubits then
    throw ⟨.invalidArgument,
      "append_qaoa_layers: cost Hamiltonian and circuit must have the same number of qubits"⟩
  if !cost.isDiagonal then
    throw ⟨.invalidArgument,
      "append_qaoa_layers: the cost Hamiltonian must be diagonal (only Z/I terms)"⟩
  (List.range p).forM fun _ => qaoaLayer circuit.numQubits cost.masks

/-- H on every qubit, then `p` layers. -/
def qaoa (cost : Observable R) (p : ℕ) : Except Exn (Circuit R) :=
  Builder.build cost.numQubits do
    (List.range cost.numQubits).forM fun q => .call (·.h q)
    appendQaoaLayers cost p

end Ansatz

/-! ### What a builder emits -/

/-- On a circuit of `n` qubits and `P` parameters, the builder returns `a`,
leaves `P'` parameters and makes the calls `calls`, which fit. -/
structure Emits {R α : Type} (n P : ℕ) (b : Builder R α) (a : α) (P' : ℕ) (calls : List (GateCall R)) :
    Prop where
  exec : ∀ c : Circuit R, c.numQubits = n → c.numParams = P →
    b.exec c = (.ok a, { c with numParams := P', ops := c.ops ++ calls.map GateCall.op })
  le : P ≤ P'
  fits : ∀ g ∈ calls, g.Fits n P'

section Emits

variable {R α β : Type} {n P P' P'' : ℕ}

theorem emits_pure (a : α) : Emits n P (pure a : Builder R α) a P [] := by
  refine ⟨fun c _ hP => ?_, le_rfl, by simp⟩
  simp [Builder.exec, hP.symm]
  rfl

theorem Emits.bind {b : Builder R α} {f : α → Builder R β} {a : α} {a' : β}
    {calls calls' : List (GateCall R)} (h : Emits n P b a P' calls)
    (h' : Emits n P' (f a) a' P'' calls') : Emits n P (b >>= f) a' P'' (calls ++ calls') := by
  refine ⟨fun c hn hP => ?_, h.le.trans h'.le, fun g hg => ?_⟩
  · rw [Builder.exec_bind, h.exec c hn hP]
    have h₂ := h'.exec { c with numParams := P', ops := c.ops ++ calls.map GateCall.op } hn rfl
    refine h₂.trans ?_
    simp
  · rcases List.mem_append.mp hg with hg | hg
    · exact (h.fits g hg).mono h'.le
    · exact h'.fits g hg

theorem emits_call {g : GateCall R} (h : g.Fits n P) :
    Emits n P (Builder.call (·.gate g)) () P [g] := by
  refine ⟨fun c hn hP => ?_, le_rfl, by simpa using h⟩
  have hg : c.gate g = .ok { c with ops := c.ops ++ [g.op] } :=
    (Circuit.gate_eq_ok c g _).mpr ⟨by rwa [hn, hP], rfl⟩
  simp only [Builder.exec, Builder.call, ExceptT.run_mk]
  show (match c.gate g with | .ok c' => _ | .error e => _) = _
  rw [hg, ← hP]
  rfl

theorem emits_newParam [Ring R] : Emits n P (Builder.newParam : Builder R (Param R)) (handed P) (P + 1) [] := by
  refine ⟨fun c _ hP => ?_, Nat.le_succ P, by simp⟩
  subst hP
  simp [Builder.exec, Builder.newParam, Circuit.newParam]
  rfl

/-- A loop whose body allocates nothing. -/
theorem emits_forM {f : α → Builder R Unit} {calls : α → List (GateCall R)} {l : List α}
    (h : ∀ x ∈ l, Emits n P (f x) () P (calls x)) : Emits n P (l.forM f) () P (l.flatMap calls) := by
  induction l with
  | nil => exact emits_pure ()
  | cons x l ih =>
    show Emits n P (f x >>= fun _ => l.forM f) () P _
    exact (h x List.mem_cons_self).bind (ih fun y hy => h y (List.mem_cons_of_mem _ hy))

/-- A loop whose body always allocates `d` parameters. -/
theorem emits_forM_alloc {f : α → Builder R Unit} {d : ℕ} {calls : α → ℕ → List (GateCall R)} (l : List α)
    (P : ℕ) (h : ∀ x ∈ l, ∀ P, Emits n P (f x) () (P + d) (calls x P)) :
    Emits n P (l.forM f) () (P + l.length * d) (l.zipIdx.flatMap fun e => calls e.1 (P + e.2 * d)) := by
  induction l generalizing P with
  | nil =>
    rw [List.length_nil, Nat.zero_mul]
    exact emits_pure ()
  | cons x l ih =>
    have hrest := ih (P + d) fun y hy => h y (List.mem_cons_of_mem _ hy)
    have hshift : (l.zipIdx 1).flatMap (fun e => calls e.1 (P + e.2 * d)) =
        l.zipIdx.flatMap fun e => calls e.1 (P + d + e.2 * d) := by
      rw [List.zipIdx_succ, List.flatMap_map]
      refine List.flatMap_congr fun e _ => ?_
      rw [Nat.succ_mul, Nat.add_comm (e.2 * d) d, ← Nat.add_assoc]
    rw [List.length_cons, Nat.succ_mul, Nat.add_comm (l.length * d) d, ← Nat.add_assoc, List.zipIdx_cons,
      List.flatMap_cons, hshift, Nat.zero_mul]
    show Emits n P (f x >>= fun _ => l.forM f) () _ _
    exact (h x List.mem_cons_self P).bind hrest

/-- A loop of calls. -/
theorem emits_calls {g : α → GateCall R} {l : List α} (h : ∀ x ∈ l, (g x).Fits n P) :
    Emits n P (l.forM fun x => Builder.call (·.gate (g x))) () P (l.map g) := by
  rw [List.map_eq_flatMap]
  exact emits_forM fun x hx => emits_call (h x hx)

/-- What a builder that emits calls makes of a new circuit. -/
theorem Emits.build {b : Builder R Unit} {calls : List (GateCall R)} (h : Emits n 0 b () P calls)
    (hn : 0 < n) : b.build n = .ok ⟨n, P, calls.map GateCall.op, []⟩ := by
  have hc : Circuit.new n = .ok (⟨n, 0, [], []⟩ : Circuit R) := if_neg (by omega)
  rw [Builder.build, hc, ok_bind, h.exec _ rfl rfl]
  rfl

end Emits

/-! ### The calls of QAOA -/

namespace Ansatz

theorem mem_support {n z q : ℕ} : q ∈ support n z ↔ q < n ∧ z.testBit q = true := by
  simp [support, Nat.testBit, Nat.and_comm]

theorem nodup_support (n z : ℕ) : (support n z).Nodup := List.nodup_range.filter _

theorem support_ne_nil {n z : ℕ} (hz : z ≠ 0) (hn : z < 2 ^ n) : support n z ≠ [] := by
  obtain ⟨q, hq⟩ := Nat.exists_testBit_of_ne_zero hz
  have hqn : q < n := by
    by_contra hc
    rw [Nat.testBit_lt_two_pow (hn.trans_le (Nat.pow_le_pow_right two_pos (not_lt.mp hc)))] at hq
    cases hq
  exact List.ne_nil_of_mem (mem_support.mpr ⟨hqn, hq⟩)

section Calls

variable {R : Type} [Ring R] [OfNat R 2]

/-- A rotation of `target` between a fan-in of `qs` and its inverse. -/
def gadget (qs : List ℕ) (target : ℕ) (a : Param R) : List (GateCall R) :=
  qs.map (.cnot · target) ++ .rz target a :: qs.reverse.map (.cnot · target)

def qaoaTermCalls (n : ℕ) (gamma : Param R) (term : PauliMask R) : List (GateCall R) :=
  match (support n term.z).getLast? with
  | none => []
  | some target => gadget (support n term.z).dropLast target ((2 * term.coeff) * gamma)

def qaoaLayerCalls (n : ℕ) (masks : List (PauliMask R)) (gamma beta : Param R) : List (GateCall R) :=
  masks.flatMap (qaoaTermCalls n gamma) ++ (List.range n).map (.rx · ((2 : R) * beta))

/-- The calls of `p` layers from parameter `P` on, interleaved. -/
def qaoaCalls (n : ℕ) (masks : List (PauliMask R)) : ℕ → ℕ → List (GateCall R)
  | _, 0 => []
  | P, p + 1 => qaoaLayerCalls n masks (handed P) (handed (P + 1)) ++ qaoaCalls n masks (P + 2) p

variable {n P : ℕ}

omit [Ring R] [OfNat R 2] in
theorem emits_gadget {qs : List ℕ} {target : ℕ} {a : Param R} (hqs : ∀ q ∈ qs, q < n ∧ q ≠ target)
    (ht : target < n) (ha : a.isSymbolic = true → a.index.toNat < P) :
    Emits n P (do
      qs.forM fun q => .call (·.cnot q target)
      .call (·.rz target a)
      qs.reverse.forM fun q => .call (·.cnot q target)) () P (gadget qs target a) := by
  have hcnot : ∀ q ∈ qs, (GateCall.cnot q target : GateCall R).Fits n P := fun q hq => by
    obtain ⟨hqn, hqt⟩ := hqs q hq
    exact ⟨by simp [GateCall.qubits, hqn, ht], by simp [GateCall.qubits, hqt], by simp [GateCall.args]⟩
  have hrz : (GateCall.rz target a).Fits n P :=
    ⟨by simp [GateCall.qubits, ht], by simp [GateCall.qubits], by simpa [GateCall.args] using ha⟩
  have hback := emits_calls fun q hq => hcnot q (List.mem_reverse.mp hq)
  exact (emits_calls hcnot).bind ((emits_call hrz).bind hback)

theorem emits_qaoaTerm {gamma : Param R} (hg : gamma.index.toNat < P) {term : PauliMask R}
    (hz : term.z < 2 ^ n) : Emits n P (qaoaTerm n gamma term) () P (qaoaTermCalls n gamma term) := by
  unfold qaoaTerm qaoaTermCalls
  by_cases h0 : term.z = 0
  · have hs : support n 0 = [] := List.eq_nil_iff_forall_not_mem.mpr fun q hq => by
      simpa using (mem_support.mp hq).2
    rw [if_pos h0, h0, hs]
    exact emits_pure ()
  · obtain ⟨qs, target, hs⟩ := (List.eq_nil_or_concat _).resolve_left (support_ne_nil h0 hz)
    rw [List.concat_eq_append] at hs
    have hmem : ∀ q ∈ qs ++ [target], q < n := fun q hq => (mem_support.mp (hs ▸ hq)).1
    have hnd : (qs ++ [target]).Nodup := hs ▸ nodup_support n term.z
    rw [if_neg h0, hs]
    simp only [List.getLast?_concat, List.dropLast_concat]
    refine emits_gadget (fun q hq => ⟨hmem q (List.mem_append_left _ hq), ?_⟩)
      (hmem target (List.mem_append_right _ (List.mem_singleton_self target))) fun _ => hg
    rintro rfl
    exact List.disjoint_of_nodup_append hnd hq (List.mem_singleton_self q)

theorem emits_qaoaLayer {masks : List (PauliMask R)} (hm : ∀ m ∈ masks, m.z < 2 ^ n) :
    Emits n P (qaoaLayer n masks) () (P + 2) (qaoaLayerCalls n masks (handed P) (handed (P + 1))) := by
  have hcost : Emits n (P + 2) (masks.forM (qaoaTerm n (handed P))) () (P + 2)
      (masks.flatMap (qaoaTermCalls n (handed P : Param R))) :=
    emits_forM fun m hmem => emits_qaoaTerm ((toNat_handed_lt P).trans (Nat.lt_succ_self _)) (hm m hmem)
  have hmixer : ∀ q ∈ List.range n,
      (GateCall.rx q ((2 : R) * (handed (P + 1) : Param R))).Fits n (P + 2) := by
    intro q hq
    have hqn := List.mem_range.mp hq
    exact ⟨by simp [GateCall.qubits, hqn], by simp [GateCall.qubits], by
      rintro a ha -
      rw [GateCall.args, List.mem_singleton] at ha
      subst ha
      exact toNat_handed_lt (R := R) (P + 1)⟩
  exact emits_newParam.bind (emits_newParam.bind (hcost.bind (emits_calls hmixer)))

theorem emits_qaoaLayers {masks : List (PauliMask R)} (hm : ∀ m ∈ masks, m.z < 2 ^ n) {α : Type}
    (l : List α) (P : ℕ) : Emits n P (l.forM fun _ => qaoaLayer n masks) () (P + 2 * l.length)
      (qaoaCalls n masks P l.length) := by
  induction l generalizing P with
  | nil => exact emits_pure ()
  | cons x l ih =>
    show Emits n P (qaoaLayer n masks >>= fun _ => l.forM fun _ => qaoaLayer n masks) () _ _
    rw [List.length_cons, show P + 2 * (l.length + 1) = P + 2 + 2 * l.length by ring]
    exact Emits.bind (f := fun _ => l.forM fun _ => qaoaLayer n masks) (emits_qaoaLayer hm) (ih (P + 2))

/-- What `append_qaoa_layers` appends. -/
theorem emits_appendQaoaLayers {cost : Observable R} (hc : cost.Legal) (hd : cost.isDiagonal = true)
    (p : ℕ) : Emits cost.numQubits P (appendQaoaLayers cost p) () (P + 2 * p)
      (qaoaCalls cost.numQubits cost.masks P p) := by
  have h := emits_qaoaLayers (fun m hm => (hc.fits m hm).z) (List.range p) P
  rw [List.length_range] at h
  refine ⟨fun c hn hP => ?_, h.le, h.fits⟩
  have hget : (appendQaoaLayers cost p).exec c =
      ((List.range p).forM fun _ => qaoaLayer cost.numQubits cost.masks).exec c := by
    rw [appendQaoaLayers, Builder.exec_bind]
    have hg : Builder.exec (get : Builder R (Circuit R)) c = (.ok c, c) := rfl
    rw [hg]
    simp [hn, hd]
  exact hget.trans (h.exec c hn hP)

/-- The calls of the circuit of QAOA. -/
def qaoaCircuitCalls (cost : Observable R) (p : ℕ) : List (GateCall R) :=
  (List.range cost.numQubits).map .h ++ qaoaCalls cost.numQubits cost.masks 0 p

/-- The circuit of QAOA. -/
theorem qaoa_eq {cost : Observable R} (hc : cost.Legal) (hd : cost.isDiagonal = true) (p : ℕ) :
    qaoa cost p = .ok ⟨cost.numQubits, 2 * p, (qaoaCircuitCalls cost p).map GateCall.op, []⟩ ∧
      ∀ g ∈ qaoaCircuitCalls cost p, g.Fits cost.numQubits (2 * p) := by
  have hh : ∀ q ∈ List.range cost.numQubits, (GateCall.h q : GateCall R).Fits cost.numQubits 0 :=
    fun q hq => ⟨by simpa [GateCall.qubits] using hq, by simp [GateCall.qubits], by simp [GateCall.args]⟩
  have h := Emits.bind (f := fun _ => appendQaoaLayers cost p) (emits_calls hh)
    (emits_appendQaoaLayers hc hd p)
  rw [Nat.zero_add] at h
  exact ⟨h.build hc.pos, h.fits⟩

end Calls

end Ansatz

end Qsycl
