/-
# Appending to a circuit that is in use

The builders of `ansatz.cpp` that append to a circuit of the caller may throw.
All but one check their arguments before they touch the circuit, so that a
failed call leaves it as it was; `append_basis_state` applies its gates first
and then looks for bits beyond the register (`failedAppend_leaves`).
-/
import Qsycl.TwoLocal

namespace Qsycl

open Ansatz

variable {R : Type}

/-- A failed run of the builder leaves the circuit as it was. -/
def Builder.Atomic (b : Builder R Unit) (c : Circuit R) : Prop :=
  ∀ e c', b.exec c = (.error e, c') → c' = c

/-- A builder that emits calls does not throw. -/
theorem Emits.atomic {n P P' : ℕ} {b : Builder R Unit} {calls : List (GateCall R)} (h : Emits n P b () P' calls)
    {c : Circuit R} (hn : c.numQubits = n) (hP : c.numParams = P) : b.Atomic c := by
  intro e c' hexec
  rw [h.exec c hn hP] at hexec
  cases hexec

/-! ### Basis states -/

namespace Ansatz

/-- X on every qubit whose bit is set; `bits` has 64 bits. -/
def appendBasisState (bits : ℕ) : Builder R Unit := do
  let circuit ← get
  (List.range (min circuit.numQubits 64)).forM fun q =>
    if (bits >>> q) &&& 1 ≠ 0 then .call (·.x q) else pure ()
  if circuit.numQubits < 64 ∧ bits >>> circuit.numQubits ≠ 0 then
    throw ⟨.outOfRange, "append_basis_state: bitstring has bits set beyond the circuit's qubits"⟩

/-- The gates of the set bits. -/
def basisCalls (n bits : ℕ) : List (GateCall R) :=
  (List.range (min n 64)).flatMap fun q => if (bits >>> q) &&& 1 ≠ 0 then [.x q] else []

/-- The gates come first, then the check. -/
theorem exec_appendBasisState (bits : ℕ) (c : Circuit R) : (appendBasisState bits).exec c =
    (if c.numQubits < 64 ∧ bits >>> c.numQubits ≠ 0 then
        .error ⟨.outOfRange, "append_basis_state: bitstring has bits set beyond the circuit's qubits"⟩
      else .ok (),
      { c with ops := c.ops ++ (basisCalls c.numQubits bits).map GateCall.op }) := by
  have hgates : Emits c.numQubits c.numParams ((List.range (min c.numQubits 64)).forM fun q =>
      (if (bits >>> q) &&& 1 ≠ 0 then .call (·.x q) else pure () : Builder R Unit)) () c.numParams
      (basisCalls c.numQubits bits) := by
    refine emits_forM fun q hq => ?_
    have hq : q < c.numQubits := (List.mem_range.mp hq).trans_le (min_le_left _ _)
    by_cases hbit : (bits >>> q) &&& 1 ≠ 0
    · rw [if_pos hbit, if_pos hbit]
      exact emits_call (g := .x q)
        ⟨by simpa [GateCall.qubits] using hq, by simp [GateCall.qubits], by simp [GateCall.args]⟩
    · rw [if_neg hbit, if_neg hbit]
      exact emits_pure ()
  rw [appendBasisState, Builder.exec_bind]
  show Builder.exec (_ >>= _) c = _
  rw [Builder.exec_bind, hgates.exec c rfl rfl]
  dsimp only
  split <;> rfl

/-- No gates for the bits below `n`. -/
theorem basisCalls_eq_nil {n : ℕ} (hn : n < 64) (bits : ℕ) :
    (basisCalls n bits : List (GateCall R)) = [] ↔ bits % 2 ^ n = 0 := by
  have hbit : ∀ q, (bits >>> q) &&& 1 ≠ 0 ↔ bits.testBit q = true := by
    intro q
    rw [Nat.and_one_is_mod, Nat.shiftRight_eq_div_pow, Nat.testBit_eq_decide_div_mod_eq]
    simp
  rw [basisCalls, List.flatMap_eq_nil_iff, min_eq_left hn.le]
  simp only [List.mem_range, hbit, ite_eq_right_iff, List.cons_ne_nil, imp_false, Bool.not_eq_true]
  constructor
  · intro h
    refine Nat.eq_of_testBit_eq fun q => ?_
    rw [Nat.testBit_mod_two_pow, Nat.zero_testBit]
    by_cases hq : q < n
    · simp [h q hq]
    · simp [hq]
  · intro h q hq
    have hmod := congrArg (Nat.testBit · q) h
    simpa [Nat.testBit_mod_two_pow, hq] using hmod

/-- A basis state leaves a trace of its failure when a bit within the register is set. -/
theorem appendBasisState_atomic (bits : ℕ) (c : Circuit R) : (appendBasisState bits).Atomic c ↔
    (c.numQubits < 64 → bits >>> c.numQubits ≠ 0 → bits % 2 ^ c.numQubits = 0) := by
  rw [Builder.Atomic, exec_appendBasisState]
  by_cases hthrow : c.numQubits < 64 ∧ bits >>> c.numQubits ≠ 0
  · rw [if_pos hthrow, ← basisCalls_eq_nil (R := R) hthrow.1]
    constructor
    · intro h _ _
      have hops := congrArg Circuit.ops (h _ _ rfl)
      simpa using hops
    · intro h e c' hexec
      have hc' := (Prod.mk.inj hexec).2
      rw [h hthrow.1 hthrow.2, List.map_nil, List.append_nil] at hc'
      exact hc'.symm
  · rw [if_neg hthrow]
    constructor
    · intro _ hn hbits
      exact absurd ⟨hn, hbits⟩ hthrow
    · intro _ e c' hexec
      cases (Prod.mk.inj hexec).1

end Ansatz

/-! ### The calls -/

section Calls

variable [CommRing R]

/-- The letters are checked before anything else. -/
theorem appendTwoLocal_atomic (rotations : List Char) (reps : ℕ) (e : Entanglement) (final : Bool)
    (c : Circuit R) :
    (appendTwoLocal rotations reps e final).Atomic c := by
  cases hnorm : normalizeRotations rotations with
  | error err =>
    intro e' c' hexec
    rw [appendTwoLocal, Builder.exec_bind, hnorm] at hexec
    exact (Prod.mk.inj hexec).2.symm
  | ok rots =>
    obtain ⟨hne, haxes⟩ := axes_of_normalizeRotations hnorm
    exact (emits_appendTwoLocal hne haxes reps e final).atomic rfl rfl

variable [OfNat R 2]

/-- The two checks come before the first parameter. -/
theorem appendQaoaLayers_atomic {cost : Observable R} (hcost : cost.Legal) (p : ℕ) (c : Circuit R) :
    (appendQaoaLayers cost p).Atomic c := by
  have hget : Builder.exec (get : Builder R (Circuit R)) c = (.ok c, c) := rfl
  by_cases hn : cost.numQubits = c.numQubits
  · by_cases hd : cost.isDiagonal = true
    · exact (emits_appendQaoaLayers hcost hd p).atomic hn.symm rfl
    · intro e c' hexec
      rw [appendQaoaLayers, Builder.exec_bind, hget] at hexec
      simp only [hn, ne_eq, not_true_eq_false, if_false, hd, Bool.not_false, if_true] at hexec
      exact (Prod.mk.inj hexec).2.symm
  · intro e c' hexec
    rw [appendQaoaLayers, Builder.exec_bind, hget] at hexec
    simp only [ne_eq, hn, not_false_eq_true, if_true] at hexec
    exact (Prod.mk.inj hexec).2.symm

/-- A call of a builder that appends, with its arguments. -/
inductive Append (R : Type)
  | basisState (bits : BitVec 64)
  | twoLocal (rotations : List Char) (reps : ℕ) (entanglement : Entanglement) (finalRotationLayer : Bool)
  | realAmplitudes (reps : ℕ) (entanglement : Entanglement)
  | efficientSu2 (reps : ℕ) (entanglement : Entanglement)
  | qaoaLayers (cost : { cost : Observable R // cost.Legal }) (p : ℕ)

namespace Append

def run : Append R → Builder R Unit
  | basisState bits => appendBasisState bits.toNat
  | twoLocal rotations reps entanglement final => appendTwoLocal rotations reps entanglement final
  | realAmplitudes reps entanglement => appendRealAmplitudes reps entanglement
  | efficientSu2 reps entanglement => appendEfficientSu2 reps entanglement
  | qaoaLayers cost p => appendQaoaLayers cost.1 p

/-- The condition on the arguments: a bitstring with bits beyond the register has none within. -/
def Clean (n : ℕ) : Append R → Prop
  | basisState bits => n < 64 → bits.toNat >>> n ≠ 0 → bits.toNat % 2 ^ n = 0
  | _ => True

end Append

/-- **Failed appends.** A call that throws leaves the operations, the parameters
and the measured qubits of the circuit as they were, and `append_basis_state`
does so exactly on a bitstring with no bit for the register itself. -/
theorem failedAppend_leaves (c : Circuit R) (call : Append R) : call.run.Atomic c ↔ call.Clean c.numQubits := by
  cases call with
  | basisState bits => exact appendBasisState_atomic bits.toNat c
  | twoLocal rotations reps e final => exact iff_true_intro (appendTwoLocal_atomic rotations reps e final c)
  | realAmplitudes reps e => exact iff_true_intro (appendTwoLocal_atomic _ reps e true c)
  | efficientSu2 reps e => exact iff_true_intro (appendTwoLocal_atomic _ reps e true c)
  | qaoaLayers cost p => exact iff_true_intro (appendQaoaLayers_atomic cost.2 p c)

/-- The bits 0 and 2 on two qubits: the X of the first stays. -/
theorem failedAppend_leaves_fails : ¬ ∀ (c : Circuit ℤ) (call : Append ℤ), call.run.Atomic c := by
  intro hall
  have hclean := (appendBasisState_atomic 0b101 _).mp (hall ⟨2, 0, [], []⟩ (.basisState 0b101))
  exact absurd (hclean (by decide) (by decide)) (by decide)

end Calls

end Qsycl
