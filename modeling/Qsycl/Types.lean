/-
# Exceptions, angles and gate operations

The plain data of the circuit layer (`types.hpp`, `parameter.hpp`): an angle
is an affine expression `scale * theta[index] + offset` of one parameter, a
gate operation holds its qubits, its angles and its label. The scalars
(`double`) are a type `R`, so that a circuit with rational angles can be
computed with; the simulators take `R = ℝ`. An `int` index is an integer, a
`size_t` a natural number.
-/
import Mathlib

namespace Qsycl

/-! ### Exceptions -/

/-- The class of a C++ exception, `json` one of the JSON library; `undefined` marks a
read past the end of a vector, which C++ leaves undefined. -/
inductive ExnKind
  | invalidArgument | outOfRange | lengthError | logicError | runtimeError | json | undefined
  deriving DecidableEq, Repr

/-- A thrown exception: its class and its `what()` text. -/
structure Exn where
  kind : ExnKind
  what : String
  deriving DecidableEq, Repr

/-- Code in sequence returns if each part does. -/
theorem bind_eq_ok {α β : Type} {x : Except Exn α} {f : α → Except Exn β} {r : β} :
    x >>= f = .ok r ↔ ∃ a, x = .ok a ∧ f a = .ok r := by
  cases x with
  | error e => exact ⟨nofun, nofun⟩
  | ok a => exact ⟨fun h => ⟨a, rfl, h⟩, fun ⟨_, h₁, h₂⟩ => Except.ok.inj h₁ ▸ h₂⟩

@[simp] theorem ok_bind {α β : Type} (a : α) (f : α → Except Exn β) : Except.ok a >>= f = f a := rfl

@[simp] theorem error_bind {α β : Type} (e : Exn) (f : α → Except Exn β) :
    (Except.error e : Except Exn α) >>= f = .error e := rfl

theorem mapM_eq_ok {α β : Type} {f : α → Except Exn β} {g : α → β} : ∀ {l : List α},
    (∀ a ∈ l, f a = .ok (g a)) → l.mapM f = .ok (l.map g)
  | [], _ => rfl
  | a :: l, h => by
    rw [List.mapM_cons, h a List.mem_cons_self, mapM_eq_ok fun a ha => h a (List.mem_cons_of_mem _ ha)]
    rfl

/-- A loop that collects results succeeds if every step does. -/
theorem mapM_ok_iff {α β : Type} {f : α → Except Exn β} : ∀ {l : List α},
    (∃ bs, l.mapM f = .ok bs) ↔ ∀ a ∈ l, ∃ b, f a = .ok b
  | [] => ⟨nofun, fun _ => ⟨[], rfl⟩⟩
  | a :: l => by
    rw [List.forall_mem_cons, ← mapM_ok_iff, List.mapM_cons]
    constructor
    · rintro ⟨bs, h⟩
      obtain ⟨b, hb, h⟩ := bind_eq_ok.mp h
      obtain ⟨bs', hbs, -⟩ := bind_eq_ok.mp h
      exact ⟨⟨b, hb⟩, bs', hbs⟩
    · rintro ⟨⟨b, hb⟩, bs, hbs⟩
      exact ⟨b :: bs, by rw [hb, hbs]; rfl⟩

/-- What each step of a loop preserves, the loop preserves. -/
theorem foldlM_invariant {α β : Type} {f : β → α → Except Exn β} {I : β → Prop}
    (h : ∀ b a b', I b → f b a = .ok b' → I b') : ∀ {l : List α} {b b' : β}, I b →
    l.foldlM f b = .ok b' → I b'
  | [], _, _, hb, hf => Except.ok.inj hf ▸ hb
  | a :: l, b, b', hb, hf => by
    obtain ⟨b₁, h₁, h₂⟩ := bind_eq_ok.mp hf
    exact foldlM_invariant h (h b a b₁ hb h₁) h₂

/-- A loop whose steps succeed succeeds. -/
theorem foldlM_ok {α β : Type} {f : β → α → Except Exn β} {I : β → Prop} : ∀ {l : List α} {b : β},
    (∀ a ∈ l, ∀ b, I b → ∃ b', f b a = .ok b' ∧ I b') → I b → ∃ b', l.foldlM f b = .ok b' ∧ I b'
  | [], b, _, hb => ⟨b, rfl, hb⟩
  | a :: l, b, h, hb => by
    obtain ⟨b₁, h₁, hb₁⟩ := h a List.mem_cons_self b hb
    rw [List.foldlM_cons, h₁]
    exact foldlM_ok (fun a ha => h a (List.mem_cons_of_mem _ ha)) hb₁

theorem foldlM_eq_ok {α β : Type} {f : β → α → Except Exn β} {g : β → α → β} : ∀ {l : List α} (b : β),
    (∀ a ∈ l, ∀ b, f b a = .ok (g b a)) → l.foldlM f b = .ok (l.foldl g b)
  | [], _, _ => rfl
  | a :: l, b, h => by
    rw [List.foldlM_cons, h a List.mem_cons_self, ok_bind]
    exact foldlM_eq_ok _ fun a ha => h a (List.mem_cons_of_mem _ ha)

/-- `v[i]` of a vector. -/
def vecAt {α : Type} (v : List α) (i : ℕ) : Except Exn α :=
  match v[i]? with
  | some x => .ok x
  | none => .error ⟨.undefined, "vector index past the end"⟩

@[simp] theorem vecAt_zero {α : Type} (x : α) (v : List α) : vecAt (x :: v) 0 = .ok x := rfl

@[simp] theorem vecAt_succ {α : Type} (x : α) (v : List α) (i : ℕ) :
    vecAt (x :: v) (i + 1) = vecAt v i := rfl

/-- An instance for the literal 2 of the scalars that is a constant. -/
theorem atLeastTwo_two : Nat.AtLeastTwo 2 := ⟨le_rfl⟩

/-! ### Narrowing -/

/-- `static_cast<int>` of a `size_t`. -/
@[irreducible] def castInt (k : ℕ) : ℤ := (k : ℤ).bmod (2 ^ 32)

theorem castInt_of_lt {k : ℕ} (hk : k < 2 ^ 31) : castInt k = k := by
  unfold castInt
  exact Int.bmod_eq_of_le_mul_two (by omega) (by omega)

theorem castInt_lt (k : ℕ) : castInt k < 2 ^ 31 := by
  have hlt : (k : ℤ).bmod (2 ^ 32) < ((2 ^ 32 : ℕ) + 1) / 2 := Int.bmod_lt (Nat.two_pow_pos 32)
  unfold castInt
  exact hlt.trans_eq (by norm_num)

theorem castInt_eq_sub {k : ℕ} (h : 2 ^ 31 ≤ k) (h' : k < 2 ^ 32) : castInt k = k - 2 ^ 32 := by
  have hmod : (k : ℤ) % (2 ^ 32 : ℕ) = k := Int.emod_eq_of_lt (Int.natCast_nonneg k) (Int.ofNat_lt.mpr h')
  unfold castInt
  rw [Int.bmod_def, hmod, if_neg (by omega)]
  rfl

theorem castInt_neg {k : ℕ} (h : 2 ^ 31 ≤ k) (h' : k < 2 ^ 32) : castInt k < 0 := by
  rw [castInt_eq_sub h h']
  omega

theorem bmod_le (k m : ℕ) : (k : ℤ).bmod m ≤ k := by
  have hmod : (k : ℤ) % m ≤ k := Int.natCast_mod k m ▸ Int.ofNat_le.mpr (Nat.mod_le k m)
  rw [Int.bmod_def]
  split
  · exact hmod
  · exact (sub_le_self _ (Int.natCast_nonneg m)).trans hmod

theorem toNat_castInt_le (k : ℕ) : (castInt k).toNat ≤ k := by
  unfold castInt
  exact Int.toNat_le.mpr (bmod_le k (2 ^ 32))

/-! ### Angles -/

/-- A gate angle: `scale * theta[index] + offset` if `index` is not negative,
the constant `offset` otherwise. -/
structure Param (R : Type) where
  index : ℤ
  scale : R
  offset : R
  deriving DecidableEq, Repr

namespace Param

variable {R : Type}

/-- The constant angle. -/
def const [Zero R] (constant : R) : Param R := ⟨-1, 0, constant⟩

def isSymbolic (p : Param R) : Bool := 0 ≤ p.index

/-- The value of the angle at `theta`. An index past the end of `theta`, which
`Circuit.Legal` excludes, reads 0. -/
def resolve [Zero R] [Add R] [Mul R] (p : Param R) (theta : List R) : R :=
  if 0 ≤ p.index then p.scale * theta.getD p.index.toNat 0 + p.offset else p.offset

section Operators

variable [Ring R]

instance : HMul R (Param R) (Param R) := ⟨fun c p => { p with scale := p.scale * c, offset := p.offset * c }⟩
instance : HMul (Param R) R (Param R) := ⟨fun p c => c * p⟩
instance : HAdd (Param R) R (Param R) := ⟨fun p c => { p with offset := p.offset + c }⟩
instance : HAdd R (Param R) (Param R) := ⟨fun c p => p + c⟩
instance : HSub (Param R) R (Param R) := ⟨fun p c => p + -c⟩
instance : HSub R (Param R) (Param R) := ⟨fun c p => (-1 : R) * p + c⟩
instance : Neg (Param R) := ⟨fun p => (-1 : R) * p⟩

end Operators

@[simp] theorem isSymbolic_const [Zero R] (c : R) : (const c).isSymbolic = false := rfl

@[simp] theorem offset_const [Zero R] (c : R) : (const c).offset = c := rfl

@[simp] theorem resolve_const [Zero R] [Add R] [Mul R] (c : R) (theta : List R) :
    (const c).resolve theta = c := rfl

theorem resolve_of_not_symbolic [Zero R] [Add R] [Mul R] {p : Param R} (h : p.isSymbolic = false)
    (theta : List R) : p.resolve theta = p.offset := by
  have h : ¬ 0 ≤ p.index := by simpa [isSymbolic] using h
  rw [resolve, if_neg h]

end Param

/-! ### Gate operations -/

/-- Every gate the circuit layer can emit. -/
inductive GateType
  | H | X | Y | Z | S | T | U
  | RX | RY | RZ
  | CNOT | CZ | SWAP | CRX | CRY | CRZ
  | MEASURE
  deriving DecidableEq, Repr

/-- A scheduled operation. `symbolic` is empty for a numeric gate, and
otherwise parallel to `params`, which then holds the values at `theta = 0`. -/
structure GateOp (R : Type) where
  type : GateType
  qubits : List ℕ
  params : List R
  label : String
  dagger : Bool
  symbolic : List (Param R)
  deriving DecidableEq, Repr

def GateOp.isParametric {R : Type} (op : GateOp R) : Bool := op.symbolic.any Param.isSymbolic

end Qsycl
