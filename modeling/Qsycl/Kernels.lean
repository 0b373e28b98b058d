/-
# The state-vector kernels

The three in-place kernels of the CPU and the GPU simulators, as work-items on
the memory that holds the amplitudes (cell `j` is the amplitude of basis state
`j`). A work-item computes its pair of indices from its own index by masks and
shifts. On `2 ^ n` amplitudes, distinct items touch disjoint sets of indices,
and in every order the launch computes the tensor-product action of the gate
(`singleQubit_meets`, `controlled_meets`, `swap_meets`).

Indices are natural numbers: `i & ~m` is `Nat.ldiff i m`, and no value leaves
the 64-bit word while the dimension fits in one.
-/
import Qsycl.Gates
import Qsycl.Lib.Words
import Qsycl.Lib.WorkItems

namespace Qsycl

open Words WorkItems

variable {α : Type} [Add α] [Mul α]

/-! ### The work-items -/

/-- A work-item of `apply_single_qubit_matrix`. -/
def singleQubitItem (mask : ℕ) (mat : Matrix2x2 α) (i : ℕ) : Access ℕ α :=
  let low := i &&& (mask - 1)
  let high := Nat.ldiff i (mask - 1)
  let i0 := (high <<< 1) ||| low
  let i1 := i0 ||| mask
  .load i0 fun a0 =>
  .load i1 fun a1 =>
  .store i0 (mat.m00 * a0 + mat.m01 * a1) <|
  .store i1 (mat.m10 * a0 + mat.m11 * a1) .done

/-- A work-item of `apply_controlled_matrix`: the control bit is the same on
`i0` and `i1`. -/
def controlledItem (maskC maskT : ℕ) (mat : Matrix2x2 α) (i : ℕ) : Access ℕ α :=
  let low := i &&& (maskT - 1)
  let high := Nat.ldiff i (maskT - 1)
  let i0 := (high <<< 1) ||| low
  let i1 := i0 ||| maskT
  if i0 &&& maskC ≠ 0 then
    .load i0 fun a0 =>
    .load i1 fun a1 =>
    .store i0 (mat.m00 * a0 + mat.m01 * a1) <|
    .store i1 (mat.m10 * a0 + mat.m11 * a1) .done
  else .done

/-- A work-item of `apply_swap_gate`. -/
def swapItem {α : Type} (maskA maskB : ℕ) (i : ℕ) : Access ℕ α :=
  if i &&& maskA = 0 ∧ i &&& maskB ≠ 0 then
    let j := Nat.ldiff (i ||| maskA) maskB
    .load i fun tmp =>
    .load j fun v =>
    .store i v <|
    .store j tmp .done
  else .done

/-! ### What a kernel has to do -/

/-- The tensor-product action of a matrix on target `t`. -/
def matrixAction (t : ℕ) (m : Matrix2x2 α) (old : ℕ → α) (j : ℕ) : α :=
  m.entry (j.testBit t) false * old (setBit j t false) +
    m.entry (j.testBit t) true * old (setBit j t true)

/-- The action of a matrix on `t` where bit `c` is set. -/
def controlledAction (c t : ℕ) (m : Matrix2x2 α) (old : ℕ → α) (j : ℕ) : α :=
  if j.testBit c then matrixAction t m old j else old j

/-- The exchange of bits `a` and `b`. -/
def swapAction {α : Type} (a b : ℕ) (old : ℕ → α) (j : ℕ) : α := old (swapBits j a b)

/-- The indices of a work-item of a matrix kernel. -/
def matrixTouches (t i : ℕ) : Set ℕ := {insertZero i t, setBit (insertZero i t) t true}

/-- The indices of a work-item of the swap kernel. -/
def swapTouches (a b i : ℕ) : Set ℕ :=
  {k | (i.testBit a = false ∧ i.testBit b = true) ∧ (k = i ∨ k = swapBits i a b)}

/-! ### Pairs of indices -/

theorem setBit_insertZero_ne (i t : ℕ) : insertZero i t ≠ setBit (insertZero i t) t true := by
  intro h
  have := congrArg (fun j => Nat.testBit j t) h
  simp at this

theorem matrixTouches_lt {i t n : ℕ} (hi : i < 2 ^ (n - 1)) (ht : t < n) :
    ∀ k ∈ matrixTouches t i, k < 2 ^ n := by
  rintro k (rfl | rfl)
  · exact insertZero_lt hi ht
  · exact setBit_lt (insertZero_lt hi ht) ht true

/-- The index with the target bit cleared tells the item. -/
theorem setBit_of_mem_matrixTouches {i t k : ℕ} (hk : k ∈ matrixTouches t i) :
    setBit k t false = insertZero i t := by
  have h0 : setBit (insertZero i t) t false = insertZero i t :=
    setBit_eq_of_testBit (testBit_insertZero_self i t)
  rcases hk with rfl | rfl
  · exact h0
  · rw [setBit_setBit, h0]

theorem matrixTouches_disjoint {i j : ℕ} (t : ℕ) (hij : i ≠ j) :
    Disjoint (matrixTouches t i) (matrixTouches t j) := by
  refine Set.disjoint_left.mpr fun k hi hj => hij (insertZero_injective t ?_)
  exact (setBit_of_mem_matrixTouches hi).symm.trans (setBit_of_mem_matrixTouches hj)

/-- Every index below `2 ^ n` belongs to an item. -/
theorem exists_matrixTouches {j t n : ℕ} (hj : j < 2 ^ n) (ht : t < n) :
    ∃ i < 2 ^ (n - 1), insertZero i t = setBit j t false ∧ j ∈ matrixTouches t i := by
  obtain ⟨i, hi, he⟩ := insertZero_cover (setBit_lt hj ht false) ht (by simp)
  refine ⟨i, hi, he, ?_⟩
  cases hb : j.testBit t
  · left
    rw [he, setBit_eq_of_testBit hb]
  · right
    rw [Set.mem_singleton_iff, he, setBit_setBit, setBit_eq_of_testBit hb]

theorem two_pow_div_two {n t : ℕ} (ht : t < n) : 2 ^ n / 2 = 2 ^ (n - 1) := by
  obtain ⟨m, rfl⟩ := Nat.exists_eq_succ_of_ne_zero (Nat.ne_of_gt (Nat.zero_lt_of_lt ht))
  simp [pow_succ]

/-! ### The matrix kernels -/

theorem trace_singleQubitItem (t : ℕ) (mat : Matrix2x2 α) (i : ℕ) (acc : ℕ → α) :
    ∀ k ∈ (singleQubitItem (2 ^ t) mat i).trace acc, k ∈ matrixTouches t i := by
  intro k hk
  change k ∈ [insertZero i t, setBit (insertZero i t) t true, insertZero i t,
    setBit (insertZero i t) t true] at hk
  simp only [List.mem_cons, List.not_mem_nil, or_false] at hk
  rcases hk with hk | hk | hk | hk <;> simp [matrixTouches, hk]

theorem exec_singleQubitItem (t : ℕ) (mat : Matrix2x2 α) (i : ℕ) (acc : ℕ → α) :
    (singleQubitItem (2 ^ t) mat i).exec acc =
      Function.update (Function.update acc (insertZero i t)
        (mat.m00 * acc (insertZero i t) + mat.m01 * acc (setBit (insertZero i t) t true)))
        (setBit (insertZero i t) t true)
        (mat.m10 * acc (insertZero i t) + mat.m11 * acc (setBit (insertZero i t) t true)) := rfl

/-- What a work-item leaves in its two cells. -/
theorem exec_singleQubitItem_apply (t : ℕ) (mat : Matrix2x2 α) (i : ℕ) (acc : ℕ → α) {k : ℕ}
    (hk : k ∈ matrixTouches t i) :
    (singleQubitItem (2 ^ t) mat i).exec acc k = matrixAction t mat acc k := by
  have hne := setBit_insertZero_ne i t
  have h0 := setBit_of_mem_matrixTouches hk
  have h1 : setBit k t true = setBit (insertZero i t) t true := by rw [← h0, setBit_setBit]
  rw [exec_singleQubitItem, matrixAction, h0, h1]
  rcases hk with rfl | rfl
  · rw [Function.update_of_ne hne, Function.update_self]
    simp [Matrix2x2.entry]
  · rw [Function.update_self]
    simp [Matrix2x2.entry]

theorem controlledItem_eq (c t : ℕ) (mat : Matrix2x2 α) (i : ℕ) :
    controlledItem (2 ^ c) (2 ^ t) mat i =
      if (insertZero i t).testBit c then singleQubitItem (2 ^ t) mat i else .done := by
  have h : insertZero i t &&& 2 ^ c ≠ 0 ↔ (insertZero i t).testBit c = true :=
    and_two_pow_ne_zero _ _
  exact if_congr h rfl rfl

theorem trace_controlledItem (c t : ℕ) (mat : Matrix2x2 α) (i : ℕ) (acc : ℕ → α) :
    ∀ k ∈ (controlledItem (2 ^ c) (2 ^ t) mat i).trace acc, k ∈ matrixTouches t i := by
  rw [controlledItem_eq]
  split
  · exact trace_singleQubitItem t mat i acc
  · exact fun k hk => absurd hk List.not_mem_nil

/-- The control bit is the same on the two cells of an item. -/
theorem testBit_control {c t i k : ℕ} (hct : c ≠ t) (hk : k ∈ matrixTouches t i) :
    (insertZero i t).testBit c = k.testBit c := by
  rw [← setBit_of_mem_matrixTouches hk]
  simp [hct]

theorem exec_controlledItem_apply {c t : ℕ} (hct : c ≠ t) (mat : Matrix2x2 α) (i : ℕ)
    (acc : ℕ → α) {k : ℕ} (hk : k ∈ matrixTouches t i) :
    (controlledItem (2 ^ c) (2 ^ t) mat i).exec acc k = controlledAction c t mat acc k := by
  rw [controlledItem_eq, controlledAction, testBit_control hct hk]
  split
  · exact exec_singleQubitItem_apply t mat i acc hk
  · rfl

omit [Add α] [Mul α] in
theorem matrix_meets {n t : ℕ} (ht : t < n) {item : ℕ → Access ℕ α} {result : (ℕ → α) → ℕ → α}
    (hc : ∀ i acc, ∀ k ∈ (item i).trace acc, k ∈ matrixTouches t i)
    (hr : ∀ i acc, ∀ k ∈ matrixTouches t i, (item i).exec acc k = result acc k) :
    KernelMeets (2 ^ n / 2) (2 ^ n) item (matrixTouches t) result := by
  rw [two_pow_div_two ht]
  refine ⟨fun i _ => hc i, fun i hi => matrixTouches_lt hi ht,
    fun i _ j _ hij => matrixTouches_disjoint t hij, fun order hp acc j hj => ?_⟩
  obtain ⟨i, hi, -, hji⟩ := exists_matrixTouches hj ht
  rw [launch_apply hp (fun i _ => (item i).confined (hc i))
    (fun i _ j _ hij => matrixTouches_disjoint t hij) acc hi hji, hr i acc j hji]

/-- **The single-qubit kernel.** -/
theorem singleQubit_meets {n t : ℕ} (ht : t < n) (mat : Matrix2x2 α) :
    KernelMeets (2 ^ n / 2) (2 ^ n) (singleQubitItem (2 ^ t) mat) (matrixTouches t)
      (matrixAction t mat) :=
  matrix_meets ht (trace_singleQubitItem t mat) fun i acc _ hk =>
    exec_singleQubitItem_apply t mat i acc hk

/-- **The controlled kernel.** -/
theorem controlled_meets {n c t : ℕ} (ht : t < n) (hct : c ≠ t) (mat : Matrix2x2 α) :
    KernelMeets (2 ^ n / 2) (2 ^ n) (controlledItem (2 ^ c) (2 ^ t) mat) (matrixTouches t)
      (controlledAction c t mat) :=
  matrix_meets ht (trace_controlledItem c t mat) fun i acc _ hk =>
    exec_controlledItem_apply hct mat i acc hk

/-! ### The swap kernel -/

section Swap

variable {α : Type} {a b : ℕ}

/-- The program of the swap kernel on the pair of `i`. -/
def swapPair (a b i : ℕ) : Access ℕ α :=
  .load i fun tmp => .load (swapBits i a b) fun v => .store i v (.store (swapBits i a b) tmp .done)

/-- The item exchanges its two cells if its own index has bit `a` clear and
bit `b` set. -/
theorem swapItem_eq (a b i : ℕ) : swapItem (α := α) (2 ^ a) (2 ^ b) i =
    if i.testBit a = false ∧ i.testBit b = true then swapPair a b i else .done := by
  by_cases h : i.testBit a = false ∧ i.testBit b = true
  · have hj : Nat.ldiff (i ||| 2 ^ a) (2 ^ b) = swapBits i a b := by
      simp [swapBits, setBit, h.1, h.2]
    have hm : i &&& 2 ^ a = 0 ∧ i &&& 2 ^ b ≠ 0 :=
      ⟨(and_two_pow_eq_zero i a).mpr h.1, (and_two_pow_ne_zero i b).mpr h.2⟩
    rw [if_pos h, swapItem, if_pos hm, hj, swapPair]
  · rw [if_neg h, swapItem, if_neg]
    rwa [and_two_pow_eq_zero, and_two_pow_ne_zero]

theorem swapBits_ne {i a b : ℕ} (h : i.testBit a = false ∧ i.testBit b = true) :
    swapBits i a b ≠ i := by
  intro he
  have := congrArg (fun j => Nat.testBit j b) he
  simp [h.1, h.2] at this

theorem trace_swapItem (a b i : ℕ) (acc : ℕ → α) :
    ∀ k ∈ (swapItem (2 ^ a) (2 ^ b) i).trace acc, k ∈ swapTouches a b i := by
  intro k hk
  rw [swapItem_eq] at hk
  split at hk
  · rename_i h
    simp only [swapPair, Access.trace, List.mem_cons, List.not_mem_nil, or_false] at hk
    refine ⟨h, ?_⟩
    rcases hk with hk | hk | hk | hk <;> simp [hk]
  · exact absurd hk List.not_mem_nil

theorem exec_swapItem_apply {i k : ℕ} (hk : k ∈ swapTouches a b i) (acc : ℕ → α) :
    (swapItem (2 ^ a) (2 ^ b) i).exec acc k = swapAction a b acc k := by
  obtain ⟨h, hk⟩ := hk
  rw [swapItem_eq, if_pos h, swapAction]
  simp only [swapPair, Access.exec]
  rcases hk with rfl | rfl
  · rw [Function.update_of_ne (swapBits_ne h).symm, Function.update_self]
  · rw [Function.update_self, swapBits_swapBits]

theorem swapTouches_disjoint {i j : ℕ} (hij : i ≠ j) :
    Disjoint (swapTouches a b i) (swapTouches a b j) := by
  refine Set.disjoint_left.mpr fun k ⟨hi, hki⟩ ⟨hj, hkj⟩ => ?_
  -- the owner of a pair is its index with bit `b` set
  have key : ∀ {i : ℕ}, (i.testBit a = false ∧ i.testBit b = true) → (k = i ∨ k = swapBits i a b) →
      i = if k.testBit b then k else swapBits k a b := by
    intro i h hk
    rcases hk with rfl | rfl
    · simp [h.2]
    · simp [h.1, swapBits_swapBits]
  exact hij ((key hi hki).trans (key hj hkj).symm)

/-- **The swap kernel.** -/
theorem swap_meets {n : ℕ} (ha : a < n) (hb : b < n) :
    KernelMeets (α := α) (2 ^ n) (2 ^ n) (swapItem (2 ^ a) (2 ^ b)) (swapTouches a b)
      (swapAction a b) := by
  refine ⟨fun i _ => trace_swapItem a b i, fun i hi k hk => ?_,
    fun i _ j _ hij => swapTouches_disjoint hij, fun order hp acc j hj => ?_⟩
  · rcases hk.2 with rfl | rfl
    · exact hi
    · exact swapBits_lt hi ha hb
  · have hconf : ∀ i, Confined (swapItem (α := α) (2 ^ a) (2 ^ b) i).exec (swapTouches a b i) :=
      fun i => (swapItem (2 ^ a) (2 ^ b) i).confined (trace_swapItem a b i)
    by_cases hown : ∃ i < 2 ^ n, j ∈ swapTouches a b i
    · obtain ⟨i, hi, hji⟩ := hown
      rw [launch_apply hp (fun i _ => hconf i) (fun i _ j _ hij => swapTouches_disjoint hij) acc hi
        hji, exec_swapItem_apply hji]
    · push Not at hown
      rw [launch_of_notMem hp (fun i _ => hconf i) acc hown, swapAction]
      -- an index no item owns has equal bits, so that the exchange fixes it
      have heq : j.testBit a = j.testBit b := by
        have h1 := hown j hj
        have h2 := hown (swapBits j a b) (swapBits_lt hj ha hb)
        simp only [swapTouches, Set.mem_ofPred_eq, true_or, and_true, testBit_swapBits,
          swapBits_swapBits, or_true, if_true] at h1 h2
        by_cases hab : a = b
        · rw [hab]
        · simp only [hab, if_false] at h2
          cases hja : j.testBit a <;> cases hjb : j.testBit b <;> simp_all
      rw [swapBits_of_eq heq]

end Swap

end Qsycl
