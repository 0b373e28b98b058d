/-
# The numbered basis

Basis state `x` of `n` qubits has the number `index x`, whose bit `q` is `x q`.
An array of amplitudes, read through `view`, is a state. Setting a bit,
exchanging two bits and xoring a mask are, on basis states, the update at a
qubit, the exchange of two qubits and a pointwise xor.
-/
import Qsycl.Lib.Qubits
import Qsycl.Lib.Words

namespace Qubits

open Words Matrix

variable {n : ℕ}

/-- The number of a basis state. -/
def index (x : Fin n → Bool) : ℕ := Nat.ofBits x

theorem index_lt (x : Fin n → Bool) : index x < 2 ^ n := Nat.ofBits_lt_two_pow x

@[simp] theorem testBit_index (x : Fin n → Bool) (q : Fin n) : (index x).testBit q = x q :=
  Nat.testBit_ofBits_lt x q q.isLt

/-- A number is that of `x` if it is in range and has the bits of `x`. -/
theorem eq_index {j : ℕ} {x : Fin n → Bool} (hj : j < 2 ^ n) (h : ∀ q : Fin n, j.testBit q = x q) :
    j = index x := by
  refine Nat.eq_of_testBit_eq fun k => ?_
  by_cases hk : k < n
  · exact (h ⟨k, hk⟩).trans (testBit_index x ⟨k, hk⟩).symm
  · have hz : ∀ i < 2 ^ n, i.testBit k = false := fun i hi =>
      Nat.testBit_lt_two_pow (lt_of_lt_of_le hi (Nat.pow_le_pow_right (by norm_num) (by omega)))
    rw [hz j hj, hz _ (index_lt x)]

theorem index_injective : Function.Injective (index : (Fin n → Bool) → ℕ) := by
  intro x y h
  funext q
  rw [← testBit_index x, h, testBit_index]

/-- The basis state of a number. -/
def bits (n j : ℕ) : Fin n → Bool := fun q => j.testBit q

theorem index_bits {j : ℕ} (hj : j < 2 ^ n) : index (bits n j) = j := (eq_index hj fun _ => rfl).symm

theorem setBit_index (x : Fin n → Bool) (q : Fin n) (b : Bool) :
    setBit (index x) q b = index (Function.update x q b) := by
  refine eq_index (setBit_lt (index_lt x) q.isLt b) fun r => ?_
  by_cases h : r = q
  · subst h; simp
  · simp [h, Fin.val_inj]

theorem swapBits_index (x : Fin n → Bool) (a b : Fin n) :
    swapBits (index x) a b = index (x ∘ Equiv.swap a b) := by
  refine eq_index (swapBits_lt (index_lt x) a.isLt b.isLt) fun r => ?_
  simp only [testBit_swapBits, testBit_index, Function.comp_apply, Equiv.swap_apply_def, Fin.val_inj]
  by_cases ha : r = a <;> by_cases hb : r = b <;> simp_all

theorem xor_index (x : Fin n → Bool) {m : ℕ} (hm : m < 2 ^ n) :
    index x ^^^ m = index fun q => x q ^^ m.testBit q := by
  refine eq_index (Nat.xor_lt_two_pow (index_lt x) hm) fun q => ?_
  simp

/-- A sum over the numbers below `2 ^ n` is a sum over the basis states. -/
theorem sum_index {M : Type*} [AddCommMonoid M] (f : ℕ → M) :
    ∑ j ∈ Finset.range (2 ^ n), f j = ∑ x : Fin n → Bool, f (index x) := by
  refine (Finset.sum_bij (fun x _ => index x) (fun x _ => Finset.mem_range.mpr (index_lt x))
    (fun x _ y _ h => index_injective h) (fun j hj => ?_) fun _ _ => rfl).symm
  exact ⟨bits n j, Finset.mem_univ _, index_bits (Finset.mem_range.mp hj)⟩

/-! ### Arrays of amplitudes -/

/-- The state that the cells below `2 ^ n` hold. -/
def view (n : ℕ) (m : ℕ → ℂ) : State (Fin n) := fun x => m (index x)

theorem view_congr {m m' : ℕ → ℂ} (h : ∀ j < 2 ^ n, m j = m' j) : view n m = view n m' :=
  funext fun x => h _ (index_lt x)

/-- The basis state of all zeros. -/
def zeroState : State (Fin n) := fun x => if x = fun _ => false then 1 else 0

theorem index_eq_zero {x : Fin n → Bool} : index x = 0 ↔ x = fun _ => false := by
  have h : index (fun _ : Fin n => false) = 0 := (eq_index (by positivity) (by simp)).symm
  rw [← h]
  exact index_injective.eq_iff

end Qubits
