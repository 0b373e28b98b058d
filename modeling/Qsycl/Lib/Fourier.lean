/-
# The discrete Fourier transform on qubits

The transform of `2 ^ n` amplitudes by one stage for each qubit: a Hadamard
gate and a phase for every pair with a later qubit. A stage multiplies the
amplitude by `wave (y q * 0.x_q x_(q+1) ...)`, and the product of these is the
character of the transform at the index of `y` and that of `x` with its bits
reversed (`prod_wave_fraction`). So the stages together are the transform of
the reversed state (`stages_eq`).
-/
import Qsycl.Lib.Basis

namespace Qubits

open Matrix

variable {n : ℕ}

/-! ### Waves -/

/-- `e ^ (2 π i t)`. -/
noncomputable def wave (t : ℝ) : ℂ := Real.fourierChar t

@[simp] theorem wave_zero : wave 0 = 1 := by simp [wave]

theorem wave_add (s t : ℝ) : wave (s + t) = wave s * wave t := by
  rw [wave, AddChar.map_add_eq_mul, Circle.coe_mul, wave, wave]

theorem wave_sum {α : Type*} (s : Finset α) (t : α → ℝ) : wave (∑ a ∈ s, t a) = ∏ a ∈ s, wave (t a) := by
  classical
  induction s using Finset.induction_on with
  | empty => simp
  | insert a s ha ih => rw [Finset.sum_insert ha, Finset.prod_insert ha, wave_add, ih]

theorem wave_eq (t : ℝ) : wave t = ⟨Real.cos (2 * Real.pi * t), Real.sin (2 * Real.pi * t)⟩ := by
  rw [wave, Real.fourierChar_apply, Complex.exp_mul_I, ← Complex.ofReal_cos, ← Complex.ofReal_sin]
  refine Complex.ext ?_ ?_ <;> simp [-Complex.ofReal_cos, -Complex.ofReal_sin]

@[simp] theorem wave_natCast (k : ℕ) : wave k = 1 := by
  rw [wave_eq, mul_comm (2 * Real.pi) (k : ℝ), Real.cos_nat_mul_two_pi]
  refine Complex.ext rfl ?_
  have h := Real.sin_nat_mul_pi (k * 2)
  rw [Nat.cast_mul, mul_assoc] at h
  simpa using h

/-! ### Binary fractions -/

/-- The value of a bit. -/
def bit (b : Bool) : ℝ := b.toNat

@[simp] theorem bit_true : bit true = 1 := by simp [bit]
@[simp] theorem bit_false : bit false = 0 := by simp [bit]

theorem index_eq_sum : ∀ {n : ℕ} (x : Fin n → Bool), (index x : ℝ) = ∑ q, bit (x q) * 2 ^ (q : ℕ)
  | 0, x => by simp [index]
  | n + 1, x => by
    have hsucc : index x = 2 * index (x ∘ Fin.succ) + (x 0).toNat := Nat.ofBits_succ x
    have hrest := index_eq_sum (x ∘ Fin.succ)
    rw [hsucc, Fin.sum_univ_succ, Nat.cast_add, Nat.cast_mul, hrest, Finset.mul_sum]
    simp only [Fin.val_zero, pow_zero, mul_one, Fin.val_succ, pow_succ, Function.comp_apply, Nat.cast_ofNat]
    rw [add_comm]
    refine congrArg₂ _ rfl (Finset.sum_congr rfl fun q _ => by ring)

/-- Bit `r` of the binary fraction `0.x_q x_(q+1) ...`. -/
noncomputable def digit (x : Fin n → Bool) (q r : Fin n) : ℝ := bit (x r) / (2 ^ ((r : ℕ) - q + 1) : ℕ)

theorem digit_eq (x : Fin n → Bool) (q r : Fin n) : digit x q r = bit (x r) / 2 ^ ((r : ℕ) - q + 1) := by simp [digit]

/-- The binary fraction `0.x_q x_(q+1) ...`. -/
noncomputable def fraction (x : Fin n → Bool) (q : Fin n) : ℝ := ∑ r ∈ Finset.Ici q, digit x q r

/-- The first bit of a fraction and the rest. -/
theorem fraction_eq (x : Fin n → Bool) (q : Fin n) :
    fraction x q = bit (x q) / 2 + ∑ r ∈ Finset.Ioi q, digit x q r := by
  rw [fraction, ← Finset.Ioi_insert, Finset.sum_insert Finset.notMem_Ioi_self, digit_eq]
  simp

/-- The reversed index shifted to qubit `q` is the fraction from there on, up to an integer. -/
theorem wave_fraction (x : Fin n → Bool) (b : Bool) (q : Fin n) :
    wave (bit b * fraction x q) =
      wave (bit b * 2 ^ (q : ℕ) * (index (x ∘ Fin.rev) / 2 ^ n)) := by
  have hterm : ∀ r : Fin n, bit (x r) * 2 ^ ((Fin.rev r : Fin n) : ℕ) / 2 ^ n * 2 ^ (q : ℕ) =
      bit (x r) * 2 ^ (q : ℕ) / 2 ^ ((r : ℕ) + 1) := fun r => by
    have hn : (2 : ℝ) ^ n = 2 ^ ((Fin.rev r : Fin n) : ℕ) * 2 ^ ((r : ℕ) + 1) := by
      rw [← pow_add, Fin.val_rev, Nat.sub_add_cancel (by omega)]
    rw [hn]
    field_simp
  have hindex : (index (x ∘ Fin.rev) : ℝ) / 2 ^ n * 2 ^ (q : ℕ) =
      ∑ r, bit (x r) * 2 ^ (q : ℕ) / 2 ^ ((r : ℕ) + 1) := by
    rw [index_eq_sum, ← Equiv.sum_comp Fin.revPerm, Finset.sum_div, Finset.sum_mul]
    refine Finset.sum_congr rfl fun r _ => ?_
    rw [← hterm r]
    simp
  -- the bits before `q` contribute a whole number of turns
  have hlow : ∃ k : ℕ, ∑ r ∈ Finset.Iio q, bit (x r) * 2 ^ (q : ℕ) / 2 ^ ((r : ℕ) + 1) = k := by
    refine ⟨∑ r ∈ Finset.Iio q, (x r).toNat * 2 ^ ((q : ℕ) - (r + 1)), ?_⟩
    rw [Nat.cast_sum]
    refine Finset.sum_congr rfl fun r hr => ?_
    have hlt : r < q := Finset.mem_Iio.mp hr
    have hq : (2 : ℝ) ^ (q : ℕ) = 2 ^ ((q : ℕ) - (r + 1)) * 2 ^ ((r : ℕ) + 1) := by
      rw [← pow_add, Nat.sub_add_cancel hlt]
    rw [hq, ← mul_assoc, mul_div_assoc, div_self (by positivity), mul_one, bit]
    push_cast
    rfl
  have hhigh : ∑ r ∈ Finset.Ici q, bit (x r) * 2 ^ (q : ℕ) / 2 ^ ((r : ℕ) + 1) = fraction x q := by
    refine Finset.sum_congr rfl fun r hr => ?_
    have hle : q ≤ r := Finset.mem_Ici.mp hr
    have hr : (2 : ℝ) ^ ((r : ℕ) + 1) = 2 ^ ((r : ℕ) - q + 1) * 2 ^ (q : ℕ) := by
      rw [← pow_add]
      congr 1
      omega
    rw [digit_eq, hr, mul_div_mul_right _ _ (by positivity)]
  have hsplit : (index (x ∘ Fin.rev) : ℝ) / 2 ^ n * 2 ^ (q : ℕ) = fraction x q +
      ∑ r ∈ Finset.Iio q, bit (x r) * 2 ^ (q : ℕ) / 2 ^ ((r : ℕ) + 1) := by
    rw [hindex, ← hhigh, ← Finset.sum_union (Finset.disjoint_left.mpr fun r hge hlt =>
      absurd (Finset.mem_Iio.mp hlt) (not_lt.mpr (Finset.mem_Ici.mp hge)))]
    refine Finset.sum_congr (Finset.ext fun r => ?_) fun _ _ => rfl
    simp [le_or_gt q r]
  obtain ⟨k, hk⟩ := hlow
  cases b
  · simp
  · rw [bit_true, one_mul, one_mul, mul_comm, hsplit, hk, wave_add, wave_natCast, mul_one]

/-- **The phases of all qubits** make the character of the transform. -/
theorem prod_wave_fraction (x y : Fin n → Bool) :
    ∏ q, wave (bit (y q) * fraction x q) = wave (index y * index (x ∘ Fin.rev) / 2 ^ n) := by
  simp only [wave_fraction]
  rw [← wave_sum, ← Finset.sum_mul, ← index_eq_sum, mul_div_assoc]

/-! ### Stages -/

noncomputable section

/-- The Hadamard gate. -/
def hadamardGate : Op1 := of fun a b => wave (bit a * (bit b / (2 : ℕ))) / (√(2 : ℕ) : ℝ)

theorem hadamardGate_apply (a b : Bool) : hadamardGate a b = wave (bit a * (bit b / 2)) / (√2 : ℝ) := by
  simp [hadamardGate]

/-- The phases that qubit `q` takes from later qubits. -/
def laterPhases (q : Fin n) (y : Fin n → Bool) : ℂ := wave (bit (y q) * ∑ r ∈ Finset.Ioi q, digit y q r)

/-- One stage: Hadamard on qubit `q`, and the phases. -/
def fourierStage (q : Fin n) : Op (Fin n) := diagonal (laterPhases q) * onQubit q hadamardGate

/-- The transform. -/
def fourierMatrix (n : ℕ) : Op (Fin n) := of fun y x => wave (index y * index x / (2 ^ n : ℕ)) / (√(2 ^ n : ℕ) : ℝ)

theorem fourierMatrix_apply (x y : Fin n → Bool) :
    fourierMatrix n y x = wave (index y * index x / 2 ^ n) / (√(2 ^ n) : ℝ) := by simp [fourierMatrix]

/-- The qubits before `k`. -/
def earlier (n k : ℕ) : Finset (Fin n) := Finset.univ.filter fun r => (r : ℕ) < k

theorem mem_earlier {k : ℕ} {r : Fin n} : r ∈ earlier n k ↔ (r : ℕ) < k := by simp [earlier]

theorem earlier_succ (q : Fin n) : earlier n (q + 1) = insert q (earlier n q) := by
  ext r
  rw [Finset.mem_insert, mem_earlier, mem_earlier, Fin.ext_iff]
  omega

/-- Basis state `x` after `k` stages: the later qubits still hold their bit. -/
def afterStages (x : Fin n → Bool) (k : ℕ) : State (Fin n) := fun y =>
  if ∀ q : Fin n, k ≤ q → y q = x q then
    ∏ q ∈ earlier n k, (wave (bit (y q) * fraction x q) / (√(2 : ℕ) : ℝ)) else 0

theorem afterStages_zero (x : Fin n → Bool) : afterStages x 0 = Pi.single x 1 := by
  funext y
  simp [afterStages, earlier, Pi.single_apply, funext_iff]

/-- What stage `q` makes of the amplitudes. -/
theorem fourierStage_mulVec (q : Fin n) (ψ : State (Fin n)) (y : Fin n → Bool) :
    (fourierStage q *ᵥ ψ) y = laterPhases q y * ∑ b, hadamardGate (y q) b * ψ (Function.update y q b) := by
  rw [fourierStage, ← mulVec_mulVec, mulVec_diagonal, onQubit_mulVec]

/-- **One stage.** -/
theorem fourierStage_afterStages (x : Fin n → Bool) (q : Fin n) :
    fourierStage q *ᵥ afterStages x q = afterStages x (q + 1) := by
  funext y
  rw [fourierStage_mulVec]
  by_cases hy : ∀ r : Fin n, (q : ℕ) + 1 ≤ r → y r = x r
  · have hlater : ∀ r ∈ Finset.Ioi q, digit y q r = digit x q r := fun r hr => by
      rw [digit, hy r (Finset.mem_Ioi.mp hr), digit]
    -- only the bit of `x` is left of the sum
    have hterm : ∀ b, afterStages x q (Function.update y q b) = if b = x q then
        ∏ r ∈ earlier n q, (wave (bit (y r) * fraction x r) / (√(2 : ℕ) : ℝ)) else 0 := fun b => by
      have hiff : (∀ r : Fin n, (q : ℕ) ≤ r → Function.update y q b r = x r) ↔ b = x q := by
        refine ⟨fun h => by simpa using h q le_rfl, fun hb r hr => ?_⟩
        by_cases hrq : r = q
        · rw [hrq, Function.update_self, hb]
        · rw [Function.update_of_ne hrq]
          exact hy r (lt_of_le_of_ne hr fun h => hrq (Fin.ext h.symm))
      have hprod : ∀ r ∈ earlier n q,
          wave (bit (Function.update y q b r) * fraction x r) / ((√(2 : ℕ) : ℝ) : ℂ) =
            wave (bit (y r) * fraction x r) / (√(2 : ℕ) : ℝ) := fun r hr => by
        have hlt : (r : ℕ) < q := mem_earlier.mp hr
        rw [Function.update_of_ne (Fin.ne_of_lt hlt)]
      simp only [afterStages, hiff]
      rw [Finset.prod_congr rfl hprod]
    simp only [hterm, mul_ite, mul_zero, Finset.sum_ite_eq', Finset.mem_univ, if_true]
    rw [afterStages, if_pos hy, earlier_succ, Finset.prod_insert (by simp [mem_earlier]), ← mul_assoc]
    congr 1
    rw [laterPhases, Finset.sum_congr rfl hlater, hadamardGate_apply, mul_div_assoc', ← wave_add, ← mul_add,
      fraction_eq, add_comm, Nat.cast_ofNat]
  · rw [afterStages, if_neg hy]
    refine mul_eq_zero_of_right _ (Finset.sum_eq_zero fun b _ => mul_eq_zero_of_right _ (if_neg fun h => ?_))
    refine hy fun r hr => ?_
    rw [← h r (by omega), Function.update_of_ne]
    rintro rfl
    omega

/-- The state after all stages is a column of the transform. -/
theorem afterStages_last (x : Fin n → Bool) : afterStages x n = fun y => fourierMatrix n y (x ∘ Fin.rev) := by
  funext y
  have hall : earlier n n = Finset.univ := Finset.filter_true_of_mem fun q _ => q.isLt
  have hsqrt : √(2 ^ n : ℝ) = √2 ^ n := by
    rw [Real.sqrt_eq_iff_eq_sq (by positivity) (by positivity), ← pow_mul, mul_comm, pow_mul, Real.sq_sqrt zero_le_two]
  rw [afterStages, if_pos fun q hq => absurd hq (by omega), hall, Finset.prod_div_distrib,
    prod_wave_fraction, Finset.prod_const, Finset.card_univ, Fintype.card_fin, fourierMatrix_apply, hsqrt,
    Complex.ofReal_pow, Nat.cast_ofNat]

end

end Qubits
