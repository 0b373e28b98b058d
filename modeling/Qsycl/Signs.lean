/-
# The signs of Pauli masks

The sign of basis state `j` under a mask is that of the number of bits they have
in common. The source counts it four times: `popcount64` of `native_vqa.cpp`
and of `shot_expectation.cpp` sums fields of a word in parallel, `parity` of
`observable.cpp` and `parity64` of `algorithms.cpp` fold the word onto itself.
Here the four are routines on machine words, whose sums and product wrap; the
rest of the model has them on natural numbers (`toNat_popcount64`,
`toNat_parity`).

All four are right on every word, and the five loops that use them give every
basis state the same sign under every mask (`signs_agree`).
-/
import Qsycl.ShotExpectation
import Qsycl.Diagonal

namespace Qsycl

open Words

/-! ### The routines on words -/

namespace Word

/-- Sums the bits of a word in pairs, nibbles and bytes, and gathers the bytes in the
highest one. The result is a `static_cast<int>`. -/
def fieldSums (pairs nibbles bytes gather v : BitVec 64) : BitVec 32 :=
  let v := v - ((v >>> 1) &&& pairs)
  let v := (v &&& nibbles) + ((v >>> 2) &&& nibbles)
  let v := (v + (v >>> 4)) &&& bytes
  ((v * gather) >>> 56).setWidth 32

/-- Folds a word onto itself by these shifts. -/
def xorFold (shifts : List ℕ) (v : BitVec 64) : BitVec 32 :=
  (shifts.foldl (fun v s => v ^^^ v >>> s) v &&& 1).setWidth 32

/-- `popcount64` of `native_vqa.cpp`. -/
def popcount64Native : BitVec 64 → BitVec 32 :=
  fieldSums 0x5555555555555555 0x3333333333333333 0x0f0f0f0f0f0f0f0f 0x0101010101010101

/-- `popcount64` of `shot_expectation.cpp`. -/
def popcount64Shots : BitVec 64 → BitVec 32 :=
  fieldSums 0x5555555555555555 0x3333333333333333 0x0f0f0f0f0f0f0f0f 0x0101010101010101

/-- `parity` of `observable.cpp`. -/
def parity : BitVec 64 → BitVec 32 := xorFold [32, 16, 8, 4, 2, 1]

/-- `parity64` of `algorithms.cpp`. -/
def parity64 : BitVec 64 → BitVec 32 := xorFold [32, 16, 8, 4, 2, 1]

/-! ### As natural numbers -/

theorem toNat_shift_le (v : BitVec 64) (s : ℕ) : (v >>> s).toNat ≤ v.toNat := by
  rw [BitVec.toNat_ushiftRight, Nat.shiftRight_eq_div_pow]
  exact Nat.div_le_self _ _

theorem toNat_pairs (v m : BitVec 64) :
    (v - ((v >>> 1) &&& m)).toNat = v.toNat - ((v.toNat >>> 1) &&& m.toNat) := by
  have hle : ((v >>> 1) &&& m).toNat ≤ v.toNat := Nat.and_le_left.trans (toNat_shift_le v 1)
  rw [BitVec.toNat_sub_of_le hle]
  rfl

/-- Two masked words fit if the mask does twice. -/
theorem toNat_nibbles (v : BitVec 64) {m : BitVec 64} (hm : m.toNat < 2 ^ 63) :
    ((v &&& m) + ((v >>> 2) &&& m)).toNat = (v.toNat &&& m.toNat) + ((v.toNat >>> 2) &&& m.toNat) := by
  have h1 : (v &&& m).toNat ≤ m.toNat := Nat.and_le_right
  have h2 : ((v >>> 2) &&& m).toNat ≤ m.toNat := Nat.and_le_right
  rw [BitVec.toNat_add_of_lt (by omega)]
  rfl

theorem toNat_bytes {v : BitVec 64} (hv : v.toNat < 2 ^ 63) (m : BitVec 64) :
    ((v + (v >>> 4)) &&& m).toNat = (v.toNat + v.toNat >>> 4) &&& m.toNat := by
  have hle := toNat_shift_le v 4
  rw [BitVec.toNat_and, BitVec.toNat_add_of_lt (by omega)]
  rfl

/-- Only the product wraps. -/
theorem toNat_gather (v h : BitVec 64) :
    (((v * h) >>> 56).setWidth 32).toNat = (v.toNat * h.toNat % 2 ^ 64) >>> 56 := by
  have hlt := Nat.mod_lt (v.toNat * h.toNat) (Nat.two_pow_pos 64)
  rw [BitVec.toNat_setWidth, BitVec.toNat_ushiftRight, BitVec.toNat_mul, Nat.shiftRight_eq_div_pow]
  omega

/-- **The sums of fields** on natural numbers: before the product nothing wraps. -/
theorem toNat_fieldSums {pairs nibbles bytes gather : BitVec 64} (hm : nibbles.toNat < 2 ^ 62) (v : BitVec 64) :
    (fieldSums pairs nibbles bytes gather v).toNat =
      let v := v.toNat - ((v.toNat >>> 1) &&& pairs.toNat)
      let v := (v &&& nibbles.toNat) + ((v >>> 2) &&& nibbles.toNat)
      let v := (v + (v >>> 4)) &&& bytes.toNat
      (v * gather.toNat % 2 ^ 64) >>> 56 := by
  have hsmall : ∀ p : BitVec 64, ((p &&& nibbles) + ((p >>> 2) &&& nibbles)).toNat < 2 ^ 63 := by
    intro p
    have h1 : p.toNat &&& nibbles.toNat ≤ nibbles.toNat := Nat.and_le_right
    have h2 : p.toNat >>> 2 &&& nibbles.toNat ≤ nibbles.toNat := Nat.and_le_right
    rw [toNat_nibbles p (by omega)]
    omega
  rw [fieldSums, toNat_gather, toNat_bytes (hsmall _), toNat_nibbles _ (by omega), toNat_pairs]

theorem toNat_popcount64 (v : BitVec 64) : (popcount64Native v).toNat = Native.popcount64 v.toNat :=
  toNat_fieldSums (by decide) v

theorem toNat_xorFold (shifts : List ℕ) (v : BitVec 64) : (xorFold shifts v).toNat =
    shifts.foldl (fun v s => v ^^^ v >>> s) v.toNat &&& 1 := by
  have hfold : ∀ v : BitVec 64, (shifts.foldl (fun v s => v ^^^ v >>> s) v).toNat =
      shifts.foldl (fun v s => v ^^^ v >>> s) v.toNat := by
    induction shifts with
    | nil => exact fun v => rfl
    | cons s shifts ih =>
      intro v
      rw [List.foldl_cons, List.foldl_cons, ih, BitVec.toNat_xor, BitVec.toNat_ushiftRight]
  have hbit : ∀ w : ℕ, w &&& 1 < 2 ^ 32 := fun w => Nat.and_le_right.trans_lt (by norm_num)
  rw [xorFold, BitVec.toNat_setWidth, BitVec.toNat_and, hfold]
  exact Nat.mod_eq_of_lt (hbit _)

theorem toNat_parity (v : BitVec 64) : (parity v).toNat = Qsycl.parity v.toNat :=
  toNat_xorFold _ v

end Word

/-! ### Set bits -/

def setBits (v : BitVec 64) : ℕ := ((Finset.range 64).filter fun i => v.getLsbD i = true).card

theorem setBits_eq (v : BitVec 64) : setBits v = bitSum 64 v.toNat :=
  card_testBit 64 v.toNat

theorem setBits_le (v : BitVec 64) : setBits v ≤ 64 :=
  (setBits_eq v).trans_le (bitSum_le 64 _)

/-- A result of at most 64 is not negative as an `int`. -/
theorem toInt_of_toNat {w : BitVec 32} {k : ℕ} (h : w.toNat = k) (hk : k ≤ 64) : w.toInt = k := by
  rw [BitVec.toInt_eq_toNat_of_lt (by omega), h]

/-- What the four routines return on `v`, as an `int`. -/
structure CountsBits (v : BitVec 64) : Prop where
  native : (Word.popcount64Native v).toInt = setBits v
  shots : (Word.popcount64Shots v).toInt = setBits v
  parity : (Word.parity v).toInt = (setBits v % 2 : ℕ)
  parity64 : (Word.parity64 v).toInt = (setBits v % 2 : ℕ)

theorem toNat_popcount64_eq (v : BitVec 64) : (Word.popcount64Native v).toNat = setBits v := by
  rw [Word.toNat_popcount64, Native.popcount64_eq v.isLt, setBits_eq]

theorem toNat_parity_eq (v : BitVec 64) : (Word.parity v).toNat = setBits v % 2 := by
  rw [Word.toNat_parity, parity_eq, setBits_eq]

theorem countsBits (v : BitVec 64) : CountsBits v := by
  have hle := setBits_le v
  have hcount := toInt_of_toNat (toNat_popcount64_eq v) hle
  have hparity := toInt_of_toNat (toNat_parity_eq v) ((Nat.mod_le _ 2).trans hle)
  exact ⟨hcount, hcount, hparity, hparity⟩

example : (Word.popcount64Native (BitVec.allOnes 64), Word.parity (BitVec.allOnes 64)) = (64, 0) := by decide

/-- The lowest bit of the count is the folded bit. -/
theorem popcount64_and_one (v : BitVec 64) : Word.popcount64Native v &&& 1 = Word.parity v := by
  refine BitVec.eq_of_toNat_eq ?_
  rw [BitVec.toNat_and, toNat_popcount64_eq, toNat_parity_eq]
  exact Nat.and_one_is_mod _

/-! ### The loops -/

section Loops

variable {R : Type} [Ring R]

/-- The sign of basis state `j` under a mask. -/
def maskSign (j mask : ℕ) : R := (-1) ^ setBits (BitVec.ofNat 64 j &&& BitVec.ofNat 64 mask)

theorem maskSign_eq (j mask : ℕ) : (maskSign j mask : R) = (-1) ^ bitSum 64 (j &&& mask) := by
  rw [maskSign, setBits_eq, BitVec.toNat_and, BitVec.toNat_ofNat, BitVec.toNat_ofNat, ← Nat.and_mod_two_pow,
    bitSum_mod_two_pow]

theorem sign_popcount64 (j : ℕ) {mask : ℕ} (hm : mask < 2 ^ 64) :
    (if Native.popcount64 (j &&& mask) &&& 1 ≠ 0 then -1 else 1 : R) = maskSign j mask := by
  rw [Native.popcount64_parity (Nat.and_lt_two_pow j hm), parity_sign, maskSign_eq]

theorem sign_parity (j mask : ℕ) :
    (if parity (j &&& mask) ≠ 0 then -1 else 1 : R) = maskSign j mask := by
  rw [parity_sign, maskSign_eq]

theorem diagonalEntry_signs (obs : Observable R) (j : ℕ) :
    obs.diagonalEntry j = (obs.masks.map fun m => m.coeff * maskSign j m.z).sum := by
  simp only [Observable.diagonalEntry, sign_parity, foldl_add_map, zero_add]

theorem meanSign_signs {mask : ℕ} (hm : mask < 2 ^ 64) (outcomes : List ℕ) :
    Native.shotReadout.meanSign mask outcomes =
      ((outcomes.map fun o => (maskSign o mask : ℤ)).sum : ℤ) / (outcomes.length : ℝ) := by
  simp only [Native.shotReadout, sign_popcount64 _ hm, foldl_add_map, zero_add]

end Loops

/-- The sums that one mask stands for, with the signs of the mask. -/
noncomputable def maskSums (size : ℕ) (cell : ℕ → ℂ) (m : PauliMask ℝ) : ℝ × ℝ :=
  ∑ j ∈ Finset.range size, (maskSign j m.z * (star (cell (j ^^^ m.x)) * cell j).re,
    maskSign j m.z * (star (cell (j ^^^ m.x)) * cell j).im)

theorem termSums_signs (psi : StateVec ℂ) (m : PauliMask ℝ) :
    termSums psi m = maskSums psi.size psi.cell m := by
  simp only [termSums_eq_sum, maskSums, maskSign_eq]

/-- The five loops over an observable give each basis state the sign of the mask. -/
structure OneSign (obs : Observable ℝ) : Prop where
  native : ∀ m ∈ obs.masks, ∀ dim row, Native.rowSums dim row m = maskSums dim row m
  shots : ∀ m ∈ obs.masks, ∀ outcomes : List ℕ, Native.shotReadout.meanSign (m.x ||| m.z) outcomes =
    ((outcomes.map fun o => (maskSign o (m.x ||| m.z) : ℤ)).sum : ℤ) / (outcomes.length : ℝ)
  expectation : ∀ m ∈ obs.masks, ∀ psi, termSums psi m = maskSums psi.size psi.cell m
  diagonal : obs.isDiagonal = true → obs.numQubits ≤ 30 → obs.diagonal = .ok
    ((List.range (2 ^ obs.numQubits)).map fun j => (obs.masks.map fun m => m.coeff * maskSign j m.z).sum)
  cost : obs.isDiagonal = true → ∀ j,
    diagonalCost obs j = .ok (obs.masks.map fun m => m.coeff * maskSign j m.z).sum

theorem oneSign {obs : Observable ℝ} (h : ∀ m ∈ obs.masks, m.x < 2 ^ 64 ∧ m.z < 2 ^ 64) : OneSign obs where
  native := fun m hm dim row => by rw [Native.rowSums_eq dim row (h m hm).2, termSums_signs]
  shots := fun m hm => meanSign_signs (Nat.or_lt_two_pow (h m hm).1 (h m hm).2)
  expectation := fun m _ psi => termSums_signs psi m
  diagonal := fun hd hn => by
    have hentry : obs.diagonalEntry = fun j => (obs.masks.map fun m => m.coeff * maskSign j m.z).sum :=
      funext fun j => diagonalEntry_signs obs j
    rw [Observable.diagonal_eq hd hn, hentry]
  cost := fun hd j => by rw [diagonalCost_entry hd, diagonalEntry_signs]

/-- **All four routines count the set bits of every word**, exactly or modulo 2, and so
every basis state has one sign under every mask, in all five loops. -/
theorem signs_agree :
    (∀ v : BitVec 64, CountsBits v) ∧
    (∀ j mask : BitVec 64,
      Word.popcount64Native (j &&& mask) &&& 1 = Word.parity (j &&& mask) ∧
      Word.popcount64Shots (j &&& mask) &&& 1 = Word.parity (j &&& mask) ∧
      Word.parity64 (j &&& mask) = Word.parity (j &&& mask)) ∧
    ∀ obs : Observable ℝ, (∀ m ∈ obs.masks, m.x < 2 ^ 64 ∧ m.z < 2 ^ 64) → OneSign obs :=
  ⟨countsBits, fun _ _ => ⟨popcount64_and_one _, popcount64_and_one _, rfl⟩, fun _ h => oneSign h⟩

/-- `Y₀ Z₆₃` -/
theorem signs_agree_wide : OneSign ⟨64, [⟨1, 1, 2 ^ 63 + 1, 1⟩]⟩ := by
  refine signs_agree.2.2 _ fun m hm => ?_
  rw [List.mem_singleton.mp hm]
  exact ⟨by norm_num, by norm_num⟩

end Qsycl
