/-
# Bits of natural numbers and of 64-bit words

Index arithmetic of array kernels: a number with one bit set to a value
(`setBit`), with two bits exchanged (`swapBits`), with a zero inserted at a
bit position (`insertZero`), and the number of set bits (`bitSum`), whose
parity the xor fold computes (`bitSum_fold`) and which the SWAR count of a
word of bytes computes (`swar_eq`).

Key theorems: `testBit_setBit`, `testBit_swapBits`, `testBit_insertZero`,
`insertZero_cover`, `bitSum_fold`, `swar_eq`.
-/
import Mathlib

namespace Words

/-! ### One bit, two bits -/

/-- `j` with bit `t` set to `b`. -/
def setBit (j t : ℕ) (b : Bool) : ℕ := if b then j ||| 2 ^ t else Nat.ldiff j (2 ^ t)

/-- `j` with bits `a` and `b` exchanged. -/
def swapBits (j a b : ℕ) : ℕ := setBit (setBit j a (j.testBit b)) b (j.testBit a)

@[simp] theorem testBit_setBit (j t : ℕ) (b : Bool) (k : ℕ) :
    (setBit j t b).testBit k = if k = t then b else j.testBit k := by
  cases b <;> by_cases h : k = t <;>
    simp [setBit, Nat.testBit_ldiff, h, Ne.symm]

@[simp] theorem testBit_swapBits (j a b k : ℕ) :
    (swapBits j a b).testBit k =
      if k = b then j.testBit a else if k = a then j.testBit b else j.testBit k := by
  simp [swapBits]

theorem setBit_self (j t : ℕ) : setBit j t (j.testBit t) = j := by
  refine Nat.eq_of_testBit_eq fun k => ?_
  by_cases h : k = t <;> simp [h]

theorem setBit_eq_of_testBit {j t : ℕ} {b : Bool} (h : j.testBit t = b) : setBit j t b = j := by
  rw [← h, setBit_self]

theorem setBit_setBit (j t : ℕ) (b c : Bool) : setBit (setBit j t b) t c = setBit j t c := by
  refine Nat.eq_of_testBit_eq fun k => ?_
  by_cases h : k = t <;> simp [h]

/-- A number is below `2 ^ n` if all its set bits are. -/
theorem lt_two_pow_of_testBit {j n : ℕ} (h : ∀ k, j.testBit k = true → k < n) : j < 2 ^ n :=
  Nat.lt_pow_two_of_testBit j fun k hk => by
    by_contra hc
    exact absurd (h k (by simpa using hc)) (by omega)

theorem lt_of_testBit_of_lt {j n k : ℕ} (hj : j < 2 ^ n) (h : j.testBit k = true) : k < n := by
  by_contra hc
  have h0 : j.testBit k = false :=
    Nat.testBit_lt_two_pow (lt_of_lt_of_le hj (Nat.pow_le_pow_right (by norm_num) (by omega)))
  simp [h0] at h

theorem setBit_lt {j t n : ℕ} (hj : j < 2 ^ n) (ht : t < n) (b : Bool) : setBit j t b < 2 ^ n := by
  refine lt_two_pow_of_testBit fun k hk => ?_
  rw [testBit_setBit] at hk
  split_ifs at hk with h
  · omega
  · exact lt_of_testBit_of_lt hj hk

theorem swapBits_lt {j a b n : ℕ} (hj : j < 2 ^ n) (ha : a < n) (hb : b < n) :
    swapBits j a b < 2 ^ n :=
  setBit_lt (setBit_lt hj ha _) hb _

theorem swapBits_swapBits (j a b : ℕ) : swapBits (swapBits j a b) a b = j := by
  refine Nat.eq_of_testBit_eq fun k => ?_
  by_cases ha : k = a <;> by_cases hb : k = b <;> simp_all

theorem swapBits_of_eq {j a b : ℕ} (h : j.testBit a = j.testBit b) : swapBits j a b = j := by
  refine Nat.eq_of_testBit_eq fun k => ?_
  by_cases ha : k = a <;> by_cases hb : k = b <;> simp_all

theorem and_two_pow_ne_zero (j t : ℕ) : j &&& 2 ^ t ≠ 0 ↔ j.testBit t = true := by
  constructor
  · intro h
    by_contra hc
    refine h (Nat.eq_of_testBit_eq fun k => ?_)
    by_cases hk : t = k
    · subst hk; simpa using hc
    · simp [Nat.testBit_two_pow_of_ne hk]
  · intro h h0
    have : (j &&& 2 ^ t).testBit t = true := by simp [h, Nat.testBit_two_pow_self]
    simp [h0] at this

theorem and_two_pow_eq_zero (j t : ℕ) : j &&& 2 ^ t = 0 ↔ j.testBit t = false := by
  have := and_two_pow_ne_zero j t
  cases h : j.testBit t <;> simp_all

/-! ### Inserting a zero bit -/

/-- `i` with a zero inserted at bit `t`: the bits from `t` on move one up. -/
def insertZero (i t : ℕ) : ℕ := (Nat.ldiff i (2 ^ t - 1)) <<< 1 ||| (i &&& (2 ^ t - 1))

theorem testBit_insertZero (i t k : ℕ) : (insertZero i t).testBit k =
    if k < t then i.testBit k else if k = t then false else i.testBit (k - 1) := by
  simp only [insertZero, Nat.testBit_or, Nat.testBit_shiftLeft, Nat.testBit_ldiff,
    Nat.testBit_and, Nat.testBit_two_pow_sub_one]
  rcases lt_trichotomy k t with h | h | h
  · have h1 : k - 1 < t := by omega
    simp [h, h1]
  · subst h
    rcases Nat.eq_zero_or_pos k with rfl | hk
    · simp
    · have h1 : k - 1 < k := by omega
      simp [h1]
  · have h1 : ¬ k - 1 < t := by omega
    have h2 : 1 ≤ k := by omega
    have h3 : ¬ k < t := by omega
    have h4 : k ≠ t := by omega
    simp [h1, h2, h3, h4]

@[simp] theorem testBit_insertZero_self (i t : ℕ) : (insertZero i t).testBit t = false := by
  simp [testBit_insertZero]

theorem insertZero_injective (t : ℕ) : Function.Injective (insertZero · t) := by
  intro i i' h
  refine Nat.eq_of_testBit_eq fun k => ?_
  by_cases hk : k < t
  · simpa [testBit_insertZero, hk] using congrArg (fun j => Nat.testBit j k) h
  · have h1 : ¬ k + 1 < t := by omega
    have h2 : k + 1 ≠ t := by omega
    simpa [testBit_insertZero, h1, h2] using congrArg (fun j => Nat.testBit j (k + 1)) h

theorem insertZero_lt {i t n : ℕ} (hi : i < 2 ^ (n - 1)) (ht : t < n) : insertZero i t < 2 ^ n := by
  refine lt_two_pow_of_testBit fun k hk => ?_
  rw [testBit_insertZero] at hk
  split_ifs at hk with h1 h2
  · omega
  · have := lt_of_testBit_of_lt hi hk
    omega

/-- Every index below `2 ^ n` whose bit `t` is clear is some `insertZero i t`. -/
theorem insertZero_cover {j t n : ℕ} (hj : j < 2 ^ n) (htn : t < n) (ht : j.testBit t = false) :
    ∃ i < 2 ^ (n - 1), insertZero i t = j := by
  refine ⟨Nat.ldiff (j >>> 1) (2 ^ t - 1) ||| (j &&& (2 ^ t - 1)), ?_, ?_⟩
  · refine lt_two_pow_of_testBit fun k hk => ?_
    simp only [Nat.testBit_or, Nat.testBit_ldiff, Nat.testBit_shiftRight, Nat.testBit_and,
      Nat.testBit_two_pow_sub_one, Bool.or_eq_true, Bool.and_eq_true, decide_eq_true_eq,
      Bool.not_eq_true', decide_eq_false_iff_not] at hk
    rcases hk with ⟨h1, h2⟩ | ⟨h1, h2⟩
    · have := lt_of_testBit_of_lt hj h1
      omega
    · omega
  · refine Nat.eq_of_testBit_eq fun k => ?_
    simp only [testBit_insertZero, Nat.testBit_or, Nat.testBit_ldiff, Nat.testBit_shiftRight,
      Nat.testBit_and, Nat.testBit_two_pow_sub_one]
    rcases lt_trichotomy k t with h | h | h
    · simp [h]
    · subst h; simp [ht]
    · have h1 : ¬ k - 1 < t := by omega
      have h3 : ¬ k < t := by omega
      have h4 : k ≠ t := by omega
      simp [h1, h3, h4, show 1 + (k - 1) = k by omega]

/-! ### The number of set bits -/

/-- The number of set bits of `v` below bit `n`. -/
def bitSum (n v : ℕ) : ℕ := ∑ i ∈ Finset.range n, (v.testBit i).toNat

theorem card_testBit (n v : ℕ) : ((Finset.range n).filter fun i => v.testBit i = true).card = bitSum n v := by
  rw [Finset.card_filter, bitSum]
  refine Finset.sum_congr rfl fun i _ => ?_
  cases v.testBit i <;> rfl

/-- Only the first `n` bits count. -/
theorem bitSum_mod_two_pow (n v : ℕ) : bitSum n (v % 2 ^ n) = bitSum n v := by
  refine Finset.sum_congr rfl fun i hi => ?_
  rw [Nat.testBit_mod_two_pow, decide_eq_true (Finset.mem_range.mp hi), Bool.true_and]

theorem bitSum_add (m n v : ℕ) : bitSum (m + n) v = bitSum m v + bitSum n (v >>> m) := by
  simp [bitSum, Finset.sum_range_add]

theorem bitSum_le (n v : ℕ) : bitSum n v ≤ n := by
  calc bitSum n v ≤ ∑ _i ∈ Finset.range n, 1 := Finset.sum_le_sum fun i _ => Bool.toNat_le _
    _ = n := by simp

/-- The bits above the word do not count. -/
theorem bitSum_of_lt {m n v : ℕ} (hv : v < 2 ^ n) (h : n ≤ m) : bitSum m v = bitSum n v := by
  obtain ⟨d, rfl⟩ := Nat.exists_eq_add_of_le h
  have h0 : v >>> n = 0 := by rw [Nat.shiftRight_eq_div_pow]; exact Nat.div_eq_of_lt hv
  rw [bitSum_add, h0]
  simp [bitSum]

/-- **The xor fold keeps the parity.** Folding the upper half of `2 k` bits
onto the lower half leaves the parity of the number of set bits. -/
theorem bitSum_fold (k v : ℕ) : bitSum (k + k) v % 2 = bitSum k (v ^^^ v >>> k) % 2 := by
  have hb : ∀ a b : Bool, (a ^^ b).toNat % 2 = (a.toNat + b.toNat) % 2 := by decide
  calc bitSum (k + k) v % 2
      = (∑ i ∈ Finset.range k, ((v.testBit i).toNat + (v.testBit (k + i)).toNat)) % 2 := by
        rw [bitSum_add, Finset.sum_add_distrib]
        simp [bitSum]
    _ = (∑ i ∈ Finset.range k, ((v.testBit i).toNat + (v.testBit (k + i)).toNat) % 2) % 2 :=
        Finset.sum_nat_mod _ _ _
    _ = (∑ i ∈ Finset.range k, ((v ^^^ v >>> k).testBit i).toNat % 2) % 2 := by
        simp [hb]
    _ = bitSum k (v ^^^ v >>> k) % 2 := (Finset.sum_nat_mod _ _ _).symm

/-! ### Counting set bits in parallel -/

/-- The byte `m` repeated `k` times. -/
def rep : ℕ → ℕ → ℕ
  | 0, _ => 0
  | k + 1, m => m + 256 * rep k m

/-- Every field of 2 bits becomes its number of set bits. -/
def swarPairs (k v : ℕ) : ℕ := v - ((v >>> 1) &&& rep k 0x55)

/-- Every nibble becomes the sum of its two pairs. -/
def swarNibbles (k v : ℕ) : ℕ := (v &&& rep k 0x33) + ((v >>> 2) &&& rep k 0x33)

/-- Every byte becomes the sum of its two nibbles. -/
def swarBytes (k v : ℕ) : ℕ := (v + (v >>> 4)) &&& rep k 0x0f

/-- The parallel count on `k` bytes: every byte becomes its number of set bits. -/
def swar (k v : ℕ) : ℕ := swarBytes k (swarNibbles k (swarPairs k v))

theorem testBit_bytes {b : ℕ} (hb : b < 256) (w k : ℕ) :
    (b + 256 * w).testBit k = if k < 8 then b.testBit k else w.testBit (k - 8) := by
  rw [show b + 256 * w = 2 ^ 8 * w + b by omega]
  exact Nat.testBit_two_pow_mul_add w (i := 8) hb k

theorem and_bytes {a b : ℕ} (ha : a < 256) (hb : b < 256) (x y : ℕ) :
    (a + 256 * x) &&& (b + 256 * y) = (a &&& b) + 256 * (x &&& y) := by
  have hab : a &&& b < 256 := Nat.and_lt_two_pow a (n := 8) hb
  refine Nat.eq_of_testBit_eq fun k => ?_
  simp only [Nat.testBit_and, testBit_bytes ha, testBit_bytes hb, testBit_bytes hab]
  split_ifs <;> rfl

/-- A mask that clears the top `s` bits of a byte hides what a shift by `s`
brings in from the next byte. -/
theorem shift_and_bytes {b m s : ℕ} (hb : b < 256) (hs : s ≤ 8) (hm : m < 2 ^ (8 - s)) (w y : ℕ) :
    ((b + 256 * w) >>> s) &&& (m + 256 * y) = ((b >>> s) &&& m) + 256 * ((w >>> s) &&& y) := by
  have hm' : m < 256 := lt_of_lt_of_le hm (Nat.pow_le_pow_right (by norm_num) (Nat.sub_le 8 s))
  have hbm : (b >>> s) &&& m < 256 := Nat.and_lt_two_pow _ (n := 8) hm'
  refine Nat.eq_of_testBit_eq fun k => ?_
  simp only [Nat.testBit_and, Nat.testBit_shiftRight, testBit_bytes hb, testBit_bytes hm',
    testBit_bytes hbm]
  by_cases hk : k < 8
  · by_cases hsk : s + k < 8
    · simp [hk, hsk]
    · have h0 : m.testBit k = false :=
        Nat.testBit_lt_two_pow (lt_of_lt_of_le hm (Nat.pow_le_pow_right (by norm_num) (by omega)))
      simp [hk, h0]
  · have h1 : ¬ s + k < 8 := by omega
    simp [hk, h1, show s + k - 8 = s + (k - 8) by omega]

theorem swarPairs_succ {b : ℕ} (hb : b < 256) (k w : ℕ) :
    swarPairs (k + 1) (b + 256 * w) = swarPairs 1 b + 256 * swarPairs k w := by
  have h1 : (b >>> 1) &&& 0x55 ≤ b :=
    le_trans Nat.and_le_left (by rw [Nat.shiftRight_eq_div_pow]; exact Nat.div_le_self _ _)
  have h2 : (w >>> 1) &&& rep k 0x55 ≤ w :=
    le_trans Nat.and_le_left (by rw [Nat.shiftRight_eq_div_pow]; exact Nat.div_le_self _ _)
  simp only [swarPairs, rep, shift_and_bytes (m := 0x55) hb (by norm_num : 1 ≤ 8) (by norm_num)]
  simp only [Nat.mul_zero, Nat.add_zero]
  omega

theorem swarNibbles_succ {b : ℕ} (hb : b < 256) (k w : ℕ) :
    swarNibbles (k + 1) (b + 256 * w) = swarNibbles 1 b + 256 * swarNibbles k w := by
  simp only [swarNibbles, rep, shift_and_bytes (m := 0x33) hb (by norm_num : 2 ≤ 8) (by norm_num),
    and_bytes hb (by norm_num : 0x33 < 256)]
  simp only [Nat.mul_zero, Nat.add_zero]
  ring

/-- No nibble overflows when every nibble is at most 4. -/
theorem swarBytes_succ {b w : ℕ} (hb : b ≤ 0x44) (hw : w % 16 ≤ 4) (k : ℕ) :
    swarBytes (k + 1) (b + 256 * w) = swarBytes 1 b + 256 * swarBytes k w := by
  have hs : (b + 256 * w) + ((b + 256 * w) >>> 4) =
      (b + b >>> 4 + 16 * (w % 16)) + 256 * (w + w >>> 4) := by
    simp only [Nat.shiftRight_eq_div_pow]; omega
  have hlt : b + b >>> 4 + 16 * (w % 16) < 256 := by
    simp only [Nat.shiftRight_eq_div_pow]; omega
  have hlow : (b + b >>> 4 + 16 * (w % 16)) &&& 0x0f = (b + b >>> 4) &&& 0x0f := by
    simp only [show (0x0f : ℕ) = 2 ^ 4 - 1 by norm_num, Nat.and_two_pow_sub_one_eq_mod]
    omega
  simp only [swarBytes, rep, hs, and_bytes hlt (by norm_num : 0x0f < 256), hlow, Nat.mul_zero,
    Nat.add_zero]

theorem swarPairs_byte : ∀ b < 256, swarPairs 1 b < 256 := by decide +kernel

theorem swarNibbles_byte : ∀ b < 256,
    swarNibbles 1 (swarPairs 1 b) ≤ 0x44 ∧ swarNibbles 1 (swarPairs 1 b) % 16 ≤ 4 := by
  decide +kernel

theorem swar_byte : ∀ b < 256, swar 1 b = bitSum 8 b := by decide +kernel

theorem swarNibbles_mod (k w : ℕ) : swarNibbles k (swarPairs k w) % 16 ≤ 4 := by
  cases k with
  | zero => simp [swarNibbles, rep]
  | succ k =>
    have hb : w % 256 < 256 := Nat.mod_lt w (by norm_num)
    have h := swarPairs_succ hb k (w / 256)
    rw [Nat.mod_add_div] at h
    rw [h, swarNibbles_succ (swarPairs_byte _ hb)]
    have := (swarNibbles_byte _ hb).2
    omega

theorem swar_succ {b : ℕ} (hb : b < 256) (k w : ℕ) :
    swar (k + 1) (b + 256 * w) = bitSum 8 b + 256 * swar k w := by
  rw [← swar_byte b hb, swar, swarPairs_succ hb, swarNibbles_succ (swarPairs_byte b hb),
    swarBytes_succ (swarNibbles_byte b hb).1 (swarNibbles_mod _ _)]
  rfl

/-- The number with the bytes `f 0, f 1, …`. -/
def ofBytes : ℕ → (ℕ → ℕ) → ℕ
  | 0, _ => 0
  | k + 1, f => f 0 + 256 * ofBytes k fun i => f (i + 1)

/-- **The parallel count.** Every byte of `swar k v` is the number of set bits
of the same byte of `v`. -/
theorem swar_eq : ∀ (k v : ℕ), v < 256 ^ k →
    swar k v = ofBytes k fun i => bitSum 8 (v / 256 ^ i % 256)
  | 0, v, hv => by
    have : v = 0 := by simpa using hv
    subst this
    rfl
  | k + 1, v, hv => by
    have hd : v / 256 < 256 ^ k := Nat.div_lt_of_lt_mul (by rw [pow_succ] at hv; omega)
    have h := swar_succ (Nat.mod_lt v (by norm_num : 256 > 0)) k (v / 256)
    rw [Nat.mod_add_div] at h
    rw [h, swar_eq k _ hd, ofBytes]
    simp only [pow_zero, Nat.div_one, pow_succ', Nat.div_div_eq_div_mul]

/-- The bits of a word are the bits of its bytes. -/
theorem bitSum_bytes : ∀ k v : ℕ,
    bitSum (8 * k) v = ∑ i ∈ Finset.range k, bitSum 8 (v / 256 ^ i % 256)
  | 0, _ => rfl
  | k + 1, v => by
    have hlow : bitSum 8 (v % 256) = bitSum 8 v := bitSum_mod_two_pow 8 v
    rw [show 8 * (k + 1) = 8 + 8 * k by ring, bitSum_add, bitSum_bytes k, Finset.sum_range_succ']
    simp only [pow_zero, Nat.div_one, hlow, Nat.shiftRight_eq_div_pow, pow_succ',
      Nat.div_div_eq_div_mul]
    rw [Nat.add_comm]
    rfl

end Words
