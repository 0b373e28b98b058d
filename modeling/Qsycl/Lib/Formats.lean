/-
# Number formats and rounding to nearest

A format of numbers `m * base ^ e` has a bound on the digits of `m` and may
have a least exponent `e`: decimal numbers of six digits are one, binary
floating point with gradual underflow is one. `NumberFormat.round` takes a
number that is not negative to the nearest one of the format, of two to the
one with the even digits. Nothing in the format is nearer (`abs_sub_round_le`),
and it moves nothing in the format (`round_of_mem`). A number of a fine format
that is nearest to some number of a coarse one is found again from its own
rounding to the coarse one (`round_round`).
-/
import Mathlib

namespace Rounding

variable {K : Type} [Field K] [LinearOrder K]

/-! ### Integers -/

/-- `n` is an integer nearest to `x`, and even if there are two. -/
def Nearest (x : K) (n : ℤ) : Prop := |x - n| + |x - n| < 1 ∨ |x - n| + |x - n| = 1 ∧ Even n

theorem Nearest.le {x : K} {n : ℤ} (h : Nearest x n) : |x - n| + |x - n| ≤ 1 :=
  h.elim le_of_lt fun h => h.1.le

variable [IsStrictOrderedRing K]

/-- What is no further away is nearest too. -/
theorem Nearest.of_le {x y : K} {n : ℤ} (h : Nearest x n) (hle : |y - n| ≤ |x - n|) : Nearest y n := by
  rcases h with h | ⟨h, hn⟩
  · exact .inl (by linarith)
  · rcases hle.lt_or_eq with hlt | heq
    · exact .inl (by linarith)
    · exact .inr ⟨by rw [heq, h], hn⟩

/-- Rounding keeps the order. -/
theorem Nearest.mono {x y : K} {m n : ℤ} (hx : Nearest x m) (hy : Nearest y n) (h : x ≤ y) : m ≤ n := by
  by_contra hlt
  have hstep : n + 1 ≤ m := by omega
  have hcast : (n : K) + 1 ≤ m := by exact_mod_cast hstep
  have h1 := abs_le.mp (show |x - m| ≤ 1 / 2 by linarith [hx.le])
  have h2 := abs_le.mp (show |y - n| ≤ 1 / 2 by linarith [hy.le])
  -- both lie half way between the two integers, so both integers are even
  have hm : (m : K) = n + 1 := by linarith
  have hmn : m = n + 1 := by exact_mod_cast hm
  have hxm : |x - m| + |x - m| = 1 := by
    rw [abs_of_nonpos (by linarith)]
    linarith
  have hyn : |y - n| + |y - n| = 1 := by
    rw [abs_of_nonneg (by linarith)]
    linarith
  have hem : Even m := (hx.resolve_left hxm.ge.not_gt).2
  have hen : Even n := (hy.resolve_left hyn.ge.not_gt).2
  rw [hmn, Int.even_add_one] at hem
  exact hem hen

theorem Nearest.unique {x : K} {m n : ℤ} (hm : Nearest x m) (hn : Nearest x n) : m = n :=
  le_antisymm (hm.mono hn le_rfl) (hn.mono hm le_rfl)

variable [FloorRing K]

/-- The nearest integer, the even one of two. -/
def nearestEven (x : K) : ℤ :=
  let twice := Int.fract x + Int.fract x
  if twice < 1 ∨ twice = 1 ∧ Even ⌊x⌋ then ⌊x⌋ else ⌊x⌋ + 1

theorem nearest_nearestEven (x : K) : Nearest x (nearestEven x) := by
  have hx : (⌊x⌋ : K) + Int.fract x = x := Int.floor_add_fract x
  have h0 := Int.fract_nonneg x
  have h1 := Int.fract_lt_one x
  have hdown : |x - ⌊x⌋| = Int.fract x := by
    rw [abs_of_nonneg (by linarith)]
    linarith
  have hup : |x - (⌊x⌋ + 1 : ℤ)| = 1 - Int.fract x := by
    push_cast
    rw [abs_of_nonpos (by linarith)]
    linarith
  unfold nearestEven
  dsimp only
  split_ifs with h
  · rw [Nearest, hdown]
    exact h
  · obtain ⟨hlt, heven⟩ := not_or.mp h
    rw [Nearest, hup]
    rcases (not_lt.mp hlt).lt_or_eq with hgt | heq
    · exact .inl (by linarith)
    · refine .inr ⟨by linarith, Int.even_add_one.mpr fun he => heven ⟨heq.symm, he⟩⟩

theorem nearestEven_eq_iff {x : K} {n : ℤ} : nearestEven x = n ↔ Nearest x n :=
  ⟨fun h => h ▸ nearest_nearestEven x, (nearest_nearestEven x).unique⟩

@[simp] theorem nearestEven_intCast (n : ℤ) : nearestEven (n : K) = n :=
  nearestEven_eq_iff.mpr (.inl (by simp))

theorem nearestEven_mono {x y : K} (h : x ≤ y) : nearestEven x ≤ nearestEven y :=
  (nearest_nearestEven x).mono (nearest_nearestEven y) h

/-- No integer is nearer. -/
theorem abs_sub_nearestEven_le (x : K) (n : ℤ) : |x - nearestEven x| ≤ |x - n| := by
  by_contra hlt
  have h := (nearest_nearestEven x).le
  have hn : Nearest x n := .inl (by linarith)
  rw [nearestEven_eq_iff.mpr hn] at hlt
  exact hlt le_rfl

/-! ### Formats -/

/-- The numbers `m * base ^ e` with at most `digits` digits in `m`, and `e` not
under `least`, if there is a bound. -/
structure NumberFormat where
  base : ℕ
  digits : ℕ
  least : Option ℤ
  one_lt_base : 1 < base
  digits_pos : 0 < digits

namespace NumberFormat

variable (F : NumberFormat)

/-- `x` is a number of the format. -/
def Mem (x : K) : Prop :=
  ∃ (m : ℕ) (e : ℤ), m < F.base ^ F.digits ∧ (∀ l ∈ F.least, l ≤ e) ∧ x = m * (F.base : K) ^ e

/-- The exponent of the last digit that numbers of the size of `x` have. -/
def exponent (x : K) : ℤ :=
  let e := Int.log F.base x - (F.digits - 1 : ℕ)
  F.least.elim e (max e)

/-- The distance of numbers of the size of `x`. -/
def ulp (x : K) : K := (F.base : K) ^ F.exponent x

/-- The nearest number of the format. -/
def round (x : K) : K := nearestEven (x / F.ulp x) * F.ulp x

variable {F}

section Ulp

variable {x y : K}

theorem base_pos : (0 : K) < F.base := by exact_mod_cast F.one_lt_base.trans' one_pos

theorem one_lt_base' : (1 : K) < F.base := by exact_mod_cast F.one_lt_base

theorem ulp_pos : 0 < F.ulp x := zpow_pos base_pos _

omit [IsStrictOrderedRing K] in
theorem least_le_exponent {l : ℤ} (h : l ∈ F.least) : l ≤ F.exponent x := by
  rw [Option.mem_def] at h
  rw [exponent, h]
  exact le_max_right _ _

omit [IsStrictOrderedRing K] in
theorem log_le_exponent : Int.log F.base x - (F.digits - 1 : ℕ) ≤ F.exponent x := by
  unfold exponent
  cases F.least with
  | none => exact le_rfl
  | some l => exact le_max_left _ _

omit [IsStrictOrderedRing K] in
/-- Above the least exponent the first digit is not zero. -/
theorem exponent_eq_log (h : F.least ≠ some (F.exponent x)) :
    F.exponent x = Int.log F.base x - (F.digits - 1 : ℕ) := by
  revert h
  unfold exponent
  cases F.least with
  | none => exact fun _ => rfl
  | some l =>
    intro h
    rcases max_choice (Int.log F.base x - (F.digits - 1 : ℕ)) l with hm | hm
    · exact hm
    · exact absurd (congrArg some hm.symm) h

theorem exponent_mono (hx : 0 < x) (h : x ≤ y) : F.exponent x ≤ F.exponent y := by
  have hlog := Int.log_mono_right (b := F.base) hx h
  unfold exponent
  cases F.least with
  | none =>
    show Int.log F.base x - _ ≤ Int.log F.base y - _
    omega
  | some l =>
    apply max_le_max _ le_rfl
    omega

/-- A bound on the exponent is one on the size. -/
theorem exponent_le {e : ℤ} (hx : 0 < x) (hle : ∀ l ∈ F.least, l ≤ e)
    (h : x < (F.base : K) ^ ((F.digits : ℤ) + e)) : F.exponent x ≤ e := by
  have hlog : Int.log F.base x < F.digits + e := (Int.lt_zpow_iff_log_lt F.one_lt_base hx).mp h
  have hd := F.digits_pos
  unfold exponent
  cases hl : F.least with
  | none =>
    show Int.log F.base x - _ ≤ e
    omega
  | some l =>
    apply max_le
    · omega
    · exact hle l hl

theorem lt_digits_ulp : x < (F.base : K) ^ F.digits * F.ulp x := by
  have hd := F.digits_pos
  rw [ulp, ← zpow_natCast, ← zpow_add₀ base_pos.ne']
  refine (Int.lt_zpow_succ_log_self F.one_lt_base x).trans_le ?_
  apply zpow_le_zpow_right₀ one_lt_base'.le
  have h := log_le_exponent (F := F) (x := x)
  omega

/-- The least number of the size of `x` that has all digits. -/
theorem digits_ulp_le (hx : 0 < x) (h : F.least ≠ some (F.exponent x)) :
    (F.base : K) ^ (F.digits - 1) * F.ulp x ≤ x := by
  rw [ulp, ← zpow_natCast, ← zpow_add₀ base_pos.ne', exponent_eq_log h, add_sub_cancel]
  exact Int.zpow_log_le_self F.one_lt_base hx

/-- All digits of a number are fewer than those that the next size begins with. -/
theorem digits_ulp_le_of_lt (h : F.exponent x < F.exponent y) :
    (F.base : K) ^ F.digits * F.ulp x ≤ (F.base : K) ^ (F.digits - 1) * F.ulp y := by
  have hd := F.digits_pos
  rw [ulp, ulp, ← zpow_natCast, ← zpow_natCast, ← zpow_add₀ base_pos.ne', ← zpow_add₀ base_pos.ne']
  apply zpow_le_zpow_right₀ one_lt_base'.le
  omega

/-- The distances of larger numbers are multiples. -/
theorem exists_ulp_eq (h : F.exponent x ≤ F.exponent y) :
    F.ulp y = ((F.base ^ (F.exponent y - F.exponent x).toNat : ℕ) : K) * F.ulp x := by
  push_cast
  rw [ulp, ulp, ← zpow_natCast, ← zpow_add₀ base_pos.ne']
  congr 1
  omega

end Ulp

section Round

variable {x y : K}

theorem Mem.nonneg (h : F.Mem x) : 0 ≤ x := by
  obtain ⟨m, e, -, -, rfl⟩ := h
  exact mul_nonneg (Nat.cast_nonneg m) (zpow_pos base_pos e).le

omit [IsStrictOrderedRing K] in
theorem mem_zero : F.Mem (0 : K) := by
  refine ⟨0, F.least.getD 0, pow_pos F.one_lt_base.le _, fun l hl => ?_, by simp⟩
  rw [Option.mem_def] at hl
  rw [hl]
  exact le_rfl

/-- A number of the format, with the exponent that its size has. -/
theorem Mem.exists_eq (h : F.Mem x) : ∃ m : ℕ, m < F.base ^ F.digits ∧ x = m * F.ulp x := by
  obtain ⟨m, e, hm, hle, hx⟩ := h
  by_cases hm0 : m = 0
  · refine ⟨0, pow_pos F.one_lt_base.le _, ?_⟩
    rw [hx, hm0]
    simp
  · have hpos : 0 < x := by
      rw [hx]
      exact mul_pos (by exact_mod_cast Nat.pos_of_ne_zero hm0) (zpow_pos base_pos e)
    have hlt : x < (F.base : K) ^ ((F.digits : ℤ) + e) := by
      rw [hx, zpow_add₀ base_pos.ne', zpow_natCast]
      exact mul_lt_mul_of_pos_right (by exact_mod_cast hm) (zpow_pos base_pos e)
    have hexp := exponent_le hpos hle hlt
    have heq : x = ((m * F.base ^ (e - F.exponent x).toNat : ℕ) : K) * F.ulp x := by
      push_cast
      rw [mul_assoc, ulp, ← zpow_natCast, ← zpow_add₀ base_pos.ne', hx]
      congr 2
      rw [← hx]
      omega
    refine ⟨_, ?_, heq⟩
    have h := heq.symm.trans_lt (lt_digits_ulp (F := F))
    exact_mod_cast lt_of_mul_lt_mul_right h ulp_pos.le

/-- A number is a multiple of the distance of smaller numbers. -/
theorem Mem.exists_eq_mul (h : F.Mem y) (hxy : F.exponent x ≤ F.exponent y) :
    ∃ n : ℕ, y = n * F.ulp x := by
  obtain ⟨m, -, hm⟩ := h.exists_eq
  refine ⟨m * F.base ^ (F.exponent y - F.exponent x).toNat, ?_⟩
  rw [Nat.cast_mul, mul_assoc, ← exists_ulp_eq hxy]
  exact hm

/-- Rounding does not pass a multiple of the distance. -/
theorem round_le {n : ℤ} (h : x ≤ n * F.ulp x) : F.round x ≤ n * F.ulp x := by
  have hn : nearestEven (x / F.ulp x) ≤ n := by
    rw [← nearestEven_intCast (K := K) n]
    exact nearestEven_mono ((div_le_iff₀ ulp_pos).mpr h)
  exact mul_le_mul_of_nonneg_right (by exact_mod_cast hn) ulp_pos.le

theorem le_round {n : ℤ} (h : n * F.ulp x ≤ x) : n * F.ulp x ≤ F.round x := by
  have hn : n ≤ nearestEven (x / F.ulp x) := by
    rw [← nearestEven_intCast (K := K) n]
    exact nearestEven_mono ((le_div_iff₀ ulp_pos).mpr h)
  exact mul_le_mul_of_nonneg_right (by exact_mod_cast hn) ulp_pos.le

/-- The exponent of a number whose size is known. -/
theorem exponent_eq {e : ℤ} (hle : ∀ l ∈ F.least, l ≤ e)
    (hlow : (F.base : K) ^ (F.digits - 1) * (F.base : K) ^ e ≤ x)
    (hhigh : x < (F.base : K) ^ F.digits * (F.base : K) ^ e) : F.exponent x = e := by
  have hd := F.digits_pos
  have hx : 0 < x := (mul_pos (pow_pos base_pos _) (zpow_pos base_pos e)).trans_le hlow
  rw [← zpow_natCast, ← zpow_add₀ base_pos.ne'] at hlow hhigh
  apply le_antisymm (exponent_le hx hle hhigh)
  have hlog := (Int.zpow_le_iff_le_log F.one_lt_base hx).mp hlow
  have h := log_le_exponent (F := F) (x := x)
  omega

/-- Rounding a number whose size is known. -/
theorem round_eq {e n : ℤ} (hle : ∀ l ∈ F.least, l ≤ e)
    (hlow : (F.base : K) ^ (F.digits - 1) * (F.base : K) ^ e ≤ x)
    (hhigh : x < (F.base : K) ^ F.digits * (F.base : K) ^ e) (hn : Nearest (x / (F.base : K) ^ e) n) :
    F.round x = n * (F.base : K) ^ e := by
  rw [round, ulp, exponent_eq hle hlow hhigh, nearestEven_eq_iff.mpr hn]

theorem round_nonneg (h : 0 ≤ x) : 0 ≤ F.round x := by
  have h0 := le_round (F := F) (x := x) (n := 0) (by simpa using h)
  simpa using h0

/-- **Numbers of the format stay.** -/
theorem round_of_mem (h : F.Mem x) : F.round x = x := by
  obtain ⟨m, -, hm⟩ := h.exists_eq
  have hdiv : x / F.ulp x = ((m : ℤ) : K) := by
    rw [div_eq_iff ulp_pos.ne', Int.cast_natCast]
    exact hm
  rw [round, hdiv, nearestEven_intCast, Int.cast_natCast]
  exact hm.symm

@[simp] theorem round_zero : F.round (0 : K) = 0 := round_of_mem mem_zero

/-- The first digits of the next size. -/
theorem round_le_digits : F.round x ≤ (F.base : K) ^ F.digits * F.ulp x := by
  have h := round_le (F := F) (x := x) (n := (F.base : ℤ) ^ F.digits) (by
    push_cast
    exact lt_digits_ulp.le)
  push_cast at h
  exact h

theorem digits_le_round (hx : 0 < x) (h : F.least ≠ some (F.exponent x)) :
    (F.base : K) ^ (F.digits - 1) * F.ulp x ≤ F.round x := by
  have h := le_round (F := F) (x := x) (n := (F.base : ℤ) ^ (F.digits - 1)) (by
    push_cast
    exact digits_ulp_le hx h)
  push_cast at h
  exact h

/-- **What rounding gives is in the format.** -/
theorem mem_round (hx : 0 ≤ x) : F.Mem (F.round x) := by
  have hd := F.digits_pos
  obtain ⟨m, hm⟩ : ∃ m : ℕ, nearestEven (x / F.ulp x) = m := by
    apply Int.eq_ofNat_of_zero_le
    rw [← nearestEven_intCast (K := K) 0]
    apply nearestEven_mono
    rw [Int.cast_zero]
    exact div_nonneg hx ulp_pos.le
  have hround : F.round x = m * F.ulp x := by rw [round, hm, Int.cast_natCast]
  by_cases hlt : m < F.base ^ F.digits
  · exact ⟨m, F.exponent x, hlt, fun l hl => least_le_exponent hl, hround⟩
  · -- a carry into the next size
    have hle : m ≤ F.base ^ F.digits := by
      have h := round_le_digits (F := F) (x := x)
      rw [hround] at h
      exact_mod_cast le_of_mul_le_mul_right h ulp_pos
    refine ⟨F.base ^ (F.digits - 1), F.exponent x + 1, ?_, fun l hl => ?_, ?_⟩
    · exact Nat.pow_lt_pow_right F.one_lt_base (by omega)
    · have h := least_le_exponent (x := x) hl
      omega
    · rw [hround, le_antisymm hle (not_lt.mp hlt), zpow_add_one₀ base_pos.ne', mul_comm _ (F.base : K),
        ← mul_assoc, ulp]
      congr 1
      rw [← Nat.cast_mul, ← pow_succ, Nat.sub_add_cancel hd]

omit [IsStrictOrderedRing K] in
/-- A number that has a smaller one under its size has all digits. -/
theorem least_ne_of_lt (h : F.exponent x < F.exponent y) : F.least ≠ some (F.exponent y) := fun heq =>
  absurd (least_le_exponent (x := x) (Option.mem_def.mpr heq)) (not_le.mpr h)

/-- The distance to a multiple. -/
theorem abs_sub_mul_ulp (n : ℤ) : |x - n * F.ulp x| = |x / F.ulp x - n| * F.ulp x := by
  calc |x - n * F.ulp x| = |(x / F.ulp x - n) * F.ulp x| := by rw [sub_mul, div_mul_cancel₀ _ ulp_pos.ne']
    _ = |x / F.ulp x - n| * F.ulp x := by rw [abs_mul, abs_of_pos (ulp_pos (F := F) (x := x))]

/-- Rounding moves a number by half the distance at most. -/
theorem abs_sub_round_le_ulp : |x - F.round x| + |x - F.round x| ≤ F.ulp x := by
  rw [round, abs_sub_mul_ulp, ← add_mul]
  exact mul_le_of_le_one_left ulp_pos.le (nearest_nearestEven _).le

/-- No multiple of the distance is nearer. -/
theorem abs_sub_round_le_mul (n : ℤ) : |x - F.round x| ≤ |x - n * F.ulp x| := by
  rw [round, abs_sub_mul_ulp, abs_sub_mul_ulp]
  exact mul_le_mul_of_nonneg_right (abs_sub_nearestEven_le _ n) ulp_pos.le

/-- **No number of the format is nearer.** -/
theorem abs_sub_round_le (hx : 0 ≤ x) (hy : F.Mem y) : |x - F.round x| ≤ |x - y| := by
  rcases hx.eq_or_lt with rfl | hpos
  · rw [round_zero, sub_zero, abs_zero]
    exact abs_nonneg _
  by_cases hle : F.exponent x ≤ F.exponent y
  · obtain ⟨n, rfl⟩ := hy.exists_eq_mul hle
    exact_mod_cast abs_sub_round_le_mul (F := F) (x := x) n
  · -- `y` is under the first digits of the size of `x`
    have hlt := not_le.mp hle
    have hfirst := digits_ulp_le hpos (least_ne_of_lt hlt)
    have hylt : y ≤ (F.base : K) ^ (F.digits - 1) * F.ulp x :=
      lt_digits_ulp.le.trans (digits_ulp_le_of_lt hlt)
    calc |x - F.round x| ≤ |x - ((F.base ^ (F.digits - 1) : ℕ) : ℤ) * F.ulp x| := abs_sub_round_le_mul _
      _ = x - (F.base : K) ^ (F.digits - 1) * F.ulp x := by
          push_cast
          exact abs_of_nonneg (sub_nonneg.mpr hfirst)
      _ ≤ |x - y| := (sub_le_sub_left hylt x).trans (le_abs_self _)

theorem Mem.ulp_le (h : F.Mem x) (hpos : 0 < x) : F.ulp x ≤ x := by
  obtain ⟨m, -, hm⟩ := h.exists_eq
  have hm0 : m ≠ 0 := fun h0 => hpos.ne' (by rw [hm, h0, Nat.cast_zero, zero_mul])
  have hm1 : (1 : K) ≤ m := by exact_mod_cast Nat.one_le_iff_ne_zero.mpr hm0
  calc F.ulp x ≤ m * F.ulp x := le_mul_of_one_le_left ulp_pos.le hm1
    _ = x := hm.symm

/-- The next number has no more digits, or is the first of the next size. -/
theorem Mem.add_ulp_le (h : F.Mem x) : x + F.ulp x ≤ (F.base : K) ^ F.digits * F.ulp x := by
  obtain ⟨m, hm, hmx⟩ := h.exists_eq
  have hm' : (m : K) + 1 ≤ (F.base : K) ^ F.digits := by exact_mod_cast hm
  calc x + F.ulp x = ((m : K) + 1) * F.ulp x := by rw [add_mul, one_mul, ← hmx]
    _ ≤ (F.base : K) ^ F.digits * F.ulp x := mul_le_mul_of_nonneg_right hm' ulp_pos.le

/-- Two numbers of the format differ by the distance at least. -/
theorem Mem.ulp_le_sub (hx : F.Mem x) (hy : F.Mem y) (hpos : 0 < x) (h : x < y) : F.ulp x ≤ y - x := by
  obtain ⟨m, -, hm⟩ := hx.exists_eq
  obtain ⟨n, hn⟩ := hy.exists_eq_mul (exponent_mono hpos h.le)
  have hlt : m < n := by
    have hmn : (m : K) * F.ulp x < n * F.ulp x := by rwa [← hm, ← hn]
    exact_mod_cast lt_of_mul_lt_mul_right hmn ulp_pos.le
  have hone : (m : K) + 1 ≤ n := by exact_mod_cast hlt
  calc F.ulp x = ((m : K) + 1) * F.ulp x - m * F.ulp x := by ring
    _ ≤ n * F.ulp x - m * F.ulp x := sub_le_sub_right (mul_le_mul_of_nonneg_right hone ulp_pos.le) _
    _ = y - x := by rw [← hm, ← hn]

theorem pos_of_round_pos (hx : 0 ≤ x) (h : 0 < F.round x) : 0 < x := by
  apply hx.lt_of_ne
  intro h0
  rw [← h0, round_zero] at h
  exact h.false

/-- The size does not shrink. -/
theorem exponent_le_exponent_round (hx : 0 ≤ x) (h : 0 < F.round x) :
    F.exponent x ≤ F.exponent (F.round x) := by
  by_cases hl : F.least = some (F.exponent x)
  · exact least_le_exponent (Option.mem_def.mpr hl)
  · have hd := F.digits_pos
    have hle := digits_le_round (pos_of_round_pos hx h) hl
    rw [ulp, ← zpow_natCast, ← zpow_add₀ base_pos.ne',
      Int.zpow_le_iff_le_log F.one_lt_base h] at hle
    have hlog := log_le_exponent (F := F) (x := F.round x)
    omega

/-- A number is at half the distance from the one that it rounds to. -/
theorem abs_sub_round_le_ulp_round (hx : 0 ≤ x) (h : 0 < F.round x) :
    |x - F.round x| + |x - F.round x| ≤ F.ulp (F.round x) := by
  apply abs_sub_round_le_ulp.trans
  apply zpow_le_zpow_right₀ one_lt_base'.le
  exact exponent_le_exponent_round hx h

/-- The digits that a number is rounded to. -/
theorem round_eq_iff {n : ℤ} : F.round x = n * F.ulp x ↔ Nearest (x / F.ulp x) n := by
  rw [round, mul_left_inj' ulp_pos.ne', Int.cast_inj, nearestEven_eq_iff]

end Round

/-! ### Two formats -/

section Coarse

variable {C : NumberFormat} {a d : K}

/-- Two numbers of the coarse format next to a number with all digits of the
fine one are not as close as two of the fine one. -/
theorem Mem.not_lt_of_close {lo hi : K} (hlo : C.Mem lo) (hhi : C.Mem hi)
    (hfine : C.base ^ C.digits + 1 ≤ F.base ^ (F.digits - 1))
    (hsize : (F.base : K) ^ (F.digits - 1) * F.ulp a ≤ a) (hge : a - F.ulp a ≤ lo)
    (hclose : hi - lo ≤ F.ulp a) : ¬lo < hi := by
  intro hlt
  have hup := ulp_pos (F := F) (x := a)
  have hpow : (0 : K) < (C.base : K) ^ C.digits := pow_pos base_pos _
  have hfine' : (C.base : K) ^ C.digits + 1 ≤ (F.base : K) ^ (F.digits - 1) := by exact_mod_cast hfine
  have hlarge : (C.base : K) ^ C.digits * F.ulp a ≤ lo := by
    calc (C.base : K) ^ C.digits * F.ulp a = ((C.base : K) ^ C.digits + 1) * F.ulp a - F.ulp a := by ring
      _ ≤ a - F.ulp a := sub_le_sub_right ((mul_le_mul_of_nonneg_right hfine' hup.le).trans hsize) _
      _ ≤ lo := hge
  have hgap := hlo.ulp_le_sub hhi ((mul_pos hpow hup).trans_le hlarge) hlt
  have hsmall : lo < (C.base : K) ^ C.digits * F.ulp a := by
    calc lo < (C.base : K) ^ C.digits * C.ulp lo := lt_digits_ulp
      _ ≤ (C.base : K) ^ C.digits * F.ulp a := mul_le_mul_of_nonneg_left (hgap.trans hclose) hpow.le
  exact hsmall.not_ge hlarge

/-- Where the least exponent is not reached, a number of the fine format is
nearest to one number of the coarse format at most, from which it rounds. -/
theorem round_eq_of_normal (hfine : C.base ^ C.digits + 1 ≤ F.base ^ (F.digits - 1)) (hd : C.Mem d)
    (ha : 0 < a) (h : F.round d = a) (hn : F.least ≠ some (F.exponent a)) : C.round a = d := by
  have hd' : C.Mem (C.round a) := mem_round ha.le
  have hsize : (F.base : K) ^ (F.digits - 1) * F.ulp a ≤ a := digits_ulp_le ha hn
  -- both numbers of the coarse format are at half the distance from `a`
  have hnear : |d - a| + |d - a| ≤ F.ulp a := by
    rw [← h] at ha ⊢
    exact abs_sub_round_le_ulp_round hd.nonneg ha
  have hnear' : |a - C.round a| ≤ |a - d| := abs_sub_round_le ha.le hd
  rw [abs_sub_comm a d] at hnear'
  have habs := abs_le.mp (le_refl |d - a|)
  have habs' := abs_le.mp hnear'
  rcases lt_trichotomy (C.round a) d with hlt | heq | hlt
  · exact absurd hlt (hd'.not_lt_of_close hd hfine hsize (by linarith) (by linarith))
  · exact heq
  · exact absurd hlt (hd.not_lt_of_close hd' hfine hsize (by linarith) (by linarith))

/-- What is next to a number at the least exponent is at the least exponent. -/
theorem exponent_eq_of_near (hmem : F.Mem a) (ha : 0 < a) (hn : F.least = some (F.exponent a)) {x : K}
    (hx : |x - a| + |x - a| ≤ F.ulp a) : F.exponent x = F.exponent a := by
  have habs := abs_le.mp (le_refl |x - a|)
  have hlow := hmem.ulp_le ha
  have hhigh := hmem.add_ulp_le
  have hup := ulp_pos (F := F) (x := a)
  apply le_antisymm
  · apply exponent_le
    · linarith
    · intro l hl
      rw [Option.mem_def, hn] at hl
      exact (Option.some.inj hl).ge
    · rw [zpow_add₀ base_pos.ne', zpow_natCast]
      exact lt_of_lt_of_le (by linarith) hhigh
  · exact least_le_exponent (Option.mem_def.mpr hn)

/-- At the least exponent the distance is the same on both sides of a number. -/
theorem round_eq_of_least (hd : 0 ≤ d) (ha : 0 < a) (h : F.round d = a)
    (hn : F.least = some (F.exponent a)) {x : K} (hle : |x - a| ≤ |d - a|) : F.round x = a := by
  have hmem : F.Mem a := h ▸ mem_round hd
  have hnear : |d - a| + |d - a| ≤ F.ulp a := by
    rw [← h] at ha ⊢
    exact abs_sub_round_le_ulp_round hd ha
  have hulp : F.ulp d = F.ulp a := by rw [ulp, ulp, exponent_eq_of_near hmem ha hn hnear]
  have hulp' : F.ulp x = F.ulp a := by
    rw [ulp, ulp, exponent_eq_of_near hmem ha hn ((add_le_add hle hle).trans hnear)]
  -- `d` rounds to the digits of `a`, and so does what is no further away
  obtain ⟨n, hdn, han⟩ : ∃ n : ℤ, Nearest (d / F.ulp d) n ∧ a = n * F.ulp a :=
    ⟨_, nearest_nearestEven _, by rw [← hulp]; exact h.symm⟩
  have hscale : |x / F.ulp x - n| * F.ulp a ≤ |d / F.ulp d - n| * F.ulp a := by
    calc |x / F.ulp x - n| * F.ulp a = |x - a| := by rw [← hulp', ← abs_sub_mul_ulp, hulp', ← han]
      _ ≤ |d - a| := hle
      _ = |d / F.ulp d - n| * F.ulp a := by rw [← hulp, ← abs_sub_mul_ulp, hulp, ← han]
  calc F.round x = n * F.ulp x := round_eq_iff.mpr (hdn.of_le (le_of_mul_le_mul_right hscale ulp_pos))
    _ = a := by rw [hulp', ← han]

/-- **Rounding to a coarse format and back.** A number of the fine format that
is nearest to some number of the coarse one is nearest to its own rounding. -/
theorem round_round (hfine : C.base ^ C.digits + 1 ≤ F.base ^ (F.digits - 1)) (hd : C.Mem d)
    (h : F.round d = a) : F.round (C.round a) = a := by
  have ha : 0 ≤ a := h ▸ round_nonneg hd.nonneg
  rcases ha.eq_or_lt with rfl | hpos
  · rw [round_zero, round_zero]
  by_cases hn : F.least = some (F.exponent a)
  · apply round_eq_of_least hd.nonneg hpos h hn
    rw [abs_sub_comm _ a, abs_sub_comm d]
    exact abs_sub_round_le ha hd
  · rw [round_eq_of_normal hfine hd hpos h hn]
    exact h

end Coarse

end NumberFormat

end Rounding
