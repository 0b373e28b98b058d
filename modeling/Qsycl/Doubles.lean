/-
# Doubles and their text

Angles are doubles. An output stream with default flags prints one with six
significant digits, in fixed or in scientific notation (`printDouble`). What it
prints reads as the double rounded to six digits (`readDecimal_printDouble`),
so the double comes back exactly if it is the one nearest to some number of six
digits (`strtod_printDouble_iff`).
-/
import Qsycl.Lib.Formats
import Qsycl.Types

namespace Qsycl

open Rounding

/-- Floating point of 64 bits. -/
def binary64 : NumberFormat := ⟨2, 53, some (-1074), by decide, by decide⟩

/-- Decimal numbers of six digits. -/
def sixDigits : NumberFormat := ⟨10, 6, none, by decide, by decide⟩

/-! ### Doubles -/

/-- A finite `double`. -/
@[ext] structure Double where
  negative : Bool
  magnitude : ℚ
  mem : binary64.Mem magnitude
  lt : magnitude < ((2 : ℕ) : ℚ) ^ 1024
  deriving DecidableEq

namespace Double

def value (a : Double) : ℚ := if a.negative then -a.magnitude else a.magnitude

/-- The double nearest to a number, unless that is infinite. -/
def nearest (negative : Bool) (x : ℚ) : Option Double :=
  if h : 0 ≤ x ∧ binary64.round x < ((2 : ℕ) : ℚ) ^ 1024 then
    some ⟨negative, binary64.round x, NumberFormat.mem_round h.1, h.2⟩
  else none

theorem nearest_of_mem {x : ℚ} (negative : Bool) (hx : binary64.Mem x) (hlt : x < ((2 : ℕ) : ℚ) ^ 1024) :
    nearest negative x = some ⟨negative, x, hx, hlt⟩ := by
  have hround := NumberFormat.round_of_mem hx
  rw [nearest, dif_pos ⟨hx.nonneg, by rwa [hround]⟩]
  congr

/-- A number is nearest to the double that it rounds to. -/
theorem nearest_eq_some_iff {a : Double} {x : ℚ} (hx : 0 ≤ x) :
    nearest a.negative x = some a ↔ binary64.round x = a.magnitude := by
  unfold nearest
  constructor
  · intro h
    split at h
    · exact congrArg magnitude (Option.some.inj h)
    · cases h
  · intro h
    rw [dif_pos ⟨hx, h.trans_lt a.lt⟩]
    exact congrArg some (Double.ext rfl h)

/-- `m * 2 ^ e`. -/
def scaled (m : ℕ) (e : ℤ) (hm : m < 2 ^ 53) (hlow : -1074 ≤ e) (hhigh : e ≤ 971) : Double where
  negative := false
  magnitude := m * ((2 : ℕ) : ℚ) ^ e
  mem := ⟨m, e, hm, fun l hl => Option.some.inj hl ▸ hlow, rfl⟩
  lt := by
    have hm' : (m : ℚ) < ((2 : ℕ) : ℚ) ^ 53 := by exact_mod_cast hm
    have he : ((2 : ℕ) : ℚ) ^ e ≤ ((2 : ℕ) : ℚ) ^ (971 : ℤ) := zpow_le_zpow_right₀ (by norm_num) hhigh
    calc (m : ℚ) * ((2 : ℕ) : ℚ) ^ e < ((2 : ℕ) : ℚ) ^ 53 * ((2 : ℕ) : ℚ) ^ e :=
          mul_lt_mul_of_pos_right hm' (zpow_pos (by norm_num) e)
      _ ≤ ((2 : ℕ) : ℚ) ^ 53 * ((2 : ℕ) : ℚ) ^ (971 : ℤ) := mul_le_mul_of_nonneg_left he (by positivity)
      _ = ((2 : ℕ) : ℚ) ^ 1024 := by
          rw [← zpow_natCast, ← zpow_natCast, ← zpow_add₀ (by norm_num)]
          rfl

instance instZeroDouble : Zero Double :=
  ⟨⟨false, 0, NumberFormat.mem_zero, by positivity⟩⟩

instance instTwoDouble : OfNat Double 2 :=
  ⟨⟨false, ((2 : ℕ) : ℚ), ⟨2, 0, by decide, by decide, by simp⟩, by
    rw [← pow_one ((2 : ℕ) : ℚ), ← pow_mul]
    exact pow_lt_pow_right₀ (by norm_num) (by norm_num)⟩⟩

instance instOneDouble : One Double :=
  ⟨⟨false, 1, ⟨1, 0, by decide, by decide, by simp⟩, one_lt_pow₀ (by norm_num) (by decide)⟩⟩

instance instNegDouble : Neg Double := ⟨fun a => { a with negative := !a.negative }⟩

/-- The quotient; one that is infinite or no number is left 0. -/
instance instDivDouble : Div Double :=
  ⟨fun a b => (nearest (a.negative != b.negative) (a.magnitude / b.magnitude)).getD 0⟩

/-- The product; one that is infinite is left 0. -/
instance instMulDouble : Mul Double :=
  ⟨fun a b => (nearest (a.negative != b.negative) (a.magnitude * b.magnitude)).getD 0⟩

/-- The sum; one that is infinite is left 0. -/
instance instAddDouble : Add Double :=
  ⟨fun a b =>
    let sum := a.value + b.value
    (nearest (if sum = 0 then a.negative && b.negative else sum < 0) |sum|).getD 0⟩

instance instSubDouble : Sub Double := ⟨fun a b => a + -b⟩

@[simp] theorem negative_neg (a : Double) : (-a).negative = !a.negative := rfl

@[simp] theorem magnitude_neg (a : Double) : (-a).magnitude = a.magnitude := rfl

theorem one_mul_double (a : Double) : 1 * a = a := by
  have hmul : 1 * a = (nearest (false != a.negative) (1 * a.magnitude)).getD 0 := rfl
  rw [hmul, Bool.false_bne, one_mul, nearest_of_mem _ a.mem a.lt]
  rfl

/-- The sum is the nearest double. -/
theorem add_eq {a b c : Double} (hsum : 0 < a.value + b.value) (hc : c.negative = false)
    (h : binary64.round (a.value + b.value) = c.magnitude) : a + b = c := by
  have hadd : a + b = (nearest (if a.value + b.value = 0 then a.negative && b.negative
      else decide (a.value + b.value < 0)) |a.value + b.value|).getD 0 := rfl
  rw [hadd, if_neg hsum.ne', decide_eq_false hsum.le.not_gt, abs_of_pos hsum, ← hc,
    (nearest_eq_some_iff hsum.le).mpr h]
  rfl

end Double

/-! ### Text -/

/-- A number in decimal, with zeros before it. -/
def paddedDigits (width n : ℕ) : List Char := (Nat.toDigits 10 n).leftpad width '0'

/-- Digits with a point after the first `k`, without the zeros at the end. -/
def pointed (digits : List Char) (k : ℕ) : List Char :=
  let fraction := (digits.drop k).rdropWhile (· == '0')
  digits.take k ++ if fraction.isEmpty then [] else '.' :: fraction

/-- What `std::ostream` prints for a double with default flags, `%g`. -/
def printDouble (a : Double) : String :=
  let rounded := sixDigits.round a.magnitude
  let exponent := Int.log 10 rounded
  let digits := paddedDigits 6 ⌊rounded / sixDigits.ulp rounded⌋₊
  .ofList <| (if a.negative then ['-'] else []) ++
    if -4 ≤ exponent ∧ exponent < 6 then
      pointed (List.replicate (-exponent).toNat '0' ++ digits) (exponent.toNat + 1)
    else
      pointed digits 1 ++ 'e' :: (if exponent < 0 then '-' else '+') :: paddedDigits 2 exponent.natAbs

/-- An integer with or without a sign. -/
def readInteger (s : List Char) : Option ℤ :=
  let digits := if s.head? = some '-' ∨ s.head? = some '+' then s.tail else s
  if digits ≠ [] ∧ digits.all Char.isDigit then
    some ((if s.head? = some '-' then -1 else 1) * (Nat.ofDigitChars 10 digits 0 : ℤ))
  else none

def readExponent (s : List Char) : Option ℤ :=
  if s = [] then some 0
  else if s.head? = some 'e' ∨ s.head? = some 'E' then readInteger s.tail
  else none

/-- A decimal number without a sign. -/
def readUnsigned (s : List Char) : Option ℚ := do
  let (whole, rest) := s.span Char.isDigit
  let (fraction, rest) := if rest.head? = some '.' then rest.tail.span Char.isDigit else ([], rest)
  if whole ++ fraction = [] then none
  let exponent ← readExponent rest
  return Nat.ofDigitChars 10 (whole ++ fraction) 0 * ((10 : ℕ) : ℚ) ^ (exponent - (fraction.length : ℤ))

/-- A decimal number: whether it has a minus sign, and its size. -/
def readDecimal (s : List Char) : Option (Bool × ℚ) :=
  if s.head? = some '-' then (readUnsigned s.tail).map (true, ·) else (readUnsigned s).map (false, ·)

/-- The double that a literal stands for. -/
def strtod (s : String) : Option Double := do
  let (negative, x) ← readDecimal s.toList
  Double.nearest negative x

/-! ### Digits -/

section Digits

variable {digits : List Char} {width n : ℕ}

theorem isDigit_replicate_append (h : ∀ c ∈ digits, c.isDigit = true) (k : ℕ) :
    ∀ c ∈ List.replicate k '0' ++ digits, c.isDigit = true := by
  intro c hc
  rcases List.mem_append.mp hc with hc | hc
  · rw [List.eq_of_mem_replicate hc]
    rfl
  · exact h c hc

theorem isDigit_paddedDigits : ∀ c ∈ paddedDigits width n, c.isDigit = true :=
  isDigit_replicate_append (fun _ hc => Nat.isDigit_of_mem_toDigits (by decide) (by decide) hc) _

@[simp] theorem ofDigitChars_replicate_append (k : ℕ) :
    Nat.ofDigitChars 10 (List.replicate k '0' ++ digits) 0 = Nat.ofDigitChars 10 digits 0 := by
  rw [Nat.ofDigitChars_append, Nat.ofDigitChars_replicate_zero, Nat.mul_zero]

theorem ofDigitChars_paddedDigits : Nat.ofDigitChars 10 (paddedDigits width n) 0 = n := by
  rw [paddedDigits, List.leftpad, ofDigitChars_replicate_append, Nat.ofDigitChars_ten_toDigits]

theorem length_paddedDigits (hw : 0 < width) (h : n < 10 ^ width) : (paddedDigits width n).length = width := by
  rw [paddedDigits, List.length_leftpad]
  exact Nat.max_eq_left ((Nat.length_toDigits_le_iff (by decide) hw).mpr h)

theorem paddedDigits_ne_nil : paddedDigits width n ≠ [] :=
  List.append_ne_nil_of_right_ne_nil _ Nat.toDigits_ne_nil

/-- Zeros at the end, in front of the exponent. -/
theorem ofDigitChars_append_zeros (k : ℕ) :
    Nat.ofDigitChars 10 (digits ++ List.replicate k '0') 0 = 10 ^ k * Nat.ofDigitChars 10 digits 0 := by
  rw [Nat.ofDigitChars_append, Nat.ofDigitChars_replicate_zero]

/-- What is left of digits without the zeros at the end. -/
theorem exists_rdropWhile (s : List Char) : ∃ k, s = s.rdropWhile (· == '0') ++ List.replicate k '0' := by
  refine ⟨(s.rtakeWhile (· == '0')).length, ?_⟩
  have hzeros : s.rtakeWhile (· == '0') = List.replicate (s.rtakeWhile (· == '0')).length '0' :=
    List.eq_replicate_of_mem fun c hc => by simpa using List.mem_rtakeWhile_imp hc
  rw [← hzeros]
  exact List.rdropWhile_append_rtakeWhile.symm

/-- Reading digits stops behind them. -/
theorem span_isDigit {rest : List Char} (h : ∀ c ∈ digits, c.isDigit = true)
    (hrest : ∀ c ∈ rest.head?, c.isDigit = false) : (digits ++ rest).span Char.isDigit = (digits, rest) := by
  rw [List.span_eq_takeWhile_dropWhile, List.takeWhile_append_of_pos h, List.dropWhile_append_of_pos h]
  cases rest with
  | nil => simp
  | cons c rest =>
    have hc := hrest c rfl
    simp [hc]

end Digits

/-! ### Reading what is printed -/

theorem readInteger_signed (negative : Bool) {digits : List Char} (h : ∀ c ∈ digits, c.isDigit = true)
    (hne : digits ≠ []) : readInteger ((if negative then '-' else '+') :: digits) =
      some ((if negative then -1 else 1) * (Nat.ofDigitChars 10 digits 0 : ℤ)) := by
  have hall : digits.all Char.isDigit = true := List.all_eq_true.mpr h
  cases negative <;> simp [readInteger, hne, hall]

/-- The exponent that is printed. -/
theorem readExponent_printed (exponent : ℤ) :
    readExponent ('e' :: (if exponent < 0 then '-' else '+') :: paddedDigits 2 exponent.natAbs) =
      some exponent := by
  have hdigit : ∀ c ∈ paddedDigits 2 exponent.natAbs, c.isDigit = true := isDigit_paddedDigits
  have hread := readInteger_signed (decide (exponent < 0)) hdigit paddedDigits_ne_nil
  rw [ofDigitChars_paddedDigits] at hread
  simp only [decide_eq_true_eq] at hread
  calc readExponent _ = readInteger _ := by rw [readExponent, if_neg nofun, if_pos (.inl rfl), List.tail_cons]
    _ = _ := hread
    _ = some exponent := by
        congr 1
        split_ifs with h <;> omega

theorem readUnsigned_eq {s whole rest fraction rest' : List Char} (hwhole : s.span Char.isDigit = (whole, rest))
    (hfraction : (if rest.head? = some '.' then rest.tail.span Char.isDigit else ([], rest)) = (fraction, rest'))
    (hne : whole ++ fraction ≠ []) : readUnsigned s = (readExponent rest').map fun exponent =>
      Nat.ofDigitChars 10 (whole ++ fraction) 0 * ((10 : ℕ) : ℚ) ^ (exponent - (fraction.length : ℤ)) := by
  unfold readUnsigned
  simp only [hwhole, hfraction, if_neg hne]
  cases readExponent rest' <;> rfl

/-- The digits and the point are read as a number, whatever exponent follows. -/
theorem readUnsigned_pointed {digits rest : List Char} {k : ℕ} (h : ∀ c ∈ digits, c.isDigit = true)
    (hk : 0 < k) (hlen : k ≤ digits.length)
    (hrest : ∀ c ∈ rest.head?, c.isDigit = false ∧ c ≠ '.') :
    readUnsigned (pointed digits k ++ rest) = (readExponent rest).map fun exponent =>
      Nat.ofDigitChars 10 digits 0 * ((10 : ℕ) : ℚ) ^ (exponent - ((digits.length - k : ℕ) : ℤ)) := by
  obtain ⟨zeros, hzeros⟩ := exists_rdropWhile (digits.drop k)
  set fraction := (digits.drop k).rdropWhile (· == '0') with hfraction
  have hwhole : ∀ c ∈ digits.take k, c.isDigit = true := fun c hc => h c (List.mem_of_mem_take hc)
  have hdigit : ∀ c ∈ fraction, c.isDigit = true := fun c hc =>
    h c (List.mem_of_mem_drop ((List.rdropWhile_prefix _ _).subset hc))
  have hne : digits.take k ++ fraction ≠ [] := by
    apply List.append_ne_nil_of_left_ne_nil
    rw [← List.length_pos_iff, List.length_take]
    omega
  have hread : readUnsigned (pointed digits k ++ rest) = (readExponent rest).map fun exponent =>
      Nat.ofDigitChars 10 (digits.take k ++ fraction) 0 *
        ((10 : ℕ) : ℚ) ^ (exponent - (fraction.length : ℤ)) := by
    rw [pointed, ← hfraction, List.append_assoc]
    by_cases hempty : fraction = []
    · rw [hempty] at hne ⊢
      apply readUnsigned_eq (span_isDigit hwhole fun c hc => (hrest c hc).1) _ hne
      exact if_neg fun hc => (hrest '.' hc).2 rfl
    · rw [List.isEmpty_eq_false_iff.mpr hempty, if_neg Bool.false_ne_true]
      apply readUnsigned_eq (span_isDigit hwhole ?_) _ hne
      · rintro c ⟨⟩
        rfl
      · rw [List.cons_append, List.head?_cons, if_pos rfl, List.tail_cons]
        exact span_isDigit hdigit fun c hc => (hrest c hc).1
  have hdigits : digits = digits.take k ++ fraction ++ List.replicate zeros '0' := by
    rw [List.append_assoc, ← hzeros, List.take_append_drop]
  have hlength : digits.length - k = fraction.length + zeros := by
    rw [← List.length_drop, hzeros, List.length_append, List.length_replicate]
  have hvalue : Nat.ofDigitChars 10 digits 0 = 10 ^ zeros * Nat.ofDigitChars 10 (digits.take k ++ fraction) 0 := by
    conv_lhs => rw [hdigits]
    exact ofDigitChars_append_zeros zeros
  rw [hread]
  congr 1
  funext exponent
  rw [hvalue, hlength]
  push_cast
  rw [show exponent - (fraction.length : ℤ) = (exponent - (fraction.length + zeros)) + zeros by ring,
    zpow_add₀ (by norm_num), zpow_natCast]
  ring

/-- The digits of a number of the format. -/
theorem sixDigits_digits {x : ℚ} (hx : sixDigits.Mem x) : ⌊x / sixDigits.ulp x⌋₊ < 10 ^ 6 ∧
    x = ⌊x / sixDigits.ulp x⌋₊ * ((10 : ℕ) : ℚ) ^ (Int.log 10 x - 5) := by
  obtain ⟨m, hm, hxm⟩ := hx.exists_eq
  have hfloor : ⌊x / sixDigits.ulp x⌋₊ = m := by
    rw [(div_eq_iff NumberFormat.ulp_pos.ne').mpr hxm, Nat.floor_natCast]
  rw [hfloor]
  exact ⟨hm, hxm⟩

theorem readUnsigned_minus (s : List Char) : readUnsigned ('-' :: s) = none := by
  have hspan : ('-' :: s).span Char.isDigit = ([], '-' :: s) := by
    rw [List.span_eq_takeWhile_dropWhile]
    rfl
  unfold readUnsigned
  simp only [hspan]
  rfl

/-- The sign of a number that reads. -/
theorem readDecimal_signed (negative : Bool) {s : List Char} {x : ℚ} (h : readUnsigned s = some x) :
    readDecimal ((if negative then ['-'] else []) ++ s) = some (negative, x) := by
  cases negative with
  | true =>
    show readDecimal ('-' :: s) = _
    rw [readDecimal, List.head?_cons, if_pos rfl, List.tail_cons, h, Option.map_some]
  | false =>
    have hs : s.head? ≠ some '-' := fun hminus => by
      obtain ⟨tail, rfl⟩ := List.head?_eq_some_iff.mp hminus
      rw [readUnsigned_minus] at h
      cases h
    show readDecimal s = _
    rw [readDecimal, if_neg hs, h, Option.map_some]

/-- **What is printed reads as the number of six digits.** -/
theorem readDecimal_printDouble (a : Double) :
    readDecimal (printDouble a).toList = some (a.negative, sixDigits.round a.magnitude) := by
  set rounded := sixDigits.round a.magnitude with hrounded
  set exponent := Int.log 10 rounded with hexponent
  set digits := paddedDigits 6 ⌊rounded / sixDigits.ulp rounded⌋₊ with hdigits
  obtain ⟨hlt, hvalue⟩ := sixDigits_digits (NumberFormat.mem_round (F := sixDigits) a.mem.nonneg)
  rw [← hrounded, ← hexponent] at hvalue
  rw [← hrounded] at hlt
  have hlen : digits.length = 6 := length_paddedDigits (by decide) hlt
  have hnumeral : Nat.ofDigitChars 10 digits 0 = ⌊rounded / sixDigits.ulp rounded⌋₊ := ofDigitChars_paddedDigits
  have hdigit : ∀ c ∈ digits, c.isDigit = true := isDigit_paddedDigits
  rw [printDouble, String.toList_ofList]
  apply readDecimal_signed
  rw [← hrounded, ← hexponent, ← hdigits]
  by_cases h : -4 ≤ exponent ∧ exponent < 6
  · have hread := @readUnsigned_pointed _ [] (exponent.toNat + 1)
      (isDigit_replicate_append hdigit (-exponent).toNat) (by omega)
      (by rw [List.length_append, hlen]; omega) nofun
    rw [List.append_nil] at hread
    rw [if_pos h, hread, readExponent, if_pos rfl, Option.map_some, ofDigitChars_replicate_append, hnumeral,
      List.length_append, List.length_replicate, hlen]
    refine congrArg some (Eq.trans ?_ hvalue.symm)
    congr 2
    omega
  · rw [if_neg h, readUnsigned_pointed hdigit one_pos (by omega), readExponent_printed, Option.map_some, hnumeral, hlen]
    · exact congrArg some hvalue.symm
    · rintro c ⟨⟩
      exact ⟨rfl, by decide⟩

theorem mem_pointed {digits : List Char} {k : ℕ} {c : Char} (h : c ∈ pointed digits k) :
    c ∈ digits ∨ c = '.' := by
  rcases List.mem_append.mp h with h | h
  · exact .inl (List.mem_of_mem_take h)
  · split at h
    · cases h
    · rcases List.mem_cons.mp h with h | h
      · exact .inr h
      · exact .inl (List.mem_of_mem_drop ((List.rdropWhile_prefix _ _).subset h))

/-- The characters of a literal. -/
theorem mem_printDouble {a : Double} {c : Char} (h : c ∈ (printDouble a).toList) :
    c.isDigit = true ∨ c ∈ ['-', '+', '.', 'e'] := by
  have hpointed : ∀ {digits : List Char} {k : ℕ}, (∀ c ∈ digits, c.isDigit = true) → c ∈ pointed digits k →
      c.isDigit = true ∨ c ∈ ['-', '+', '.', 'e'] := fun hdigits hc =>
    (mem_pointed hc).imp (hdigits c) fun hc => by simp [hc]
  rw [printDouble, String.toList_ofList] at h
  rcases List.mem_append.mp h with h | h
  · split at h
    · exact .inr (by simp [List.mem_singleton.mp h])
    · cases h
  · split at h
    · exact hpointed (isDigit_replicate_append isDigit_paddedDigits _) h
    · rcases List.mem_append.mp h with h | h
      · exact hpointed isDigit_paddedDigits h
      · rcases List.mem_cons.mp h with h | h
        · exact .inr (by simp [h])
        · rcases List.mem_cons.mp h with h | h
          · right
            rw [h]
            split <;> simp
          · exact .inl (isDigit_paddedDigits c h)

/-- The double is nearest to some number of six digits. -/
def Double.SixDigits (a : Double) : Prop := ∃ x, sixDigits.Mem x ∧ binary64.round x = a.magnitude

theorem strtod_printDouble (a : Double) :
    strtod (printDouble a) = Double.nearest a.negative (sixDigits.round a.magnitude) := by
  rw [strtod, readDecimal_printDouble]
  rfl

/-- **The doubles that come back.** -/
theorem strtod_printDouble_iff (a : Double) : strtod (printDouble a) = some a ↔ a.SixDigits := by
  have hmem : sixDigits.Mem (sixDigits.round a.magnitude) := NumberFormat.mem_round a.mem.nonneg
  rw [strtod_printDouble, Double.nearest_eq_some_iff hmem.nonneg]
  constructor
  · exact fun h => ⟨_, hmem, h⟩
  · rintro ⟨x, hx, h⟩
    exact NumberFormat.round_round (by decide) hx h

/-- Two doubles are printed alike if they have one sign and round to one number. -/
theorem printDouble_eq_iff (a b : Double) : printDouble a = printDouble b ↔
    a.negative = b.negative ∧ sixDigits.round a.magnitude = sixDigits.round b.magnitude := by
  constructor
  · intro h
    have hread := readDecimal_printDouble a
    rw [h, readDecimal_printDouble] at hread
    exact Prod.mk.inj (Option.some.inj hread.symm)
  · rintro ⟨hsign, hround⟩
    rw [printDouble, printDouble, hsign, hround]

end Qsycl
