/-
# What a count key is read as

`expandCounts` reads the key of a count by `std::stoull` in base two, which
converts the digits at the start of a text: behind spaces and a sign, and
whatever follows them. CUNQA hands it the keys as they are, QMIO without their
whitespace. An object of counts is read as written unless a key has something
else in it than digits (`expandCounts_readsWhole`).
-/
import Qsycl.RemoteReadout

namespace Qsycl

open Qmio (Entries normalizeBitstring)

/-! ### The digits that are converted -/

theorem isDigit_two {c : UInt8} : isDigit 2 c = true ↔ c = 48 ∨ c = 49 := by
  unfold isDigit
  rw [Bool.and_eq_true, decide_eq_true_iff, decide_eq_true_iff, UInt8.le_iff_toNat_le,
    ← UInt8.toNat_inj, ← UInt8.toNat_inj]
  show 48 ≤ c.toNat ∧ c.toNat < 48 + 2 ↔ c.toNat = 48 ∨ c.toNat = 49
  omega

/-- The digits that `std::stoull` converts. -/
def converted (key : Bytes) : Bytes := digitsOf 2 (key.dropWhile isSpace)

/-- The number that it makes of them. -/
def reading (key : Bytes) : ℕ :=
  let n := valueOf 2 (converted key)
  if (key.dropWhile isSpace).head? = some 45 then (2 ^ 64 - n) % 2 ^ 64 else n

/-- The texts on which it throws: without a digit at their start, or with too large a number. -/
def Refused (key : Bytes) : Prop := converted key = [] ∨ 2 ^ 64 ≤ valueOf 2 (converted key)

/-- A key of binary digits and whitespace, for a number of 64 bits. -/
structure Whole (key : Bytes) : Prop where
  binary : IsBinary (normalizeBitstring key)
  ne_nil : normalizeBitstring key ≠ []
  lt : valueOf 2 (normalizeBitstring key) < 2 ^ 64

theorem stoull_eq (key : Bytes) (h : ¬ Refused key) : stoull 2 key = .ok (reading key) := by
  rw [Refused, not_or] at h
  have hempty : (digitsOf 2 (key.dropWhile isSpace)).isEmpty = false := by
    rw [List.isEmpty_eq_false_iff]
    exact h.1
  unfold stoull
  dsimp only
  rw [hempty, if_neg Bool.false_ne_true]
  exact if_neg h.2

theorem stoull_refused {key : Bytes} (h : Refused key) : ∃ e, stoull 2 key = .error e := by
  unfold stoull
  dsimp only
  by_cases hempty : (digitsOf 2 (key.dropWhile isSpace)).isEmpty = true
  · exact ⟨_, if_pos hempty⟩
  · have hlarge := h.resolve_left fun hnil => hempty (List.isEmpty_iff.mpr hnil)
    exact ⟨_, (if_neg hempty).trans (if_pos hlarge)⟩

theorem binary_converted (key : Bytes) : IsBinary (converted key) := fun _ hc =>
  isDigit_two.mp (List.mem_takeWhile_imp hc)

theorem normalize_dropWhile (key : Bytes) :
    normalizeBitstring (key.dropWhile isSpace) = normalizeBitstring key := by
  induction key with
  | nil => rfl
  | cons c key ih =>
    by_cases hc : isSpace c = true
    · rw [List.dropWhile_cons_of_pos hc, ih]
      simp [normalizeBitstring, hc]
    · rw [List.dropWhile_cons_of_neg hc]

theorem mem_normalize {key : Bytes} {c : UInt8} : c ∈ normalizeBitstring key ↔ c ∈ key ∧ isSpace c = false := by
  simp [normalizeBitstring]

/-- A key of digits and whitespace has no sign, and the converted digits are its first ones. -/
theorem converted_first {key : Bytes} (h : IsBinary (normalizeBitstring key)) :
    reading key = valueOf 2 (converted key) ∧
      ∃ rest, normalizeBitstring key = converted key ++ rest := by
  rw [← normalize_dropWhile] at h ⊢
  unfold reading converted digitsOf
  have hhead : ∀ c, (key.dropWhile isSpace).head? = some c → c = 48 ∨ c = 49 := by
    intro c hc
    have hmem := List.mem_of_head? hc
    have hspace : isSpace c = false := by
      have := List.head?_dropWhile_not isSpace key
      rw [hc] at this
      simpa using this
    exact h c (mem_normalize.mpr ⟨hmem, hspace⟩)
  have hsign : ∀ c : UInt8, c = 43 ∨ c = 45 → (key.dropWhile isSpace).head? ≠ some c := by
    intro c hc heq
    rcases hhead c heq with rfl | rfl <;> revert hc <;> decide
  have hboth : ¬ ((key.dropWhile isSpace).head? = some 43 ∨ (key.dropWhile isSpace).head? = some 45) :=
    not_or.mpr ⟨hsign 43 (.inl rfl), hsign 45 (.inr rfl)⟩
  dsimp only
  rw [if_neg hboth, if_neg (hsign 45 (.inr rfl))]
  refine ⟨rfl, normalizeBitstring ((key.dropWhile isSpace).dropWhile (isDigit 2)), ?_⟩
  have hdigits : normalizeBitstring ((key.dropWhile isSpace).takeWhile (isDigit 2)) =
      (key.dropWhile isSpace).takeWhile (isDigit 2) :=
    Qmio.normalizeBitstring_binary fun _ hc => isDigit_two.mp (List.mem_takeWhile_imp hc)
  calc normalizeBitstring (key.dropWhile isSpace)
      = normalizeBitstring ((key.dropWhile isSpace).takeWhile (isDigit 2) ++
          (key.dropWhile isSpace).dropWhile (isDigit 2)) := by rw [List.takeWhile_append_dropWhile]
    _ = _ := by
      unfold normalizeBitstring at hdigits ⊢
      rw [List.filter_append, hdigits]

theorem valueOf_append (d r : Bytes) : valueOf 2 (d ++ r) = valueOf 2 d * 2 ^ r.length + valueOf 2 r := by
  induction r using List.reverseRecOn with
  | nil => simp [valueOf]
  | append_singleton r c ih =>
    have hsnoc : ∀ l : Bytes, valueOf 2 (l ++ [c]) = 2 * valueOf 2 l + (c.toNat - 48) := fun l => by
      unfold valueOf
      rw [List.foldl_append]
      rfl
    rw [← List.append_assoc, hsnoc, hsnoc, ih, List.length_append, List.length_singleton, pow_succ]
    ring

/-- More digits leave a number alone only if it is zero. -/
theorem valueOf_append_eq {d r : Bytes} (h : valueOf 2 (d ++ r) = valueOf 2 d) :
    r = [] ∨ valueOf 2 (d ++ r) = 0 := by
  by_cases hr : r = []
  · exact .inl hr
  · have hpow : 2 ≤ 2 ^ r.length := Nat.le_self_pow (List.length_pos_iff.mpr hr).ne' 2
    have hle : valueOf 2 d * 2 ≤ valueOf 2 d * 2 ^ r.length := Nat.mul_le_mul_left _ hpow
    rw [valueOf_append] at h ⊢
    right
    omega

/-! ### The entries of an object -/

/-- The outcomes that some counts stand for: each key as the number it is as a whole. -/
def spread (entries : Entries) : List ℕ :=
  entries.flatMap fun e => List.replicate (countOf e.2) (valueOf 2 (normalizeBitstring e.1))

/-- Every key is a number and every outcome is that of its key. -/
structure ReadsWhole (entries : Entries) (outcomes : List ℕ) : Prop where
  whole : ∀ e ∈ entries, Whole e.1
  outcomes : outcomes = spread entries

/-- An entry that throws. -/
def Throwing (e : Bytes × Json) : Prop := Refused e.1 ∨ ∃ x, e.2.getSize = .error x

theorem readAs_of_not_throwing {e : Bytes × Json} (h : ¬ Throwing e) : ReadAs reading e := by
  rw [Throwing, not_or] at h
  refine ⟨stoull_eq e.1 h.1, ?_⟩
  cases hn : e.2.getSize with
  | error x => exact absurd ⟨x, hn⟩ h.2
  | ok n => rw [countOf_eq hn]

/-- An entry that throws ends the loop. -/
theorem foldlM_throwing {V : OutcomeVector} {outcomes : List ℕ} :
    ∀ {entries : Entries} {acc : List ℕ}, (∃ e ∈ entries, Throwing e) →
      entries.foldlM (fun outcomes e => do
        let value ← stoull 2 e.1
        let n ← e.2.getSize
        V.pushBack outcomes value n) acc ≠ .ok outcomes
  | [], _, h => absurd h (by simp)
  | e :: entries, acc, h => by
    intro hrun
    obtain ⟨acc', he, hrest⟩ := bind_eq_ok.mp (show _ >>= _ = _ from hrun)
    obtain ⟨value, hvalue, he⟩ := bind_eq_ok.mp he
    obtain ⟨n, hn, -⟩ := bind_eq_ok.mp he
    obtain ⟨e', he', hthrow⟩ := h
    rcases List.mem_cons.mp he' with rfl | hmem
    · rcases hthrow with hr | ⟨x, hx⟩
      · obtain ⟨x, hx⟩ := stoull_refused hr
        rw [hvalue] at hx
        cases hx
      · rw [hn] at hx
        cases hx
    · exact foldlM_throwing ⟨e', hmem, hthrow⟩ hrest

/-- **What an object of counts is expanded to.** -/
theorem expandCounts_eq_ok {V : OutcomeVector} {shots : ℕ} {entries : Entries} {outcomes : List ℕ} :
    expandCounts V shots entries = .ok outcomes ↔ (V.Fits shots entries ∧ ∀ e ∈ entries, ¬ Throwing e) ∧
      outcomes = entries.flatMap fun e => List.replicate (countOf e.2) (reading e.1) := by
  by_cases hthrow : ∃ e ∈ entries, Throwing e
  · refine iff_of_false (fun h => ?_) fun h => ?_
    · obtain ⟨_, -, h⟩ := bind_eq_ok.mp h
      exact foldlM_throwing hthrow h
    · obtain ⟨e, he, hte⟩ := hthrow
      exact h.1.2 e he hte
  · have hok : ∀ e ∈ entries, ¬ Throwing e := fun e he hte => hthrow ⟨e, he, hte⟩
    rw [expandCounts_readAs fun e he => readAs_of_not_throwing (hok e he), and_iff_left hok]

/-! ### Objects that are read as written -/

/-- An entry that is read as written: its key is the converted digits, apart from whitespace
around them, or it is some separated digits that make no difference. -/
def ReadRight (e : Bytes × Json) : Prop :=
  converted e.1 = normalizeBitstring e.1 ∨
    IsBinary (normalizeBitstring e.1) ∧ valueOf 2 (normalizeBitstring e.1) < 2 ^ 64 ∧
      (countOf e.2 = 0 ∨ valueOf 2 (normalizeBitstring e.1) = 0)

theorem readRight_iff {e : Bytes × Json} (h : ¬ Refused e.1) : ReadRight e ↔
    Whole e.1 ∧ (countOf e.2 = 0 ∨ reading e.1 = valueOf 2 (normalizeBitstring e.1)) := by
  rw [Refused, not_or, not_le] at h
  obtain ⟨hne, hlt⟩ := h
  constructor
  · rintro (hkey | ⟨hbinary, hlt', hzero⟩)
    · have hbinary : IsBinary (normalizeBitstring e.1) := hkey ▸ binary_converted e.1
      exact ⟨⟨hbinary, hkey ▸ hne, hkey ▸ hlt⟩, .inr (hkey ▸ (converted_first hbinary).1)⟩
    · obtain ⟨hreading, rest, hrest⟩ := converted_first hbinary
      have hnil : normalizeBitstring e.1 ≠ [] := fun hnil =>
        hne (List.append_eq_nil_iff.mp (hrest.symm.trans hnil)).1
      refine ⟨⟨hbinary, hnil, hlt'⟩, hzero.imp_right fun hzero => ?_⟩
      have hfirst := hrest ▸ hzero
      rw [valueOf_append, Nat.add_eq_zero_iff, Nat.mul_eq_zero] at hfirst
      rw [hreading, hzero, hfirst.1.resolve_right (Nat.two_pow_pos _).ne']
  · rintro ⟨⟨hbinary, hnil, hlt'⟩, hzero | heq⟩
    · exact .inr ⟨hbinary, hlt', .inl hzero⟩
    · obtain ⟨hreading, rest, hrest⟩ := converted_first hbinary
      rw [hreading, hrest] at heq
      rcases valueOf_append_eq heq.symm with rfl | hzero
      · exact .inl (by rw [hrest, List.append_nil])
      · exact .inr ⟨hbinary, hlt', .inr (hrest ▸ hzero)⟩

/-- Equal blocks, one after another. -/
theorem flatMap_replicate_inj {α : Type} {n f g : α → ℕ} : ∀ {l : List α},
    (l.flatMap fun e => List.replicate (n e) (f e)) = (l.flatMap fun e => List.replicate (n e) (g e)) ↔
      ∀ e ∈ l, n e = 0 ∨ f e = g e
  | [] => ⟨nofun, fun _ => rfl⟩
  | e :: l => by
    rw [List.flatMap_cons, List.flatMap_cons, List.forall_mem_cons, ← flatMap_replicate_inj,
      ← List.replicate_right_inj']
    constructor
    · exact fun h => List.append_inj h (by rw [List.length_replicate, List.length_replicate])
    · rintro ⟨h₁, h₂⟩
      rw [h₁, h₂]

/-- **An object of counts is read as written**, or there are no outcomes, exactly if the vector
has no room for them, some entry throws, or every entry is read right. -/
theorem expandCounts_readsWhole (V : OutcomeVector) (shots : ℕ) (entries : Entries) :
    (∀ outcomes, expandCounts V shots entries = .ok outcomes → ReadsWhole entries outcomes) ↔
      ¬ V.Fits shots entries ∨ (∃ e ∈ entries, Throwing e) ∨ ∀ e ∈ entries, ReadRight e := by
  by_cases hnone : ¬ V.Fits shots entries ∨ ∃ e ∈ entries, Throwing e
  · refine iff_of_true (fun outcomes h => ?_) (hnone.imp_right .inl)
    obtain ⟨⟨hfits, hok⟩, -⟩ := expandCounts_eq_ok.mp h
    obtain hnofit | ⟨e, he, hte⟩ := hnone
    · exact absurd hfits hnofit
    · exact absurd hte (hok e he)
  · rw [not_or, not_not] at hnone
    obtain ⟨hfits, hthrow⟩ := hnone
    have hok : ∀ e ∈ entries, ¬ Throwing e := fun e he hte => hthrow ⟨e, he, hte⟩
    rw [or_iff_right (not_not.mpr hfits), or_iff_right hthrow]
    constructor
    · intro h e he
      obtain ⟨hwhole, hout⟩ := h _ (expandCounts_eq_ok.mpr ⟨⟨hfits, hok⟩, rfl⟩)
      exact (readRight_iff fun hr => hok e he (.inl hr)).mpr
        ⟨hwhole e he, flatMap_replicate_inj.mp hout e he⟩
    · intro h outcomes hrun
      obtain ⟨-, rfl⟩ := expandCounts_eq_ok.mp hrun
      have hright : ∀ e ∈ entries, _ := fun e he =>
        (readRight_iff fun hr => hok e he (.inl hr)).mp (h e he)
      exact ⟨fun e he => (hright e he).1, flatMap_replicate_inj.mpr fun e he => (hright e he).2⟩

end Qsycl
