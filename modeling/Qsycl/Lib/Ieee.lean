/-
# Comparing numbers that may not be numbers

The values of a floating-point type: its finite values, two infinities and NaN,
which is not less than anything. The comparison is not an order, but against a
value that is a number it is one of the keys, where NaN counts as the positive
infinity (`lt_iff_key`): a scan for the least value that starts from a number is
a search in a linear order.
-/
import Mathlib

namespace Ieee

inductive Value (α : Type)
  | nan
  | negInf
  | finite (x : α)
  | posInf
  deriving DecidableEq, Repr

namespace Value

variable {α : Type} [LinearOrder α]

/-- The comparison `a < b`. -/
def blt : Value α → Value α → Bool
  | nan, _ => false
  | _, nan => false
  | _, negInf => false
  | negInf, _ => true
  | finite x, finite y => x < y
  | finite _, posInf => true
  | posInf, _ => false

instance : LT (Value α) := ⟨fun a b => a.blt b = true⟩

instance : DecidableLT (Value α) := fun a b => inferInstanceAs (Decidable (a.blt b = true))

/-- The place of a value in the order of a search. -/
def key : Value α → WithTop (WithBot α)
  | negInf => ((⊥ : WithBot α) : WithTop (WithBot α))
  | finite x => ((x : WithBot α) : WithTop (WithBot α))
  | nan | posInf => ⊤

theorem lt_iff_key (a : Value α) {b : Value α} (hb : b ≠ nan) : a < b ↔ a.key < b.key := by
  show a.blt b = true ↔ _
  cases a <;> cases b <;> simp [blt, key] at hb ⊢
  exact WithTop.coe_lt_coe.mpr (WithBot.bot_lt_coe _)

@[simp] theorem key_finite_le {x y : α} : (finite x).key ≤ (finite y).key ↔ x ≤ y := by
  simp [key]

/-- Only finite values and the negative infinity come before the positive one. -/
theorem key_lt_top {a : Value α} : a.key < ⊤ ↔ a = negInf ∨ ∃ x, a = finite x := by
  cases a <;> simp [key]

end Value

end Ieee
