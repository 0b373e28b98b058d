/-
# Exchanging neighbours

Two runs of steps are the same trace if one becomes the other by exchanging
neighbours that are independent. They have the same steps, and the same meaning
wherever one exchange keeps it (`Exchanged.meaning_eq`).
-/
import Mathlib

namespace Traces

variable {α β γ : Type*} {r : β → β → Prop}

/-- One exchange of independent neighbours. -/
inductive Exchange (r : β → β → Prop) : List β → List β → Prop
  | swap (before after : List β) {a b : β} : r a b → Exchange r (before ++ a :: b :: after) (before ++ b :: a :: after)

/-- Any number of exchanges. -/
def Exchanged (r : β → β → Prop) : List β → List β → Prop := Relation.ReflTransGen (Exchange r)

theorem Exchange.perm {l l' : List β} (h : Exchange r l l') : l.Perm l' := by
  obtain ⟨before, after, -⟩ := h
  exact (List.Perm.swap _ _ after).append_left before

/-- The steps stay the same. -/
theorem Exchanged.perm {l l' : List β} (h : Exchanged r l l') : l.Perm l' := by
  induction h with
  | refl => exact .refl _
  | tail _ hswap ih => exact ih.trans hswap.perm

/-- **What one exchange keeps, a trace has.** -/
theorem Exchanged.meaning_eq {meaning : List β → γ} (hswap : ∀ l l', Exchange r l l' → meaning l = meaning l')
    {l l' : List β} (h : Exchanged r l l') : meaning l = meaning l' := by
  induction h with
  | refl => rfl
  | tail _ hlast ih => exact ih.trans (hswap _ _ hlast)

/-- An exchange of images is the image of an exchange. -/
theorem Exchange.exists_map {f : α → β} {k : List α} {l' : List β} (h : Exchange r (k.map f) l') :
    ∃ k', l' = k'.map f ∧ Exchange (fun a b => r (f a) (f b)) k k' := by
  generalize hl : k.map f = l at h
  obtain ⟨before, after, hr⟩ := h
  obtain ⟨k₁, k₂, rfl, rfl, hk₂⟩ := List.map_eq_append_iff.mp hl
  obtain ⟨a, k₃, rfl, rfl, hk₃⟩ := List.map_eq_cons_iff.mp hk₂
  obtain ⟨b, k₄, rfl, rfl, rfl⟩ := List.map_eq_cons_iff.mp hk₃
  exact ⟨k₁ ++ b :: a :: k₄, by simp, .swap k₁ k₄ hr⟩

theorem Exchanged.exists_map {f : α → β} {k : List α} {l' : List β} (h : Exchanged r (k.map f) l') :
    ∃ k', l' = k'.map f ∧ Exchanged (fun a b => r (f a) (f b)) k k' := by
  generalize hl : k.map f = l at h
  induction h with
  | refl => exact ⟨k, hl.symm, .refl⟩
  | tail _ hlast ih =>
    obtain ⟨k₁, rfl, hk₁⟩ := ih
    obtain ⟨k₂, rfl, hk₂⟩ := hlast.exists_map
    exact ⟨k₂, rfl, hk₁.tail hk₂⟩

end Traces
