/-
# Searching a list for the best

A loop over candidates keeps the value and the candidate it found best so far
and replaces them only by a strictly better one. It ends with a candidate of
the list, or with what it started from if nothing beats that, and nothing in
the list is better (`Best.foldl`), nor anything before it as good
(`Best.foldl_first`). The values are any linear order: a search for the greatest
is one in the order dual.
-/
import Mathlib

namespace Search

variable {α β : Type} [LinearOrder β] {f : α → β} {l : List α}

/-- `best` is what a search of `l` for the least value of `f` ends with from `start`. -/
structure Best (f : α → β) (start : β × α) (l : List α) (best : β × α) : Prop where
  found : best = start ∨ ∃ x ∈ l, best = (f x, x)
  le_start : best.1 ≤ start.1
  le : ∀ x ∈ l, best.1 ≤ f x

namespace Best

variable {start best : β × α}

theorem nil (start : β × α) : Best f start [] start := ⟨.inl rfl, le_rfl, by simp⟩

/-- One round of the loop. -/
theorem cons {x : α} (h : Best f (if f x < start.1 then (f x, x) else start) l best) :
    Best f start (x :: l) best := by
  obtain ⟨hfound, hstart, hle⟩ := h
  by_cases hx : f x < start.1
  · rw [if_pos hx] at hfound hstart
    refine ⟨.inr ?_, hstart.trans hx.le, List.forall_mem_cons.mpr ⟨hstart, hle⟩⟩
    rcases hfound with hfound | ⟨y, hy, hfound⟩
    · exact ⟨x, List.mem_cons_self, hfound⟩
    · exact ⟨y, List.mem_cons_of_mem _ hy, hfound⟩
  · rw [if_neg hx] at hfound hstart
    refine ⟨?_, hstart, List.forall_mem_cons.mpr ⟨hstart.trans (not_lt.mp hx), hle⟩⟩
    exact hfound.imp_right fun ⟨y, hy, hb⟩ => ⟨y, List.mem_cons_of_mem _ hy, hb⟩

/-- **The loop finds the best.** -/
theorem foldl : ∀ (l : List α) (start : β × α),
    Best f start l (l.foldl (fun best x => if f x < best.1 then (f x, x) else best) start)
  | [], start => nil start
  | _ :: l, _ => cons (foldl l _)

/-- **The first of the best.** What precedes the candidate found is worse. -/
theorem foldl_first : ∀ (l : List α) (start : β × α),
    l.foldl (fun best x => if f x < best.1 then (f x, x) else best) start = start ∨
    ∃ before x after, l = before ++ x :: after ∧
      l.foldl (fun best x => if f x < best.1 then (f x, x) else best) start = (f x, x) ∧
      f x < start.1 ∧ ∀ y ∈ before, f x < f y
  | [], _ => .inl rfl
  | x :: l, start => by
    rw [List.foldl_cons]
    by_cases hx : f x < start.1
    · rw [if_pos hx]
      rcases foldl_first l (f x, x) with hnone | ⟨before, y, after, rfl, hfound, hlt, hfirst⟩
      · exact .inr ⟨[], x, l, rfl, hnone, hx, by simp⟩
      · exact .inr ⟨x :: before, y, after, rfl, hfound, hlt.trans hx, List.forall_mem_cons.mpr ⟨hlt, hfirst⟩⟩
    · rw [if_neg hx]
      rcases foldl_first l start with hnone | ⟨before, y, after, rfl, hfound, hlt, hfirst⟩
      · exact .inl hnone
      · have hyx : f y < f x := hlt.trans_le (not_lt.mp hx)
        exact .inr ⟨x :: before, y, after, rfl, hfound, hlt, List.forall_mem_cons.mpr ⟨hyx, hfirst⟩⟩

/-- A start that some candidate beats is not what the search ends with. -/
theorem exists_mem (h : Best f start l best) {x : α} (hx : x ∈ l) (hlt : f x < start.1) :
    ∃ y ∈ l, best = (f y, y) := by
  refine h.found.resolve_left fun heq => ?_
  have hle := h.le x hx
  rw [heq] at hle
  exact hle.not_gt hlt

end Best

end Search
