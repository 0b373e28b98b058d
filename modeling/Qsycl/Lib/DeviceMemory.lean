/-
# Memory that a device allocates

A `Heap` is the blocks of memory that are live on it. Code allocates blocks,
launches work-items on them, copies them out and frees them. A work-item that
leaves its block, a use of a block that is not live and a second `free` of a
block have no defined meaning: the code stops with a `fault`. An `Allocator`
decides where a new block lies and what its cells hold, and may refuse.

`Owns others l d` says that `d` has the blocks `l` besides the blocks `others`,
which are as they were. What each operation does to `Owns` is one lemma.
-/
import Qsycl.Lib.Runs
import Qsycl.Lib.WorkItems

namespace DeviceMemory

open Runs WorkItems

variable {α ε : Type}

structure Block (α : Type) where
  size : ℕ
  cells : ℕ → α

/-- The live blocks by their addresses, and how many requests were made. -/
structure Heap (α : Type) where
  blocks : ℕ → Option (Block α)
  requests : ℕ

/-- An address where no block is live, and what the cells there hold. -/
structure Allocator (α : Type) where
  answer : Heap α → ℕ → Option (ℕ × (ℕ → α))
  fresh : ∀ {d : Heap α} {size p : ℕ} {cells : ℕ → α}, answer d size = some (p, cells) → d.blocks p = none

/-- Goes from address to address, and leaves `a` in every cell. -/
def Allocator.bump (a : α) : Allocator α where
  answer d _ := if (d.blocks d.requests).isNone then some (d.requests, fun _ => a) else none
  fresh {d _ p _} h := by
    split at h
    · rename_i hnone
      obtain rfl : d.requests = p := congrArg Prod.fst (Option.some.inj h)
      exact Option.isNone_iff_eq_none.mp hnone
    · cases h

/-- Why code stops: it throws, or what it does is undefined. -/
inductive Stop (ε : Type)
  | exn (e : ε)
  | fault

abbrev Code (α ε : Type) := Run (Stop ε) (Heap α)

/-! ### The operations -/

/-- A null pointer if the allocator refuses. -/
def malloc (A : Allocator α) (size : ℕ) : Code α ε (Option ℕ) := do
  let d ← get
  match A.answer d size with
  | none =>
    set (⟨d.blocks, d.requests + 1⟩ : Heap α)
    return none
  | some (p, cells) =>
    set (⟨Function.update d.blocks p (some ⟨size, cells⟩), d.requests + 1⟩ : Heap α)
    return some p

/-- Nothing for a null pointer. -/
def free : Option ℕ → Code α ε Unit
  | none => return ()
  | some p => do
    let d ← get
    if (d.blocks p).isNone then throw .fault
    set (⟨Function.update d.blocks p none, d.requests⟩ : Heap α)

/-- The block at an address. -/
def blockAt (p : ℕ) : Code α ε (Block α) := do
  let d ← get
  match d.blocks p with
  | none => throw .fault
  | some b => return b

/-- The first `size` cells of a block. -/
def copyOut (p size : ℕ) : Code α ε (List α) := do
  let b ← blockAt p
  if b.size < size then throw .fault
  return (List.range size).map b.cells

/-- Runs a work-item on `size` cells. -/
def execWithin (size : ℕ) : Access ℕ α → (ℕ → α) → Option (ℕ → α)
  | .done, m => some m
  | .load k next, m => if k < size then execWithin size (next (m k)) m else none
  | .store k v next, m => if k < size then execWithin size next (Function.update m k v) else none

/-- Runs work-items on a block, in the order listed. -/
def launch (p : ℕ) (order : List ℕ) (item : ℕ → Access ℕ α) : Code α ε Unit := do
  let b ← blockAt p
  match order.foldlM (fun m i => execWithin b.size (item i) m) b.cells with
  | none => throw .fault
  | some cells => modify fun d => ⟨Function.update d.blocks p (some ⟨b.size, cells⟩), d.requests⟩

/-! ### What is live -/

/-- Besides the blocks `others`, the blocks `l` are live. -/
structure Owns (others : ℕ → Option (Block α)) (l : List (ℕ × Block α)) (d : Heap α) : Prop where
  nodup : (l.map Prod.fst).Nodup
  fresh : ∀ x ∈ l, others x.1 = none
  live : ∀ x ∈ l, d.blocks x.1 = some x.2
  frame : ∀ p ∉ l.map Prod.fst, d.blocks p = others p

variable {others : ℕ → Option (Block α)} {l : List (ℕ × Block α)} {d : Heap α} {p : ℕ} {b : Block α}

theorem owns_nil : Owns others [] d ↔ d.blocks = others :=
  ⟨fun h => funext fun p => h.frame p List.not_mem_nil,
    fun h => ⟨List.nodup_nil, by simp, by simp, fun p _ => congrFun h p⟩⟩

namespace Owns

/-- A new block. -/
theorem alloc (h : Owns others l d) (hp : d.blocks p = none) (b : Block α) (k : ℕ) :
    Owns others (l ++ [(p, b)]) ⟨Function.update d.blocks p (some b), k⟩ := by
  have hnot : ∀ x ∈ l, x.1 ≠ p := fun x hx hxp => by
    have hlive := h.live x hx
    rw [hxp, hp] at hlive
    cases hlive
  have hmem : p ∉ l.map Prod.fst := fun hm => by
    obtain ⟨x, hx, hxp⟩ := List.mem_map.mp hm
    exact hnot x hx hxp
  refine ⟨?_, fun x hx => ?_, fun x hx => ?_, fun q hq => ?_⟩
  · rw [List.map_append, List.map_singleton, ← List.concat_eq_append]
    exact h.nodup.concat hmem
  · rcases List.mem_append.mp hx with hx | hx
    · exact h.fresh x hx
    · rw [List.mem_singleton.mp hx, ← h.frame p hmem, hp]
  · rcases List.mem_append.mp hx with hx | hx
    · exact (Function.update_of_ne (hnot x hx) _ _).trans (h.live x hx)
    · rw [List.mem_singleton.mp hx]
      exact Function.update_self _ _ _
  · rw [List.map_append, List.map_singleton, List.mem_append, not_or, List.mem_singleton] at hq
    exact (Function.update_of_ne hq.2 _ _).trans (h.frame q hq.1)

/-- The first block is gone. -/
theorem dealloc (h : Owns others ((p, b) :: l) d) (k : ℕ) : Owns others l ⟨Function.update d.blocks p none, k⟩ := by
  obtain ⟨hp, hnodup⟩ := List.nodup_cons.mp h.nodup
  refine ⟨hnodup, fun x hx => h.fresh x (List.mem_cons_of_mem _ hx), fun x hx => ?_, fun q hq => ?_⟩
  · have hne : x.1 ≠ p := fun he => hp (List.mem_map.mpr ⟨x, hx, he⟩)
    exact (Function.update_of_ne hne _ _).trans (h.live x (List.mem_cons_of_mem _ hx))
  · by_cases hqp : q = p
    · subst hqp
      rw [h.fresh (q, b) List.mem_cons_self]
      exact Function.update_self _ _ _
    · rw [← h.frame q (by simpa using ⟨hqp, by simpa using hq⟩)]
      exact Function.update_of_ne hqp _ _

/-- The first block changes. -/
theorem put (h : Owns others ((p, b) :: l) d) (b' : Block α) (k : ℕ) :
    Owns others ((p, b') :: l) ⟨Function.update d.blocks p (some b'), k⟩ := by
  obtain ⟨hp, -⟩ := List.nodup_cons.mp h.nodup
  refine ⟨h.nodup, fun x hx => ?_, fun x hx => ?_, fun q hq => ?_⟩
  · rcases List.mem_cons.mp hx with rfl | hx
    · exact h.fresh (p, b) List.mem_cons_self
    · exact h.fresh x (List.mem_cons_of_mem _ hx)
  · rcases List.mem_cons.mp hx with rfl | hx
    · exact Function.update_self _ _ _
    · have hne : x.1 ≠ p := fun he => hp (List.mem_map.mpr ⟨x, hx, he⟩)
      exact (Function.update_of_ne hne _ _).trans (h.live x (List.mem_cons_of_mem _ hx))
  · have hne : q ≠ p := fun he => hq (he ▸ List.mem_cons_self)
    exact (Function.update_of_ne hne _ _).trans (h.frame q hq)

theorem perm (h : Owns others l d) {l' : List (ℕ × Block α)} (hp : l.Perm l') : Owns others l' d :=
  ⟨(hp.map Prod.fst).nodup_iff.mp h.nodup, fun x hx => h.fresh x (hp.mem_iff.mpr hx),
    fun x hx => h.live x (hp.mem_iff.mpr hx), fun p hnot => h.frame p fun hm => hnot ((hp.map Prod.fst).mem_iff.mp hm)⟩

end Owns

/-! ### What the operations do -/

theorem malloc_spec (A : Allocator α) (size : ℕ) (h : Owns others l d) : ∃ d',
    (exec (malloc A size : Code α ε (Option ℕ)) d = (.ok none, d') ∧ Owns others l d') ∨
      ∃ p cells, exec (malloc A size : Code α ε (Option ℕ)) d = (.ok (some p), d') ∧
        Owns others (l ++ [(p, ⟨size, cells⟩)]) d' := by
  cases hans : A.answer d size with
  | none =>
    refine ⟨⟨d.blocks, d.requests + 1⟩, .inl ⟨?_, h.nodup, h.fresh, h.live, h.frame⟩⟩
    unfold malloc
    rw [exec_get_bind, hans]
    rfl
  | some r =>
    obtain ⟨p, cells⟩ := r
    refine ⟨_, .inr ⟨p, cells, ?_, h.alloc (A.fresh hans) ⟨size, cells⟩ (d.requests + 1)⟩⟩
    unfold malloc
    rw [exec_get_bind, hans]
    rfl

theorem free_spec (h : Owns others ((p, b) :: l) d) : ∃ d',
    exec (free (some p) : Code α ε Unit) d = (.ok (), d') ∧ Owns others l d' := by
  refine ⟨_, ?_, h.dealloc d.requests⟩
  unfold free
  rw [exec_get_bind, h.live (p, b) List.mem_cons_self]
  rfl

/-- One request for each size, also after a refusal. -/
def mallocs (A : Allocator α) (sizes : List ℕ) : Code α ε (List (Option ℕ)) := sizes.mapM (malloc A)

def frees (ptrs : List (Option ℕ)) : Code α ε Unit := ptrs.forM free

theorem mallocs_spec (A : Allocator α) : ∀ (sizes : List ℕ) {l : List (ℕ × Block α)} {d : Heap α},
    Owns others l d → ∃ ptrs new d', exec (mallocs A sizes : Code α ε (List (Option ℕ))) d = (.ok ptrs, d') ∧
      Owns others (l ++ new) d' ∧ ptrs.reduceOption = new.map Prod.fst ∧
      (ptrs.all Option.isSome = true → new.map (fun x => x.2.size) = sizes)
  | [], l, d, h => ⟨[], [], d, rfl, by rwa [List.append_nil], rfl, fun _ => rfl⟩
  | size :: sizes, l, d, h => by
    have hstep : ∀ {p d₁}, exec (malloc A size : Code α ε (Option ℕ)) d = (.ok p, d₁) →
        exec (mallocs A (size :: sizes) : Code α ε (List (Option ℕ))) d =
          ((exec (mallocs A sizes : Code α ε (List (Option ℕ))) d₁).1.map (p :: ·),
            (exec (mallocs A sizes : Code α ε (List (Option ℕ))) d₁).2) := fun hp => by
      rw [mallocs, List.mapM_cons, exec_bind, hp]
      exact exec_map _ _ _
    obtain ⟨d₁, ⟨hnull, h₁⟩ | ⟨p, cells, hnew, h₁⟩⟩ := malloc_spec (ε := ε) A size h
    · obtain ⟨ptrs, new, d', hrest, h', hptrs, -⟩ := mallocs_spec A sizes h₁
      exact ⟨none :: ptrs, new, d', by rw [hstep hnull, hrest]; rfl, h', hptrs, nofun⟩
    · obtain ⟨ptrs, new, d', hrest, h', hptrs, hsizes⟩ := mallocs_spec A sizes h₁
      refine ⟨some p :: ptrs, (p, ⟨size, cells⟩) :: new, d', by rw [hstep hnew, hrest]; rfl, ?_, ?_, fun hall => ?_⟩
      · rwa [List.append_assoc] at h'
      · rw [List.reduceOption_cons_of_some, hptrs, List.map_cons]
      · rw [List.map_cons, hsizes (by simpa using hall)]

theorem frees_spec : ∀ {ptrs : List (Option ℕ)} {new l : List (ℕ × Block α)} {d : Heap α},
    Owns others (new ++ l) d → ptrs.reduceOption = new.map Prod.fst →
    ∃ d', exec (frees ptrs : Code α ε Unit) d = (.ok (), d') ∧ Owns others l d'
  | [], new, l, d, h, hp => by
    obtain rfl : new = [] := List.map_eq_nil_iff.mp hp.symm
    exact ⟨d, rfl, h⟩
  | none :: ptrs, new, l, d, h, hp => by
    rw [List.reduceOption_cons_of_none] at hp
    obtain ⟨d', hfrees, h'⟩ := frees_spec h hp
    exact ⟨d', hfrees, h'⟩
  | some p :: ptrs, new, l, d, h, hp => by
    rw [List.reduceOption_cons_of_some] at hp
    obtain ⟨⟨q, b⟩, new, rfl⟩ : ∃ x rest, new = x :: rest := List.exists_cons_of_ne_nil fun h0 => by
      rw [h0] at hp
      cases hp
    obtain ⟨rfl, hrest⟩ := List.cons.inj hp
    obtain ⟨d₁, hfree, h₁⟩ := free_spec (ε := ε) h
    obtain ⟨d', hfrees, h'⟩ := frees_spec h₁ hrest
    refine ⟨d', ?_, h'⟩
    show exec (free (some p) >>= fun _ => frees ptrs) d = _
    rw [exec_bind, hfree]
    exact hfrees

end DeviceMemory
