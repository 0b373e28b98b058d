/-
# Runs that throw and keep their state

Code that may throw midway and leaves its state as it was then: a `Run`. A
`Triple` says what holds after a run that starts in a given state returns, and
what after it throws; `Agree` says that two runs treat the state alike and
throw alike and that their results are related. Both compose along the code,
and along a `loop` that counts its rounds and may stop early.
-/
import Mathlib

namespace Runs

variable {ε σ α α' β β' : Type}

/-- Code on a state of type `σ` that may throw an `ε`. -/
abbrev Run (ε σ : Type) := ExceptT ε (StateM σ)

/-- The result of a run and the state it leaves. -/
def exec (x : Run ε σ α) (s : σ) : Except ε α × σ := x.run.run s

@[simp] theorem exec_pure (a : α) (s : σ) : exec (pure a : Run ε σ α) s = (.ok a, s) := rfl

@[simp] theorem exec_throw (e : ε) (s : σ) : exec (throw e : Run ε σ α) s = (.error e, s) := rfl

@[simp] theorem exec_lift (x : Except ε α) (s : σ) : exec (liftM x : Run ε σ α) s = (x, s) := rfl

@[simp] theorem exec_get (s : σ) : exec (get : Run ε σ σ) s = (.ok s, s) := rfl

@[simp] theorem exec_set (s s' : σ) : exec (set s' : Run ε σ PUnit) s = (.ok ⟨⟩, s') := rfl

@[simp] theorem exec_modify (f : σ → σ) (s : σ) : exec (modify f : Run ε σ PUnit) s = (.ok ⟨⟩, f s) := rfl

theorem exec_bind (x : Run ε σ α) (f : α → Run ε σ β) (s : σ) :
    exec (x >>= f) s = match exec x s with
      | (.ok a, s') => exec (f a) s'
      | (.error e, s') => (.error e, s') := by
  simp only [exec, ExceptT.run_bind, StateT.run_bind]
  rcases x.run.run s with ⟨a | e, s'⟩ <;> rfl

theorem exec_get_bind (f : σ → Run ε σ β) (s : σ) : exec (get >>= f) s = exec (f s) s := by
  rw [exec_bind, exec_get]

theorem exec_set_bind (f : PUnit → Run ε σ β) (s s' : σ) : exec (set s' >>= f) s = exec (f ⟨⟩) s' := by
  rw [exec_bind, exec_set]

theorem exec_modify_bind (g : σ → σ) (f : PUnit → Run ε σ β) (s : σ) :
    exec (modify g >>= f) s = exec (f ⟨⟩) (g s) := by
  rw [exec_bind, exec_modify]

/-- Code in sequence returns if each part does. -/
theorem exec_bind_eq_ok {x : Run ε σ α} {f : α → Run ε σ β} {s s' : σ} {b : β} :
    exec (x >>= f) s = (.ok b, s') ↔ ∃ a s₁, exec x s = (.ok a, s₁) ∧ exec (f a) s₁ = (.ok b, s') := by
  rw [exec_bind]
  rcases exec x s with ⟨e | a, s₁⟩
  · exact ⟨nofun, nofun⟩
  · exact ⟨fun h => ⟨a, s₁, rfl, h⟩, fun ⟨_, _, h, hf⟩ => by cases h; exact hf⟩

theorem exec_map (f : α → β) (x : Run ε σ α) (s : σ) :
    exec (f <$> x) s = ((exec x s).1.map f, (exec x s).2) := by
  rw [map_eq_pure_bind, exec_bind]
  rcases exec x s with ⟨e | a, s'⟩ <;> rfl

theorem exec_tryCatch (x : Run ε σ α) (h : ε → Run ε σ α) (s : σ) :
    exec (tryCatch x h) s = match exec x s with
      | (.ok a, s') => (.ok a, s')
      | (.error e, s') => exec (h e) s' := by
  have hrun : (tryCatch x h).run = x.run >>= fun r => match r with
    | .ok a => pure (.ok a)
    | .error e => (h e).run := rfl
  simp only [exec, hrun, StateT.run_bind]
  rcases x.run.run s with ⟨a | e, s'⟩ <;> rfl

theorem exec_mapM_lift (f : α → Except ε β) (s : σ) : ∀ l : List α,
    exec (l.mapM fun a => (liftM (f a) : Run ε σ β)) s = (l.mapM f, s)
  | [] => rfl
  | a :: l => by
    rw [List.mapM_cons, List.mapM_cons, exec_bind, exec_lift]
    rcases f a with e | b
    · rfl
    · dsimp only
      rw [exec_bind, exec_mapM_lift f s l]
      rcases l.mapM f with e | bs <;> rfl

/-- A run on a part of the state. -/
def zoom {τ : Type} (part : σ → τ) (put : τ → σ → σ) (x : Run ε τ α) : Run ε σ α :=
  ExceptT.mk fun s => let r := exec x (part s); (r.1, put r.2 s)

@[simp] theorem exec_zoom {τ : Type} (part : σ → τ) (put : τ → σ → σ) (x : Run ε τ α) (s : σ) :
    exec (zoom part put x) s = ((exec x (part s)).1, put (exec x (part s)).2 s) := rfl

/-- A counted loop. The body tells whether to stop. -/
def loop (body : ℕ → α → Run ε σ (α × Bool)) : ℕ → ℕ → α → Run ε σ α
  | 0, _, a => pure a
  | n + 1, k, a => do
    let r ← body k a
    if r.2 then pure r.1 else loop body n (k + 1) r.1

/-! ### What holds afterwards -/

section Triple

variable {P P' : σ → Prop} {Q Q' : α → σ → Prop} {E E' : ε → σ → Prop} {S : β → σ → Prop}

/-- `Q` of a returned value and the state, `E` of a thrown one. -/
def After (Q : α → σ → Prop) (E : ε → σ → Prop) : Except ε α × σ → Prop
  | (.ok a, s) => Q a s
  | (.error e, s) => E e s

/-- From every state with `P` the run returns with `Q` or throws with `E`. -/
def Triple (P : σ → Prop) (x : Run ε σ α) (Q : α → σ → Prop) (E : ε → σ → Prop) : Prop :=
  ∀ s, P s → After Q E (exec x s)

theorem After.mono {r : Except ε α × σ} (h : After Q E r) (hQ : ∀ a s, Q a s → Q' a s)
    (hE : ∀ e s, E e s → E' e s) : After Q' E' r := by
  rcases r with ⟨a | e, s⟩
  · exact hE _ _ h
  · exact hQ _ _ h

namespace Triple

variable {x : Run ε σ α} {f : α → Run ε σ β}

theorem of_ok (h : Triple P x Q E) {s s' : σ} {a : α} (hs : P s) (hx : exec x s = (.ok a, s')) : Q a s' := by
  have h1 := h s hs
  rwa [hx] at h1

theorem of_error (h : Triple P x Q E) {s s' : σ} {e : ε} (hs : P s) (hx : exec x s = (.error e, s')) :
    E e s' := by
  have h1 := h s hs
  rwa [hx] at h1

theorem mono (h : Triple P x Q E) (hP : ∀ s, P' s → P s) (hQ : ∀ a s, Q a s → Q' a s)
    (hE : ∀ e s, E e s → E' e s) : Triple P' x Q' E' := fun s hs => (h s (hP s hs)).mono hQ hE

theorem pure (a : α) (h : ∀ s, P s → Q a s) : Triple P (Pure.pure a : Run ε σ α) Q E := h

theorem throw (e : ε) (h : ∀ s, P s → E e s) : Triple P (MonadExcept.throw e : Run ε σ α) Q E := h

theorem bind {R : α → σ → Prop} (hx : Triple P x R E) (hf : ∀ a, Triple (R a) (f a) S E) :
    Triple P (x >>= f) S E := by
  intro s hs
  have h1 := hx s hs
  rw [exec_bind]
  rcases hr : exec x s with ⟨e | a, s'⟩
  · rw [hr] at h1
    exact h1
  · rw [hr] at h1
    exact hf a s' h1

theorem map {g : α → β} (hx : Triple P x (fun a => S (g a)) E) : Triple P (g <$> x) S E := by
  intro s hs
  have h1 := hx s hs
  rw [exec_map]
  rcases hr : exec x s with ⟨e | a, s'⟩
  · rw [hr] at h1
    exact h1
  · rw [hr] at h1
    exact h1

/-- What does not depend on the state holds on. -/
theorem fact {p : Prop} (x : Run ε σ α) : Triple (fun _ => p) x (fun _ _ => p) (fun _ _ => True) := fun s hp => by
  rcases exec x s with ⟨e | a, s'⟩
  · trivial
  · exact hp

/-- A value that does not touch the state. -/
theorem lift {x : Except ε α} (hok : ∀ a, x = .ok a → ∀ s, P s → Q a s)
    (herr : ∀ e, x = .error e → ∀ s, P s → E e s) : Triple P (liftM x : Run ε σ α) Q E := by
  intro s hs
  rw [exec_lift]
  cases hx : x with
  | ok a => exact hok a hx s hs
  | error e => exact herr e hx s hs

/-- **An invariant of the body** holds after the loop. -/
theorem loop {I : ℕ → α → σ → Prop} {body : ℕ → α → Run ε σ (α × Bool)}
    (h : ∀ k a, Triple (I k a) (body k a) (fun r => I (k + 1) r.1) E) :
    ∀ (n k : ℕ) (a : α), Triple (I k a) (loop body n k a) (fun a s => ∃ j, I j a s) E
  | 0, k, a => pure a fun _ hs => ⟨k, hs⟩
  | n + 1, k, a => by
    refine (h k a).bind fun r => ?_
    cases hr : r.2 with
    | true => exact pure r.1 fun _ hs => ⟨k + 1, hs⟩
    | false => exact loop h n (k + 1) r.1

end Triple

end Triple

/-! ### Parts of the state that a run leaves -/

section Preserves

variable {P : σ → Prop} {x : Run ε σ α} {f : α → Run ε σ β}

/-- From every state with `P` the run ends in one, also when it throws. -/
def Preserves (P : σ → Prop) (x : Run ε σ α) : Prop := ∀ s, P s → P (exec x s).2

namespace Preserves

theorem throw (e : ε) : Preserves P (MonadExcept.throw e : Run ε σ α) := fun _ hs => hs

theorem lift (x : Except ε α) : Preserves P (liftM x : Run ε σ α) := fun _ hs => hs

theorem get : Preserves P (MonadState.get : Run ε σ σ) := fun _ hs => hs

theorem modify {g : σ → σ} (h : ∀ s, P s → P (g s)) : Preserves P (modify g : Run ε σ PUnit) := h

theorem bind (hx : Preserves P x) (hf : ∀ a, Preserves P (f a)) : Preserves P (x >>= f) := by
  intro s hs
  have h1 := hx s hs
  rw [exec_bind]
  rcases hr : exec x s with ⟨e | a, s'⟩
  · rw [hr] at h1
    exact h1
  · rw [hr] at h1
    exact hf a s' h1

theorem forM {g : α → Run ε σ PUnit} (h : ∀ a, Preserves P (g a)) : ∀ l : List α, Preserves P (l.forM g)
  | [] => fun _ hs => hs
  | a :: l => (h a).bind fun _ => forM h l

/-- A run on a part of the state. -/
theorem zoom {τ : Type} {part : σ → τ} {put : τ → σ → σ} (h : ∀ t s, P s → P (put t s)) (x : Run ε τ α) :
    Preserves P (Runs.zoom part put x) := fun s hs => h _ s hs

end Preserves

end Preserves

/-! ### Runs whose result is known -/

section Returns

variable {P P' Q Q' R : σ → Prop} {x : Run ε σ α} {f : α → Run ε σ β} {a : α} {b : β}

/-- From every state with `P` the run returns `a`, in a state with `Q`. -/
def Returns (P : σ → Prop) (x : Run ε σ α) (a : α) (Q : σ → Prop) : Prop :=
  ∀ s, P s → ∃ s', exec x s = (.ok a, s') ∧ Q s'

namespace Returns

theorem mono (h : Returns P x a Q) (hP : ∀ s, P' s → P s) (hQ : ∀ s, Q s → Q' s) : Returns P' x a Q' := by
  intro s hs
  obtain ⟨s', hx, hq⟩ := h s (hP s hs)
  exact ⟨s', hx, hQ s' hq⟩

theorem pure (a : α) : Returns P (Pure.pure a : Run ε σ α) a P := fun s hs => ⟨s, rfl, hs⟩

theorem bind (hx : Returns P x a R) (hf : Returns R (f a) b Q) : Returns P (x >>= f) b Q := by
  intro s hs
  obtain ⟨s₁, hx, hr⟩ := hx s hs
  obtain ⟨s₂, hf, hq⟩ := hf s₁ hr
  exact ⟨s₂, by rw [exec_bind, hx]; exact hf, hq⟩

theorem map (hx : Returns P x a Q) (g : α → β) : Returns P (g <$> x) (g a) Q := by
  intro s hs
  obtain ⟨s', hx, hq⟩ := hx s hs
  exact ⟨s', by rw [exec_map, hx]; rfl, hq⟩

theorem lift (a : α) : Returns P (liftM (Except.ok a : Except ε α) : Run ε σ α) a P :=
  fun s hs => ⟨s, rfl, hs⟩

end Returns

end Returns

/-! ### Two runs side by side -/

section Agree

variable {R : α → β → Prop} {S : α' → β' → Prop}

/-- Two results: related values, or the same exception. -/
inductive SameResult (R : α → β → Prop) : Except ε α → Except ε β → Prop
  | ok {a : α} {b : β} : R a b → SameResult R (.ok a) (.ok b)
  | error (e : ε) : SameResult R (.error e) (.error e)

/-- From every state the two runs leave the same state and results with `R`. -/
def Agree (R : α → β → Prop) (x : Run ε σ α) (y : Run ε σ β) : Prop :=
  ∀ s, SameResult R (exec x s).1 (exec y s).1 ∧ (exec x s).2 = (exec y s).2

namespace Agree

variable {x : Run ε σ α} {y : Run ε σ β} {f : α → Run ε σ α'} {g : β → Run ε σ β'}

theorem refl (x : Run ε σ α) : Agree Eq x x := fun s => by
  refine ⟨?_, rfl⟩
  cases (exec x s).1 with
  | ok a => exact .ok rfl
  | error e => exact .error e

theorem pure {a : α} {b : β} (h : R a b) : Agree R (Pure.pure a : Run ε σ α) (Pure.pure b) :=
  fun _ => ⟨.ok h, rfl⟩

theorem bind (hx : Agree R x y) (hf : ∀ a b, R a b → Agree S (f a) (g b)) :
    Agree S (x >>= f) (y >>= g) := by
  intro s
  obtain ⟨h1, h2⟩ := hx s
  rw [exec_bind, exec_bind]
  rcases hr : exec x s with ⟨r, s₁⟩
  rcases hr' : exec y s with ⟨r', s₂⟩
  rw [hr, hr'] at h1 h2
  obtain rfl : s₁ = s₂ := h2
  cases h1 with
  | ok h => exact hf _ _ h s₁
  | error e => exact ⟨.error e, rfl⟩

/-- **A simulation of the bodies** is one of the loops. -/
theorem loop {body : ℕ → α → Run ε σ (α × Bool)} {body' : ℕ → β → Run ε σ (β × Bool)}
    (h : ∀ k a b, R a b → Agree (fun r r' => R r.1 r'.1 ∧ r.2 = r'.2) (body k a) (body' k b)) :
    ∀ (n k : ℕ) (a : α) (b : β), R a b → Agree R (loop body n k a) (loop body' n k b)
  | 0, _, _, _, hab => pure hab
  | n + 1, k, a, b, hab => by
    refine (h k a b hab).bind fun r r' hr => ?_
    obtain ⟨hr, hstop⟩ := hr
    rw [← hstop]
    cases hs : r.2 with
    | true => exact pure hr
    | false => exact loop h n (k + 1) r.1 r'.1 hr

/-- Where the second run returns, so does the first. -/
theorem of_ok (h : Agree R x y) {s s' : σ} {b : β} (hy : exec y s = (.ok b, s')) :
    ∃ a, exec x s = (.ok a, s') ∧ R a b := by
  obtain ⟨h1, h2⟩ := h s
  rcases hx : exec x s with ⟨r, s₁⟩
  rw [hx, hy] at h1 h2
  obtain rfl : s₁ = s' := h2
  cases h1 with
  | ok h => exact ⟨_, rfl, h⟩

/-- A result that the other determines. -/
theorem exec_eq {f : α → β} (h : Agree (fun a b => b = f a) x y) (s : σ) :
    exec y s = exec (x >>= fun a => Pure.pure (f a)) s := by
  obtain ⟨h1, h2⟩ := h s
  rw [exec_bind]
  rcases hx : exec x s with ⟨r, s₁⟩
  rcases hy : exec y s with ⟨r', s₂⟩
  rw [hx, hy] at h1 h2
  obtain rfl : s₁ = s₂ := h2
  cases h1 with
  | ok h => rw [h]; rfl
  | error e => rfl

end Agree

end Agree

/-! ### Runs whose value does not depend on the state -/

section Yields

variable {x : Run ε σ α} {f : α → Run ε σ β}

/-- In sequence. -/
theorem fst_exec_bind {y : Except ε α} {g : α → Except ε β} (hx : ∀ s, (exec x s).1 = y)
    (hf : ∀ a s, (exec (f a) s).1 = g a) (s : σ) : (exec (x >>= f) s).1 = y >>= g := by
  rw [exec_bind, ← hx s]
  rcases exec x s with ⟨e | a, s'⟩
  · rfl
  · exact hf a s'

/-- From every state the run returns the same value, one with `Q`. -/
def Yields (x : Run ε σ α) (Q : α → Prop) : Prop := ∃ a, Q a ∧ ∀ s, (exec x s).1 = .ok a

namespace Yields

variable {Q : α → Prop} {R : β → Prop}

theorem pure {a : α} (h : Q a) : Yields (Pure.pure a : Run ε σ α) Q := ⟨a, h, fun _ => rfl⟩

theorem lift {y : Except ε α} {a : α} (hy : y = .ok a) (h : Q a) : Yields (liftM y : Run ε σ α) Q :=
  ⟨a, h, fun _ => hy⟩

theorem bind (hx : Yields x Q) (hf : ∀ a, Q a → Yields (f a) R) : Yields (x >>= f) R := by
  obtain ⟨a, ha, hx⟩ := hx
  obtain ⟨b, hb, hf⟩ := hf a ha
  refine ⟨b, hb, fun s => ?_⟩
  have h := hx s
  rw [exec_bind]
  rcases hr : exec x s with ⟨r, s'⟩
  rw [hr] at h
  obtain rfl : r = .ok a := h
  exact hf s'

/-- **An invariant of the body** holds of what the loop returns. -/
theorem loop {I : α → Prop} {body : ℕ → α → Run ε σ (α × Bool)}
    (h : ∀ k a, I a → Yields (body k a) fun r => I r.1) :
    ∀ (n k : ℕ) (a : α), I a → Yields (loop body n k a) I
  | 0, _, _, ha => pure ha
  | n + 1, k, a, ha => by
    refine (h k a ha).bind fun r hr => ?_
    cases r.2 with
    | true => exact pure hr
    | false => exact loop h n (k + 1) r.1 hr

/-- A loop that ran all `n` rounds, or was stopped after `m`. -/
theorem loop_until {I J : ℕ → α → Prop} {body : ℕ → α → Run ε σ (α × Bool)}
    (h : ∀ k a, I k a → Yields (body k a) fun r =>
      (r.2 = true → J (k + 1) r.1) ∧ (r.2 = false → I (k + 1) r.1)) :
    ∀ (n k : ℕ) (a : α), I k a → Yields (Runs.loop body n k a) fun a => I (k + n) a ∨ ∃ m ≤ k + n, J m a
  | 0, _, _, ha => pure (.inl ha)
  | n + 1, k, a, ha => by
    refine (h k a ha).bind fun r ⟨hstop, hgo⟩ => ?_
    cases hr : r.2 with
    | true => exact pure (.inr ⟨k + 1, by omega, hstop hr⟩)
    | false =>
      have hrest := loop_until h n (k + 1) r.1 (hgo hr)
      rwa [Nat.succ_add_eq_add_succ] at hrest

end Yields

end Yields

/-! ### Runs that only add to a log -/

section Writes

variable {ω : Type} {x : Run ε (List ω) α} {f : α → Run ε (List ω) β}

/-- The run appends to a log that it does not read. -/
def Writes (x : Run ε (List ω) α) : Prop :=
  ∀ log, exec x log = ((exec x []).1, log ++ (exec x []).2)

namespace Writes

theorem pure (a : α) : Writes (Pure.pure a : Run ε (List ω) α) := fun log => by simp

theorem lift (x : Except ε α) : Writes (liftM x : Run ε (List ω) α) := fun log => by simp

theorem append (l : List ω) : Writes (modify (· ++ l) : Run ε (List ω) PUnit) := fun log => by simp

theorem bind (hx : Writes x) (hf : ∀ a, Writes (f a)) : Writes (x >>= f) := by
  intro log
  rw [exec_bind, exec_bind, hx log]
  rcases exec x [] with ⟨e | a, l⟩
  · rfl
  · dsimp only
    rw [hf a (log ++ l), hf a l, List.append_assoc]

theorem loop {body : ℕ → α → Run ε (List ω) (α × Bool)} (h : ∀ k a, Writes (body k a)) :
    ∀ (n k : ℕ) (a : α), Writes (loop body n k a)
  | 0, _, a => pure a
  | n + 1, k, a => by
    refine (h k a).bind fun r => ?_
    cases r.2 with
    | true => exact pure r.1
    | false => exact loop h n (k + 1) r.1

end Writes

end Writes

end Runs
