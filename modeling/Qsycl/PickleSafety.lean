/-
# What the pickle reader guarantees on any input

The bounds of its reads, the accesses to its memo and the texts in its result,
for every byte sequence. Each has one gap in the source, and holds exactly (for
the texts, step by step) where the gap is avoided: a length that wraps the
check of a read (`decode_bounds`), an index whose successor wraps or an entry that
was never stored (`decode_memo`), a text that is not valid UTF-8 (`decode_utf8`).
-/
import Qsycl.SafePickle

namespace Qsycl.SafePickle

open Runs

/-- A platform whose `dump` rejects every value. -/
def plain : Platform := ⟨2 ^ 62, by norm_num, fun _ => true, fun _ => .error ⟨.runtimeError, "dump"⟩, nofun⟩

/-! ### Reads -/

/-- Bounds safety of a run: the position stays within the input; a read that passes
the check lies inside the input, and one that runs past the end raises the error
about truncated input. -/
structure InBounds (b : Buffer) (r : Except Exn Json × Decoder) : Prop where
  pos : r.2.pos ≤ b.data.length
  reads : ∀ q n, Event.read q n ∈ r.2.trace → q ≤ b.data.length ∧
    (passes b q n = true → q + n ≤ b.data.length) ∧
    (b.data.length < q + n → ∃ e, r.1 = .error e ∧ Truncated n e)

/-- No sum of a position and a length wraps. -/
def NoWrap (trace : List Event) : Prop := ∀ q n, Event.read q n ∈ trace → q + n < 2 ^ 64

theorem decodeRun_faulted (P : Platform) (b : Buffer) :
    After (fun _ d => Inside b d) (Faulted b) (decodeRun P b) :=
  decodeFrom_spec (H := Inside b) (fun _ hd => (step_ahead hd).mono
    (fun _ _ h => ⟨fun _ => h.1, fun _ _ => h.1⟩) fun _ _ h => h) _ _ inside_new (decodeFrom_eq P b)

/-- **Bounds safety** holds of the runs in which no length wraps the check, and of
no other; on every input `decode` ends. -/
theorem decode_bounds (P : Platform) (b : Buffer) :
    (InBounds b (decodeRun P b) ↔ NoWrap (decodeRun P b).2.trace) ∧
    (decodeRun P b).2.pos ≤ b.data.length ∧
    (∀ q n, Event.read q n ∈ (decodeRun P b).2.trace → q ≤ b.data.length) ∧
    ∀ rounds, b.data.length < rounds → decodeFrom P b rounds .new = some (decodeRun P b) := by
  have hend : ∀ rounds, b.data.length < rounds → decodeFrom P b rounds .new = some (decodeRun P b) :=
    fun rounds h => decodeFrom_mono h (decodeFrom_eq P b)
  have hrun := decodeRun_faulted P b
  have hsmall := b.small
  rcases hr : decodeRun P b with ⟨e | v, d⟩
  · rw [hr] at hrun hend
    have hpos : ∀ q n, Event.read q n ∈ d.trace → q ≤ b.data.length := fun q n hq => by
      rcases hrun.reads q n hq with h | h
      · omega
      · exact h.1
    refine ⟨⟨fun h q n hq => ?_, fun h => ⟨hrun.pos, fun q n hq => ⟨hpos q n hq, fun hp => ?_, fun hlt => ?_⟩⟩⟩,
      hrun.pos, hpos, hend⟩
    · rcases hrun.reads q n hq with hin | ⟨hle, hfit | ⟨hge, hn, -⟩⟩
      · omega
      · exact hfit.1
      · -- the check passes although the read is not inside
        have hpass : passes b q n = true := by
          unfold passes
          rw [Nat.mod_eq_sub_mod hge, Nat.mod_eq_of_lt (by omega), decide_eq_true_iff]
          omega
        have := (h.reads q n hq).2.1 hpass
        omega
    · rwa [passes_iff (h q n hq)] at hp
    · rcases hrun.reads q n hq with hin | ⟨hle, hfit | ⟨hge, -⟩⟩
      · omega
      · exact ⟨e, rfl, hfit.2⟩
      · have hwrap := h q n hq
        omega
  · rw [hr] at hrun hend
    have hpos : ∀ q n, Event.read q n ∈ d.trace → q ≤ b.data.length := fun q n hq => by
      have hin := hrun.reads q n hq
      omega
    refine ⟨⟨fun _ q n hq => ?_, fun _ => ⟨hrun.pos, fun q n hq => ⟨hpos q n hq, fun _ => hrun.reads q n hq,
      fun hlt => ?_⟩⟩⟩, hrun.pos, hpos, hend⟩
    · have hin := hrun.reads q n hq
      omega
    · have hin := hrun.reads q n hq
      omega

/-- BINUNICODE8 with a length of `2 ^ 64 - 1`. -/
def wrapping : Buffer := ⟨0x8d :: List.replicate 8 0xff, by decide⟩

/-- The check lets the length pass, and the string throws a `length_error`. -/
theorem decode_bounds_fails : ¬ ∀ (P : Platform) (b : Buffer), InBounds b (decodeRun P b) := by
  intro h
  have hrun : decodeRun plain wrapping = (.error ⟨.lengthError, "basic_string::_M_create"⟩,
      ⟨9, [], [], [], [.read 0 1, .read 1 8, .read 9 18446744073709551615]⟩) := rfl
  have hreads := (h plain wrapping).reads 9 18446744073709551615
  rw [hrun] at hreads
  have hin := (hreads (by simp)).2.1 (by decide)
  exact absurd hin (by decide)

/-! ### Invariants of the memo and the trace -/

section Trace

/-- The strings on the stack and in the memo satisfy `T`. -/
structure Clean (T : Bytes → Prop) (d : Decoder) : Prop where
  stack : ∀ v ∈ d.stack, v.Strings T
  memo : ∀ v ∈ d.memo, v.Strings T

variable {P : Platform} {b : Buffer} {T : Bytes → Prop} {B : List Json → List Event → Prop}
  {J : Decoder → Prop} {E : Exn → List Event → Prop}

theorem strings_enlarged {memo memo' : List Json} {index : ℕ} (h : ∀ v ∈ memo, v.Strings T)
    (he : enlarged P memo index = .ok memo') : ∀ v ∈ memo', v.Strings T := by
  unfold enlarged resize at he
  split at he
  · split at he
    · cases he
      exact fun v hv => h v (List.mem_of_mem_take hv)
    · split at he
      · cases he
        intro v hv
        rcases List.mem_append.mp hv with hv | hv
        · exact h v hv
        · rw [List.eq_of_mem_replicate hv]
          exact .null
      · cases he
  · cases he
    exact h

/-- An invariant `B` of the memo and the trace, with the strings on the stack and in
the memo: what it has to keep are the events. -/
structure TraceInvariant (P : Platform) (T : Bytes → Prop) (B : List Json → List Event → Prop)
    (E : Exn → List Event → Prop) : Prop where
  fails : ∀ e memo trace, B memo trace → E e trace
  dumps : ∀ v text, P.dump v = .ok text → T text
  read : ∀ memo trace q n, B memo trace → B memo (trace ++ [.read q n])
  stored : ∀ memo trace index memo' v, B memo trace → index < 2 ^ 64 ∨ index = memo.length →
    enlarged P memo index = .ok memo' →
    (index < memo'.length → B (memo'.set index v) (trace ++ [.stored index memo'.length v])) ∧
    (memo'.length ≤ index → ∀ e, E e (trace ++ [.stored index memo'.length v]))
  loaded : ∀ memo trace index v, B memo trace → memo[index]? = some v →
    B memo (trace ++ [.loaded index (some v)])
  unknown : ∀ memo trace index, B memo trace → memo[index]? = none →
    E (error ("GET references unknown memo id " ++ toString index)) (trace ++ [.loaded index none])

namespace TraceInvariant

variable (h : TraceInvariant P T B E)
include h

theorem memoPut {d : Decoder} (hB : B d.memo d.trace) (hd : Clean T d) {index : ℕ}
    (hi : index < 2 ^ 64 ∨ index = d.memo.length) :
    After (fun _ d => B d.memo d.trace ∧ Clean T d) (fun e d => E e d.trace) (exec (memoPut P index) d) := by
  rw [exec_memoPut]
  cases hv : d.stack.getLast? with
  | none => exact h.fails _ _ _ hB
  | some v =>
    cases he : enlarged P d.memo index with
    | error e => exact h.fails _ _ _ hB
    | ok memo' =>
      obtain ⟨hin, hout⟩ := h.stored _ _ _ _ v hB hi he
      dsimp only
      split
      · rename_i hlt
        refine ⟨hin hlt, hd.stack, fun w hw => ?_⟩
        rcases List.mem_or_eq_of_mem_set hw with hw | rfl
        · exact strings_enlarged hd.memo he w hw
        · exact hd.stack _ (List.mem_of_getLast? hv)
      · rename_i hge
        exact hout (not_lt.mp hge) _

theorem readBytes (n : ℕ) : Triple (fun d => B d.memo d.trace ∧ Clean T d) (readBytes b n)
    (fun _ d => B d.memo d.trace ∧ Clean T d) (fun e d => E e d.trace) := by
  rintro d ⟨hB, hd⟩
  have hread := h.read _ _ d.pos n hB
  rw [exec_readBytes]
  dsimp only
  split
  · rw [exec_access]
    split
    · exact h.fails _ _ _ hread
    · exact ⟨hread, hd.stack, hd.memo⟩
  · exact h.fails _ _ _ hread

theorem pushText (text : ∀ d q n p s, B d.memo d.trace → Clean T d →
      J { d with pos := p, stack := d.stack ++ [.string s], trace := d.trace ++ [.read q n, .text s] })
    (n : ℕ) : Triple (fun d => B d.memo d.trace ∧ Clean T d) (pushText P b n) (fun _ => J)
      (fun e d => E e d.trace) := by
  rintro d ⟨hB, hd⟩
  have hfail : ∀ e, E e (d.trace ++ [.read d.pos n]) := fun e => h.fails e _ _ (h.read _ _ _ _ hB)
  unfold SafePickle.pushText
  rw [exec_bind, exec_readRawString]
  dsimp only
  by_cases hpass : passes b d.pos n = true
  · rw [if_pos hpass]
    by_cases hlong : P.maxString < n
    · rw [if_pos hlong]
      exact hfail _
    · rw [if_neg hlong, exec_bind, exec_access]
      dsimp only
      by_cases hin : b.data.length < d.pos + n
      · rw [if_pos hin]
        exact hfail _
      · rw [if_neg hin]
        have ht := text d d.pos n (d.pos + n) ((b.data.drop d.pos).take n) hB hd
        have htrace : ∀ s, d.trace ++ [.read d.pos n, .text s] = d.trace ++ [.read d.pos n] ++ [.text s] :=
          fun s => by simp
        rw [htrace] at ht
        exact ht
  · rw [if_neg hpass]
    exact hfail _

theorem popMark : Triple (fun d => B d.memo d.trace ∧ Clean T d) popMark
    (fun vs d => (∀ v ∈ vs, v.Strings T) ∧ B d.memo d.trace ∧ Clean T d) (fun e d => E e d.trace) := by
  rintro d ⟨hB, hd⟩
  rw [exec_popMark]
  cases d.marks.getLast? with
  | none => exact h.fails _ _ _ hB
  | some m =>
    dsimp only
    split
    · exact h.fails _ _ _ hB
    · exact ⟨fun v hv => hd.stack v (List.mem_of_mem_drop hv), hB,
        fun v hv => hd.stack v (List.mem_of_mem_take hv), hd.memo⟩

theorem memoGet (index : ℕ) : Triple (fun d => B d.memo d.trace ∧ Clean T d) (memoGet index)
    (fun _ d => B d.memo d.trace ∧ Clean T d) (fun e d => E e d.trace) := by
  rintro d ⟨hB, hd⟩
  rw [exec_memoGet]
  dsimp only
  cases hv : d.memo[index]? with
  | none => exact h.unknown _ _ _ hB hv
  | some v =>
    refine ⟨h.loaded _ _ _ _ hB hv, fun w hw => ?_, hd.memo⟩
    rcases List.mem_append.mp hw with hw | hw
    · exact hd.stack w hw
    · exact List.mem_singleton.mp hw ▸ hd.memo v (List.mem_of_getElem? hv)

/-- It remains to say what holds after a text. -/
theorem keeps (weaken : ∀ d, B d.memo d.trace ∧ Clean T d → J d)
    (text : ∀ d q n p s, B d.memo d.trace → Clean T d →
      J { d with pos := p, stack := d.stack ++ [.string s], trace := d.trace ++ [.read q n, .text s] }) :
    Keeps P b (fun d => B d.memo d.trace ∧ Clean T d) J T (fun e d => E e d.trace) where
  fails e d _ hd := h.fails e _ _ hd.1
  weaken := weaken
  dumps := h.dumps
  onU8 d hd := by
    rw [exec_readU8]
    cases b.data[d.pos]? with
    | some c => exact ⟨h.read _ _ _ _ hd.1, hd.2.stack, hd.2.memo⟩
    | none => exact h.fails _ _ _ (h.read _ _ _ _ hd.1)
  onBytes n _ := h.readBytes n
  onText n _ := h.pushText text n
  onPush v hv d hd := by
    refine ⟨hd.1, fun w hw => ?_, hd.2.memo⟩
    rcases List.mem_append.mp hw with hw | hw
    · exact hd.2.stack w hw
    · exact List.mem_singleton.mp hw ▸ hv
  onTop what d hd := by
    rw [exec_top]
    cases hv : d.stack.getLast? with
    | none => exact h.fails _ _ _ hd.1
    | some v => exact ⟨hd.2.stack v (List.mem_of_getLast? hv), hd⟩
  onPop d hd := by
    rw [exec_pop]
    cases hv : d.stack.getLast? with
    | none => exact h.fails _ _ _ hd.1
    | some v =>
      exact ⟨hd.2.stack v (List.mem_of_getLast? hv), hd.1,
        fun w hw => hd.2.stack w (List.mem_of_mem_dropLast hw), hd.2.memo⟩
  onSetTop v hv d hd := by
    refine ⟨hd.1, fun w hw => ?_, hd.2.memo⟩
    rcases List.mem_append.mp hw with hw | hw
    · exact hd.2.stack w (List.mem_of_mem_dropLast hw)
    · exact List.mem_singleton.mp hw ▸ hv
  onMark d hd := ⟨hd.1, hd.2.stack, hd.2.memo⟩
  onPopMark := h.popMark
  onPut index hi d hd := h.memoPut hd.1 hd.2 (.inl hi)
  onMemoize d hd := by
    show After _ _ (exec (SafePickle.memoPut P d.memo.length) d)
    exact h.memoPut hd.1 hd.2 (.inr rfl)
  onGet := h.memoGet

end TraceInvariant

end Trace

/-! ### The memo -/

/-- What was stored last at an index. -/
def lastStored (index : ℕ) (trace : List Event) : Option Json :=
  trace.reverse.findSome? fun
    | .stored i _ v => if i = index then some v else none
    | _ => none

theorem lastStored_stored (index i size : ℕ) (v : Json) (trace : List Event) :
    lastStored index (trace ++ [.stored i size v]) = if i = index then some v else lastStored index trace := by
  unfold lastStored
  rw [List.reverse_append]
  by_cases h : i = index <;> simp [h]

theorem lastStored_of_not_stored (index : ℕ) {e : Event} (he : ∀ i size v, e ≠ .stored i size v)
    (trace : List Event) : lastStored index (trace ++ [e]) = lastStored index trace := by
  unfold lastStored
  rw [List.reverse_append]
  cases e with
  | stored i size v => exact absurd rfl (he i size v)
  | _ => simp

/-- Memo safety of a run: each store is inside the table; a load yields what was
stored last at its index; where nothing was stored it is rejected with an error. -/
structure MemoSafe (r : Except Exn Json × Decoder) : Prop where
  stores : ∀ index size v, Event.stored index size v ∈ r.2.trace → index < size
  loads : ∀ k index v, r.2.trace[k]? = some (.loaded index v) → v = lastStored index (r.2.trace.take k)
  rejects : ∀ index, Event.loaded index none ∈ r.2.trace →
    r.1 = .error (error ("GET references unknown memo id " ++ toString index))

/-- No store is at the largest index, and a load where nothing was stored comes only
when its index is above all that were stored at. -/
structure ProperIds (events : List Event) : Prop where
  stores : ∀ index size v, Event.stored index size v ∈ events → index + 1 ≠ 2 ^ 64
  loads : ∀ k index v, events[k]? = some (.loaded index v) → lastStored index (events.take k) = none →
    ∀ i, lastStored i (events.take k) ≠ none → i < index

/-- What a load yields after the events `h`: what was stored last, if the table was
enlarged past the index then at least null. -/
def LoadYields (h : List Event) (index : ℕ) (v : Option Json) : Prop :=
  v = lastStored index h ∧ (v = none → ∀ i, lastStored i h ≠ none → i < index) ∨
    lastStored index h = none ∧ v ≠ none ∧ ∃ i, lastStored i h ≠ none ∧ index < i

def LoadsYield (events : List Event) : Prop :=
  ∀ k index v, events[k]? = some (.loaded index v) → LoadYields (events.take k) index v

/-- The table is as large as the stores made it, and holds what they left, or null. -/
structure Memoized (memo : List Json) (trace : List Event) : Prop where
  small : memo.length < 2 ^ 64
  entry : ∀ i < memo.length, memo[i]? = some ((lastStored i trace).getD .null)
  above : ∀ i, lastStored i trace ≠ none → i < memo.length
  last : 0 < memo.length → lastStored (memo.length - 1) trace ≠ none
  stores : ∀ index size v, Event.stored index size v ∈ trace → index < size ∧ index + 1 ≠ 2 ^ 64
  loads : LoadsYield trace
  known : ∀ index, Event.loaded index none ∉ trace

/-- After an exception; a store past the end of the table was at the largest index. -/
structure MemoFaulted (e : Exn) (trace : List Event) : Prop where
  stores : ∀ index size v, Event.stored index size v ∈ trace → (index < size ↔ index + 1 ≠ 2 ^ 64)
  loads : LoadsYield trace
  unknown : ∀ index, Event.loaded index none ∈ trace →
    e = error ("GET references unknown memo id " ++ toString index)

section Memo

variable {memo : List Json} {trace : List Event}

theorem LoadsYield.snoc (h : LoadsYield trace) {e : Event}
    (he : ∀ index v, e = .loaded index v → LoadYields trace index v) : LoadsYield (trace ++ [e]) := by
  intro k index v hk
  rcases Nat.lt_trichotomy k trace.length with hlt | rfl | hgt
  · rw [List.getElem?_append_left hlt] at hk
    rw [List.take_append_of_le_length hlt.le]
    exact h k index v hk
  · rw [List.take_left]
    exact he index v (by simpa using hk)
  · rw [List.getElem?_eq_none (by simp; omega)] at hk
    cases hk

theorem Memoized.faulted (h : Memoized memo trace) (e : Exn) : MemoFaulted e trace :=
  ⟨fun index size v hm => iff_of_true (h.stores index size v hm).1 (h.stores index size v hm).2, h.loads,
    fun index hm => absurd hm (h.known index)⟩

/-- Events other than stores. -/
theorem Memoized.snoc (h : Memoized memo trace) {e : Event} (hs : ∀ i size v, e ≠ .stored i size v)
    (hl : ∀ index v, e = .loaded index v → LoadYields trace index v ∧ v ≠ none) :
    Memoized memo (trace ++ [e]) where
  small := h.small
  entry i hi := by rw [lastStored_of_not_stored i hs, h.entry i hi]
  above i hi := h.above i (by rwa [lastStored_of_not_stored i hs] at hi)
  last hpos := by rw [lastStored_of_not_stored _ hs]; exact h.last hpos
  stores index size v hm := by
    rcases List.mem_append.mp hm with hm | hm
    · exact h.stores index size v hm
    · exact absurd (List.mem_singleton.mp hm).symm (hs index size v)
  loads := h.loads.snoc fun index v he => (hl index v he).1
  known index hm := by
    rcases List.mem_append.mp hm with hm | hm
    · exact h.known index hm
    · exact (hl index none (List.mem_singleton.mp hm).symm).2 rfl

theorem Memoized.loadYields (h : Memoized memo trace) (index : ℕ) : LoadYields trace index memo[index]? := by
  rcases Nat.lt_or_ge index memo.length with hlt | hge
  · rw [h.entry index hlt]
    cases hl : lastStored index trace with
    | some v => exact .inl ⟨by rw [Option.getD_some, hl], nofun⟩
    | none =>
      -- the entry is a gap: the table was enlarged past it
      refine .inr ⟨hl, nofun, memo.length - 1, h.last (by omega), ?_⟩
      refine lt_of_le_of_ne (by omega) fun heq => h.last (by omega) (heq ▸ hl)
  · have hnone : lastStored index trace = none := by
      by_contra hc
      exact absurd (h.above index hc) (by omega)
    rw [List.getElem?_eq_none hge]
    exact .inl ⟨hnone.symm, fun _ i hi => (h.above i hi).trans_le hge⟩

/-- The table before a store: emptied, or enlarged up to the index with nulls. -/
theorem Memoized.enlarged {P : Platform} (h : Memoized memo trace) {index : ℕ} {memo' : List Json}
    (hindex : index < 2 ^ 64) (he : enlarged P memo index = .ok memo') :
    (index + 1 = 2 ^ 64 ∧ memo' = []) ∨ (index + 1 < 2 ^ 64 ∧ index < memo'.length ∧
      (memo.length ≤ memo'.length ∧ (memo'.length = memo.length ∨ memo'.length = index + 1)) ∧
      ∀ i < memo'.length, memo'[i]? = some ((lastStored i trace).getD .null)) := by
  have hsmall := h.small
  unfold SafePickle.enlarged at he
  split at he
  · rename_i hle
    rcases Nat.lt_or_ge (index + 1) (2 ^ 64) with hlt | hge
    · rw [Nat.mod_eq_of_lt hlt] at he
      unfold resize at he
      rw [if_neg (by omega)] at he
      split at he
      · cases he
        refine .inr ⟨hlt, by simp; omega, ⟨by simp, .inr (by simp; omega)⟩, fun i hi => ?_⟩
        rcases Nat.lt_or_ge i memo.length with hin | hout
        · rw [List.getElem?_append_left hin, h.entry i hin]
        · have hnone : lastStored i trace = none := by
            by_contra hc
            exact absurd (h.above i hc) (by omega)
          rw [List.getElem?_append_right hout, hnone]
          simp only [List.length_append, List.length_replicate] at hi
          rw [List.getElem?_replicate_of_lt (by omega), Option.getD_none]
      · cases he
    · have hmax : index + 1 = 2 ^ 64 := by omega
      rw [hmax, Nat.mod_self] at he
      unfold resize at he
      rw [if_pos (Nat.zero_le _)] at he
      cases he
      exact .inl ⟨hmax, by simp⟩
  · rename_i hlt
    cases he
    exact .inr ⟨by omega, by omega, ⟨le_rfl, .inl rfl⟩, h.entry⟩

/-- **A store** inside the table. -/
theorem Memoized.store {P : Platform} (h : Memoized memo trace) {index : ℕ} {memo' : List Json} (v : Json)
    (hi : index < 2 ^ 64 ∨ index = memo.length) (he : SafePickle.enlarged P memo index = .ok memo') :
    (index < memo'.length → Memoized (memo'.set index v) (trace ++ [.stored index memo'.length v])) ∧
    (memo'.length ≤ index → ∀ e, MemoFaulted e (trace ++ [.stored index memo'.length v])) := by
  have hsmall := h.small
  have hcases := h.enlarged (by omega) he
  have hstores : ∀ i size w, Event.stored i size w ∈ trace ++ [.stored index memo'.length v] →
      (i < size ∧ i + 1 ≠ 2 ^ 64) ∨ (i = index ∧ size = memo'.length) := by
    intro i size w hm
    rcases List.mem_append.mp hm with hm | hm
    · exact .inl (h.stores i size w hm)
    · obtain ⟨rfl, rfl, -⟩ : i = index ∧ size = memo'.length ∧ w = v := by simpa using hm
      exact .inr ⟨rfl, rfl⟩
  have hknown : ∀ i, Event.loaded i none ∉ trace ++ [.stored index memo'.length v] := by
    intro i hm
    exact h.known i (by simpa using hm)
  refine ⟨fun hlt => ?_, fun hge e => ?_⟩
  · obtain ⟨-, rfl⟩ | ⟨hfit, -, hlen, hentry⟩ := hcases
    · exact absurd hlt (Nat.not_lt_zero _)
    · refine ⟨by rw [List.length_set]; omega, fun i hi => ?_, fun i hi => ?_, fun hpos => ?_,
        fun i size w hm => ?_, h.loads.snoc nofun, hknown⟩
      · rw [List.length_set] at hi
        rw [lastStored_stored, List.getElem?_set]
        by_cases heq : index = i
        · rw [if_pos heq, if_pos hlt, if_pos heq, Option.getD_some]
        · rw [if_neg heq, if_neg heq, hentry i hi]
      · rw [List.length_set]
        rw [lastStored_stored] at hi
        by_cases heq : index = i
        · omega
        · rw [if_neg heq] at hi
          exact (h.above i hi).trans_le hlen.1
      · rw [List.length_set, lastStored_stored]
        by_cases heq : index = memo'.length - 1
        · rw [if_pos heq]
          exact Option.some_ne_none _
        · rw [if_neg heq]
          rcases hlen.2 with hlen | hlen
          · rw [hlen]
            exact h.last (by omega)
          · omega
      · rcases hstores i size w hm with hold | ⟨rfl, rfl⟩
        · exact hold
        · exact ⟨hlt, by omega⟩
  · obtain ⟨hmax, rfl⟩ | ⟨-, hlt, -⟩ := hcases
    · refine ⟨fun i size w hm => ?_, h.loads.snoc nofun, fun i hm => absurd hm (hknown i)⟩
      rcases hstores i size w hm with hold | ⟨rfl, rfl⟩
      · exact iff_of_true hold.1 hold.2
      · simp [hmax]
    · omega

theorem memoized_nil : Memoized [] [] :=
  ⟨by simp, nofun, fun i hi => absurd rfl hi, fun hpos => absurd hpos (lt_irrefl 0), nofun, nofun, nofun⟩

theorem traceInvariant_memo (P : Platform) : TraceInvariant P (fun _ => True) Memoized MemoFaulted where
  fails e _ _ h := h.faulted e
  dumps _ _ _ := trivial
  read _ _ q n h := h.snoc nofun nofun
  stored _ _ index memo' v h hi he := h.store v hi he
  loaded memo trace index v h hv := h.snoc nofun fun i w he => by
    obtain ⟨rfl, rfl⟩ : index = i ∧ some v = w := by simpa using he
    exact ⟨hv ▸ h.loadYields index, nofun⟩
  unknown memo trace index h hv := by
    refine ⟨fun i size w hm => ?_, h.loads.snoc fun i w he => ?_, fun i hm => ?_⟩
    · have hold := h.stores i size w (by simpa using hm)
      exact iff_of_true hold.1 hold.2
    · obtain ⟨rfl, rfl⟩ : index = i ∧ none = w := by simpa using he
      exact hv ▸ h.loadYields index
    · rcases List.mem_append.mp hm with hm | hm
      · exact absurd hm (h.known i)
      · obtain rfl : i = index := by simpa using hm
        rfl

/-- What is known of the memo and the trace when `decode` ends. -/
theorem decodeRun_memo (P : Platform) (b : Buffer) :
    After (fun _ d => Memoized d.memo d.trace) (fun e d => MemoFaulted e d.trace) (decodeRun P b) := by
  have hkeeps : Keeps P b (fun d => Memoized d.memo d.trace ∧ Clean (fun _ => True) d)
      (fun d => Memoized d.memo d.trace ∧ Clean (fun _ => True) d) (fun _ => True)
      (fun e d => MemoFaulted e d.trace) := by
    refine (traceInvariant_memo P).keeps (fun d hd => hd) fun d q n p s hB hd => ⟨?_, ?_⟩
    · have hread : Memoized d.memo (d.trace ++ [.read q n]) := hB.snoc nofun nofun
      have htext : Memoized d.memo (d.trace ++ [.read q n] ++ [.text s]) := hread.snoc nofun nofun
      rwa [List.append_assoc] at htext
    · exact ⟨fun v _ => v.strings_true, fun v _ => v.strings_true⟩
  have hnew : Clean (fun _ => True) .new := ⟨nofun, nofun⟩
  exact decodeFrom_spec ((hkeeps.step hkeeps.onU8).mono (fun _ hd => hd)
    (fun _ _ h => ⟨fun _ => h.1, fun _ _ => h.1.1⟩) fun _ _ h => h) _ _ ⟨memoized_nil, hnew⟩ (decodeFrom_eq P b)

theorem LoadsYield.loads_iff {events : List Event} (h : LoadsYield events) :
    (∀ k index v, events[k]? = some (.loaded index v) → v = lastStored index (events.take k)) ↔
      ∀ k index v, events[k]? = some (.loaded index v) → lastStored index (events.take k) = none →
        ∀ i, lastStored i (events.take k) ≠ none → i < index := by
  refine forall₄_congr fun k index v hk => ?_
  rcases h k index v hk with ⟨hv, hnone⟩ | ⟨hgap, hv, i, hi, hlt⟩
  · exact ⟨fun _ hl => hnone (hv.trans hl), fun _ => hv⟩
  · exact ⟨fun heq => absurd (heq.trans hgap) hv, fun hids => absurd (hids hgap i hi) hlt.not_gt⟩

/-- **Memo safety** holds of the runs with proper indices, and of no other. -/
theorem decode_memo (P : Platform) (b : Buffer) :
    MemoSafe (decodeRun P b) ↔ ProperIds (decodeRun P b).2.trace := by
  have hrun := decodeRun_memo P b
  rcases hr : decodeRun P b with ⟨e | v, d⟩
  · rw [hr] at hrun
    refine ⟨fun h => ⟨fun index size v hm => ?_, (LoadsYield.loads_iff hrun.loads).mp h.loads⟩,
      fun h => ⟨fun index size v hm => ?_, (LoadsYield.loads_iff hrun.loads).mpr h.loads, fun index hm => ?_⟩⟩
    · exact (hrun.stores index size v hm).mp (h.stores index size v hm)
    · exact (hrun.stores index size v hm).mpr (h.stores index size v hm)
    · exact congrArg Except.error (hrun.unknown index hm)
  · rw [hr] at hrun
    exact ⟨fun h => ⟨fun index size w hm => (hrun.stores index size w hm).2,
        (LoadsYield.loads_iff hrun.loads).mp h.loads⟩,
      fun h => ⟨fun index size w hm => (hrun.stores index size w hm).1,
        (LoadsYield.loads_iff hrun.loads).mpr h.loads,
        fun index hm => absurd hm (hrun.known index)⟩⟩

/-- None, PUT with the index "-1". -/
def lastIndex : Buffer := ⟨[0x4e, 0x70, 0x2d, 0x31, 0x0a, 0x2e], by decide⟩

/-- None, BINPUT 5, BINGET 0. -/
def gap : Buffer := ⟨[0x4e, 0x71, 5, 0x68, 0, 0x2e], by decide⟩

/-- The first stores past the end of an emptied table, the second loads null where
nothing was stored. -/
theorem decode_memo_fails :
    (¬ MemoSafe (decodeRun plain lastIndex) ∧ decode plain lastIndex =
      .error ⟨.undefined, "write past the end of the memo"⟩) ∧
    ¬ MemoSafe (decodeRun plain gap) ∧ decode plain gap = .ok .null := by
  refine ⟨⟨fun h => ?_, rfl⟩, fun h => ?_, rfl⟩
  · exact absurd (h.stores 18446744073709551615 0 .null (List.mem_of_getElem? (i := 5) rfl)) (by decide)
  · have hload := h.loads 6 0 (some .null) rfl
    cases hload

end Memo

/-! ### Texts -/

section Utf8

variable (P : Platform) (b : Buffer)

/-- The states that `decode` goes through. -/
inductive Reached : Decoder → Prop
  | new : Reached .new
  | step {d d' : Decoder} : Reached d → exec (step P b) d = (.ok none, d') → Reached d'

/-- Every text read so far is valid UTF-8. -/
def TextsUtf8 (events : List Event) : Prop := ∀ s, Event.text s ∈ events → IsUtf8 s

/-- A returned value is popped in a state that was reached. -/
theorem reached_of_decodeFrom : ∀ (rounds : ℕ) {d d' : Decoder} {v : Json}, Reached P b d →
    decodeFrom P b rounds d = some (.ok v, d') → ∃ d₀, Reached P b d₀ ∧ exec (step P b) d₀ = (.ok (some v), d')
  | 0, _, _, _, _, h => nomatch h
  | rounds + 1, d, d', v, hd, h => by
    unfold decodeFrom at h
    rcases hs : exec (step P b) d with ⟨e | w, d₁⟩
    · rw [hs] at h
      cases h
    · rw [hs] at h
      cases w with
      | none => exact reached_of_decodeFrom rounds (hd.step hs) h
      | some w =>
        cases h
        exact ⟨d, hd, hs⟩

/-- A step keeps the values clean, unless it reads a text that is not. -/
theorem step_clean : Triple (Clean IsUtf8) (step P b)
    (fun r d => (TextsUtf8 d.trace → Clean IsUtf8 d) ∧ ∀ v, r = some v → v.Strings IsUtf8)
    (fun _ _ => True) := by
  have hinv : TraceInvariant P IsUtf8 (fun _ _ => True) (fun _ _ => True) :=
    ⟨fun _ _ _ _ => trivial, P.dump_utf8, fun _ _ _ _ _ => trivial,
      fun _ _ _ _ _ _ _ _ => ⟨fun _ => trivial, fun _ _ => trivial⟩, fun _ _ _ _ _ _ => trivial,
      fun _ _ _ _ _ => trivial⟩
  have hkeeps := hinv.keeps (b := b) (J := fun d => TextsUtf8 d.trace → Clean IsUtf8 d)
    (fun d hd _ => hd.2) fun d q n p s _ hd htexts => ⟨fun v hv => ?_, hd.memo⟩
  · exact (hkeeps.step hkeeps.onU8).mono (fun _ hd => ⟨trivial, hd⟩) (fun _ _ h => h) fun _ _ _ => trivial
  · rcases List.mem_append.mp hv with hv | hv
    · exact hd.stack v hv
    · rw [List.mem_singleton.mp hv]
      exact .string (htexts s (by simp))

/-- A step reads at most one text, which is then on the stack. -/
theorem step_texts (h : List Event) : Triple (fun d => d.trace = h) (step P b)
    (fun _ d => ∀ s, Event.text s ∈ d.trace → Event.text s ∈ h ∨ Json.string s ∈ d.stack)
    (fun _ _ => True) := by
  have hnew : ∀ (events : List Event) (e : Event), (∀ s, e ≠ .text s) → (∀ s, .text s ∈ events → .text s ∈ h) →
      ∀ s, Event.text s ∈ events ++ [e] → Event.text s ∈ h := fun events e he hB s hm =>
    (List.mem_append.mp hm).elim (hB s) fun hm => absurd (List.mem_singleton.mp hm).symm (he s)
  have hinv : TraceInvariant P (fun _ => True) (fun _ events => ∀ s, Event.text s ∈ events → Event.text s ∈ h)
      (fun _ _ => True) :=
    ⟨fun _ _ _ _ => trivial, fun _ _ _ => trivial, fun _ events q n hB => hnew events _ nofun hB,
      fun _ events i memo' v hB _ _ => ⟨fun _ => hnew events _ nofun hB, fun _ _ => trivial⟩,
      fun _ events i v hB _ => hnew events _ nofun hB, fun _ _ _ _ _ => trivial⟩
  have hkeeps := hinv.keeps (b := b)
    (J := fun d => ∀ s, Event.text s ∈ d.trace → Event.text s ∈ h ∨ Json.string s ∈ d.stack)
    (fun d hd s hs => .inl (hd.1 s hs)) fun d q n p s hB _ s' hs' => ?_
  · refine (hkeeps.step hkeeps.onU8).mono (fun d hd => ⟨fun s hs => hd ▸ hs, ?_⟩) (fun _ _ h => h.1)
      fun _ _ _ => trivial
    exact ⟨fun v _ => v.strings_true, fun v _ => v.strings_true⟩
  · rcases List.mem_append.mp hs' with hs' | hs'
    · exact .inl (hB s' hs')
    · obtain rfl : s' = s := by simpa using hs'
      exact .inr (by simp)

/-- **Valid texts.** The strings of all states reached are valid UTF-8 exactly if
every text that is read is; then so are the strings of the value returned. -/
theorem decode_utf8 :
    ((∀ d, Reached P b d → Clean IsUtf8 d) ↔ ∀ d, Reached P b d → TextsUtf8 d.trace) ∧
    ((∀ d, Reached P b d → TextsUtf8 d.trace) → ∀ v, decode P b = .ok v → v.Strings IsUtf8) := by
  have hclean : (∀ d, Reached P b d → TextsUtf8 d.trace) → ∀ d, Reached P b d → Clean IsUtf8 d := by
    intro htexts d hd
    induction hd with
    | new => exact ⟨nofun, nofun⟩
    | @step d d' hd hs ih => exact ((step_clean P b).of_ok ih hs).1 (htexts d' (hd.step hs))
  refine ⟨⟨fun hall d hd => ?_, hclean⟩, fun htexts v hv => ?_⟩
  · induction hd with
    | new => exact nofun
    | @step d d' hd hs ih =>
      intro s hm
      rcases (step_texts P b d.trace).of_ok rfl hs s hm with hm | hm
      · exact ih s hm
      · cases (hall d' (hd.step hs)).stack _ hm with
        | string hs => exact hs
  · have hrun : decodeFrom P b (b.data.length + 1) .new = some (.ok v, (decodeRun P b).2) := by
      rw [decodeFrom_eq, ← hv]
      rfl
    obtain ⟨d, hd, hs⟩ := reached_of_decodeFrom P b _ .new hrun
    exact ((step_clean P b).of_ok (hclean htexts d hd) hs).2 v rfl

/-- SHORT_BINSTRING of the byte `0xff`. -/
def latin : Buffer := ⟨[0x55, 1, 0xff, 0x2e], by decide⟩

/-- A byte that no character contains is returned. -/
theorem decode_utf8_fails : decode plain latin = .ok (.string [0xff]) ∧
    ¬ (Json.string [0xff]).Strings IsUtf8 := by
  refine ⟨rfl, fun h => ?_⟩
  cases h with
  | string hs => exact not_isUtf8_cons (by decide) [] hs

end Utf8

end Qsycl.SafePickle
