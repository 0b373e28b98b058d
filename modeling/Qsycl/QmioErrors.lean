/-
# The errors of a QMIO reply

`send_and_receive` gives up with two texts of its own, both before the request
is out. What reads the reply throws neither: the unpickler begins its errors
with its name, the JSON library with a bracket, and the rest are the few texts
of the standard library. So a `sample` that ends with one of the two has sent
nothing (`gaveUp_unsent`).
-/
import Qsycl.CountObjects

namespace Qsycl

open Runs

/-! ### The unpickler -/

namespace SafePickle

variable {P : Platform} {b : Buffer}

theorem readRawString_raised (n : ℕ) :
    Triple (fun _ => True) (readRawString P b n) (fun _ _ => True) (fun e _ => Raised P e) := by
  intro d _
  rw [exec_readRawString]
  dsimp only
  split
  · split
    · exact .length (by simp)
    · rw [exec_bind, exec_access]
      by_cases hpast : b.data.length < d.pos + n
      · rw [if_pos hpast]
        exact .undefined (by simp)
      · rw [if_neg hpast]
        trivial
  · exact .own _

theorem memoPut_raised (index : ℕ) :
    Triple (fun _ => True) (memoPut P index) (fun _ _ => True) (fun e _ => Raised P e) := by
  intro d _
  rw [exec_memoPut]
  cases d.stack.getLast? with
  | none => exact .own _
  | some v =>
    dsimp only
    rcases hr : enlarged P d.memo index with e | memo
    · unfold enlarged resize at hr
      split at hr
      · split at hr
        · cases hr
        · split at hr
          · cases hr
          · exact Except.error.inj hr ▸ .length (by simp)
      · cases hr
    · dsimp only
      split
      · trivial
      · exact .undefined (by simp)

/-- Every operation throws what is listed, from any state. -/
theorem keeps_raised :
    Keeps P b (fun _ => True) (fun _ => True) (fun _ => True) fun e _ => Raised P e where
  fails _ _ he _ := he
  weaken _ hd := hd
  dumps _ _ _ := trivial
  onU8 d _ := by
    rw [exec_readU8]
    cases b.data[d.pos]? with
    | some c => trivial
    | none => exact .own _
  onBytes n _ d _ := by
    rw [exec_readBytes]
    dsimp only
    split
    · rw [exec_access]
      split
      · exact .undefined (by simp)
      · trivial
    · exact .own _
  onText n _ := (readRawString_raised n).bind fun s _ _ => trivial
  onPush v _ d _ := trivial
  onTop what d _ := by
    rw [exec_top]
    cases d.stack.getLast? with
    | some v => exact ⟨v.strings_true, trivial⟩
    | none => exact .own _
  onPop d _ := by
    rw [exec_pop]
    cases d.stack.getLast? with
    | some v => exact ⟨v.strings_true, trivial⟩
    | none => exact .own _
  onSetTop v _ d _ := trivial
  onMark d _ := trivial
  onPopMark d _ := by
    rw [exec_popMark]
    cases d.marks.getLast? with
    | none => exact .own _
    | some m =>
      dsimp only
      split
      · exact .own _
      · exact ⟨fun v _ => v.strings_true, trivial⟩
  onPut index _ := memoPut_raised index
  onMemoize d hd := memoPut_raised d.memo.length d hd
  onGet index d _ := by
    rw [exec_memoGet]
    dsimp only
    cases d.memo[index]? with
    | some v => trivial
    | none => exact .own _

/-- **What `decode` throws.** -/
theorem raised_of_decode {e : Exn} (h : decode P b = .error e) : Raised P e := by
  have hrun : After (fun _ _ => True) (fun e _ => Raised P e) (decodeRun P b) :=
    decodeFrom_spec ((keeps_raised.step keeps_raised.onU8).mono (fun _ hd => hd)
      (fun _ _ _ => ⟨fun _ => trivial, fun _ _ => trivial⟩) fun _ _ h => h) _ _ trivial (decodeFrom_eq P b)
  unfold decode at h
  rcases hr : decodeRun P b with ⟨e' | v, d⟩ <;> rw [hr] at h hrun
  · exact Except.error.inj h ▸ hrun
  · cases h

end SafePickle

/-! ### The reply -/

namespace Qmio

/-- The texts of the standard library. -/
def standardTexts : List String :=
  ["stoull", "conversion to an integer", "read past the end of the buffer", "write past the end of the memo",
    "basic_string::_M_create", "vector", "vector::_M_default_append", "vector::reserve", "vector::_M_realloc_append"]

theorem not_gaveUp_standard {kind : ExnKind} {what : String} (h : what ∈ standardTexts) : ¬ GaveUp ⟨kind, what⟩ := by
  have hall : ∀ what ∈ standardTexts, ¬ GaveUp ⟨.runtimeError, what⟩ := by
    unfold GaveUp
    decide
  exact hall what h

/-- Every error has a text other than those two. -/
def Clear {α : Type} (r : Except Exn α) : Prop := ∀ e, r = .error e → ¬ GaveUp e

theorem clear_error {α : Type} {e : Exn} (h : ¬ GaveUp e) : Clear (.error e : Except Exn α) :=
  fun _ he => Except.error.inj he ▸ h

theorem clear_standard {α : Type} {kind : ExnKind} {what : String} (h : what ∈ standardTexts) :
    Clear (throw ⟨kind, what⟩ : Except Exn α) :=
  clear_error (not_gaveUp_standard h)

theorem Clear.bind {α β : Type} {x : Except Exn α} {f : α → Except Exn β} (hx : Clear x) (hf : ∀ a, Clear (f a)) :
    Clear (x >>= f) := by
  cases x with
  | error e => exact fun e' he' => hx e' (congrArg Except.error (Except.error.inj he'))
  | ok a => exact hf a

theorem Clear.ite {α : Type} {p : Prop} [Decidable p] {x y : Except Exn α} (hx : Clear x) (hy : Clear y) :
    Clear (if p then x else y) := by
  split
  · exact hx
  · exact hy

theorem Clear.foldlM {α β : Type} {f : β → α → Except Exn β} (hf : ∀ b a, Clear (f b a)) :
    ∀ (l : List α) (b : β), Clear (l.foldlM f b)
  | [], _ => nofun
  | a :: l, b => by
    rw [List.foldlM_cons]
    exact (hf b a).bind fun b => Clear.foldlM hf l b

theorem clear_stoull (base : ℕ) (s : Bytes) : Clear (stoull base s) := by
  unfold stoull
  exact .ite (clear_standard (by decide)) (.ite (clear_standard (by decide)) nofun)

theorem clear_getSize (v : Json) : Clear v.getSize := by
  cases v with
  | integer i => exact nofun
  | unsigned n => exact nofun
  | float bits =>
    show Clear (Json.truncate bits)
    unfold Json.truncate
    exact .ite (clear_standard (by decide)) nofun
  | _ => exact clear_error (not_gaveUp_append 1 (by decide) (by decide) _)

theorem clear_expandCounts (V : OutcomeVector) (shots : ℕ) (counts : Entries) :
    Clear (expandCounts V shots counts) := by
  unfold expandCounts OutcomeVector.reserve OutcomeVector.pushBack
  refine Clear.bind (.ite (clear_standard (by decide)) nofun) fun _ => Clear.foldlM (fun outcomes e => ?_) counts []
  exact (clear_stoull 2 e.1).bind fun value => (clear_getSize e.2).bind fun n =>
    .ite (clear_standard (by decide)) nofun

/-- What `decode` throws, if `dump` throws neither text. -/
theorem clear_decode {P : SafePickle.Platform} (hdump : ∀ v, Clear (P.dump v)) (b : SafePickle.Buffer) :
    Clear (SafePickle.decode P b) := by
  intro e he
  cases SafePickle.raised_of_decode he with
  | own what => exact not_gaveUp_append 1 (by decide) (by decide) _
  | undefined hwhat => exact not_gaveUp_standard ((by decide : ∀ what ∈ _, what ∈ standardTexts) _ hwhat)
  | length hwhat => exact not_gaveUp_standard ((by decide : ∀ what ∈ _, what ∈ standardTexts) _ hwhat)
  | stoull h => exact clear_stoull _ _ e h
  | dump h => exact hdump _ e h

theorem clear_countsFromJson (value : Json) : Clear (countsFromJson value) := by
  have hlocated : ¬ GaveUp notLocated := by
    unfold GaveUp
    decide
  rw [countsFromJson_eq]
  cases located value with
  | some source => exact nofun
  | none => exact clear_error hlocated

/-- **What reads a reply** throws neither text, if the JSON library does not. -/
theorem clear_qmioOutcomes {P : SafePickle.Platform} (hdump : ∀ v, Clear (P.dump v))
    {parse : Bytes → Except Exn Json} (hparse : ∀ s, Clear (parse s)) (V : OutcomeVector) (shots : ℕ)
    (reply : Bytes) : Clear (qmioOutcomes V P parse shots reply) := by
  have hjson : ∀ decoded, Clear (replyJson parse decoded) := fun decoded => by
    cases decoded with
    | string s => exact hparse s
    | _ => exact nofun
  unfold qmioOutcomes
  split
  · exact (clear_decode hdump _).bind fun decoded => (hjson decoded).bind fun value =>
      (clear_countsFromJson value).bind fun counts => clear_expandCounts V shots counts
  · exact clear_standard (by decide)

/-- **A call that gives up has sent nothing**, after any calls on a new backend. -/
theorem gaveUp_unsent {φ : Type} (env : Environment) (cfg : Settings)
    (encode : ℕ → List (GateOp ℝ) → List ℕ → ℕ → Except Exn (List UInt8)) (F : Simulator φ (List ℕ))
    {P : SafePickle.Platform} (hdump : ∀ v, Clear (P.dump v)) {parse : Bytes → Except Exn Json}
    (hparse : ∀ s, Clear (parse s)) (V : OutcomeVector) (available : Bool) (fallback : φ)
    (calls : List Simulator.Call) (qubits : List ℕ) (shots : ℕ) :
    let D := qmioDevice env cfg encode (qmioOutcomes V P parse)
    let s := (QPUBackend.simulator D F).afterCalls ⟨available, 0, [], ⟨none, 0, 0, []⟩, fallback⟩ calls
    let r := exec (QPUBackend.sample D F qubits shots) s
    s.deviceAvailable = true → ∀ e, r.1 = .error e → GaveUp e →
      ∃ new, r.2.device.events = s.device.events ++ new ∧ new.filter Event.isSent = [] := by
  intro D s r havail e he hgave
  have hs : Safe s.device := safe_afterCalls env cfg encode _ F calls _ safe_new
  obtain ⟨new, hnew, hsent⟩ := (submitCircuit_spec env cfg encode (qmioOutcomes V P parse) hs s.numQubits s.gateBuffer
    (if qubits.isEmpty then List.range s.numQubits else qubits) shots).sentOnce
  have hexec : r = _ := exec_sample env cfg encode _ F s havail qubits shots
  rw [hexec] at he ⊢
  exact ⟨new, hnew, hsent.gaveUp e he hgave fun reply hreply =>
    clear_qmioOutcomes hdump hparse V shots reply e hreply hgave⟩

end Qmio

end Qsycl
