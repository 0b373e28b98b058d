/-
# The end of a pickle

`safe_pickle::decode` stops at the STOP opcode and has not looked further: a value it
returns is what it returns for every input with the same bytes up to there, whatever
follows, and on every shorter input it throws (`decode_prefix`). So no stream that
decode accepts, cut after its STOP, begins another one.
-/
import Qsycl.PickleSafety
import Qsycl.Lib.Prefixes

namespace Qsycl.SafePickle

open Runs

/-! ### Reads -/

section Reads

variable {P : Platform} {b b' : Buffer}

/-- The other input has the same bytes up to the position. -/
def SameUntil (b b' : Buffer) (d : Decoder) : Prop :=
  d.pos ≤ b'.data.length ∧ b'.data.take d.pos = b.data.take d.pos

theorem SameUntil.back {d d' : Decoder} (h : SameUntil b b' d') (hle : d.pos ≤ d'.pos) : SameUntil b b' d := by
  refine ⟨hle.trans h.1, ?_⟩
  have htake := congrArg (List.take d.pos) h.2
  rwa [List.take_take, List.take_take, Nat.min_eq_left hle] at htake

/-- The bytes between two positions. -/
theorem SameUntil.bytes {d : Decoder} (h : SameUntil b b' d) {p n : ℕ} (hp : p + n = d.pos) :
    (b'.data.drop p).take n = (b.data.drop p).take n := by
  have hdrop := congrArg (List.drop p) h.2
  have hn : d.pos - p = n := by omega
  rwa [List.drop_take, List.drop_take, hn] at hdrop

theorem reproduced_readU8 : Reproduced (SameUntil b b') (readU8 b) (readU8 b') := by
  intro d c d' h hA
  rw [exec_readU8] at h
  cases hc : b.data[d.pos]? with
  | none =>
    rw [hc] at h
    cases h
  | some byte =>
    rw [hc] at h
    cases h
    have hbyte : b'.data[d.pos]? = some c := by
      have htake := congrArg (fun l => l[d.pos]?) hA.2
      simpa [List.getElem?_take_of_lt, hc] using htake
    refine ⟨hA.back (Nat.le_succ d.pos), ?_⟩
    rw [exec_readU8, hbyte]

theorem reproduced_access (n : ℕ) : Reproduced (SameUntil b b') (access b n) (access b' n) := by
  intro d bytes d' h hA
  rw [exec_access] at h
  split at h
  · cases h
  · cases h
    have hlen : ¬ b'.data.length < d.pos + n := not_lt.mpr hA.1
    refine ⟨hA.back (Nat.le_add_right d.pos n), ?_⟩
    rw [exec_access, if_neg hlen, hA.bytes rfl]

/-- Where the reader has passed its check, the other one passes it as well. -/
theorem passes_of_le (b : Buffer) {pos n : ℕ} (h : pos + n ≤ b.data.length) : passes b pos n = true := by
  have hsmall := b.small
  rw [passes, Nat.mod_eq_of_lt (by omega), decide_eq_true_iff]
  exact h

theorem reproduced_readBytes (n : ℕ) : Reproduced (SameUntil b b') (readBytes b n) (readBytes b' n) := by
  intro d bytes d' h hA
  rw [exec_readBytes] at h
  dsimp only at h
  split at h
  · obtain ⟨hA₁, haccess⟩ := reproduced_access n _ _ _ h hA
    have hend : d'.pos = d.pos + n := by
      rw [exec_access] at h
      split at h <;> cases h
      rfl
    refine ⟨hA₁.back le_rfl, ?_⟩
    rw [exec_readBytes]
    dsimp only
    rw [if_pos (passes_of_le b' (hend ▸ hA.1))]
    exact haccess
  · cases h

theorem reproduced_note (e : Event) : Reproduced (SameUntil b b') (note e) (note e) :=
  .of_back fun _ h => h.back le_rfl

theorem reproduced_readRawString (n : ℕ) :
    Reproduced (SameUntil b b') (readRawString P b n) (readRawString P b' n) := by
  intro d bytes d' h hA
  rw [exec_readRawString] at h
  dsimp only at h
  split at h
  · split at h
    · cases h
    · rename_i hpass hlong
      have hread : Reproduced (SameUntil b b') (do let s ← access b n; note (.text s); return s)
          (do let s ← access b' n; note (.text s); return s) :=
        (reproduced_access n).bind fun s => (reproduced_note _).bind fun _ => .pure s
      obtain ⟨hA₁, haccess⟩ := hread _ _ _ h hA
      have hend : d'.pos = d.pos + n := by
        rw [exec_bind, exec_access] at h
        split at h
        · rename_i hif
          split at hif <;> cases hif
          cases h
          rfl
        · cases h
      refine ⟨hA₁.back le_rfl, ?_⟩
      rw [exec_readRawString]
      dsimp only
      rw [if_pos (passes_of_le b' (hend ▸ hA.1)), if_neg hlong]
      exact haccess
  · cases h

/-- A line, with as many rounds as there are bytes. -/
theorem reproduced_readAsciiLine : ∀ (left left' : ℕ) (d : Decoder) (digits : Bytes) (d' : Decoder),
    b.data.length - d.pos ≤ left → b'.data.length - d.pos ≤ left' →
    exec (readAsciiLine b left) d = (.ok digits, d') → SameUntil b b' d' →
    SameUntil b b' d ∧ exec (readAsciiLine b' left') d = (.ok digits, d')
  | 0, left', d, digits, d', hleft, _, h, hA => by
    obtain ⟨c, d₁, hread, -⟩ := exec_bind_eq_ok.mp h
    rw [exec_readU8, List.getElem?_eq_none (by omega)] at hread
    cases hread
  | left + 1, left', d, digits, d', hleft, hleft', h, hA => by
    obtain ⟨c, d₁, hread, hrest⟩ := exec_bind_eq_ok.mp h
    have hpos : d₁.pos = d.pos + 1 := by
      rw [exec_readU8] at hread
      split at hread <;> cases hread
      rfl
    by_cases hc : c = 10
    · rw [if_pos hc] at hrest
      obtain ⟨rfl, rfl⟩ : digits = [] ∧ d' = d₁ := by
        cases hrest
        exact ⟨rfl, rfl⟩
      obtain ⟨hA₀, hread'⟩ := reproduced_readU8 d c d' hread hA
      obtain ⟨k, rfl⟩ : ∃ k, left' = k + 1 := ⟨left' - 1, by have := hA.1; omega⟩
      refine ⟨hA₀, ?_⟩
      rw [readAsciiLine, exec_bind, hread', hc]
      rfl
    · rw [if_neg hc] at hrest
      obtain ⟨line, d₂, hline, hend⟩ := exec_bind_eq_ok.mp hrest
      obtain ⟨rfl, rfl⟩ : digits = c :: line ∧ d' = d₂ := by
        cases hend
        exact ⟨rfl, rfl⟩
      have ih := fun k hk => reproduced_readAsciiLine left k d₁ line d' (by omega) hk hline hA
      obtain ⟨hA₁, -⟩ := ih _ le_rfl
      obtain ⟨k, rfl⟩ : ∃ k, left' = k + 1 := ⟨left' - 1, by have := hA₁.1; omega⟩
      obtain ⟨-, hline'⟩ := ih k (by omega)
      obtain ⟨hA₀, hread'⟩ := reproduced_readU8 d c d₁ hread hA₁
      refine ⟨hA₀, ?_⟩
      rw [readAsciiLine, exec_bind, hread']
      dsimp only
      rw [if_neg hc, exec_bind, hline']
      rfl

theorem reproduced_readIndex : Reproduced (SameUntil b b') (readIndex b) (readIndex b') := by
  refine Reproduced.get_bind fun d n d' h hA => ?_
  obtain ⟨digits, d₁, hline, hnumber⟩ := exec_bind_eq_ok.mp h
  obtain ⟨hA₁, -⟩ := Reproduced.lift (A := SameUntil b b') (stoull 10 digits) d₁ n d' hnumber hA
  obtain ⟨hA₀, hline'⟩ := reproduced_readAsciiLine _ _ d digits d₁ le_rfl le_rfl hline hA₁
  exact ⟨hA₀, exec_bind_eq_ok.mpr ⟨digits, d₁, hline', hnumber⟩⟩

end Reads

/-! ### Opcodes -/

section Opcodes

variable {P : Platform} {b b' : Buffer}

/-- An operation that leaves the position. -/
theorem reproduced_of_pos {α : Type} {x : Run Exn Decoder α} (h : ∀ d, (exec x d).2.pos = d.pos) :
    Reproduced (SameUntil b b') x x := .of_back fun d hA => hA.back (h d).ge

theorem reproduced_push (v : Json) : Reproduced (SameUntil b b') (push v) (push v) :=
  reproduced_of_pos fun _ => rfl

theorem reproduced_setTop (v : Json) : Reproduced (SameUntil b b') (setTop v) (setTop v) :=
  reproduced_of_pos fun _ => rfl

theorem reproduced_mark : Reproduced (SameUntil b b') mark mark := reproduced_of_pos fun _ => rfl

theorem reproduced_top (what : String) : Reproduced (SameUntil b b') (top what) (top what) :=
  reproduced_of_pos fun d => by
    rw [exec_top]
    cases d.stack.getLast? <;> rfl

theorem reproduced_pop : Reproduced (SameUntil b b') pop pop :=
  reproduced_of_pos fun d => by
    rw [exec_pop]
    cases d.stack.getLast? <;> rfl

theorem reproduced_popMark : Reproduced (SameUntil b b') popMark popMark :=
  reproduced_of_pos fun d => by
    rw [exec_popMark]
    cases d.marks.getLast? with
    | none => rfl
    | some m =>
      dsimp only
      split <;> rfl

theorem reproduced_memoPut (index : ℕ) :
    Reproduced (SameUntil b b') (memoPut P index) (memoPut P index) :=
  reproduced_of_pos fun d => by
    rw [exec_memoPut]
    cases d.stack.getLast? with
    | none => rfl
    | some v =>
      cases enlarged P d.memo index with
      | error e => rfl
      | ok memo =>
        dsimp only
        split <;> rfl

theorem reproduced_memoGet (index : ℕ) : Reproduced (SameUntil b b') (memoGet index) (memoGet index) :=
  reproduced_of_pos fun d => by
    rw [exec_memoGet]
    dsimp only
    cases d.memo[index]? <;> rfl

theorem reproduced_storeItems (name : String) (items : List Json) :
    Reproduced (SameUntil b b') (storeItems P name items) (storeItems P name items) := by
  refine (reproduced_top _).bind fun v => ?_
  cases v with
  | object entries =>
    dsimp only
    split
    · exact (Reproduced.lift _).bind fun entries => reproduced_setTop _
    · exact .throw _ _
  | _ => exact .throw _ _

theorem reproduced_appendItems (name : String) (items : List Json) :
    Reproduced (SameUntil b b') (appendItems name items) (appendItems name items) := by
  refine (reproduced_top _).bind fun v => ?_
  cases v with
  | array vs => exact reproduced_setTop _
  | _ => exact .throw _ _

theorem reproduced_u32 : Reproduced (SameUntil b b') (readU32Le b) (readU32Le b') :=
  (reproduced_readBytes 4).map _

theorem reproduced_u64 : Reproduced (SameUntil b b') (readU64Le b) (readU64Le b') :=
  (reproduced_readBytes 8).map _

theorem reproduced_pushText (n : ℕ) : Reproduced (SameUntil b b') (pushText P b n) (pushText P b' n) :=
  (reproduced_readRawString n).bind fun _ => reproduced_push _

theorem reproduced_pushLong (name : String) (n : ℕ) :
    Reproduced (SameUntil b b') (pushLong b name n) (pushLong b' name n) := by
  unfold pushLong
  split
  · exact reproduced_push _
  · split
    · exact .throw _ _
    · exact (reproduced_readBytes n).bind fun _ => reproduced_push _

/-- **Every opcode** sees the bytes that it reads. -/
theorem reproduced_perform (op : Op) : Reproduced (SameUntil b b') (perform P b op) (perform P b' op) := by
  cases op with
  | proto => exact reproduced_readU8.bind fun _ => .pure _
  | frame => exact reproduced_u64.bind fun _ => .pure _
  | mark => exact reproduced_mark
  | pop => exact reproduced_pop.bind fun _ => .pure _
  | popMark => exact reproduced_popMark.bind fun _ => .pure _
  | dup => exact (reproduced_top _).bind fun _ => reproduced_push _
  | none | newTrue | newFalse | emptyDict | emptyList | emptyTuple => exact reproduced_push _
  | binInt => exact (reproduced_u32.map _).bind fun _ => reproduced_push _
  | binInt1 => exact reproduced_readU8.bind fun _ => reproduced_push _
  | binInt2 | binFloat => exact (reproduced_readBytes _).bind fun _ => reproduced_push _
  | long1 => exact reproduced_readU8.bind fun _ => reproduced_pushLong _ _
  | long4 => exact reproduced_u32.bind fun _ => reproduced_pushLong _ _
  | binUnicode | binString | binBytes => exact reproduced_u32.bind fun _ => reproduced_pushText _
  | shortBinUnicode | shortBinString | shortBinBytes => exact reproduced_readU8.bind fun _ => reproduced_pushText _
  | binUnicode8 | binBytes8 => exact reproduced_u64.bind fun _ => reproduced_pushText _
  | tuple1 => exact reproduced_pop.bind fun _ => reproduced_push _
  | tuple2 => exact reproduced_pop.bind fun _ => reproduced_pop.bind fun _ => reproduced_push _
  | tuple3 =>
    exact reproduced_pop.bind fun _ => reproduced_pop.bind fun _ => reproduced_pop.bind fun _ => reproduced_push _
  | tuple => exact reproduced_popMark.bind fun _ => reproduced_push _
  | setItem => exact reproduced_pop.bind fun _ => reproduced_pop.bind fun _ => reproduced_storeItems _ _
  | setItems => exact reproduced_popMark.bind fun _ => reproduced_storeItems _ _
  | append => exact reproduced_pop.bind fun _ => reproduced_appendItems _ _
  | appends => exact reproduced_popMark.bind fun _ => reproduced_appendItems _ _
  | put => exact reproduced_readIndex.bind fun _ => reproduced_memoPut _
  | binPut => exact reproduced_readU8.bind fun _ => reproduced_memoPut _
  | longBinPut => exact reproduced_u32.bind fun _ => reproduced_memoPut _
  | memoize => exact .get_bind fun d => reproduced_memoPut _ d
  | get => exact reproduced_readIndex.bind fun _ => reproduced_memoGet _
  | binGet => exact reproduced_readU8.bind fun _ => reproduced_memoGet _
  | longBinGet => exact reproduced_u32.bind fun _ => reproduced_memoGet _

theorem reproduced_step : Reproduced (SameUntil b b') (step P b) (step P b') := by
  refine reproduced_readU8.bind fun byte => ?_
  split
  · exact reproduced_pop.map _
  · split
    · exact .throw _ _
    · split
      · exact (reproduced_perform _).bind fun _ => .pure _
      · exact .throw _ _

end Opcodes

/-! ### Runs -/

section Decode

variable {P : Platform} {b b' : Buffer}

/-- A run that returns, on the other input. -/
theorem decodeFrom_reproduced : ∀ {rounds : ℕ} {d d' : Decoder} {v : Json},
    decodeFrom P b rounds d = some (.ok v, d') → SameUntil b b' d' →
    SameUntil b b' d ∧ decodeFrom P b' rounds d = some (.ok v, d')
  | 0, _, _, _, h, _ => nomatch h
  | rounds + 1, d, d', v, h, hA => by
    unfold decodeFrom at h
    rcases hs : exec (step P b) d with ⟨e | r, d₁⟩
    · rw [hs] at h
      cases h
    · rw [hs] at h
      cases r with
      | none =>
        obtain ⟨hA₁, hrest⟩ := decodeFrom_reproduced h hA
        obtain ⟨hA₀, hstep⟩ := reproduced_step d none d₁ hs hA₁
        refine ⟨hA₀, ?_⟩
        rw [decodeFrom, hstep]
        exact hrest
      | some w =>
        cases h
        obtain ⟨hA₀, hstep⟩ := reproduced_step d (some v) d' hs hA
        exact ⟨hA₀, by rw [decodeFrom, hstep]⟩

theorem decodeRun_of_some {rounds : ℕ} {r : Except Exn Json × Decoder}
    (h : decodeFrom P b rounds .new = some r) : decodeRun P b = r := by
  have h₁ := decodeFrom_mono (le_max_left rounds (b.data.length + 1)) h
  have h₂ := decodeFrom_mono (le_max_right rounds (b.data.length + 1)) (decodeFrom_eq P b)
  exact Option.some.inj (h₂.symm.trans h₁)

theorem decodeRun_reproduced {v : Json} {d : Decoder} (h : decodeRun P b = (.ok v, d)) (hA : SameUntil b b' d) :
    decodeRun P b' = (.ok v, d) := by
  have hfrom := decodeFrom_eq P b
  rw [h] at hfrom
  exact decodeRun_of_some (decodeFrom_reproduced hfrom hA).2

theorem decodeRun_pos {v : Json} {d : Decoder} (h : decodeRun P b = (.ok v, d)) : d.pos ≤ b.data.length := by
  have hrun := decodeRun_faulted P b
  rw [h] at hrun
  exact hrun.pos

theorem exists_decodeRun {v : Json} (h : decode P b = .ok v) : ∃ d, decodeRun P b = (.ok v, d) :=
  ⟨(decodeRun P b).2, Prod.ext h rfl⟩

/-- **The end of a pickle.** If `decode` returns a value, having read the first `last` bytes, it
returns the value on every input that begins with these bytes, whatever follows them, and it
throws on every input that is cut before. -/
theorem decode_prefix {v : Json} (h : decode P b = .ok v) : ∃ last ≤ b.data.length,
    (∀ b' : Buffer, b.data.take last <+: b'.data → decode P b' = .ok v) ∧
    ∀ b' : Buffer, b'.data <+: b.data → b'.data.length < last → ∃ e, decode P b' = .error e := by
  obtain ⟨d, hrun⟩ := exists_decodeRun h
  have hpos := decodeRun_pos hrun
  refine ⟨d.pos, hpos, fun b' hb' => ?_, fun b' hb' hlt => ?_⟩
  · have hlen := hb'.length_le
    rw [List.length_take, Nat.min_eq_left hpos] at hlen
    have htake := List.prefix_iff_eq_take.mp hb'
    rw [List.length_take, Nat.min_eq_left hpos] at htake
    rw [decode, decodeRun_reproduced hrun ⟨hlen, htake.symm⟩]
  · cases hd : decode P b' with
    | error e => exact ⟨e, rfl⟩
    | ok w =>
      obtain ⟨d₂, hrun₂⟩ := exists_decodeRun hd
      have hpos₂ := decodeRun_pos hrun₂
      have htake : b.data.take d₂.pos = b'.data.take d₂.pos := by
        rw [List.prefix_iff_eq_take.mp hb', List.take_take, Nat.min_eq_left hpos₂]
      have hsame := decodeRun_reproduced hrun₂ ⟨hpos₂.trans hb'.length_le, htake⟩
      rw [hrun] at hsame
      obtain ⟨-, rfl⟩ := Prod.mk.inj hsame
      omega

/-- NONE and STOP, before other bytes. -/
theorem decode_prefix_none : ∃ last ≤ 3,
    (∀ b' : Buffer, [0x4e, 0x2e, 0x63].take last <+: b'.data → decode plain b' = .ok .null) ∧
    ∀ b' : Buffer, b'.data <+: [0x4e, 0x2e, 0x63] → b'.data.length < last → ∃ e, decode plain b' = .error e :=
  decode_prefix (P := plain) (b := ⟨[0x4e, 0x2e, 0x63], by decide⟩) rfl

end Decode

end Qsycl.SafePickle
