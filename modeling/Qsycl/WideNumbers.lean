/-
# Pickled numbers that 64 bits do not hold

A pickler emits such a number as a LONG1 or LONG4 of more than 8 bytes, at
which `decode` throws. So a pickled value is decoded exactly if all its numbers fit
(`decode_wide`).

Up to the first number that does not fit, the tokens are those of a stream of
numbers that fit, and the decoder follows them (`emits_moves`).
-/
import Qsycl.PickleStreams

namespace Qsycl.SafePickle

open Runs

/-! ### Numbers -/

/-- A number that a signed word of 64 bits holds. -/
def Fits64 (i : ℤ) : Prop := -2 ^ 63 ≤ i ∧ i < 2 ^ 63

/-- A number that does not fit, in the bytes of its two's complement. -/
inductive WideToken : ℤ → Token → Prop
  | long1 {i : ℤ} {k : ℕ} : ¬ Fits64 i → 8 < k → k < 2 ^ 8 → -2 ^ (8 * k) ≤ 2 * i → 2 * i < 2 ^ (8 * k) →
      WideToken i (.long1, UInt8.ofNat k :: leBytes k (i % 2 ^ (8 * k)).toNat)
  | long4 {i : ℤ} {k : ℕ} : ¬ Fits64 i → 2 ^ 8 ≤ k → k < 2 ^ 32 → -2 ^ (8 * k) ≤ 2 * i → 2 * i < 2 ^ (8 * k) →
      WideToken i (.long4, leBytes 4 k ++ leBytes k (i % 2 ^ (8 * k)).toNat)

theorem WideToken.not_fits {i : ℤ} {t : Token} (h : WideToken i t) : ¬ Fits64 i := by
  cases h with
  | long1 hi => exact hi
  | long4 hi => exact hi

/-- Any number. -/
def AnyToken (i : ℤ) (t : Token) : Prop := NumberToken i t ∨ WideToken i t

theorem NumberToken.fits {i : ℤ} {t : Token} (h : NumberToken i t) : Fits64 i := by
  unfold Fits64
  cases h with
  | @binInt1 n hn => omega
  | @binInt2 n hn => omega
  | binInt hlo hhi => omega
  | @long1 i k hk hlo hhi =>
    have hpow : (2 : ℤ) ^ (8 * k) ≤ 2 ^ 64 := pow_le_pow_right₀ (by norm_num) (by omega)
    omega

mutual

/-- All the numbers of the value fit. -/
def PyVal.Narrow : PyVal → Prop
  | .int i => Fits64 i
  | .list items => PyVal.NarrowItems items
  | .tuple items => PyVal.NarrowItems items
  | .dict entries => PyVal.NarrowEntries entries
  | _ => True

def PyVal.NarrowItems : List PyVal → Prop
  | [] => True
  | v :: vs => v.Narrow ∧ PyVal.NarrowItems vs

def PyVal.NarrowEntries : List (Bytes × PyVal) → Prop
  | [] => True
  | (_, v) :: es => v.Narrow ∧ PyVal.NarrowEntries es

end

theorem narrowItems_iff : ∀ {vs : List PyVal}, PyVal.NarrowItems vs ↔ ∀ v ∈ vs, v.Narrow
  | [] => by simp [PyVal.NarrowItems]
  | v :: vs => by rw [PyVal.NarrowItems, List.forall_mem_cons, narrowItems_iff]

theorem narrowEntries_iff : ∀ {es : List (Bytes × PyVal)}, PyVal.NarrowEntries es ↔ ∀ e ∈ es, e.2.Narrow
  | [] => by simp [PyVal.NarrowEntries]
  | (k, v) :: es => by rw [PyVal.NarrowEntries, List.forall_mem_cons, narrowEntries_iff]

@[simp] theorem narrow_int {i : ℤ} : (PyVal.int i).Narrow ↔ Fits64 i := by rw [PyVal.Narrow]

@[simp] theorem narrow_str {s : Bytes} : (PyVal.str s).Narrow := by simp [PyVal.Narrow]

@[simp] theorem narrow_list {vs : List PyVal} : (PyVal.list vs).Narrow ↔ ∀ v ∈ vs, v.Narrow := by
  rw [PyVal.Narrow, narrowItems_iff]

@[simp] theorem narrow_tuple {vs : List PyVal} : (PyVal.tuple vs).Narrow ↔ ∀ v ∈ vs, v.Narrow := by
  rw [PyVal.Narrow, narrowItems_iff]

@[simp] theorem narrow_dict {es : List (Bytes × PyVal)} : (PyVal.dict es).Narrow ↔ ∀ e ∈ es, e.2.Narrow := by
  rw [PyVal.Narrow, narrowEntries_iff]

theorem narrow_list_append (vs ws : List PyVal) : (∀ v ∈ [PyVal.list (vs ++ ws)], v.Narrow) ↔
    (∀ v ∈ [PyVal.list vs], v.Narrow) ∧ ∀ v ∈ ws, v.Narrow := by
  rw [List.forall_mem_singleton, List.forall_mem_singleton, narrow_list, narrow_list, List.forall_mem_append]

theorem narrow_dict_append (es fs : List (Bytes × PyVal)) : (∀ v ∈ [PyVal.dict (es ++ fs)], v.Narrow) ↔
    (∀ v ∈ [PyVal.dict es], v.Narrow) ∧ ∀ v ∈ fs.flatMap fun e => [.str e.1, e.2], v.Narrow := by
  have hitems : (∀ v ∈ fs.flatMap fun e => [PyVal.str e.1, e.2], v.Narrow) ↔ ∀ e ∈ fs, e.2.Narrow := by
    simp only [List.forall_mem_flatMap, List.forall_mem_cons, narrow_str, true_and, List.not_mem_nil,
      false_imp_iff, implies_true, and_true]
  rw [List.forall_mem_singleton, List.forall_mem_singleton, narrow_dict, narrow_dict, hitems,
    List.forall_mem_append]

/-! ### Tokens at which the decoder throws -/

section Decoding

variable {P : Platform} {b : Buffer} {σ σ₁ : Machine} {rest : Bytes}

/-- The decoder throws at the token. -/
def Throws (P : Platform) (b : Buffer) (t : Token) (σ : Machine) : Prop :=
  ∀ rest d, At b σ 0 (t.bytes ++ rest) d → ∃ e d', exec (step P b) d = (.error e, d')

/-- The decoder throws at one of the tokens. -/
def Stops (P : Platform) (b : Buffer) : List Token → Machine → Prop
  | [], _ => False
  | t :: ts, σ => Throws P b t σ ∨ ∃ σ₁, Acts P b t σ σ₁ ∧ Stops P b ts σ₁

/-- An opcode that throws, whatever follows its operand. -/
theorem throws_of_perform {op : Op} {operand : Bytes}
    (h : ∀ rest d, At b σ 1 (operand ++ rest) d → ∃ e d', exec (perform P b op) d = (.error e, d')) :
    Throws P b (op, operand) σ := by
  intro rest d hd
  obtain ⟨d₁, hread, hd₁⟩ := returns_readU8 op.code d hd
  obtain ⟨e, d', hx⟩ := h rest d₁ hd₁
  exact ⟨e, d', by rw [exec_step hread, hx]⟩

theorem exec_pushLong_wide {d : Decoder} {n : ℕ} (name : String) (hn : 8 < n) : exec (pushLong b name n) d =
    (.error (error (name ++ " integer wider than 64 bits is not supported")), d) := by
  unfold pushLong
  rw [if_neg (by omega), if_pos hn]
  rfl

theorem throws_wide {i : ℤ} {t : Token} (h : WideToken i t) : Throws P b t σ := by
  cases h with
  | @long1 k _ hk hlt =>
    refine throws_of_perform fun rest d hd => ?_
    obtain ⟨d₁, hread, -⟩ := returns_readU8 (UInt8.ofNat k) d hd
    unfold perform
    rw [exec_bind, hread]
    dsimp only
    rw [UInt8.toNat_ofNat_of_lt' hlt]
    exact ⟨_, d₁, exec_pushLong_wide _ hk⟩
  | @long4 k _ hk hlt =>
    refine throws_of_perform fun rest d hd => ?_
    rw [List.append_assoc] at hd
    obtain ⟨d₁, hread, -⟩ := returns_number (show k < 256 ^ 4 from hlt) d hd
    unfold perform
    rw [exec_bind, show exec (readU32Le b) d = _ from hread]
    exact ⟨_, d₁, exec_pushLong_wide _ (by omega)⟩

theorem Stops.append {us : List Token} : ∀ {ts : List Token} {σ : Machine}, Stops P b ts σ →
    Stops P b (ts ++ us) σ
  | [], _, h => h.elim
  | _ :: _, _, .inl h => .inl h
  | _ :: _, _, .inr ⟨σ₁, ht, h⟩ => .inr ⟨σ₁, ht, h.append⟩

theorem Moves.stops {us : List Token} : ∀ {ts : List Token} {σ : Machine}, Moves P b ts σ σ₁ → Stops P b us σ₁ →
    Stops P b (ts ++ us) σ
  | [], _, h, hs => (show _ = σ₁ from h) ▸ hs
  | _ :: _, _, ⟨σ₂, ht, h⟩, hs => .inr ⟨σ₂, ht, h.stops hs⟩

theorem Stops.framed {ts us : List Token} (h : Framed ts us) :
    ∀ {σ : Machine}, Stops P b ts σ → Stops P b us σ := by
  induction h with
  | nil => exact fun hs => hs
  | cons t _ ih =>
    rintro σ (ht | ⟨σ₁, ht, hs⟩)
    · exact .inl ht
    · exact .inr ⟨σ₁, ht, ih hs⟩
  | frame size _ ih => exact fun hs => .inr ⟨_, acts_frame size, ih hs⟩

/-- The loop of `decode` along these tokens. -/
theorem Stops.decodeFrom {ts : List Token} : ∀ {σ : Machine} {d : Decoder}, Stops P b ts σ →
    At b σ 0 (ts.flatMap Token.bytes ++ rest) d →
    ∃ e d', SafePickle.decodeFrom P b ts.length d = some (.error e, d') := by
  induction ts with
  | nil => exact fun h _ => h.elim
  | cons t ts ih =>
    intro σ d h hd
    rw [List.flatMap_cons, List.append_assoc] at hd
    rw [List.length_cons, SafePickle.decodeFrom]
    rcases h with ht | ⟨σ₁, ht, hs⟩
    · obtain ⟨e, d', hx⟩ := ht _ d hd
      exact ⟨e, d', by rw [hx]⟩
    · obtain ⟨d₁, hx, hd₁⟩ := ht _ d hd
      rw [hx]
      exact ih hs hd₁

/-! ### Emissions -/

/-- All the numbers that the pickler remembers fit. -/
def NarrowMemo (m : Memo) : Prop := ∀ v, some v ∈ m → v.Narrow

theorem Puts.narrow {m m' : Memo} {x : Option PyVal} {ps : List Token} (h : Puts m x ps m') (hm : NarrowMemo m)
    (hx : ∀ v, x = some v → v.Narrow) : NarrowMemo m' := by
  have hput : NarrowMemo (m ++ [x]) := by
    intro v hv
    rcases List.mem_append.mp hv with hv | hv
    · exact hm v hv
    · exact hx v (List.mem_singleton.mp hv).symm
  cases h with
  | skip => exact hm
  | binPut => exact hput
  | longBinPut => exact hput
  | memoize => exact hput

/-- Either all numbers fit, and the tokens are emitted for such values, or the decoder throws
at one of them. -/
def Settled (P : Platform) (b : Buffer) (m : Memo) (ts : List Token) (vs : List PyVal) (m' : Memo) : Prop :=
  (Emits NumberToken m ts vs m' ∧ (∀ v ∈ vs, v.Narrow) ∧ NarrowMemo m') ∨
    ((∀ σ : Machine, Remembers m σ.memo → Stops P b ts σ) ∧ ¬ ∀ v ∈ vs, v.Narrow)

section Settled

variable {m m₁ m₂ : Memo} {ts us between last ps : List Token} {vs ws out : List PyVal} {f : Machine → Machine}

/-- Two parts, with tokens between them and after them. -/
theorem Settled.both (hstring : b.data.length ≤ P.maxString) (hP : ∀ n ≤ b.data.length, P.grants n = true)
    (h₁ : Settled P b m ts vs m₁) (h₂ : NarrowMemo m₁ → Settled P b m₁ us ws m₂)
    (hbetween : ∀ σ, Moves P b between σ (f σ) ∧ (f σ).memo = σ.memo)
    (hemits : Emits NumberToken m ts vs m₁ → Emits NumberToken m₁ us ws m₂ →
      Emits NumberToken m (ts ++ (between ++ us) ++ last) out m₂)
    (hout : (∀ v ∈ out, v.Narrow) ↔ (∀ v ∈ vs, v.Narrow) ∧ ∀ v ∈ ws, v.Narrow) :
    Settled P b m (ts ++ (between ++ us) ++ last) out m₂ := by
  rcases h₁ with ⟨hemits₁, hvs, hm₁⟩ | ⟨hstops, hvs⟩
  · rcases h₂ hm₁ with ⟨hemits₂, hws, hm₂⟩ | ⟨hstops, hws⟩
    · exact .inl ⟨hemits hemits₁ hemits₂, hout.mpr ⟨hvs, hws⟩, hm₂⟩
    · refine .inr ⟨fun σ hr => ?_, fun hall => hws (hout.mp hall).2⟩
      obtain ⟨memo, hr₁, hmoves⟩ := emits_moves hstring hP hemits₁ hr
      obtain ⟨hmid, hmemo⟩ := hbetween ((σ.remember memo).pushes (vs.map PyVal.toJson))
      exact (hmoves.stops (hmid.stops (hstops _ (by rw [hmemo]; exact hr₁)))).append
  · refine .inr ⟨fun σ hr => ?_, fun hall => hvs (hout.mp hall).1⟩
    rw [List.append_assoc]
    exact (hstops σ hr).append

/-- A tuple after its parts. -/
theorem Settled.tuple (h : Settled P b m ts vs m₁) (hp : Puts m₁ (some (.tuple vs)) ps m₂)
    (hbefore : ∀ σ, Moves P b between σ (f σ) ∧ (f σ).memo = σ.memo)
    (hemits : Emits NumberToken m ts vs m₁ → Emits NumberToken m (between ++ ts ++ last) [.tuple vs] m₂) :
    Settled P b m (between ++ ts ++ last) [.tuple vs] m₂ := by
  have hout : (∀ v ∈ [PyVal.tuple vs], v.Narrow) ↔ ∀ v ∈ vs, v.Narrow := by
    rw [List.forall_mem_singleton, narrow_tuple]
  rcases h with ⟨hemits₁, hvs, hm₁⟩ | ⟨hstops, hvs⟩
  · refine .inl ⟨hemits hemits₁, hout.mpr hvs, hp.narrow hm₁ fun v hv => ?_⟩
    rw [← Option.some.inj hv, narrow_tuple]
    exact hvs
  · refine .inr ⟨fun σ hr => ?_, fun hall => hvs (hout.mp hall)⟩
    obtain ⟨hmoves, hmemo⟩ := hbefore σ
    exact (hmoves.stops (hstops _ (by rw [hmemo]; exact hr))).append

end Settled

/-- **What is emitted for some values**, whatever their numbers. -/
theorem emits_settled (hstring : b.data.length ≤ P.maxString) (hP : ∀ n ≤ b.data.length, P.grants n = true)
    {m m' : Memo} {ts : List Token} {vs : List PyVal} (h : Emits AnyToken m ts vs m') :
    NarrowMemo m → Settled P b m ts vs m' := by
  have hnone : ∀ σ, Moves P b [] σ (id σ) ∧ (id σ).memo = σ.memo := fun σ => ⟨rfl, rfl⟩
  have hmark : ∀ σ, Moves P b [(.mark, [])] σ σ.marked ∧ σ.marked.memo = σ.memo :=
    fun σ => ⟨acts_mark.moves, rfl⟩
  induction h with
  | nil => exact fun hm => .inl ⟨.nil, by simp, hm⟩
  | @append m m₁ m₂ ts us vs ws _ _ ih₁ ih₂ =>
    intro hm
    have hboth : Settled P b m (ts ++ ([] ++ us) ++ []) (vs ++ ws) m₂ :=
      Settled.both hstring hP (ih₁ hm) ih₂ hnone (fun h₁ h₂ => by rw [List.append_nil]; exact .append h₁ h₂)
        List.forall_mem_append
    rwa [List.append_nil, List.nil_append] at hboth
  | none => exact fun hm => .inl ⟨.none, by simp [PyVal.Narrow], hm⟩
  | newTrue => exact fun hm => .inl ⟨.newTrue, by simp [PyVal.Narrow], hm⟩
  | newFalse => exact fun hm => .inl ⟨.newFalse, by simp [PyVal.Narrow], hm⟩
  | @int _ i t h =>
    intro hm
    rcases h with h | h
    · exact .inl ⟨.int h, by simpa using h.fits, hm⟩
    · exact .inr ⟨fun σ _ => .inl (throws_wide h), by simpa using h.not_fits⟩
  | float bits => exact fun hm => .inl ⟨.float bits, by simp [PyVal.Narrow], hm⟩
  | str ht hp =>
    refine fun hm => .inl ⟨.str ht hp, by simp, hp.narrow hm fun v hv => ?_⟩
    rw [← Option.some.inj hv]
    exact narrow_str
  | binGet hlt hv => exact fun hm => .inl ⟨.binGet hlt hv, by simpa using hm _ (List.mem_of_getElem? hv), hm⟩
  | longBinGet hlt hv =>
    exact fun hm => .inl ⟨.longBinGet hlt hv, by simpa using hm _ (List.mem_of_getElem? hv), hm⟩
  | emptyList hp => exact fun hm => .inl ⟨.emptyList hp, by simp, hp.narrow hm nofun⟩
  | appendItem _ _ ih₁ ih₂ =>
    intro hm
    exact Settled.both hstring hP (ih₁ hm) ih₂ hnone (fun h₁ h₂ => .appendItem h₁ h₂) (narrow_list_append _ _)
  | appendItems _ _ ih₁ ih₂ =>
    intro hm
    exact Settled.both hstring hP (ih₁ hm) ih₂ hmark (fun h₁ h₂ => .appendItems h₁ h₂) (narrow_list_append _ _)
  | emptyDict hp => exact fun hm => .inl ⟨.emptyDict hp, by simp, hp.narrow hm nofun⟩
  | setItem _ _ ih₁ ih₂ =>
    intro hm
    exact Settled.both hstring hP (ih₁ hm) ih₂ hnone (fun h₁ h₂ => .setItem h₁ h₂) (narrow_dict_append _ _)
  | setItems _ _ ih₁ ih₂ =>
    intro hm
    exact Settled.both hstring hP (ih₁ hm) ih₂ hmark (fun h₁ h₂ => .setItems h₁ h₂) (narrow_dict_append _ _)
  | emptyTuple => exact fun hm => .inl ⟨.emptyTuple, by simp, hm⟩
  | tuple1 _ hp ih => exact fun hm => (ih hm).tuple hp hnone fun h => .tuple1 h hp
  | tuple2 _ hp ih => exact fun hm => (ih hm).tuple hp hnone fun h => .tuple2 h hp
  | tuple3 _ hp ih => exact fun hm => (ih hm).tuple hp hnone fun h => .tuple3 h hp
  | tuple _ hp ih => exact fun hm => (ih hm).tuple hp hmark fun h => .tuple h hp

/-- **A pickled value** is decoded if all its numbers fit, and otherwise `decode` throws. -/
theorem decode_wide {v : PyVal} (hstring : b.data.length ≤ P.maxString)
    (hmemo : ∀ n ≤ b.data.length, P.grants n = true) (h : PickledWith AnyToken v b.data) :
    (v.Narrow ∧ Pickled v b.data) ∨ (¬ v.Narrow ∧ ∃ e, decode P b = .error e) := by
  generalize hdata : b.data = data at h
  cases h with
  | @mk version m ts us hlo hhi hemits hframed =>
    rcases emits_settled hstring hmemo hemits nofun with ⟨hnarrow, hv, -⟩ | ⟨hstops, hv⟩
    · exact .inl ⟨hv v (List.mem_singleton_self v), .mk hlo hhi hnarrow hframed⟩
    · refine .inr ⟨fun h => hv (List.forall_mem_singleton.mpr h), ?_⟩
      have hempty : Remembers [] (Machine.mk [] [] []).memo := ⟨rfl, nofun⟩
      have hall : Stops P b ((.proto, [version]) :: us) ⟨[], [], []⟩ :=
        .inr ⟨_, acts_proto version, (hstops _ hempty).framed hframed⟩
      obtain ⟨e, d, hrun⟩ := hall.decodeFrom (at_new hdata)
      exact ⟨e, decode_of_run hrun⟩

end Decoding

end Qsycl.SafePickle
