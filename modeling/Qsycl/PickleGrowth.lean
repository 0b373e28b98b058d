/-
# How large a decoded value is

`safe_pickle::decode` copies values with DUP and GET and packs the stack with the
tuple and list opcodes. An opcode changes the stack and the memo in one of a few ways
(`Change`, `perform_changes`). So a stream of `N` bytes builds values less than
`N` deep with less than `2 ^ N` nodes (`decode_growth`), and both grow like this:
there are streams whose value is as deep as its length allows, and streams whose
value is exponentially large.
-/
import Qsycl.PickleStreams

namespace Qsycl

/-! ### Weights of values -/

section Weights

variable (j : ℕ → ℕ → ℕ)

mutual

/-- One more than the weights of the items together. -/
def Json.weight : Json → ℕ
  | .array items => Json.weights items + 1
  | .object entries => Json.entryWeights entries + 1
  | .null | .bool _ | .integer _ | .unsigned _ | .float _ | .string _ => 1

def Json.weights : List Json → ℕ
  | [] => 0
  | v :: vs => j v.weight (Json.weights vs)

def Json.entryWeights : List (Bytes × Json) → ℕ
  | [] => 0
  | (_, v) :: es => j v.weight (Json.entryWeights es)

end

/-- The number of values in a value, itself included. -/
def Json.nodes : Json → ℕ := Json.weight (· + ·)

def Json.depth : Json → ℕ := Json.weight max

/-- What the sum and the maximum have in common. -/
structure Joining (j : ℕ → ℕ → ℕ) : Prop where
  zero : ∀ a, j 0 a = a
  comm : ∀ a b, j a b = j b a
  assoc : ∀ a b c, j (j a b) c = j a (j b c)
  mono : ∀ a b c, a ≤ b → j a c ≤ j b c
  succ : ∀ a b, j a (b + 1) ≤ j a b + 1

theorem joining_add : Joining (· + ·) :=
  ⟨Nat.zero_add, Nat.add_comm, Nat.add_assoc, fun _ _ c h => Nat.add_le_add_right h c, fun _ _ => le_rfl⟩

theorem joining_max : Joining max :=
  ⟨Nat.zero_max, Nat.max_comm, Nat.max_assoc, fun _ _ _ h => by omega, fun _ _ => by omega⟩

end Weights

namespace Joining

variable {j : ℕ → ℕ → ℕ} (hj : Joining j)
include hj

theorem mono_both {a b c d : ℕ} (h₁ : a ≤ b) (h₂ : c ≤ d) : j a c ≤ j b d :=
  calc j a c ≤ j b c := hj.mono a b c h₁
    _ = j c b := hj.comm b c
    _ ≤ j d b := hj.mono c d b h₂
    _ = j b d := hj.comm d b

theorem le_right (a b : ℕ) : b ≤ j a b :=
  calc b = j 0 b := (hj.zero b).symm
    _ ≤ j a b := hj.mono 0 a b (Nat.zero_le a)

theorem le_left (a b : ℕ) : a ≤ j a b := hj.comm b a ▸ hj.le_right b a

theorem weights_append (vs ws : List Json) :
    Json.weights j (vs ++ ws) = j (Json.weights j vs) (Json.weights j ws) := by
  induction vs with
  | nil => rw [List.nil_append, Json.weights, hj.zero]
  | cons v vs ih => rw [List.cons_append, Json.weights, ih, Json.weights, hj.assoc]

theorem weights_singleton (v : Json) : Json.weights j [v] = v.weight j := by
  rw [Json.weights, Json.weights, hj.comm, hj.zero]

theorem weight_le_of_mem {v : Json} : ∀ {vs : List Json}, v ∈ vs → v.weight j ≤ Json.weights j vs
  | w :: vs, h => by
    rw [Json.weights]
    rcases List.mem_cons.mp h with rfl | h
    · exact hj.le_left _ _
    · exact (weight_le_of_mem h).trans (hj.le_right _ _)

theorem weights_take (vs : List Json) (k : ℕ) : Json.weights j (vs.take k) ≤ Json.weights j vs := by
  conv_rhs => rw [← List.take_append_drop k vs, hj.weights_append]
  exact hj.le_left _ _

/-- An entry is inserted, or takes the place of another one. -/
theorem entryWeights_insert (k : Bytes) (v : Json) : ∀ es : List (Bytes × Json),
    Json.entryWeights j (SortedMap.insert k v es) ≤ j (v.weight j) (Json.entryWeights j es)
  | [] => le_rfl
  | (k', v') :: es => by
    rw [SortedMap.insert]
    split
    · rw [Json.entryWeights]
    · split
      · rw [Json.entryWeights, Json.entryWeights]
        exact hj.mono_both le_rfl (hj.le_right _ _)
      · have ih := entryWeights_insert k v es
        rw [Json.entryWeights, Json.entryWeights]
        calc _ ≤ j (v'.weight j) (j (v.weight j) (Json.entryWeights j es)) := hj.mono_both le_rfl ih
          _ = j (v.weight j) (j (v'.weight j) (Json.entryWeights j es)) := by
            rw [← hj.assoc, hj.comm (v'.weight j), hj.assoc]

end Joining

namespace SafePickle

open Runs

/-! ### What an opcode does to the values -/

/-- The stack and the memo. -/
structure Values where
  stack : List Json
  memo : List Json

def Decoder.values (d : Decoder) : Values := ⟨d.stack, d.memo⟩

/-- A value without others in it. -/
def Leaf : Json → Prop
  | .array items => items = []
  | .object entries => entries = []
  | _ => True

variable (P : Platform)

/-- The values before and after an opcode. -/
inductive Change : Values → Values → Prop
  | drop (s m : List Json) (k : ℕ) : Change ⟨s, m⟩ ⟨s.take k, m⟩
  | leaf (s m : List Json) {v : Json} : Leaf v → Change ⟨s, m⟩ ⟨s ++ [v], m⟩
  | copy (s m : List Json) {v : Json} : v ∈ s ∨ v ∈ m → Change ⟨s, m⟩ ⟨s ++ [v], m⟩
  | pack (s m vs : List Json) : Change ⟨s ++ vs, m⟩ ⟨s ++ [.array vs], m⟩
  | append (s m vs ws : List Json) : Change ⟨s ++ [.array vs] ++ ws, m⟩ ⟨s ++ [.array (vs ++ ws)], m⟩
  | store (s m items : List Json) {es es' : List (Bytes × Json)} : setItems P items es = .ok es' →
      Change ⟨s ++ [.object es] ++ items, m⟩ ⟨s ++ [.object es'], m⟩
  | put (s m : List Json) {v : Json} {m' : List Json} : v ∈ s → (∀ w ∈ m', w = v ∨ w ∈ m ∨ w = .null) →
      Change ⟨s, m⟩ ⟨s, m'⟩

theorem Change.refl (σ : Values) : Change P σ σ := by
  have h := Change.drop (P := P) σ.stack σ.memo σ.stack.length
  rwa [List.take_length] at h

section Performs

variable {P} {b : Buffer} {σ : Values} {s m : List Json}

/-- The decoder has these values. -/
def Has (σ : Values) (d : Decoder) : Prop := d.values = σ

/-- Nothing is said of an exception. -/
abbrev AnyError : Exn → Decoder → Prop := fun _ _ => True

theorem has_readU8 : Triple (Has σ) (readU8 b) (fun _ => Has σ) AnyError := by
  intro d hd
  rw [exec_readU8]
  cases b.data[d.pos]? with
  | none => trivial
  | some byte => exact hd

theorem has_access (n : ℕ) : Triple (Has σ) (access b n) (fun _ => Has σ) AnyError := by
  intro d hd
  rw [exec_access]
  split
  · trivial
  · exact hd

theorem has_readBytes (n : ℕ) : Triple (Has σ) (readBytes b n) (fun _ => Has σ) AnyError := by
  intro d hd
  rw [exec_readBytes]
  dsimp only
  split
  · exact has_access n _ hd
  · trivial

theorem has_note (e : Event) : Triple (Has σ) (note e) (fun _ => Has σ) AnyError := fun _ hd => hd

theorem has_readRawString (n : ℕ) : Triple (Has σ) (readRawString P b n) (fun _ => Has σ) AnyError := by
  intro d hd
  rw [exec_readRawString]
  dsimp only
  split
  · split
    · trivial
    · exact ((has_access n).bind fun s => (has_note _).bind fun _ => .pure s fun _ hd => hd) _ hd
  · trivial

theorem has_readAsciiLine : ∀ left, Triple (Has σ) (readAsciiLine b left) (fun _ => Has σ) AnyError
  | 0 => has_readU8.bind fun _ => .pure _ fun _ hd => hd
  | left + 1 => by
    unfold readAsciiLine
    refine has_readU8.bind fun c => ?_
    split
    · exact .pure _ fun _ hd => hd
    · exact (has_readAsciiLine left).bind fun digits => .pure _ fun _ hd => hd

theorem has_readIndex : Triple (Has σ) (readIndex b) (fun _ => Has σ) AnyError := by
  unfold readIndex
  refine Triple.bind (R := fun _ => Has σ) (fun d hd => hd) fun d => ?_
  exact (has_readAsciiLine _).bind fun digits => .lift (fun _ _ _ hd => hd) fun _ _ _ _ => trivial

theorem has_map {α β : Type} {x : Run Exn Decoder α} (h : Triple (Has σ) x (fun _ => Has σ) AnyError)
    (f : α → β) : Triple (Has σ) (f <$> x) (fun _ => Has σ) AnyError :=
  Triple.map (S := fun _ => Has σ) h

theorem has_readU32 : Triple (Has σ) (readU32Le b) (fun _ => Has σ) AnyError := has_map (has_readBytes 4) _

theorem has_readU64 : Triple (Has σ) (readU64Le b) (fun _ => Has σ) AnyError := has_map (has_readBytes 8) _

theorem has_push (v : Json) : Triple (Has ⟨s, m⟩) (push v) (fun _ => Has ⟨s ++ [v], m⟩) AnyError := by
  intro d hd
  obtain ⟨rfl, rfl⟩ := Values.mk.inj hd
  rfl

theorem has_setTop (v w : Json) :
    Triple (Has ⟨s ++ [v], m⟩) (setTop w) (fun _ => Has ⟨s ++ [w], m⟩) AnyError := by
  intro d hd
  obtain ⟨hs, rfl⟩ := Values.mk.inj hd
  show Values.mk (d.stack.dropLast ++ [w]) d.memo = _
  rw [hs, List.dropLast_concat]

theorem has_top (what : String) :
    Triple (Has ⟨s, m⟩) (top what) (fun v d => (∃ l, s = l ++ [v]) ∧ Has ⟨s, m⟩ d) AnyError := by
  intro d hd
  obtain ⟨rfl, rfl⟩ := Values.mk.inj hd
  rw [exec_top]
  cases hv : d.stack.getLast? with
  | none => trivial
  | some v =>
    obtain ⟨l, hl⟩ := List.getLast?_eq_some_iff.mp hv
    exact ⟨⟨l, hl⟩, rfl⟩

theorem has_pop : Triple (Has ⟨s, m⟩) pop (fun v d => ∃ l, s = l ++ [v] ∧ Has ⟨l, m⟩ d) AnyError := by
  intro d hd
  obtain ⟨rfl, rfl⟩ := Values.mk.inj hd
  rw [exec_pop]
  cases hv : d.stack.getLast? with
  | none => trivial
  | some v =>
    obtain ⟨l, hl⟩ := List.getLast?_eq_some_iff.mp hv
    refine ⟨l, hl, ?_⟩
    show Values.mk d.stack.dropLast d.memo = _
    rw [hl, List.dropLast_concat]

theorem has_popMark :
    Triple (Has ⟨s, m⟩) popMark (fun vs d => ∃ l, s = l ++ vs ∧ Has ⟨l, m⟩ d) AnyError := by
  intro d hd
  obtain ⟨rfl, rfl⟩ := Values.mk.inj hd
  rw [exec_popMark]
  cases d.marks.getLast? with
  | none => trivial
  | some k =>
    dsimp only
    split
    · trivial
    · exact ⟨d.stack.take k, (List.take_append_drop k d.stack).symm, rfl⟩

/-- A part of an opcode that changes the values. -/
def Changes (P : Platform) {α : Type} (x : Run Exn Decoder α) : Prop :=
  ∀ σ, Triple (Has σ) x (fun _ d => Change P σ d.values) AnyError

theorem Changes.after {α β : Type} {x : Run Exn Decoder α} {f : α → Run Exn Decoder β}
    (hx : ∀ σ, Triple (Has σ) x (fun _ => Has σ) AnyError) (hf : ∀ a, Changes P (f a)) : Changes P (x >>= f) :=
  fun σ => (hx σ).bind fun a => hf a σ

theorem Changes.of_has {x : Run Exn Decoder Unit} (hx : ∀ σ, Triple (Has σ) x (fun _ => Has σ) AnyError) :
    Changes P x := fun σ => (hx σ).mono (fun _ h => h) (fun _ _ h => h ▸ Change.refl P σ) fun _ _ h => h

theorem changes_pure : Changes P (pure ⟨⟩ : Run Exn Decoder PUnit) := .of_has fun _ => .pure _ fun _ hd => hd

theorem changes_leaf {v : Json} (h : Leaf v) : Changes P (push v) := fun σ =>
  (has_push v).mono (fun _ hd => hd) (fun _ _ hd => hd ▸ .leaf σ.stack σ.memo h) fun _ _ hd => hd

/-- The values that were popped are pushed as one. -/
theorem has_pack (vs : List Json) : Triple (fun d => ∃ l, s = l ++ vs ∧ Has ⟨l, m⟩ d) (push (.array vs))
    (fun _ d => Change P ⟨s, m⟩ d.values) AnyError := by
  rintro d ⟨l, rfl, hd⟩
  exact (has_push _).mono (fun _ hd => hd) (fun _ _ hd => hd ▸ .pack l m vs) (fun _ _ hd => hd) d hd

theorem has_appendItems (name : String) (ws : List Json) :
    Triple (fun d => ∃ l, s = l ++ ws ∧ Has ⟨l, m⟩ d) (appendItems name ws)
      (fun _ d => Change P ⟨s, m⟩ d.values) AnyError := by
  rintro d ⟨l, rfl, hd⟩
  refine Triple.bind (has_top _) (fun v => ?_) d hd
  cases v with
  | array vs =>
    rintro d ⟨⟨l, rfl⟩, hd⟩
    exact (has_setTop (.array vs) (.array (vs ++ ws))).mono (fun _ hd => hd)
      (fun _ _ hd => hd ▸ .append l m vs ws) (fun _ _ hd => hd) d hd
  | _ => exact .throw _ fun _ _ => trivial

theorem has_storeItems (name : String) (items : List Json) :
    Triple (fun d => ∃ l, s = l ++ items ∧ Has ⟨l, m⟩ d) (storeItems P name items)
      (fun _ d => Change P ⟨s, m⟩ d.values) AnyError := by
  rintro d ⟨l, rfl, hd⟩
  refine Triple.bind (has_top _) (fun v => ?_) d hd
  cases v with
  | object es =>
    dsimp only
    split
    · rintro d ⟨⟨l, rfl⟩, hd⟩
      refine Triple.bind (R := fun es' d => setItems P items es = .ok es' ∧ Has ⟨l ++ [.object es], m⟩ d)
        (.lift (fun es' h _ hd => ⟨h, hd⟩) fun _ _ _ _ => trivial) (fun es' => ?_) d hd
      rintro d ⟨h, hd⟩
      exact (has_setTop (.object es) (.object es')).mono (fun _ hd => hd)
        (fun _ _ hd => hd ▸ .store l m items h) (fun _ _ hd => hd) d hd
    · exact .throw _ fun _ _ => trivial
  | _ => exact .throw _ fun _ _ => trivial

theorem mem_enlarged {memo memo' : List Json} {index : ℕ} (h : enlarged P memo index = .ok memo') :
    ∀ w ∈ memo', w ∈ memo ∨ w = .null := by
  intro w hw
  unfold enlarged resize at h
  split at h
  · split at h
    · cases h
      exact .inl (List.mem_of_mem_take hw)
    · split at h
      · cases h
        rcases List.mem_append.mp hw with hw | hw
        · exact .inl hw
        · exact .inr (List.eq_of_mem_replicate hw)
      · cases h
  · cases h
    exact .inl hw

theorem changes_memoPut (index : ℕ) : Changes P (memoPut P index) := by
  rintro σ d rfl
  rw [exec_memoPut]
  cases hv : d.stack.getLast? with
  | none => trivial
  | some v =>
    cases hm : enlarged P d.memo index with
    | error e => trivial
    | ok memo =>
      dsimp only
      split
      · refine .put _ _ (List.mem_of_getLast? hv) fun w hw => ?_
        rcases List.mem_or_eq_of_mem_set hw with hw | rfl
        · exact .inr (mem_enlarged hm w hw)
        · exact .inl rfl
      · trivial

theorem changes_memoGet (index : ℕ) : Changes P (memoGet index) := by
  rintro σ d rfl
  rw [exec_memoGet]
  dsimp only
  cases hv : d.memo[index]? with
  | none => trivial
  | some v => exact .copy _ _ (.inr (List.mem_of_getElem? hv))

theorem changes_pushText (n : ℕ) : Changes P (pushText P b n) :=
  .after (fun _ => has_readRawString n) fun _ => changes_leaf trivial

theorem changes_pushLong (name : String) (n : ℕ) : Changes P (pushLong b name n) := by
  unfold pushLong
  split
  · exact changes_leaf trivial
  · split
    · exact fun _ => .throw _ fun _ _ => trivial
    · exact .after (fun _ => has_readBytes n) fun _ => changes_leaf trivial

/-- **What an opcode does** to the stack and the memo. -/
theorem perform_changes (op : Op) : Changes P (perform P b op) := by
  cases op with
  | proto => exact .after (fun _ => has_readU8) fun _ => changes_pure
  | frame => exact .after (fun _ => has_readU64) fun _ => changes_pure
  | mark => exact .of_has fun _ _ hd => hd
  | pop =>
    refine fun σ => has_pop.bind fun v => .pure _ ?_
    rintro d ⟨l, hl, hd⟩
    have hdrop := Change.drop (P := P) σ.stack σ.memo l.length
    rw [hl, List.take_left, ← hl] at hdrop
    exact hd ▸ hdrop
  | popMark =>
    refine fun σ => has_popMark.bind fun vs => .pure _ ?_
    rintro d ⟨l, hl, hd⟩
    have hdrop := Change.drop (P := P) σ.stack σ.memo l.length
    rw [hl, List.take_left, ← hl] at hdrop
    exact hd ▸ hdrop
  | dup =>
    refine fun σ => (has_top _).bind fun v => ?_
    rintro d ⟨⟨l, hl⟩, hd⟩
    have hmem : v ∈ σ.stack := by simp [hl]
    exact (has_push v).mono (fun _ hd => hd) (fun _ _ hd => hd ▸ .copy σ.stack σ.memo (.inl hmem))
      (fun _ _ hd => hd) d hd
  | none | newTrue | newFalse => exact changes_leaf trivial
  | emptyDict | emptyList | emptyTuple => exact changes_leaf rfl
  | binInt => exact .after (fun _ => has_map has_readU32 _) fun _ => changes_leaf trivial
  | binInt1 => exact .after (fun _ => has_readU8) fun _ => changes_leaf trivial
  | binInt2 | binFloat => exact .after (fun _ => has_readBytes _) fun _ => changes_leaf trivial
  | long1 => exact .after (fun _ => has_readU8) fun _ => changes_pushLong _ _
  | long4 => exact .after (fun _ => has_readU32) fun _ => changes_pushLong _ _
  | binUnicode | binString | binBytes => exact .after (fun _ => has_readU32) fun _ => changes_pushText _
  | shortBinUnicode | shortBinString | shortBinBytes =>
    exact .after (fun _ => has_readU8) fun _ => changes_pushText _
  | binUnicode8 | binBytes8 => exact .after (fun _ => has_readU64) fun _ => changes_pushText _
  | tuple1 => exact fun σ => has_pop.bind fun x => has_pack [x]
  | tuple2 =>
    refine fun σ => has_pop.bind fun y => ?_
    rintro d ⟨l, hl, hd⟩
    refine (has_pop.bind fun x => ?_) d hd
    rintro d₁ ⟨l₁, rfl, hd₁⟩
    exact has_pack [x, y] d₁ ⟨l₁, by simp [hl], hd₁⟩
  | tuple3 =>
    refine fun σ => has_pop.bind fun z => ?_
    rintro d ⟨l, hl, hd⟩
    refine (has_pop.bind fun y => ?_) d hd
    rintro d₁ ⟨l₁, rfl, hd₁⟩
    refine (has_pop.bind fun x => ?_) d₁ hd₁
    rintro d₂ ⟨l₂, rfl, hd₂⟩
    exact has_pack [x, y, z] d₂ ⟨l₂, by simp [hl], hd₂⟩
  | tuple => exact fun σ => has_popMark.bind fun vs => has_pack vs
  | setItem =>
    refine fun σ => has_pop.bind fun value => ?_
    rintro d ⟨l, hl, hd⟩
    refine (has_pop.bind fun key => ?_) d hd
    rintro d₁ ⟨l₁, rfl, hd₁⟩
    exact has_storeItems _ [key, value] d₁ ⟨l₁, by simp [hl], hd₁⟩
  | setItems => exact fun σ => has_popMark.bind fun items => has_storeItems _ items
  | append => exact fun σ => has_pop.bind fun v => has_appendItems _ [v]
  | appends => exact fun σ => has_popMark.bind fun items => has_appendItems _ items
  | put => exact .after (fun _ => has_readIndex) fun _ => changes_memoPut _
  | binPut => exact .after (fun _ => has_readU8) fun _ => changes_memoPut _
  | longBinPut => exact .after (fun _ => has_readU32) fun _ => changes_memoPut _
  | memoize => exact fun σ => Triple.bind (R := fun _ => Has σ) (fun _ hd => hd) fun d => changes_memoPut _ σ
  | get => exact .after (fun _ => has_readIndex) fun _ => changes_memoGet _
  | binGet => exact .after (fun _ => has_readU8) fun _ => changes_memoGet _
  | longBinGet => exact .after (fun _ => has_readU32) fun _ => changes_memoGet _

/-- A round of the loop: an opcode, or the top of the stack is the value. -/
theorem step_changes : Triple (Has σ) (step P b)
    (fun r d => (r = none → Change P σ d.values) ∧ ∀ v, r = some v → v ∈ σ.stack) AnyError := by
  refine has_readU8.bind fun byte => ?_
  split
  · refine Triple.map (has_pop.mono (fun _ hd => hd) ?_ fun _ _ hd => hd)
    rintro v d ⟨l, hl, -⟩
    refine ⟨nofun, fun w hw => ?_⟩
    obtain rfl := Option.some.inj hw
    simp [hl]
  · split
    · exact .throw _ fun _ _ => trivial
    · split
      · exact (perform_changes _ σ).bind fun _ => .pure _ fun d hd => ⟨fun _ => hd, nofun⟩
      · exact .throw _ fun _ _ => trivial

end Performs

/-! ### Bounds -/

section Bounds

variable {P} {j : ℕ → ℕ → ℕ} {b : Buffer} {σ σ' : Values}

/-- The stack as a whole and each entry of the memo. -/
structure AtMost (j : ℕ → ℕ → ℕ) (B : ℕ) (σ : Values) : Prop where
  stack : Json.weights j σ.stack ≤ B
  memo : ∀ v ∈ σ.memo, v.weight j ≤ B

theorem AtMost.mono {B B' : ℕ} (h : AtMost j B σ) (hB : B ≤ B') : AtMost j B' σ :=
  ⟨h.stack.trans hB, fun v hv => (h.memo v hv).trans hB⟩

theorem Leaf.weight {v : Json} (h : Leaf v) : v.weight j = 1 := by
  cases v with
  | array items =>
    obtain rfl : items = [] := h
    rw [Json.weight, Json.weights]
  | object entries =>
    obtain rfl : entries = [] := h
    rw [Json.weight, Json.entryWeights]
  | _ => rw [Json.weight]

theorem weight_array (vs : List Json) : (Json.array vs).weight j = Json.weights j vs + 1 := by rw [Json.weight]

theorem weight_object (es : List (Bytes × Json)) : (Json.object es).weight j = Json.entryWeights j es + 1 := by
  rw [Json.weight]

/-- Keys are dropped, and so are the entries that are replaced. -/
theorem entryWeights_setItems (hj : Joining j) : ∀ {items : List Json} {es es' : List (Bytes × Json)},
    setItems P items es = .ok es' → Json.entryWeights j es' ≤ j (Json.entryWeights j es) (Json.weights j items)
  | [], es, es', h => by
    obtain rfl := Except.ok.inj h
    exact hj.le_left _ _
  | [_], es, es', h => by
    obtain rfl := Except.ok.inj h
    exact hj.le_left _ _
  | key :: value :: items, es, es', h => by
    obtain ⟨k, -, h⟩ := bind_eq_ok.mp h
    rw [Json.weights, Json.weights]
    calc Json.entryWeights j es'
        ≤ j (Json.entryWeights j (SortedMap.insert k value es)) (Json.weights j items) :=
          entryWeights_setItems hj h
      _ ≤ j (j (value.weight j) (Json.entryWeights j es)) (Json.weights j items) :=
          hj.mono_both (hj.entryWeights_insert k value es) le_rfl
      _ = j (Json.entryWeights j es) (j (value.weight j) (Json.weights j items)) := by
          rw [hj.comm (value.weight j), hj.assoc]
      _ ≤ _ := hj.mono_both le_rfl (hj.le_right _ _)

/-- Values move into the one below them. -/
theorem weights_absorb (hj : Joining j) {s ws : List Json} {v v' : Json} {a a' : ℕ} (hv : v.weight j = a + 1)
    (hv' : v'.weight j = a' + 1) (ha : a' ≤ j a (Json.weights j ws)) :
    Json.weights j (s ++ [v']) ≤ Json.weights j (s ++ [v] ++ ws) + 1 := by
  rw [hj.weights_append, hj.weights_append, hj.weights_append, hj.weights_singleton, hj.weights_singleton, hv, hv',
    hj.assoc]
  calc j (Json.weights j s) (a' + 1) ≤ j (Json.weights j s) a' + 1 := hj.succ _ _
    _ ≤ j (Json.weights j s) (j (a + 1) (Json.weights j ws)) + 1 :=
      Nat.succ_le_succ (hj.mono_both le_rfl (ha.trans (hj.mono a (a + 1) _ (Nat.le_succ a))))

/-- **One opcode** at most doubles what there is, up to one value. -/
theorem Change.atMost (hj : Joining j) {B : ℕ} (h : Change P σ σ') (hσ : AtMost j B σ) :
    AtMost j (j B B + 1) σ' := by
  have hB : B ≤ j B B + 1 := (hj.le_left B B).trans (Nat.le_succ _)
  have hmemo := (hσ.mono hB).memo
  obtain ⟨hstack, hm⟩ := hσ
  cases h with
  | drop s m k => exact ⟨(hj.weights_take s k).trans (hstack.trans hB), hmemo⟩
  | leaf s m hv =>
    refine ⟨?_, hmemo⟩
    rw [hj.weights_append, hj.weights_singleton, hv.weight]
    calc j (Json.weights j s) 1 ≤ j (Json.weights j s) 0 + 1 := hj.succ _ 0
      _ ≤ j B B + 1 := Nat.succ_le_succ (hj.mono_both hstack (Nat.zero_le B))
  | copy s m hv =>
    refine ⟨?_, hmemo⟩
    rw [hj.weights_append, hj.weights_singleton]
    refine (hj.mono_both hstack ?_).trans (Nat.le_succ _)
    rcases hv with hv | hv
    · exact (hj.weight_le_of_mem hv).trans hstack
    · exact hm _ hv
  | pack s m vs =>
    refine ⟨?_, hmemo⟩
    rw [hj.weights_append] at hstack
    rw [hj.weights_append, hj.weights_singleton, weight_array]
    exact (hj.succ _ _).trans (Nat.succ_le_succ (hstack.trans (hj.le_left B B)))
  | append s m vs ws =>
    have hle := weights_absorb hj (s := s) (weight_array (j := j) vs) (weight_array (vs ++ ws))
      (hj.weights_append vs ws).le
    exact ⟨hle.trans (Nat.succ_le_succ (hstack.trans (hj.le_left B B))), hmemo⟩
  | store s m items h =>
    have hle := weights_absorb hj (s := s) (weight_object (j := j) _) (weight_object _)
      (entryWeights_setItems hj h)
    exact ⟨hle.trans (Nat.succ_le_succ (hstack.trans (hj.le_left B B))), hmemo⟩
  | put s m hv hw =>
    refine ⟨hstack.trans hB, fun w hmem => ?_⟩
    rcases hw w hmem with rfl | hmem | rfl
    · exact (hj.weight_le_of_mem hv).trans (hstack.trans hB)
    · exact hmemo w hmem
    · rw [Json.weight]
      exact Nat.succ_le_succ (Nat.zero_le _)

/-- The bound after `k` bytes. -/
def limit (j : ℕ → ℕ → ℕ) : ℕ → ℕ
  | 0 => 0
  | k + 1 => j (limit j k) (limit j k) + 1

theorem limit_mono (hj : Joining j) : Monotone (limit j) :=
  monotone_nat_of_le_succ fun _ => (hj.le_left _ _).trans (Nat.le_succ _)

theorem limit_max (k : ℕ) : limit max k = k := by
  induction k with
  | zero => rfl
  | succ k ih => rw [limit, ih, max_self]

theorem limit_add (k : ℕ) : limit (· + ·) k + 1 = 2 ^ k := by
  induction k with
  | zero => rfl
  | succ k ih =>
    rw [limit, pow_succ, ← ih]
    ring

/-- A round, from a decoder whose values have the weight that its position allows. -/
theorem step_atMost (hj : Joining j) :
    Triple (fun d => Inside b d ∧ AtMost j (limit j d.pos) d.values) (step P b)
      (fun r d => (r = none → Inside b d ∧ AtMost j (limit j d.pos) d.values) ∧
        ∀ v, r = some v → 0 < b.data.length ∧ v.weight j ≤ limit j (b.data.length - 1)) AnyError := by
  rintro d ⟨hd, hσ⟩
  have hahead := step_ahead (P := P) hd
  have hchange := step_changes (P := P) (b := b) d rfl
  rcases hs : exec (step P b) d with ⟨e | r, d'⟩
  · trivial
  · rw [hs] at hahead hchange
    obtain ⟨hd', hpos⟩ := hahead
    have hlen := hd'.pos
    refine ⟨fun hr => ⟨hd', ?_⟩, fun v hr => ⟨by omega, ?_⟩⟩
    · exact ((hchange.1 hr).atMost hj hσ).mono (limit_mono hj hpos)
    · exact (hj.weight_le_of_mem (hchange.2 v hr)).trans (hσ.stack.trans (limit_mono hj (by omega)))

theorem decode_weight (hj : Joining j) {v : Json} (h : decode P b = .ok v) :
    0 < b.data.length ∧ v.weight j ≤ limit j (b.data.length - 1) := by
  have hnew : Inside b .new ∧ AtMost j (limit j 0) Decoder.new.values := ⟨inside_new, le_rfl, nofun⟩
  have hrun := decodeFrom_spec (step_atMost (P := P) hj) _ _ hnew (decodeFrom_eq P b)
  unfold decode at h
  rcases hr : decodeRun P b with ⟨r, d⟩
  rw [hr] at hrun h
  obtain rfl : r = .ok v := h
  exact hrun

end Bounds

/-! ### Streams that grow -/

section Streams

variable {P}

/-- Tokens that turn the top into `f` of it, some times. -/
theorem moves_iterate {b : Buffer} {ts : List Token} {f : Json → Json} {σ : Machine}
    (h : ∀ v, Moves P b ts (σ.pushes [v]) (σ.pushes [f v])) : ∀ (n : ℕ) (v : Json),
    Moves P b (List.replicate n ts).flatten (σ.pushes [v]) (σ.pushes [f^[n] v])
  | 0, _ => rfl
  | n + 1, v => by
    rw [List.replicate_succ, List.flatten_cons, Function.iterate_succ_apply]
    exact (h v).append (moves_iterate h n (f v))

theorem length_iterate (ts : List Token) : ∀ n : ℕ,
    ((List.replicate n ts).flatten.flatMap Token.bytes).length = n * (ts.flatMap Token.bytes).length
  | 0 => by rw [Nat.zero_mul]; rfl
  | n + 1 => by
    rw [List.replicate_succ, List.flatten_cons, List.flatMap_append, List.length_append, length_iterate ts n]
    ring

/-- An empty list, and then the tokens `n` times. -/
theorem decode_iterate (ts : List Token) (f : Json → Json)
    (h : ∀ (b : Buffer) (σ : Machine) (v : Json), Moves P b ts (σ.pushes [v]) (σ.pushes [f v])) (n : ℕ)
    (hlen : n * (ts.flatMap Token.bytes).length + 2 < 2 ^ 63) :
    ∃ b : Buffer, b.data.length = n * (ts.flatMap Token.bytes).length + 2 ∧
      decode P b = .ok (f^[n] (.array [])) := by
  set us : List Token := (.emptyList, []) :: (List.replicate n ts).flatten with hus
  have hbytes : (us.flatMap Token.bytes ++ [0x2e]).length = n * (ts.flatMap Token.bytes).length + 2 := by
    rw [hus, List.flatMap_cons, List.length_append, List.length_append, length_iterate]
    show 1 + _ + 1 = _
    omega
  refine ⟨⟨us.flatMap Token.bytes ++ [0x2e], by omega⟩, hbytes, ?_⟩
  set b : Buffer := ⟨us.flatMap Token.bytes ++ [0x2e], by omega⟩ with hb
  have hmoves : Moves P b us ⟨[], [], []⟩ (Machine.pushes ⟨[], [], []⟩ [f^[n] (.array [])]) :=
    .cons (acts_push rfl) (moves_iterate (h b _) n _)
  have hnew : At b ⟨[], [], []⟩ 0 (us.flatMap Token.bytes ++ [0x2e]) .new :=
    ⟨rfl, rfl, rfl, Nat.zero_le _, Nat.zero_add _, rfl⟩
  obtain ⟨d, hd, hrounds⟩ := hmoves.decodeFrom hnew
  obtain ⟨d', hx, -⟩ := returns_stop (P := P) _ d hd
  have hlast : decodeFrom P b 1 d = some (.ok (f^[n] (.array [])), d') := by rw [decodeFrom, hx]
  exact decode_of_run ((hrounds 1).trans hlast)

theorem moves_tuple1 (b : Buffer) (σ : Machine) (v : Json) :
    Moves P b [(.tuple1, [])] (σ.pushes [v]) (σ.pushes [.array [v]]) :=
  (acts_plain fun _ => (returns_pop v).bind (returns_push (.array [v]))).moves

/-- DUP, DUP and TUPLE3. -/
def tripling : List Token := [(.dup, []), (.dup, []), (.tuple3, [])]

theorem moves_tripling (b : Buffer) (σ : Machine) (v : Json) :
    Moves P b tripling (σ.pushes [v]) (σ.pushes [.array [v, v, v]]) := by
  have hdup : ∀ τ : Machine, Acts P b (.dup, []) (τ.pushes [v]) ((τ.pushes [v]).pushes [v]) :=
    fun τ => acts_plain fun _ => (returns_top v _).bind (returns_push v)
  have htuple : Acts P b (.tuple3, []) (((σ.pushes [v]).pushes [v]).pushes [v]) (σ.pushes [.array [v, v, v]]) :=
    acts_plain fun _ => (returns_pop v).bind ((returns_pop v).bind ((returns_pop v).bind (returns_push _)))
  exact .cons (hdup σ) (.cons (hdup _) htuple.moves)

theorem depth_iterate (n : ℕ) : ((fun v => Json.array [v])^[n] (.array [])).depth = n + 1 := by
  induction n with
  | zero => rfl
  | succ n ih =>
    rw [Function.iterate_succ_apply', Json.depth, weight_array, joining_max.weights_singleton]
    exact congrArg (· + 1) ih

theorem nodes_iterate (n : ℕ) : 3 ^ n ≤ ((fun v => Json.array [v, v, v])^[n] (.array [])).nodes := by
  induction n with
  | zero => exact le_rfl
  | succ n ih =>
    rw [Function.iterate_succ_apply', pow_succ]
    generalize (fun v => Json.array [v, v, v])^[n] (.array []) = v at ih
    have hnodes : (Json.array [v, v, v]).nodes = v.nodes + (v.nodes + (v.nodes + 0)) + 1 := rfl
    omega

/-- **Growth.** A value that `decode` returns for `N` bytes is less than `N` deep and has
less than `2 ^ (N - 1)` nodes. Some inputs reach the depth `N - 1`, and some have `3 ^ n`
nodes in `3 * n + 2` bytes. -/
theorem decode_growth (P : Platform) :
    (∀ (b : Buffer) (v : Json), decode P b = .ok v →
      v.depth < b.data.length ∧ v.nodes < 2 ^ (b.data.length - 1)) ∧
    (∀ n : ℕ, n + 2 < 2 ^ 63 → ∃ (b : Buffer) (v : Json),
      decode P b = .ok v ∧ b.data.length = n + 2 ∧ v.depth = n + 1) ∧
    ∀ n : ℕ, n * 3 + 2 < 2 ^ 63 → ∃ (b : Buffer) (v : Json),
      decode P b = .ok v ∧ b.data.length = n * 3 + 2 ∧ 3 ^ n ≤ v.nodes := by
  refine ⟨fun b v h => ?_, fun n hn => ?_, fun n hn => ?_⟩
  · obtain ⟨hlen, hdepth⟩ := decode_weight joining_max h
    obtain ⟨-, hnodes⟩ := decode_weight joining_add h
    have hlimit := limit_add (b.data.length - 1)
    rw [limit_max] at hdepth
    refine ⟨?_, ?_⟩
    · show v.weight max < _
      omega
    · show v.weight (· + ·) < _
      omega
  · obtain ⟨b, hb, hdecode⟩ := decode_iterate (P := P) [(.tuple1, [])] _ moves_tuple1 n
      (by simpa [Token.bytes] using hn)
    exact ⟨b, _, hdecode, by simpa [Token.bytes] using hb, depth_iterate n⟩
  · obtain ⟨b, hb, hdecode⟩ := decode_iterate (P := P) tripling _ moves_tripling n hn
    exact ⟨b, _, hdecode, hb, nodes_iterate n⟩

/-- A tuple of twice the same value: MARK, NONE, DUP, TUPLE and STOP. -/
theorem decode_growth_pair : Json.depth (.array [.null, .null]) < 5 ∧
    Json.nodes (.array [.null, .null]) < 2 ^ (5 - 1) :=
  (decode_growth plain).1 ⟨[0x28, 0x4e, 0x32, 0x74, 0x2e], by decide⟩ (.array [.null, .null]) rfl

end Streams

end SafePickle

end Qsycl
