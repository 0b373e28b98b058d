/-
# Streams of a Python pickler

What a pickler of protocol 2 to 4 emits for a value built from `None`, booleans,
integers, floats, strings, lists, tuples and dicts, as a relation (`Emits`)
between the memo before, the opcodes with their operands, what they describe, and
the memo after; frames may stand between any two opcodes (`Framed`).

`safe_pickle::decode` returns the value (`decode_stream`). Each opcode moves the
decoder as it should (`Moves`); by induction on the emission the opcodes of a value
leave exactly that value on the stack, and the marks as they were.
-/
import Qsycl.PickleSafety

namespace Qsycl.SafePickle

open Runs

/-! ### Numbers -/

/-- The `k` low bytes of a number, the lowest first. -/
def leBytes : ℕ → ℕ → List UInt8
  | 0, _ => []
  | k + 1, n => UInt8.ofNat n :: leBytes k (n / 256)

@[simp] theorem length_leBytes : ∀ k n : ℕ, (leBytes k n).length = k
  | 0, _ => rfl
  | k + 1, n => by rw [leBytes, List.length_cons, length_leBytes k]

theorem littleEndian_leBytes : ∀ k n : ℕ, littleEndian (leBytes k n) = n % 256 ^ k
  | 0, n => by rw [pow_zero, Nat.mod_one]; rfl
  | k + 1, n => by
    rw [leBytes, littleEndian_cons, littleEndian_leBytes k, pow_succ', Nat.mod_mul]
    simp

theorem littleEndian_snoc (b : UInt8) : ∀ bytes : List UInt8,
    littleEndian (bytes ++ [b]) = littleEndian bytes + 256 ^ bytes.length * b.toNat
  | [] => by simp [littleEndian]
  | c :: bytes => by
    rw [List.cons_append, littleEndian_cons, littleEndian_cons, littleEndian_snoc b bytes, List.length_cons,
      pow_succ]
    ring

/-- Reading the bytes from the other end. -/
theorem bigEndian_reverse (bytes : List UInt8) : bigEndian bytes.reverse = littleEndian bytes := by
  unfold bigEndian littleEndian
  rw [List.foldl_reverse]

/-- The bytes from `k` on are set. -/
theorem signExtend_eq {k u : ℕ} (h0 : 0 < k) (hk : k < 8) (hu : u < 2 ^ (8 * k)) :
    (signExtend k (BitVec.ofNat 64 u)).toNat = 2 ^ 64 - 2 ^ (8 * k) + u := by
  have hle : 2 ^ (8 * k) ≤ 2 ^ 64 := Nat.pow_le_pow_right (by norm_num) (by omega)
  have hor : ∀ m : ℕ, m <<< (8 * k) + u < 2 ^ 64 →
      (BitVec.ofNat 64 u ||| BitVec.ofNat 64 (m <<< (8 * k))).toNat = m <<< (8 * k) + u := by
    intro m hm
    rw [BitVec.toNat_or, BitVec.toNat_ofNat, BitVec.toNat_ofNat, Nat.mod_eq_of_lt (by omega),
      Nat.mod_eq_of_lt (by omega), Nat.or_comm, Nat.shiftLeft_add_eq_or_of_lt hu]
  have hmask : signExtend k (BitVec.ofNat 64 u) =
      BitVec.ofNat 64 u ||| BitVec.ofNat 64 ((2 ^ (64 - 8 * k) - 1) <<< (8 * k)) := by
    unfold signExtend
    interval_cases k <;> simp only [List.range', List.foldl, BitVec.or_assoc] <;> rfl
  have hsum : (2 ^ (64 - 8 * k) - 1) <<< (8 * k) = 2 ^ 64 - 2 ^ (8 * k) := by
    interval_cases k <;> rfl
  rw [hmask, hor _ (by omega), hsum]

/-- The top bit of the last byte is that of the number. -/
theorem topBit_eq (buf : List UInt8) : (buf.getLast?.any fun b => b &&& 0x80 != 0) =
    decide (2 ^ (8 * buf.length) ≤ 2 * littleEndian buf) := by
  have hbit : ∀ b : UInt8, (b &&& 0x80 != 0) = decide (128 ≤ b.toNat) := by decide +kernel
  rcases List.eq_nil_or_concat buf with rfl | ⟨init, last, hbuf⟩
  · rfl
  · rw [List.concat_eq_append] at hbuf
    have hinit : littleEndian init < 256 ^ init.length := by
      have hlt := littleEndian_lt init
      rwa [pow_mul] at hlt
    have hu : littleEndian buf = littleEndian init + 256 ^ init.length * last.toNat := by
      rw [hbuf, littleEndian_snoc]
    have hp : 2 ^ (8 * buf.length) = 256 * 256 ^ init.length := by
      rw [hbuf, List.length_append, pow_mul, ← pow_succ']
      rfl
    have hlast : buf.getLast? = some last := by rw [hbuf, List.getLast?_concat]
    rw [hlast, Option.any_some, hbit, hu, hp]
    congr 1
    apply propext
    constructor
    · intro hle
      have := Nat.mul_le_mul_left (256 ^ init.length) hle
      omega
    · intro hle
      by_contra hc
      have := Nat.mul_le_mul_left (256 ^ init.length) (show last.toNat ≤ 127 by omega)
      omega

/-- **The number of LONG1 and LONG4** is the two's complement of the bytes. -/
theorem longValue_eq {buf : List UInt8} (h : buf.length ≤ 8) :
    longValue buf = (littleEndian buf : ℤ).bmod (2 ^ (8 * buf.length)) := by
  have hlt := littleEndian_lt buf
  have hle : 2 ^ (8 * buf.length) ≤ 2 ^ 64 := Nat.pow_le_pow_right (by norm_num) (by omega)
  have hmod : (littleEndian buf : ℤ) % ((2 ^ (8 * buf.length) : ℕ) : ℤ) = littleEndian buf :=
    Int.emod_eq_of_lt (by omega) (by exact_mod_cast hlt)
  unfold longValue
  dsimp only
  simp only [topBit_eq, decide_eq_true_iff]
  rw [Int.bmod, hmod]
  by_cases h8 : buf.length = 8
  · rw [if_neg fun hc => hc.1.ne h8, BitVec.toInt_eq_toNat_cond, BitVec.toNat_ofNat,
      Nat.mod_eq_of_lt (by omega)]
    rw [h8] at hlt ⊢
    split <;> split <;> omega
  · have h56 : 2 ^ (8 * buf.length) ≤ 2 ^ 56 := Nat.pow_le_pow_right (by norm_num) (by omega)
    by_cases htop : 2 ^ (8 * buf.length) ≤ 2 * littleEndian buf
    · -- the number is negative, and its sign fills the upper bytes
      have h0 : 0 < buf.length := by
        by_contra hc
        obtain rfl := List.eq_nil_of_length_eq_zero (Nat.eq_zero_of_not_pos hc)
        exact absurd htop (by decide)
      rw [if_pos ⟨by omega, htop⟩, BitVec.toInt_eq_toNat_cond, signExtend_eq h0 (by omega) hlt]
      split <;> split <;> omega
    · rw [if_neg fun hc => htop hc.2, BitVec.toInt_eq_toNat_cond, BitVec.toNat_ofNat,
        Nat.mod_eq_of_lt (by omega)]
      split <;> split <;> omega

/-! ### Values and what is emitted for them -/

/-- A Python value that is data. -/
inductive PyVal
  | none
  | bool (b : Bool)
  | int (i : ℤ)
  | float (bits : UInt64)
  | str (s : Bytes)
  | list (items : List PyVal)
  | tuple (items : List PyVal)
  | dict (entries : List (Bytes × PyVal))

mutual

/-- Lists and tuples as arrays, dicts as objects. -/
def PyVal.toJson : PyVal → Json
  | .none => .null
  | .bool b => .bool b
  | .int i => .integer i
  | .float bits => .float bits
  | .str s => .string s
  | .list items => .array (PyVal.toJsons items)
  | .tuple items => .array (PyVal.toJsons items)
  | .dict entries => .object (SortedMap.insertAll (PyVal.toEntries entries) [])

def PyVal.toJsons : List PyVal → List Json
  | [] => []
  | v :: vs => v.toJson :: PyVal.toJsons vs

def PyVal.toEntries : List (Bytes × PyVal) → List (Bytes × Json)
  | [] => []
  | (k, v) :: es => (k, v.toJson) :: PyVal.toEntries es

end

/-- An opcode and its operand. -/
abbrev Token := Op × Bytes

def Token.bytes (t : Token) : Bytes := t.1.code :: t.2

/-- A number in its shortest form or a longer one; LONG1 has the bytes of the two's
complement. -/
inductive NumberToken : ℤ → Token → Prop
  | binInt1 {n : ℕ} : n < 2 ^ 8 → NumberToken n (.binInt1, leBytes 1 n)
  | binInt2 {n : ℕ} : n < 2 ^ 16 → NumberToken n (.binInt2, leBytes 2 n)
  | binInt {i : ℤ} : -2 ^ 31 ≤ i → i < 2 ^ 31 → NumberToken i (.binInt, leBytes 4 (i % 2 ^ 32).toNat)
  | long1 {i : ℤ} {k : ℕ} : k ≤ 8 → -2 ^ (8 * k) ≤ 2 * i → 2 * i < 2 ^ (8 * k) →
      NumberToken i (.long1, UInt8.ofNat k :: leBytes k (i % 2 ^ (8 * k)).toNat)

/-- A string after its length. -/
inductive TextToken (s : Bytes) : Token → Prop
  | short : s.length < 2 ^ 8 → TextToken s (.shortBinUnicode, leBytes 1 s.length ++ s)
  | four : s.length < 2 ^ 32 → TextToken s (.binUnicode, leBytes 4 s.length ++ s)
  | eight : s.length < 2 ^ 64 → TextToken s (.binUnicode8, leBytes 8 s.length ++ s)

/-- What the pickler remembers under each index; `none` stands for a container that is
never fetched again. -/
abbrev Memo := List (Option PyVal)

/-- The object on the stack may be stored at the next index. -/
inductive Puts (m : Memo) (x : Option PyVal) : List Token → Memo → Prop
  | skip : Puts m x [] m
  | binPut : m.length < 2 ^ 8 → Puts m x [(.binPut, leBytes 1 m.length)] (m ++ [x])
  | longBinPut : m.length < 2 ^ 32 → Puts m x [(.longBinPut, leBytes 4 m.length)] (m ++ [x])
  | memoize : Puts m x [(.memoize, [])] (m ++ [x])

/-- The opcodes emitted for some values in turn, with the memo before and after, where `N`
are the tokens for a number. -/
inductive Emits (N : ℤ → Token → Prop) : Memo → List Token → List PyVal → Memo → Prop
  | nil {m : Memo} : Emits N m [] [] m
  | append {m m₁ m₂ : Memo} {ts us : List Token} {vs ws : List PyVal} :
      Emits N m ts vs m₁ → Emits N m₁ us ws m₂ → Emits N m (ts ++ us) (vs ++ ws) m₂
  | none {m : Memo} : Emits N m [(.none, [])] [.none] m
  | newTrue {m : Memo} : Emits N m [(.newTrue, [])] [.bool true] m
  | newFalse {m : Memo} : Emits N m [(.newFalse, [])] [.bool false] m
  | int {m : Memo} {i : ℤ} {t : Token} : N i t → Emits N m [t] [.int i] m
  | float {m : Memo} (bits : UInt64) : Emits N m [(.binFloat, (leBytes 8 bits.toNat).reverse)] [.float bits] m
  | str {m m₁ : Memo} {s : Bytes} {t : Token} {ps : List Token} : TextToken s t → Puts m (some (.str s)) ps m₁ →
      Emits N m (t :: ps) [.str s] m₁
  -- a string or a tuple that was stored before
  | binGet {m : Memo} {i : ℕ} {v : PyVal} : i < 2 ^ 8 → m[i]? = some (some v) →
      Emits N m [(.binGet, leBytes 1 i)] [v] m
  | longBinGet {m : Memo} {i : ℕ} {v : PyVal} : i < 2 ^ 32 → m[i]? = some (some v) →
      Emits N m [(.longBinGet, leBytes 4 i)] [v] m
  -- a list is stored when it is empty, and filled in batches
  | emptyList {m m₁ : Memo} {ps : List Token} : Puts m Option.none ps m₁ →
      Emits N m ((.emptyList, []) :: ps) [.list []] m₁
  | appendItem {m m₁ m₂ : Memo} {ts us : List Token} {vs : List PyVal} {w : PyVal} :
      Emits N m ts [.list vs] m₁ → Emits N m₁ us [w] m₂ →
      Emits N m (ts ++ us ++ [(.append, [])]) [.list (vs ++ [w])] m₂
  | appendItems {m m₁ m₂ : Memo} {ts us : List Token} {vs ws : List PyVal} :
      Emits N m ts [.list vs] m₁ → Emits N m₁ us ws m₂ →
      Emits N m (ts ++ (.mark, []) :: us ++ [(.appends, [])]) [.list (vs ++ ws)] m₂
  | emptyDict {m m₁ : Memo} {ps : List Token} : Puts m Option.none ps m₁ →
      Emits N m ((.emptyDict, []) :: ps) [.dict []] m₁
  | setItem {m m₁ m₂ : Memo} {ts us : List Token} {es : List (Bytes × PyVal)} {k : Bytes} {v : PyVal} :
      Emits N m ts [.dict es] m₁ → Emits N m₁ us [.str k, v] m₂ →
      Emits N m (ts ++ us ++ [(.setItem, [])]) [.dict (es ++ [(k, v)])] m₂
  | setItems {m m₁ m₂ : Memo} {ts us : List Token} {es fs : List (Bytes × PyVal)} :
      Emits N m ts [.dict es] m₁ → Emits N m₁ us (fs.flatMap fun e => [.str e.1, e.2]) m₂ →
      Emits N m (ts ++ (.mark, []) :: us ++ [(.setItems, [])]) [.dict (es ++ fs)] m₂
  -- a tuple is stored when it is complete
  | emptyTuple {m : Memo} : Emits N m [(.emptyTuple, [])] [.tuple []] m
  | tuple1 {m m₁ m₂ : Memo} {ts ps : List Token} {v : PyVal} : Emits N m ts [v] m₁ →
      Puts m₁ (some (.tuple [v])) ps m₂ → Emits N m (ts ++ (.tuple1, []) :: ps) [.tuple [v]] m₂
  | tuple2 {m m₁ m₂ : Memo} {ts ps : List Token} {v w : PyVal} : Emits N m ts [v, w] m₁ →
      Puts m₁ (some (.tuple [v, w])) ps m₂ → Emits N m (ts ++ (.tuple2, []) :: ps) [.tuple [v, w]] m₂
  | tuple3 {m m₁ m₂ : Memo} {ts ps : List Token} {u v w : PyVal} : Emits N m ts [u, v, w] m₁ →
      Puts m₁ (some (.tuple [u, v, w])) ps m₂ → Emits N m (ts ++ (.tuple3, []) :: ps) [.tuple [u, v, w]] m₂
  | tuple {m m₁ m₂ : Memo} {ts ps : List Token} {vs : List PyVal} : Emits N m ts vs m₁ →
      Puts m₁ (some (.tuple vs)) ps m₂ →
      Emits N m ((.mark, []) :: ts ++ (.tuple, []) :: ps) [.tuple vs] m₂

/-- Frames between the opcodes. -/
inductive Framed : List Token → List Token → Prop
  | nil : Framed [] []
  | cons {ts us : List Token} (t : Token) : Framed ts us → Framed (t :: ts) (t :: us)
  | frame {ts us : List Token} (size : ℕ) : Framed ts us → Framed ts ((.frame, leBytes 8 size) :: us)

/-- No frames. -/
theorem Framed.refl : ∀ ts : List Token, Framed ts ts
  | [] => .nil
  | t :: ts => .cons t (Framed.refl ts)

/-- A stream of protocol 2, 3 or 4 that a pickler emits for `v`, with these numbers. -/
inductive PickledWith (N : ℤ → Token → Prop) (v : PyVal) : Bytes → Prop
  | mk {version : UInt8} {m : Memo} {ts us : List Token} : 2 ≤ version → version ≤ 4 → Emits N [] ts [v] m →
      Framed ts us → PickledWith N v (Token.bytes (.proto, [version]) ++ us.flatMap Token.bytes ++ [0x2e])

/-- With numbers of at most 64 bits. -/
abbrev Pickled : PyVal → Bytes → Prop := PickledWith NumberToken

/-! ### What decode makes of a value -/

theorem toJsons_eq : ∀ vs : List PyVal, PyVal.toJsons vs = vs.map PyVal.toJson
  | [] => by rw [PyVal.toJsons]; rfl
  | v :: vs => by rw [PyVal.toJsons, toJsons_eq vs]; rfl

theorem toEntries_eq : ∀ es : List (Bytes × PyVal), PyVal.toEntries es = es.map fun e => (e.1, e.2.toJson)
  | [] => by rw [PyVal.toEntries]; rfl
  | (k, v) :: es => by rw [PyVal.toEntries, toEntries_eq es]; rfl

theorem toJson_list (vs : List PyVal) : (PyVal.list vs).toJson = .array (vs.map PyVal.toJson) := by
  rw [PyVal.toJson, toJsons_eq]

theorem toJson_tuple (vs : List PyVal) : (PyVal.tuple vs).toJson = .array (vs.map PyVal.toJson) := by
  rw [PyVal.toJson, toJsons_eq]

theorem toJson_dict (es : List (Bytes × PyVal)) :
    (PyVal.dict es).toJson = .object (SortedMap.insertAll (es.map fun e => (e.1, e.2.toJson)) []) := by
  rw [PyVal.toJson, toEntries_eq]

theorem toJson_str (s : Bytes) : (PyVal.str s).toJson = .string s := by rw [PyVal.toJson]

/-- A dict with distinct keys is the object with its entries. -/
theorem perm_toJson_dict {es : List (Bytes × PyVal)} (hn : (es.map Prod.fst).Nodup) :
    ∃ entries, (PyVal.dict es).toJson = .object entries ∧ SortedMap.Sorted entries ∧
      entries.Perm (es.map fun e => (e.1, e.2.toJson)) := by
  refine ⟨_, toJson_dict es, SortedMap.sorted_insertAll _ .nil, ?_⟩
  have hkeys : ((es.map fun e : Bytes × PyVal => (e.1, e.2.toJson)) ++ []).map Prod.fst = es.map Prod.fst := by
    rw [List.append_nil, List.map_map]
    rfl
  have hperm := SortedMap.perm_insertAll (hkeys ▸ hn)
  rwa [List.append_nil] at hperm

/-! ### The bytes ahead -/

section Next

variable {b : Buffer} {d : Decoder} {bytes rest : Bytes}

/-- The bytes from the position on. -/
def Next (b : Buffer) (d : Decoder) (bytes : Bytes) : Prop :=
  ∃ before, b.data = before ++ bytes ∧ before.length = d.pos

theorem Next.drop (h : Next b d bytes) : b.data.drop d.pos = bytes := by
  obtain ⟨before, hdata, hpos⟩ := h
  rw [hdata, ← hpos, List.drop_left]

theorem Next.inside (h : Next b d bytes) : d.pos + bytes.length = b.data.length := by
  obtain ⟨before, hdata, hpos⟩ := h
  rw [hdata, ← hpos, List.length_append]

/-- The first bytes are read. -/
theorem Next.skip (h : Next b d (bytes ++ rest)) (d' : Decoder) (hpos : d'.pos = d.pos + bytes.length) :
    Next b d' rest := by
  obtain ⟨before, hdata, hlen⟩ := h
  exact ⟨before ++ bytes, by rw [hdata, List.append_assoc], by rw [hpos, ← hlen, List.length_append]⟩

theorem Next.readU8 {c : UInt8} (h : Next b d (c :: rest)) : exec (readU8 b) d =
    (.ok c, { d with pos := d.pos + 1, trace := d.trace ++ [.read d.pos 1] }) := by
  have hc : b.data[d.pos]? = some c := by
    rw [← List.head?_drop, h.drop]
    rfl
  rw [exec_readU8, hc]

theorem Next.passes (h : Next b d (bytes ++ rest)) : SafePickle.passes b d.pos bytes.length = true := by
  have hin := h.inside
  have hsmall := b.small
  rw [List.length_append] at hin
  rw [passes_iff (by omega)]
  omega

theorem Next.access (h : Next b d (bytes ++ rest)) :
    exec (access b bytes.length) d = (.ok bytes, { d with pos := d.pos + bytes.length }) := by
  have hin := h.inside
  rw [List.length_append] at hin
  rw [exec_access, if_neg (by omega), h.drop, List.take_left]

theorem Next.readBytes (h : Next b d (bytes ++ rest)) : exec (readBytes b bytes.length) d =
    (.ok bytes, { d with pos := d.pos + bytes.length, trace := d.trace ++ [.read d.pos bytes.length] }) := by
  rw [exec_readBytes]
  dsimp only
  rw [if_pos h.passes]
  exact Next.access (d := { d with trace := _ }) h

/-- A number of `w` bytes. -/
theorem Next.number {w n : ℕ} (hn : n < 256 ^ w) (h : Next b d (leBytes w n ++ rest)) :
    exec (littleEndian <$> SafePickle.readBytes b w) d =
      (.ok n, { d with pos := d.pos + w, trace := d.trace ++ [.read d.pos w] }) := by
  have hread := h.readBytes
  rw [length_leBytes] at hread
  have hvalue : littleEndian (leBytes w n) = n := by rw [littleEndian_leBytes, Nat.mod_eq_of_lt hn]
  rw [exec_map, hread]
  show (Except.ok (littleEndian (leBytes w n)), _) = _
  rw [hvalue]

/-- The bytes of LONG1 and LONG4. -/
theorem Next.pushLong (name : String) (hlen : bytes.length ≤ 8) (h : Next b d (bytes ++ rest)) :
    ∃ trace, exec (pushLong b name bytes.length) d = (.ok ⟨⟩,
      { d with pos := d.pos + bytes.length, stack := d.stack ++ [.integer (longValue bytes)],
               trace := trace }) := by
  unfold SafePickle.pushLong
  split
  · rename_i h0
    obtain rfl := List.eq_nil_of_length_eq_zero h0
    exact ⟨d.trace, rfl⟩
  · rw [if_neg (by omega), exec_bind, h.readBytes]
    exact ⟨_, rfl⟩

end Next

/-! ### The decoder as a stack machine -/

/-- The part of the decoder that the opcodes work on. -/
structure Machine where
  stack : List Json
  marks : List ℕ
  memo : List Json

namespace Machine

/-- More values on the stack. -/
def pushes (σ : Machine) (vs : List Json) : Machine := { σ with stack := σ.stack ++ vs }

def marked (σ : Machine) : Machine := { σ with marks := σ.marks ++ [σ.stack.length] }

def remember (σ : Machine) (memo : List Json) : Machine := { σ with memo := memo }

@[simp] theorem pushes_pushes (σ : Machine) (vs ws : List Json) :
    (σ.pushes vs).pushes ws = σ.pushes (vs ++ ws) := by simp [pushes]

@[simp] theorem pushes_nil (σ : Machine) : σ.pushes [] = σ := by simp [pushes]

@[simp] theorem pushes_memo (σ : Machine) (vs : List Json) : (σ.pushes vs).memo = σ.memo := rfl

@[simp] theorem marked_memo (σ : Machine) : σ.marked.memo = σ.memo := rfl

@[simp] theorem remember_memo (σ : Machine) (memo : List Json) : (σ.remember memo).memo = memo := rfl

@[simp] theorem remember_self (σ : Machine) : σ.remember σ.memo = σ := rfl

@[simp] theorem remember_remember (σ : Machine) (memo memo' : List Json) :
    (σ.remember memo).remember memo' = σ.remember memo' := rfl

/-- The memo is not on the stack. -/
@[simp] theorem pushes_remember (σ : Machine) (vs memo : List Json) :
    (σ.pushes vs).remember memo = (σ.remember memo).pushes vs := rfl

@[simp] theorem marked_remember (σ : Machine) (memo : List Json) :
    σ.marked.remember memo = (σ.remember memo).marked := rfl

end Machine

section Decoding

variable {P : Platform} {b : Buffer} {σ σ₁ σ' : Machine} {k : ℕ} {rest : Bytes}

/-- The decoder is at the bytes `rest`. Every entry of the memo was stored by some opcode,
and `k` bytes more were read. -/
structure At (b : Buffer) (σ : Machine) (k : ℕ) (rest : Bytes) (d : Decoder) : Prop where
  stack : d.stack = σ.stack
  marks : d.marks = σ.marks
  memo : d.memo = σ.memo
  room : σ.memo.length + k ≤ d.pos
  inside : d.pos + rest.length = b.data.length
  rest : b.data.drop d.pos = rest

theorem At.weaken {k' : ℕ} {d : Decoder} (h : At b σ k rest d) (hk : k' ≤ k) : At b σ k' rest d :=
  { h with room := (Nat.add_le_add_left hk _).trans h.room }

/-! ### The operations -/

theorem At.next {bytes : Bytes} {d : Decoder} (h : At b σ k bytes d) : Next b d bytes := by
  have hin := h.inside
  refine ⟨b.data.take d.pos, ?_, ?_⟩
  · rw [← h.rest, List.take_append_drop]
  · rw [List.length_take]
    omega

/-- After a read, of which `n` bytes are counted. -/
theorem At.skip {bytes : Bytes} {d : Decoder} {n : ℕ} (h : At b σ k (bytes ++ rest) d) (hn : n ≤ bytes.length)
    (trace : List Event) : At b σ (k + n) rest { d with pos := d.pos + bytes.length, trace := trace } := by
  have hnext := h.next.skip { d with pos := d.pos + bytes.length, trace := trace } rfl
  have hroom := h.room
  exact ⟨h.stack, h.marks, h.memo, by dsimp only; omega, hnext.inside, hnext.drop⟩

theorem returns_readU8 (c : UInt8) : Returns (At b σ k (c :: rest)) (readU8 b) c (At b σ (k + 1) rest) :=
  fun d hd => ⟨_, hd.next.readU8, At.skip (show At b σ k ([c] ++ rest) d from hd) le_rfl _⟩

theorem returns_readBytes {bytes : List UInt8} {n : ℕ} (hn : bytes.length = n) :
    Returns (At b σ k (bytes ++ rest)) (readBytes b n) bytes (At b σ k rest) := by
  subst hn
  exact fun _ hd => ⟨_, hd.next.readBytes, hd.skip (Nat.zero_le _) _⟩

/-- A number of `n` bytes. -/
theorem returns_number {n u : ℕ} (hu : u < 256 ^ n) :
    Returns (At b σ k (leBytes n u ++ rest)) (littleEndian <$> readBytes b n) u (At b σ k rest) := by
  intro d hd
  have hd' := hd.skip (Nat.zero_le _) (d.trace ++ [.read d.pos n])
  rw [length_leBytes] at hd'
  exact ⟨_, hd.next.number hu, hd'⟩

theorem returns_pushLong {bytes : List UInt8} {n : ℕ} (name : String) (hn : bytes.length = n) (h8 : n ≤ 8) :
    Returns (At b σ k (bytes ++ rest)) (pushLong b name n) ()
      (At b (σ.pushes [.integer (longValue bytes)]) k rest) := by
  subst hn
  intro d hd
  obtain ⟨trace, hx⟩ := hd.next.pushLong name h8
  have hd' := hd.skip (Nat.zero_le _) trace
  exact ⟨_, hx, { hd' with stack := congrArg (· ++ [Json.integer (longValue bytes)]) hd'.stack }⟩

/-- A text within the limits of the library. -/
theorem returns_pushText (s : Bytes) (hP : s.length ≤ b.data.length → s.length ≤ P.maxString) :
    Returns (At b σ k (s ++ rest)) (pushText P b s.length) () (At b (σ.pushes [.string s]) k rest) := by
  intro d hd
  have hread : At b σ k (s ++ rest) { d with trace := d.trace ++ [.read d.pos s.length] } := { hd with }
  have hd' := hread.skip (Nat.zero_le _) (d.trace ++ [.read d.pos s.length] ++ [.text s])
  have hin := hd.inside
  rw [List.length_append] at hin
  refine ⟨{ d with pos := d.pos + s.length, stack := d.stack ++ [.string s],
                   trace := d.trace ++ [.read d.pos s.length] ++ [.text s] }, ?_, ?_⟩
  · unfold pushText
    rw [exec_bind, exec_readRawString]
    dsimp only
    rw [if_pos hd.next.passes, if_neg (Nat.not_lt.mpr (hP (by omega))), exec_bind, hread.next.access]
    rfl
  · exact { hd' with stack := congrArg (· ++ [Json.string s]) hd.stack }

theorem returns_push (v : Json) : Returns (At b σ k rest) (push v) () (At b (σ.pushes [v]) k rest) :=
  fun _ hd => ⟨_, rfl, { hd with stack := congrArg (· ++ [v]) hd.stack }⟩

theorem returns_top (v : Json) (what : String) :
    Returns (At b (σ.pushes [v]) k rest) (top what) v (At b (σ.pushes [v]) k rest) := by
  intro d hd
  have hlast : d.stack.getLast? = some v := by
    rw [hd.stack]
    simp [Machine.pushes]
  exact ⟨d, by rw [exec_top, hlast], hd⟩

theorem returns_pop (v : Json) : Returns (At b (σ.pushes [v]) k rest) pop v (At b σ k rest) := by
  intro d hd
  have hstack : d.stack = σ.stack ++ [v] := hd.stack
  have hlast : d.stack.getLast? = some v := by simp [hstack]
  refine ⟨{ d with stack := σ.stack }, ?_, { hd with stack := rfl }⟩
  rw [exec_pop, hlast]
  simp [hstack]

theorem returns_setTop (v w : Json) :
    Returns (At b (σ.pushes [v]) k rest) (setTop w) () (At b (σ.pushes [w]) k rest) := by
  intro d hd
  have hstack : d.stack = σ.stack ++ [v] := hd.stack
  exact ⟨_, exec_setTop w, { hd with stack := by simp [hstack, Machine.pushes] }⟩

theorem returns_mark : Returns (At b σ k rest) mark () (At b σ.marked k rest) := fun d hd =>
  ⟨_, exec_mark, { hd with marks := by rw [hd.marks, hd.stack]; rfl }⟩

/-- The values from the mark on. -/
theorem returns_popMark (vs : List Json) :
    Returns (At b (σ.marked.pushes vs) k rest) popMark vs (At b σ k rest) := by
  intro d hd
  have hstack : d.stack = σ.stack ++ vs := hd.stack
  have hmarks : d.marks = σ.marks ++ [σ.stack.length] := hd.marks
  have hlast : d.marks.getLast? = some σ.stack.length := by simp [hmarks]
  have hlen : ¬ d.stack.length < σ.stack.length := by simp [hstack]
  refine ⟨{ d with marks := σ.marks, stack := σ.stack }, ?_, { hd with stack := rfl, marks := rfl }⟩
  rw [exec_popMark, hlast]
  dsimp only
  rw [if_neg hlen]
  simp [hstack, hmarks]

/-- The value is stored at the next index. -/
theorem returns_memoPut (v : Json) (hP : ∀ n ≤ b.data.length, P.grants n = true) :
    Returns (At b (σ.pushes [v]) 1 rest) (memoPut P σ.memo.length) ()
      (At b ((σ.remember (σ.memo ++ [v])).pushes [v]) 0 rest) := by
  intro d hd
  have hin := hd.inside
  have hroom : σ.memo.length + 1 ≤ d.pos := hd.room
  have hsmall := b.small
  have hmemo : d.memo = σ.memo := hd.memo
  have hlast : d.stack.getLast? = some v := by
    rw [hd.stack]
    simp [Machine.pushes]
  have hlarge : enlarged P d.memo σ.memo.length = .ok (σ.memo ++ [.null]) := by
    unfold enlarged resize
    rw [hmemo, if_pos le_rfl, Nat.mod_eq_of_lt (by omega), if_neg (by omega), if_pos (hP _ (by omega)),
      Nat.add_sub_cancel_left]
    rfl
  refine ⟨{ d with memo := σ.memo ++ [v],
                   trace := d.trace ++ [.stored σ.memo.length (σ.memo.length + 1) v] }, ?_, ?_⟩
  · rw [exec_memoPut, hlast]
    dsimp only
    rw [hlarge]
    simp
  · exact { hd with memo := rfl, room := by simpa [Machine.remember, Machine.pushes] using hroom }

theorem returns_memoGet {i : ℕ} {v : Json} (hv : σ.memo[i]? = some v) :
    Returns (At b σ k rest) (memoGet i) () (At b (σ.pushes [v]) k rest) := by
  intro d hd
  have hv' : d.memo[i]? = some v := by rw [hd.memo, hv]
  refine ⟨{ d with stack := d.stack ++ [v], trace := d.trace ++ [.loaded i (some v)] }, ?_, ?_⟩
  · rw [exec_memoGet, hv']
  · exact { hd with stack := by rw [hd.stack]; rfl }

/-! ### Tokens -/

/-- The decoder reads the token and goes from `σ` to `σ'`. -/
def Acts (P : Platform) (b : Buffer) (t : Token) (σ σ' : Machine) : Prop :=
  ∀ rest, Returns (At b σ 0 (t.bytes ++ rest)) (step P b) none (At b σ' 0 rest)

/-- The decoder reads the tokens in turn. -/
def Moves (P : Platform) (b : Buffer) : List Token → Machine → Machine → Prop
  | [], σ, σ' => σ = σ'
  | t :: ts, σ, σ' => ∃ σ₁, Acts P b t σ σ₁ ∧ Moves P b ts σ₁ σ'

/-- An opcode that was read is performed. -/
theorem exec_step {op : Op} {d d₁ : Decoder} (hread : exec (readU8 b) d = (.ok op.code, d₁)) :
    exec (step P b) d = match exec (perform P b op) d₁ with
      | (.ok _, d') => (.ok none, d')
      | (.error e, d') => (.error e, d') := by
  have hcode : op.code ≠ 0x2e ∧ refused.contains op.code = false ∧ Op.ofByte op.code = some op := by
    cases op <;> decide
  obtain ⟨hstop, hsafe, hop⟩ := hcode
  unfold step
  rw [exec_bind, hread]
  dsimp only
  rw [if_neg hstop, hsafe, hop, if_neg Bool.false_ne_true]
  dsimp only
  rw [exec_bind]
  rcases exec (perform P b op) d₁ with ⟨e | u, d'⟩
  · rfl
  · rfl

/-- An opcode, by what it does with its operand. -/
theorem acts_of_perform {op : Op} {operand : Bytes}
    (h : ∀ rest, Returns (At b σ 1 (operand ++ rest)) (perform P b op) () (At b σ' 0 rest)) :
    Acts P b (op, operand) σ σ' := by
  intro rest d hd
  obtain ⟨d₁, hread, hd₁⟩ := returns_readU8 op.code d hd
  obtain ⟨d', hx, hd'⟩ := h rest d₁ hd₁
  exact ⟨d', by rw [exec_step hread, hx], hd'⟩

theorem Acts.moves {t : Token} (h : Acts P b t σ σ') : Moves P b [t] σ σ' := ⟨σ', h, rfl⟩

theorem Moves.cons {t : Token} {ts : List Token} (h : Acts P b t σ σ₁) (hs : Moves P b ts σ₁ σ') :
    Moves P b (t :: ts) σ σ' := ⟨σ₁, h, hs⟩

theorem Moves.append {us : List Token} : ∀ {ts : List Token} {σ : Machine}, Moves P b ts σ σ₁ →
    Moves P b us σ₁ σ' → Moves P b (ts ++ us) σ σ'
  | [], _, h, hs => (show _ = σ₁ from h) ▸ hs
  | _ :: _, _, ⟨σ₂, ht, h⟩, hs => ⟨σ₂, ht, Moves.append h hs⟩

/-- A frame is skipped. -/
theorem acts_frame (size : ℕ) : Acts P b (.frame, leBytes 8 size) σ σ := by
  refine acts_of_perform fun rest => ?_
  have h : Returns (At b σ 1 (leBytes 8 size ++ rest)) (readU64Le b) _ (At b σ 1 rest) :=
    (returns_readBytes (length_leBytes 8 size)).map littleEndian
  exact (h.bind (.pure ())).mono (fun _ hd => hd) fun _ hd => hd.weaken (by norm_num)

theorem Moves.framed {ts us : List Token} (h : Framed ts us) :
    ∀ {σ : Machine}, Moves P b ts σ σ' → Moves P b us σ σ' := by
  induction h with
  | nil => exact fun hm => hm
  | cons t _ ih => exact fun ⟨σ₁, ht, hm⟩ => ⟨σ₁, ht, ih hm⟩
  | frame size _ ih => exact fun hm => ⟨_, acts_frame size, ih hm⟩

/-- The loop of `decode` along some tokens. -/
theorem Moves.decodeFrom {ts : List Token} : ∀ {σ : Machine} {d : Decoder}, Moves P b ts σ σ' →
    At b σ 0 (ts.flatMap Token.bytes ++ rest) d →
    ∃ d', At b σ' 0 rest d' ∧ ∀ rounds, decodeFrom P b (ts.length + rounds) d = decodeFrom P b rounds d' := by
  induction ts with
  | nil =>
    intro σ d hm hd
    obtain rfl : σ = σ' := hm
    exact ⟨d, hd, fun rounds => by rw [List.length_nil, Nat.zero_add]⟩
  | cons t ts ih =>
    rintro σ d ⟨σ₁, ht, hm⟩ hd
    rw [List.flatMap_cons, List.append_assoc] at hd
    obtain ⟨d₁, hx, hd₁⟩ := ht _ d hd
    obtain ⟨d', hd', hrounds⟩ := ih hm hd₁
    refine ⟨d', hd', fun rounds => ?_⟩
    rw [List.length_cons, Nat.succ_add, SafePickle.decodeFrom, hx]
    exact hrounds rounds

/-- An opcode without operand. -/
theorem acts_plain {op : Op} (h : ∀ rest, Returns (At b σ 1 rest) (perform P b op) () (At b σ' 1 rest)) :
    Acts P b (op, []) σ σ' :=
  acts_of_perform fun rest => (h rest).mono (fun _ hd => hd) fun _ hd => hd.weaken (by norm_num)

/-- An opcode that ends with a push. -/
theorem returns_thenPush {α : Type} {x : Run Exn Decoder α} {a : α} {I : Decoder → Prop}
    (h : Returns I x a (At b σ 1 rest)) (f : α → Json) :
    Returns I (do push (f (← x))) () (At b (σ.pushes [f a]) 0 rest) :=
  (h.bind (returns_push (f a))).mono (fun _ hd => hd) fun _ hd => hd.weaken (by norm_num)

theorem acts_push {op : Op} {v : Json} (hop : perform P b op = push v) :
    Acts P b (op, []) σ (σ.pushes [v]) :=
  acts_plain fun _ => hop ▸ returns_push v

/-- The residue of a number in the range of a word, read as a signed word. -/
theorem bmod_toNat {i : ℤ} {k : ℕ} (hlo : -2 ^ k ≤ 2 * i) (hhi : 2 * i < 2 ^ k) :
    ((i % 2 ^ k).toNat : ℤ).bmod (2 ^ k) = i := by
  have hpos : (0 : ℤ) < 2 ^ k := by positivity
  rw [Int.toNat_of_nonneg (Int.emod_nonneg _ hpos.ne')]
  have hcast : ((2 ^ k : ℕ) : ℤ) = 2 ^ k := by push_cast; rfl
  rw [← hcast, Int.emod_bmod]
  exact Int.bmod_eq_of_le_mul_two (by omega) (by omega)

theorem toNat_emod_lt (i : ℤ) (k : ℕ) : (i % 2 ^ (8 * k)).toNat < 256 ^ k := by
  have hpos : (0 : ℤ) < 2 ^ (8 * k) := by positivity
  have hpow : (2 : ℕ) ^ (8 * k) = 256 ^ k := by
    rw [pow_mul]
    norm_num
  have hlt := Int.emod_lt_of_pos i hpos
  have hcast : ((256 ^ k : ℕ) : ℤ) = 2 ^ (8 * k) := by rw [← hpow]; push_cast; rfl
  have hnn := Int.emod_nonneg i hpos.ne'
  omega

/-- A number from the bytes of its two's complement. -/
theorem longValue_leBytes {i : ℤ} {k : ℕ} (hk : k ≤ 8) (hlo : -2 ^ (8 * k) ≤ 2 * i)
    (hhi : 2 * i < 2 ^ (8 * k)) : longValue (leBytes k (i % 2 ^ (8 * k)).toNat) = i := by
  rw [longValue_eq (by simpa using hk), length_leBytes, littleEndian_leBytes,
    Nat.mod_eq_of_lt (toNat_emod_lt i k)]
  exact bmod_toNat hlo hhi

theorem acts_number {i : ℤ} {t : Token} (h : NumberToken i t) : Acts P b t σ (σ.pushes [.integer i]) := by
  cases h with
  | @binInt1 n hn =>
    refine acts_of_perform fun rest => ?_
    refine (returns_readU8 (UInt8.ofNat n)).bind ?_
    rw [UInt8.toNat_ofNat_of_lt' hn]
    exact (returns_push _).mono (fun _ hd => hd) fun _ hd => hd.weaken (Nat.zero_le _)
  | @binInt2 n hn =>
    refine acts_of_perform fun rest => ?_
    have h : Returns (At b σ 1 (leBytes 2 n ++ rest)) _ _ _ :=
      returns_thenPush (returns_readBytes (length_leBytes 2 n)) fun bytes => .integer (littleEndian bytes)
    rwa [littleEndian_leBytes, Nat.mod_eq_of_lt (show n < 256 ^ 2 from hn)] at h
  | @binInt i hlo hhi =>
    refine acts_of_perform fun rest => ?_
    have hvalue : (BitVec.ofNat 32 (i % 2 ^ 32).toNat).toInt = i := by
      rw [BitVec.toInt_ofNat']
      exact bmod_toNat (by omega) (by omega)
    have h : Returns (At b σ 1 (leBytes 4 (i % 2 ^ 32).toNat ++ rest)) (readI32Le b) _ (At b σ 1 rest) :=
      (returns_number (toNat_emod_lt i 4)).map fun n => (BitVec.ofNat 32 n).toInt
    rw [hvalue] at h
    exact returns_thenPush h Json.integer
  | @long1 i k hk hlo hhi =>
    refine acts_of_perform fun rest => ?_
    refine (returns_readU8 (UInt8.ofNat k)).bind ?_
    rw [UInt8.toNat_ofNat_of_lt' (show k < 2 ^ 8 by omega)]
    have hpush : Returns (At b σ 2 (leBytes k (i % 2 ^ (8 * k)).toNat ++ rest)) _ () _ :=
      returns_pushLong "LONG1" (length_leBytes k _) hk
    rw [longValue_leBytes hk hlo hhi] at hpush
    exact hpush.mono (fun _ hd => hd) fun _ hd => hd.weaken (Nat.zero_le _)

theorem acts_float (bits : UInt64) :
    Acts P b (.binFloat, (leBytes 8 bits.toNat).reverse) σ (σ.pushes [.float bits]) := by
  refine acts_of_perform fun rest => ?_
  have hvalue : UInt64.ofNat (bigEndian (leBytes 8 bits.toNat).reverse) = bits := by
    have hlt : bits.toNat < 256 ^ 8 := bits.toNat_lt
    rw [bigEndian_reverse, littleEndian_leBytes, Nat.mod_eq_of_lt hlt, UInt64.ofNat_toNat]
  have hlen : (leBytes 8 bits.toNat).reverse.length = 8 := by rw [List.length_reverse, length_leBytes]
  have h : Returns (At b σ 1 ((leBytes 8 bits.toNat).reverse ++ rest)) _ _ _ :=
    returns_thenPush (returns_readBytes hlen) fun bytes => .float (UInt64.ofNat (bigEndian bytes))
  rwa [hvalue] at h

theorem acts_text {s : Bytes} {t : Token} (h : TextToken s t)
    (hP : s.length ≤ b.data.length → s.length ≤ P.maxString) : Acts P b t σ (σ.pushes [.string s]) := by
  have hpush : ∀ {k} {rest}, Returns (At b σ k (s ++ rest)) (pushText P b s.length) ()
      (At b (σ.pushes [.string s]) 0 rest) :=
    (returns_pushText s hP).mono (fun _ hd => hd) fun _ hd => hd.weaken (Nat.zero_le _)
  cases h with
  | short hs =>
    refine acts_of_perform fun rest => ?_
    refine (returns_readU8 (UInt8.ofNat s.length)).bind ?_
    rw [UInt8.toNat_ofNat_of_lt' hs]
    exact hpush
  | four hs =>
    refine acts_of_perform fun rest => ?_
    rw [List.append_assoc]
    exact (returns_number hs).bind hpush
  | eight hs =>
    refine acts_of_perform fun rest => ?_
    rw [List.append_assoc]
    exact (returns_number hs).bind hpush

/-! ### Containers -/

theorem returns_appendItems (name : String) (vs items : List Json) :
    Returns (At b (σ.pushes [.array vs]) k rest) (appendItems name items) ()
      (At b (σ.pushes [.array (vs ++ items)]) k rest) := by
  unfold appendItems
  exact (returns_top _ _).bind (returns_setTop _ _)

theorem acts_append (vs : List PyVal) (w : PyVal) :
    Acts P b (.append, []) ((σ.pushes [(PyVal.list vs).toJson]).pushes [w.toJson])
      (σ.pushes [(PyVal.list (vs ++ [w])).toJson]) := by
  rw [toJson_list, toJson_list, List.map_append]
  exact acts_plain fun _ => (returns_pop _).bind (returns_appendItems _ _ [w.toJson])

theorem acts_appends (vs ws : List PyVal) :
    Acts P b (.appends, []) ((σ.pushes [(PyVal.list vs).toJson]).marked.pushes (ws.map PyVal.toJson))
      (σ.pushes [(PyVal.list (vs ++ ws)).toJson]) := by
  rw [toJson_list, toJson_list, List.map_append]
  exact acts_plain fun _ => (returns_popMark _).bind (returns_appendItems _ _ _)

/-- Keys and values that alternate are stored in turn. -/
theorem setItems_eq : ∀ (es : List (Bytes × Json)) (entries : List (Bytes × Json)),
    setItems P (es.flatMap fun e => [.string e.1, e.2]) entries = .ok (SortedMap.insertAll es entries)
  | [], _ => rfl
  | (key, v) :: es, entries => setItems_eq es (SortedMap.insert key v entries)

theorem returns_storeItems (name : String) (entries es : List (Bytes × Json)) :
    Returns (At b (σ.pushes [.object entries]) k rest)
      (storeItems P name (es.flatMap fun e => [.string e.1, e.2])) ()
      (At b (σ.pushes [.object (SortedMap.insertAll es entries)]) k rest) := by
  have heven : (es.flatMap fun e => [Json.string e.1, e.2]).length % 2 = 0 := by
    induction es with
    | nil => rfl
    | cons e es ih =>
      rw [List.flatMap_cons, List.length_append]
      show (2 + _) % 2 = 0
      omega
  unfold storeItems
  refine (returns_top _ _).bind ?_
  dsimp only
  rw [if_pos heven, setItems_eq]
  exact (Returns.lift _).bind (returns_setTop _ _)

/-- More entries of a dict. -/
theorem toJson_dict_append (es fs : List (Bytes × PyVal)) : (PyVal.dict (es ++ fs)).toJson =
    .object (SortedMap.insertAll (fs.map fun e => (e.1, e.2.toJson))
      (SortedMap.insertAll (es.map fun e => (e.1, e.2.toJson)) [])) := by
  rw [toJson_dict, List.map_append, SortedMap.insertAll, SortedMap.insertAll, SortedMap.insertAll,
    List.foldl_append]

theorem acts_setItem (es : List (Bytes × PyVal)) (key : Bytes) (v : PyVal) :
    Acts P b (.setItem, []) ((σ.pushes [(PyVal.dict es).toJson]).pushes ([.str key, v].map PyVal.toJson))
      (σ.pushes [(PyVal.dict (es ++ [(key, v)])).toJson]) := by
  rw [toJson_dict_append, toJson_dict]
  have hsplit : ∀ τ : Machine, τ.pushes ([.str key, v].map PyVal.toJson) =
      (τ.pushes [.string key]).pushes [v.toJson] := fun τ => by simp [toJson_str]
  rw [hsplit]
  exact acts_plain fun _ => (returns_pop _).bind
    ((returns_pop _).bind (returns_storeItems "SETITEM" _ [(key, v.toJson)]))

theorem acts_setItems (es fs : List (Bytes × PyVal)) :
    Acts P b (.setItems, [])
      ((σ.pushes [(PyVal.dict es).toJson]).marked.pushes
        ((fs.flatMap fun e => [.str e.1, e.2]).map PyVal.toJson))
      (σ.pushes [(PyVal.dict (es ++ fs)).toJson]) := by
  have hitems : (fs.flatMap fun e => [.str e.1, e.2]).map PyVal.toJson =
      (fs.map fun e => (e.1, e.2.toJson)).flatMap fun e => [Json.string e.1, e.2] := by
    rw [List.map_flatMap, List.flatMap_map]
    simp only [List.map_cons, List.map_nil, toJson_str]
  rw [toJson_dict_append, toJson_dict, hitems]
  exact acts_plain fun _ => (returns_popMark _).bind (returns_storeItems "SETITEMS" _ _)

/-- A tuple of the values on the stack. -/
theorem acts_tuple1 (u : PyVal) : Acts P b (.tuple1, []) (σ.pushes ([u].map PyVal.toJson))
    (σ.pushes [(PyVal.tuple [u]).toJson]) := by
  rw [toJson_tuple]
  exact acts_plain fun _ => (returns_pop u.toJson).bind (returns_push _)

theorem acts_tuple2 (u v : PyVal) : Acts P b (.tuple2, []) (σ.pushes ([u, v].map PyVal.toJson))
    (σ.pushes [(PyVal.tuple [u, v]).toJson]) := by
  have hsplit : σ.pushes ([u, v].map PyVal.toJson) = (σ.pushes [u.toJson]).pushes [v.toJson] := by simp
  rw [toJson_tuple, hsplit]
  exact acts_plain fun _ => (returns_pop _).bind ((returns_pop _).bind (returns_push _))

theorem acts_tuple3 (u v w : PyVal) : Acts P b (.tuple3, []) (σ.pushes ([u, v, w].map PyVal.toJson))
    (σ.pushes [(PyVal.tuple [u, v, w]).toJson]) := by
  have hsplit : σ.pushes ([u, v, w].map PyVal.toJson) =
      ((σ.pushes [u.toJson]).pushes [v.toJson]).pushes [w.toJson] := by simp
  rw [toJson_tuple, hsplit]
  exact acts_plain fun _ =>
    (returns_pop _).bind ((returns_pop _).bind ((returns_pop _).bind (returns_push _)))

theorem acts_mark : Acts P b (.mark, []) σ σ.marked := acts_plain fun _ => returns_mark

theorem acts_tuple (vs : List PyVal) : Acts P b (.tuple, []) (σ.marked.pushes (vs.map PyVal.toJson))
    (σ.pushes [(PyVal.tuple vs).toJson]) := by
  rw [toJson_tuple]
  exact acts_plain fun _ => (returns_popMark _).bind (returns_push _)

/-! ### The memo -/

/-- The memo of the decoder has the values that the pickler remembers. -/
structure Remembers (m : Memo) (memo : List Json) : Prop where
  length : memo.length = m.length
  entry : ∀ (i : ℕ) (v : PyVal), m[i]? = some (some v) → memo[i]? = some v.toJson

theorem Remembers.put {m : Memo} {memo : List Json} (h : Remembers m memo) {x : Option PyVal} {v : Json}
    (hx : ∀ w, x = some w → v = w.toJson) : Remembers (m ++ [x]) (memo ++ [v]) where
  length := by simp [h.length]
  entry i w hw := by
    rw [List.getElem?_append] at hw ⊢
    rw [h.length]
    split at hw
    · rename_i hi
      rw [if_pos hi]
      exact h.entry i w hw
    · rename_i hi
      rw [if_neg hi]
      rcases hn : i - m.length with _ | n
      · rw [hn] at hw
        simp [hx w (Option.some.inj hw)]
      · rw [hn] at hw
        cases hw

theorem moves_puts {m m' : Memo} {x : Option PyVal} {ps : List Token} (h : Puts m x ps m') {v : Json}
    (hx : ∀ w, x = some w → v = w.toJson) (hm : Remembers m σ.memo)
    (hP : ∀ n ≤ b.data.length, P.grants n = true) :
    ∃ memo, Remembers m' memo ∧ Moves P b ps (σ.pushes [v]) ((σ.remember memo).pushes [v]) := by
  have hput : ∀ rest, Returns (At b (σ.pushes [v]) 1 rest) (memoPut P m.length) ()
      (At b ((σ.remember (σ.memo ++ [v])).pushes [v]) 0 rest) := fun rest =>
    hm.length ▸ returns_memoPut v hP
  cases h with
  | skip => exact ⟨σ.memo, hm, rfl⟩
  | binPut hlt =>
    refine ⟨_, hm.put hx, Acts.moves (acts_of_perform fun rest => ?_)⟩
    refine (returns_readU8 (UInt8.ofNat m.length)).bind ?_
    rw [UInt8.toNat_ofNat_of_lt' hlt]
    exact (hput rest).mono (fun _ hd => hd.weaken (by norm_num)) fun _ hd => hd
  | longBinPut hlt =>
    exact ⟨_, hm.put hx, Acts.moves (acts_of_perform fun rest => (returns_number hlt).bind (hput rest))⟩
  | memoize =>
    refine ⟨_, hm.put hx, Acts.moves (acts_of_perform fun rest d hd => ?_)⟩
    have hlen : d.memo.length = m.length := (congrArg List.length hd.memo).trans hm.length
    obtain ⟨d', hexec, hd'⟩ := hput rest d hd
    refine ⟨d', ?_, hd'⟩
    show exec (do memoPut P (← get).memo.length) d = _
    rw [exec_get_bind]
    rw [hlen]
    exact hexec

/-- An opcode that leaves a value, which may be stored after it. -/
theorem moves_stored {m m' : Memo} {t : Token} {v : PyVal} {ps : List Token}
    (ht : Acts P b t σ' (σ.pushes [v.toJson])) (hp : Puts m (some v) ps m') (hm : Remembers m σ.memo)
    (hP : ∀ n ≤ b.data.length, P.grants n = true) :
    ∃ memo, Remembers m' memo ∧ Moves P b (t :: ps) σ' ((σ.remember memo).pushes [v.toJson]) := by
  obtain ⟨memo, hm', h⟩ := moves_puts hp (v := v.toJson) (fun w hw => by rw [Option.some.inj hw]) hm hP
  exact ⟨memo, hm', .cons ht h⟩

/-! ### Emissions -/

/-- **What is emitted for some values** leaves them on the stack, in turn. -/
theorem emits_moves (hstring : b.data.length ≤ P.maxString) (hP : ∀ n ≤ b.data.length, P.grants n = true)
    {m m' : Memo} {ts : List Token} {vs : List PyVal} (h : Emits NumberToken m ts vs m') :
    ∀ {σ : Machine}, Remembers m σ.memo → ∃ memo, Remembers m' memo ∧
      Moves P b ts σ ((σ.remember memo).pushes (vs.map PyVal.toJson)) := by
  induction h with
  | nil =>
    intro σ hm
    exact ⟨σ.memo, hm, by simp [Moves]⟩
  | append _ _ ih₁ ih₂ =>
    intro σ hm
    obtain ⟨memo₁, hm₁, h₁⟩ := ih₁ hm
    obtain ⟨memo₂, hm₂, h₂⟩ := ih₂ (σ := (σ.remember memo₁).pushes _) hm₁
    refine ⟨memo₂, hm₂, h₁.append ?_⟩
    simpa using h₂
  | none => exact fun {σ} hm => ⟨σ.memo, hm, (acts_push rfl).moves⟩
  | newTrue => exact fun {σ} hm => ⟨σ.memo, hm, (acts_push rfl).moves⟩
  | newFalse => exact fun {σ} hm => ⟨σ.memo, hm, (acts_push rfl).moves⟩
  | int h => exact fun {σ} hm => ⟨σ.memo, hm, (acts_number h).moves⟩
  | float bits => exact fun {σ} hm => ⟨σ.memo, hm, (acts_float bits).moves⟩
  | @str _ _ s _ _ ht hp =>
    intro σ hm
    obtain ⟨memo, hm', h⟩ := moves_puts hp (v := .string s)
      (fun w hw => by rw [← Option.some.inj hw, toJson_str]) hm hP
    refine ⟨memo, hm', .cons (acts_text ht hstring.trans') ?_⟩
    simpa [toJson_str] using h
  | binGet hlt hv =>
    intro σ hm
    refine ⟨σ.memo, hm, Acts.moves (acts_of_perform fun rest => ?_)⟩
    refine (returns_readU8 _).bind ?_
    rw [UInt8.toNat_ofNat_of_lt' hlt]
    exact (returns_memoGet (hm.entry _ _ hv)).mono (fun _ hd => hd) fun _ hd => hd.weaken (Nat.zero_le _)
  | longBinGet hlt hv =>
    intro σ hm
    refine ⟨σ.memo, hm, Acts.moves (acts_of_perform fun rest => (returns_number hlt).bind ?_)⟩
    exact (returns_memoGet (hm.entry _ _ hv)).mono (fun _ hd => hd) fun _ hd => hd.weaken (Nat.zero_le _)
  | emptyList hp =>
    intro σ hm
    obtain ⟨memo, hm', h⟩ := moves_puts hp (v := .array []) nofun hm hP
    refine ⟨memo, hm', .cons (acts_push rfl) ?_⟩
    simpa [toJson_list] using h
  | @appendItem _ _ _ _ _ vs w _ _ ih₁ ih₂ =>
    intro σ hm
    obtain ⟨memo₁, hm₁, h₁⟩ := ih₁ hm
    obtain ⟨memo₂, hm₂, h₂⟩ := ih₂ (σ := (σ.remember memo₁).pushes _) hm₁
    exact ⟨memo₂, hm₂, (h₁.append h₂).append (acts_append (σ := σ.remember memo₂) vs w).moves⟩
  | @appendItems _ _ _ _ _ vs ws _ _ ih₁ ih₂ =>
    intro σ hm
    obtain ⟨memo₁, hm₁, h₁⟩ := ih₁ hm
    obtain ⟨memo₂, hm₂, h₂⟩ := ih₂ (σ := ((σ.remember memo₁).pushes _).marked) hm₁
    exact ⟨memo₂, hm₂,
      (h₁.append (.cons acts_mark h₂)).append (acts_appends (σ := σ.remember memo₂) vs ws).moves⟩
  | emptyDict hp =>
    intro σ hm
    obtain ⟨memo, hm', h⟩ := moves_puts hp (v := .object []) nofun hm hP
    refine ⟨memo, hm', .cons (acts_push rfl) ?_⟩
    simpa [toJson_dict, SortedMap.insertAll] using h
  | @setItem _ _ _ _ _ es key v _ _ ih₁ ih₂ =>
    intro σ hm
    obtain ⟨memo₁, hm₁, h₁⟩ := ih₁ hm
    obtain ⟨memo₂, hm₂, h₂⟩ := ih₂ (σ := (σ.remember memo₁).pushes _) hm₁
    exact ⟨memo₂, hm₂, (h₁.append h₂).append (acts_setItem (σ := σ.remember memo₂) es key v).moves⟩
  | @setItems _ _ _ _ _ es fs _ _ ih₁ ih₂ =>
    intro σ hm
    obtain ⟨memo₁, hm₁, h₁⟩ := ih₁ hm
    obtain ⟨memo₂, hm₂, h₂⟩ := ih₂ (σ := ((σ.remember memo₁).pushes _).marked) hm₁
    exact ⟨memo₂, hm₂,
      (h₁.append (.cons acts_mark h₂)).append (acts_setItems (σ := σ.remember memo₂) es fs).moves⟩
  | emptyTuple => exact fun {σ} hm => ⟨σ.memo, hm, (acts_push rfl).moves⟩
  | tuple1 _ hp ih =>
    intro σ hm
    obtain ⟨memo₁, hm₁, h₁⟩ := ih hm
    obtain ⟨memo₂, hm₂, h₂⟩ := moves_stored (σ := σ.remember memo₁) (acts_tuple1 _) hp hm₁ hP
    exact ⟨memo₂, hm₂, h₁.append h₂⟩
  | tuple2 _ hp ih =>
    intro σ hm
    obtain ⟨memo₁, hm₁, h₁⟩ := ih hm
    obtain ⟨memo₂, hm₂, h₂⟩ := moves_stored (σ := σ.remember memo₁) (acts_tuple2 _ _) hp hm₁ hP
    exact ⟨memo₂, hm₂, h₁.append h₂⟩
  | tuple3 _ hp ih =>
    intro σ hm
    obtain ⟨memo₁, hm₁, h₁⟩ := ih hm
    obtain ⟨memo₂, hm₂, h₂⟩ := moves_stored (σ := σ.remember memo₁) (acts_tuple3 _ _ _) hp hm₁ hP
    exact ⟨memo₂, hm₂, h₁.append h₂⟩
  | tuple _ hp ih =>
    intro σ hm
    obtain ⟨memo₁, hm₁, h₁⟩ := ih (σ := σ.marked) hm
    obtain ⟨memo₂, hm₂, h₂⟩ := moves_stored (σ := σ.remember memo₁) (acts_tuple _) hp hm₁ hP
    exact ⟨memo₂, hm₂, (Moves.cons acts_mark h₁).append h₂⟩

/-! ### Streams -/

theorem acts_proto (version : UInt8) : Acts P b (.proto, [version]) σ σ := by
  refine acts_of_perform fun rest => ?_
  exact ((returns_readU8 version).bind (.pure ())).mono (fun _ hd => hd) fun _ hd => hd.weaken (Nat.zero_le _)

/-- STOP returns the value on top. -/
theorem returns_stop (v : Json) :
    Returns (At b (σ.pushes [v]) 0 (0x2e :: rest)) (step P b) (some v) (At b σ 1 rest) := by
  unfold step
  exact (returns_readU8 0x2e).bind ((returns_pop v).map some)

/-- The decoder at the start of a stream. -/
theorem at_new {us : List Token} {version : UInt8}
    (hdata : b.data = Token.bytes (.proto, [version]) ++ us.flatMap Token.bytes ++ [0x2e]) :
    At b ⟨[], [], []⟩ 0 (List.flatMap Token.bytes ((.proto, [version]) :: us) ++ [0x2e]) .new :=
  ⟨rfl, rfl, rfl, Nat.zero_le _, by rw [hdata, List.flatMap_cons]; exact Nat.zero_add _,
    by rw [hdata, List.flatMap_cons]; rfl⟩

/-- The loop of `decode`, for any number of rounds that ends it. -/
theorem decode_of_run {rounds : ℕ} {r : Except Exn Json} {d : Decoder}
    (h : SafePickle.decodeFrom P b rounds .new = some (r, d)) : decode P b = r := by
  have heq := (decodeFrom_mono (Nat.le_max_left _ (b.data.length + 1)) h).symm.trans
    (decodeFrom_mono (Nat.le_max_right _ _) (decodeFrom_eq P b))
  unfold decode
  rw [← Option.some.inj heq]

/-- A stream whose opcodes leave one value on the stack. -/
theorem decode_of_moves {us : List Token} {version : UInt8} {v : Json}
    (hdata : b.data = Token.bytes (.proto, [version]) ++ us.flatMap Token.bytes ++ [0x2e])
    (hmoves : Moves P b us ⟨[], [], []⟩ (σ.pushes [v])) : decode P b = .ok v := by
  have hall := Moves.cons (acts_proto version) hmoves
  obtain ⟨d, hd, hrounds⟩ := hall.decodeFrom (at_new hdata)
  obtain ⟨d', hx, -⟩ := returns_stop (P := P) v d hd
  have hlast : SafePickle.decodeFrom P b 1 d = some (.ok v, d') := by rw [SafePickle.decodeFrom, hx]
  exact decode_of_run ((hrounds 1).trans hlast)

/-- **`decode` returns the value** for which a pickler emits the stream, where strings as
long as the stream and a memo with as many entries are granted. -/
theorem decode_stream {v : PyVal} (hstring : b.data.length ≤ P.maxString)
    (hmemo : ∀ n ≤ b.data.length, P.grants n = true) (h : Pickled v b.data) : decode P b = .ok v.toJson := by
  generalize hdata : b.data = data at h
  cases h with
  | @mk version m ts us _ _ hemits hframed =>
    have hempty : Remembers [] (Machine.mk [] [] []).memo := ⟨rfl, nofun⟩
    obtain ⟨memo, -, hmoves⟩ := emits_moves hstring hmemo hemits hempty
    exact decode_of_moves hdata (hmoves.framed hframed)

end Decoding

/-- `{"a": [1, ("a",)]}` in protocol 4. -/
def sample : PyVal := .dict [(ascii "a", .list [.int 1, .tuple [.str (ascii "a")]])]

def sampleStream : Buffer :=
  ⟨[0x80, 4, 0x95, 17, 0, 0, 0, 0, 0, 0, 0, 0x7d, 0x94, 0x8c, 1, 97, 0x94, 0x5d, 0x94, 0x28, 0x4b, 1, 0x68, 1,
    0x85, 0x94, 0x65, 0x73, 0x2e], by decide⟩

theorem pickled_sample : Pickled sample sampleStream.data := by
  have hdict : Emits NumberToken [] [(.emptyDict, []), (.memoize, [])] [.dict []] [none] := .emptyDict .memoize
  have hkey : Emits NumberToken [none] [(.shortBinUnicode, [1, 97]), (.memoize, [])] [.str (ascii "a")]
      [none, some (.str (ascii "a"))] := .str (.short (by decide)) .memoize
  have hlist : Emits NumberToken [none, some (.str (ascii "a"))] [(.emptyList, []), (.memoize, [])] [.list []]
      [none, some (.str (ascii "a")), none] := .emptyList .memoize
  have hget : Emits NumberToken [none, some (.str (ascii "a")), none] [(.binGet, [1])] [.str (ascii "a")]
      [none, some (.str (ascii "a")), none] := .binGet (i := 1) (by decide) rfl
  have hitems := Emits.append (.int (.binInt1 (n := 1) (by decide))) (.tuple1 hget .memoize)
  have hfilled := Emits.appendItems hlist hitems
  have hall := Emits.setItem hdict (hkey.append hfilled)
  exact @PickledWith.mk NumberToken _ 4 _ _ _ (by decide) (by decide) hall (.frame 17 (Framed.refl _))

theorem decode_stream_sample : decode plain sampleStream =
    .ok (.object [(ascii "a", .array [.integer 1, .array [.string (ascii "a")]])]) :=
  decode_stream (by decide) (fun _ _ => rfl) pickled_sample

end Qsycl.SafePickle
