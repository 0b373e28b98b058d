/-
# The pickle reader

`safe_pickle::decode` (`safe_pickle.cpp`) reads a pickle with a stack of
values, a stack of marks and a memo table; each opcode is one `step`. The
reader's arithmetic is that of `size_t`.

What decode depends on besides its source (how long a string and how large a
memo table the library grants, and how it prints a value) is a `Platform`. A
`Decoder` also keeps a trace of its reads, of the texts among them and of its
accesses to the memo.

Every opcode is made of a few operations on the decoder; what these keep, each
step keeps (`Keeps.step`). In particular every step moves forward, so `decode`
returns or throws on every input (`decodeFrom_isSome`).
-/
import Qsycl.Json
import Qsycl.Lib.Runs

namespace Qsycl.SafePickle

open Runs

/-! ### The input and the library -/

/-- A `std::vector` of bytes: its size is below `PTRDIFF_MAX`. -/
structure Buffer where
  data : List UInt8
  small : data.length < 2 ^ 63

/-- `max_size()` of a string, which is below `PTRDIFF_MAX`; the sizes to which the
memo table can be enlarged; and `json::dump`, which throws for a string that is not
valid UTF-8. -/
structure Platform where
  maxString : ℕ
  maxString_lt : maxString < 2 ^ 63
  grants : ℕ → Bool
  dump : Json → Except Exn Bytes
  dump_utf8 : ∀ v text, dump v = .ok text → IsUtf8 text

/-- What the decoder does to the input and to the memo: it asks for `n` bytes at
`pos`; it has read a text; it stores a value in a table of `size` entries; it
loads an entry. -/
inductive Event
  | read (pos n : ℕ)
  | text (payload : Bytes)
  | stored (index size : ℕ) (value : Json)
  | loaded (index : ℕ) (value : Option Json)

/-- The variables of `decode`: the position of the reader, the stack of values and
that of marks (the last is the top), the memo; and the trace. -/
structure Decoder where
  pos : ℕ
  stack : List Json
  marks : List ℕ
  memo : List Json
  trace : List Event

def Decoder.new : Decoder := ⟨0, [], [], [], []⟩

def error (what : String) : Exn := ⟨.runtimeError, "safe_pickle: " ++ what⟩

/-! ### Numbers -/

/-- `b[0] | b[1] << 8 | …`. -/
def littleEndian (bytes : List UInt8) : ℕ := bytes.foldr (fun b v => v <<< 8 ||| b.toNat) 0

def bigEndian (bytes : List UInt8) : ℕ := bytes.foldl (fun v b => v <<< 8 ||| b.toNat) 0

/-- Sets the bytes from `n` on. -/
def signExtend (n : ℕ) (v : BitVec 64) : BitVec 64 :=
  (List.range' n (8 - n)).foldl (fun v i => v ||| 0xFF#64 <<< (8 * i)) v

/-- The number of the opcodes LONG1 and LONG4. -/
def longValue (buf : List UInt8) : ℤ :=
  let v := BitVec.ofNat 64 (littleEndian buf)
  let negative := buf.getLast?.any fun b => b &&& 0x80 != 0
  if buf.length < 8 ∧ negative = true then (signExtend buf.length v).toInt else v.toInt

/-! ### The reader -/

section Reader

variable (P : Platform) (b : Buffer)

def note (e : Event) : Run Exn Decoder Unit := modify fun d => { d with trace := d.trace ++ [e] }

/-- The bytes at the position; past the end the access is undefined. -/
def access (n : ℕ) : Run Exn Decoder (List UInt8) := do
  let d ← get
  if b.data.length < d.pos + n then throw ⟨.undefined, "read past the end of the buffer"⟩
  else do
    set { d with pos := d.pos + n }
    return (b.data.drop d.pos).take n

/-- The check before a read, in 64 bits. -/
def passes (pos n : ℕ) : Bool := (pos + n) % 2 ^ 64 ≤ b.data.length

def readU8 : Run Exn Decoder UInt8 := do
  let d ← get
  note (.read d.pos 1)
  match b.data[d.pos]? with
  | some byte =>
    modify fun d => { d with pos := d.pos + 1 }
    return byte
  | none => throw (error "truncated input (expected 1 byte)")

def readBytes (n : ℕ) : Run Exn Decoder (List UInt8) := do
  let d ← get
  note (.read d.pos n)
  if passes b d.pos n then access b n
  else throw (error ("truncated input (expected " ++ toString n ++ " bytes)"))

def readRawString (n : ℕ) : Run Exn Decoder Bytes := do
  let d ← get
  note (.read d.pos n)
  if passes b d.pos n then
    -- the constructor of a string
    if P.maxString < n then throw ⟨.lengthError, "basic_string::_M_create"⟩
    else do
      let s ← access b n
      note (.text s)
      return s
  else throw (error ("truncated input (expected " ++ toString n ++ "-byte string)"))

def readU32Le : Run Exn Decoder ℕ := littleEndian <$> readBytes b 4

def readU64Le : Run Exn Decoder ℕ := littleEndian <$> readBytes b 8

def readI32Le : Run Exn Decoder ℤ := (fun n => (BitVec.ofNat 32 n).toInt) <$> readU32Le b

/-- The bytes up to a newline; each of the remaining bytes is read at most once. -/
def readAsciiLine : ℕ → Run Exn Decoder Bytes
  | 0 => do
    let _ ← readU8 b -- the input ends here
    return []
  | left + 1 => do
    let c ← readU8 b
    if c = 10 then return [] else do
      let digits ← readAsciiLine left
      return c :: digits

/-! ### The stacks and the memo -/

def push (v : Json) : Run Exn Decoder Unit := modify fun d => { d with stack := d.stack ++ [v] }

/-- `stack.back()`. -/
def top (what : String) : Run Exn Decoder Json := do
  match (← get).stack.getLast? with
  | some v => return v
  | none => throw (error what)

def pop : Run Exn Decoder Json := do
  let v ← top "stack underflow"
  modify fun d => { d with stack := d.stack.dropLast }
  return v

/-- Replaces `stack.back()`. -/
def setTop (v : Json) : Run Exn Decoder Unit :=
  modify fun d => { d with stack := d.stack.dropLast ++ [v] }

def mark : Run Exn Decoder Unit := modify fun d => { d with marks := d.marks ++ [d.stack.length] }

def popMark : Run Exn Decoder (List Json) := do
  let d ← get
  match d.marks.getLast? with
  | none => throw (error "MARK stack underflow")
  | some m =>
    set { d with marks := d.marks.dropLast }
    if d.stack.length < m then throw (error "corrupt mark")
    else do
      set { d with marks := d.marks.dropLast, stack := d.stack.take m }
      return d.stack.drop m

/-- `memo.resize(n)`. -/
def resize (memo : List Json) (n : ℕ) : Except Exn (List Json) :=
  if n ≤ memo.length then return memo.take n
  else if P.grants n then return memo ++ List.replicate (n - memo.length) .null
  else throw ⟨.lengthError, "vector::_M_default_append"⟩

/-- The table in which entry `index` is stored. -/
def enlarged (memo : List Json) (index : ℕ) : Except Exn (List Json) :=
  if memo.length ≤ index then resize P memo ((index + 1) % 2 ^ 64) else return memo

def memoPut (index : ℕ) : Run Exn Decoder Unit := do
  let v ← top "PUT with empty stack"
  let d ← get
  let memo ← enlarged P d.memo index
  note (.stored index memo.length v)
  if index < memo.length then modify fun d => { d with memo := memo.set index v }
  else throw ⟨.undefined, "write past the end of the memo"⟩

def memoGet (index : ℕ) : Run Exn Decoder Unit := do
  let d ← get
  note (.loaded index d.memo[index]?)
  match d.memo[index]? with
  | some v => push v
  | none => throw (error ("GET references unknown memo id " ++ toString index))

/-! ### The opcodes -/

/-- Pushes the text of `n` bytes. -/
def pushText (n : ℕ) : Run Exn Decoder Unit := do
  let s ← readRawString P b n
  push (.string s)

/-- LONG1 and LONG4. -/
def pushLong (name : String) (n : ℕ) : Run Exn Decoder Unit :=
  if n = 0 then push (.integer 0)
  else if 8 < n then throw (error (name ++ " integer wider than 64 bits is not supported"))
  else do
    let buf ← readBytes b n
    push (.integer (longValue buf))

def dictKey : Json → Except Exn Bytes
  | .string s => return s
  | k => P.dump k

/-- Stores keys and values that alternate. -/
def setItems : List Json → List (Bytes × Json) → Except Exn (List (Bytes × Json))
  | key :: value :: items, entries => do
    let k ← dictKey P key
    setItems items (SortedMap.insert k value entries)
  | _, entries => return entries

/-- Stores items in the dict on the stack. -/
def storeItems (name : String) (items : List Json) : Run Exn Decoder Unit := do
  match ← top (name ++ " without a dict on the stack") with
  | .object entries =>
    if items.length % 2 = 0 then do
      let entries ← setItems P items entries
      setTop (.object entries)
    else throw (error (name ++ " with an odd number of items"))
  | _ => throw (error (name ++ " without a dict on the stack"))

/-- Appends items to the list on the stack. -/
def appendItems (name : String) (items : List Json) : Run Exn Decoder Unit := do
  match ← top (name ++ " without a list on the stack") with
  | .array vs => setTop (.array (vs ++ items))
  | _ => throw (error (name ++ " without a list on the stack"))

/-- The index of PUT and GET. -/
def readIndex : Run Exn Decoder ℕ := do
  let digits ← readAsciiLine b (b.data.length - (← get).pos)
  stoull 10 digits

/-- The opcodes that are interpreted, apart from STOP. -/
inductive Op
  | proto | frame | mark | pop | popMark | dup
  | none | newTrue | newFalse
  | binInt | binInt1 | binInt2 | long1 | long4 | binFloat
  | binUnicode | shortBinUnicode | binUnicode8 | binString | shortBinString
  | binBytes | shortBinBytes | binBytes8
  | emptyDict | emptyList | emptyTuple | tuple1 | tuple2 | tuple3 | tuple
  | setItem | setItems | append | appends
  | put | binPut | longBinPut | memoize | get | binGet | longBinGet
  deriving DecidableEq

def Op.code : Op → UInt8
  | proto => 0x80 | frame => 0x95 | mark => 0x28 | pop => 0x30 | popMark => 0x31 | dup => 0x32
  | none => 0x4e | newTrue => 0x88 | newFalse => 0x89
  | binInt => 0x4a | binInt1 => 0x4b | binInt2 => 0x4d | long1 => 0x8a | long4 => 0x8b | binFloat => 0x47
  | binUnicode => 0x58 | shortBinUnicode => 0x8c | binUnicode8 => 0x8d
  | binString => 0x54 | shortBinString => 0x55
  | binBytes => 0x42 | shortBinBytes => 0x43 | binBytes8 => 0x8e
  | emptyDict => 0x7d | emptyList => 0x5d | emptyTuple => 0x29
  | tuple1 => 0x85 | tuple2 => 0x86 | tuple3 => 0x87 | tuple => 0x74
  | setItem => 0x73 | setItems => 0x75 | append => 0x61 | appends => 0x65
  | put => 0x70 | binPut => 0x71 | longBinPut => 0x72 | memoize => 0x94
  | get => 0x67 | binGet => 0x68 | longBinGet => 0x6a

def Op.all : List Op :=
  [.proto, .frame, .mark, .pop, .popMark, .dup, .none, .newTrue, .newFalse, .binInt, .binInt1, .binInt2,
    .long1, .long4, .binFloat, .binUnicode, .shortBinUnicode, .binUnicode8, .binString, .shortBinString,
    .binBytes, .shortBinBytes, .binBytes8, .emptyDict, .emptyList, .emptyTuple, .tuple1, .tuple2, .tuple3,
    .tuple, .setItem, .setItems, .append, .appends, .put, .binPut, .longBinPut, .memoize, .get, .binGet,
    .longBinGet]

def Op.ofByte (byte : UInt8) : Option Op := Op.all.find? (·.code = byte)

/-- REDUCE, GLOBAL, STACK_GLOBAL, BUILD, INST, OBJ, NEWOBJ, NEWOBJ_EX, EXT1, EXT2, EXT4,
PERSID and BINPERSID. -/
def refused : List UInt8 :=
  [0x52, 0x63, 0x93, 0x62, 0x69, 0x6f, 0x81, 0x92, 0x82, 0x83, 0x84, 0x50, 0x51]

def hexByte (byte : UInt8) : String :=
  let digit := fun n : ℕ => (Nat.digitChar n).toString
  digit (byte.toNat / 16) ++ digit (byte.toNat % 16)

def perform : Op → Run Exn Decoder Unit
  | .proto => do let _ ← readU8 b
  | .frame => do let _ ← readU64Le b
  | .mark => mark
  | .pop => do let _ ← pop
  | .popMark => do let _ ← popMark
  | .dup => do push (← top "DUP with empty stack")
  | .none => push .null
  | .newTrue => push (.bool true)
  | .newFalse => push (.bool false)
  | .binInt => do push (.integer (← readI32Le b))
  | .binInt1 => do push (.integer (← readU8 b).toNat)
  | .binInt2 => do push (.integer (littleEndian (← readBytes b 2)))
  | .long1 => do pushLong b "LONG1" (← readU8 b).toNat
  | .long4 => do pushLong b "LONG4" (← readU32Le b)
  | .binFloat => do push (.float (UInt64.ofNat (bigEndian (← readBytes b 8))))
  | .binUnicode | .binString | .binBytes => do pushText P b (← readU32Le b)
  | .shortBinUnicode | .shortBinString | .shortBinBytes => do pushText P b (← readU8 b).toNat
  | .binUnicode8 | .binBytes8 => do pushText P b (← readU64Le b)
  | .emptyDict => push (.object [])
  | .emptyList | .emptyTuple => push (.array [])
  | .tuple1 => do
    let x ← pop
    push (.array [x])
  | .tuple2 => do
    let y ← pop
    let x ← pop
    push (.array [x, y])
  | .tuple3 => do
    let z ← pop
    let y ← pop
    let x ← pop
    push (.array [x, y, z])
  | .tuple => do push (.array (← popMark))
  | .setItem => do
    let value ← pop
    let key ← pop
    storeItems P "SETITEM" [key, value]
  | .setItems => do storeItems P "SETITEMS" (← popMark)
  | .append => do appendItems "APPEND" [← pop]
  | .appends => do appendItems "APPENDS" (← popMark)
  | .put => do memoPut P (← readIndex b)
  | .binPut => do memoPut P (← readU8 b).toNat
  | .longBinPut => do memoPut P (← readU32Le b)
  | .memoize => do memoPut P (← get).memo.length
  | .get => do memoGet (← readIndex b)
  | .binGet => do memoGet (← readU8 b).toNat
  | .longBinGet => do memoGet (← readU32Le b)

/-- One round of the loop of `decode`: the value, if the opcode is STOP. -/
def step : Run Exn Decoder (Option Json) := do
  let byte ← readU8 b
  if byte = 0x2e then some <$> pop
  else if refused.contains byte then
    throw (error ("refusing unsafe opcode 0x" ++ hexByte byte ++
      " (object construction / code execution opcodes are never interpreted)"))
  else match Op.ofByte byte with
    | some op => do
      perform P b op
      return none
    | none => throw (error ("unsupported opcode 0x" ++ hexByte byte))

/-- The loop of `decode`, for a number of rounds. -/
def decodeFrom : ℕ → Decoder → Option (Except Exn Json × Decoder)
  | 0, _ => none
  | rounds + 1, d =>
    match exec (step P b) d with
    | (.ok none, d') => decodeFrom rounds d'
    | (.ok (some v), d') => some (.ok v, d')
    | (.error e, d') => some (.error e, d')

end Reader

/-! ### Numbers, again -/

theorem littleEndian_cons (b : UInt8) (bytes : List UInt8) :
    littleEndian (b :: bytes) = b.toNat + 256 * littleEndian bytes := by
  show littleEndian bytes <<< 8 ||| b.toNat = _
  rw [← Nat.shiftLeft_add_eq_or_of_lt b.toNat_lt, Nat.shiftLeft_eq]
  omega

theorem littleEndian_lt : ∀ bytes : List UInt8, littleEndian bytes < 2 ^ (8 * bytes.length)
  | [] => by simp [littleEndian]
  | b :: bytes => by
    have ih := littleEndian_lt bytes
    have hb := b.toNat_lt
    rw [littleEndian_cons, List.length_cons, Nat.mul_succ, pow_add]
    omega

/-! ### What every opcode keeps -/

section Keeps

variable (P : Platform) (b : Buffer)

/-- What is thrown: errors of the decoder, of its vectors and strings, of `std::stoull` and of
`json::dump`. -/
inductive Raised : Exn → Prop
  | own (what : String) : Raised (error what)
  | undefined {what : String} : what ∈ ["read past the end of the buffer", "write past the end of the memo"] →
      Raised ⟨.undefined, what⟩
  | length {what : String} : what ∈ ["basic_string::_M_create", "vector::_M_default_append"] →
      Raised ⟨.lengthError, what⟩
  | stoull {base : ℕ} {s : Bytes} {e : Exn} : stoull base s = .error e → Raised e
  | dump {v : Json} {e : Exn} : P.dump v = .error e → Raised e

/-- What the operations on the decoder keep: `I`, or `J` where a text was pushed
last; the strings on the stack satisfy `T`, and `E` holds after an exception. -/
structure Keeps (I J : Decoder → Prop) (T : Bytes → Prop) (E : Exn → Decoder → Prop) : Prop where
  fails : ∀ e d, Raised P e → I d → E e d
  weaken : ∀ d, I d → J d
  dumps : ∀ v text, P.dump v = .ok text → T text
  onU8 : Triple I (readU8 b) (fun _ => I) E
  onBytes : ∀ n ≤ 8, Triple I (readBytes b n) (fun _ => I) E
  onText : ∀ n < 2 ^ 64, Triple I (pushText P b n) (fun _ => J) E
  onPush : ∀ v : Json, v.Strings T → Triple I (push v) (fun _ => I) E
  onTop : ∀ what, Triple I (top what) (fun v d => v.Strings T ∧ I d) E
  onPop : Triple I pop (fun v d => v.Strings T ∧ I d) E
  onSetTop : ∀ v : Json, v.Strings T → Triple I (setTop v) (fun _ => I) E
  onMark : Triple I mark (fun _ => I) E
  onPopMark : Triple I popMark (fun vs d => (∀ v ∈ vs, v.Strings T) ∧ I d) E
  onPut : ∀ index < 2 ^ 64, Triple I (memoPut P index) (fun _ => I) E
  onMemoize : Triple I (do memoPut P (← get).memo.length) (fun _ => I) E
  onGet : ∀ index, Triple I (memoGet index) (fun _ => I) E

variable {P b} {I J : Decoder → Prop} {T : Bytes → Prop} {E : Exn → Decoder → Prop} {d d' : Decoder}

theorem raised_setItems : ∀ {items : List Json} {entries : List (Bytes × Json)} {e : Exn},
    setItems P items entries = .error e → Raised P e
  | [], _, _, h => nomatch h
  | [_], _, _, h => nomatch h
  | key :: value :: items, entries, e, h => by
    cases hk : dictKey P key with
    | ok k =>
      rw [setItems, hk] at h
      exact raised_setItems h
    | error e' =>
      rw [setItems, hk] at h
      obtain rfl : e' = e := Except.error.inj h
      cases key with
      | string s => cases hk
      | _ => exact .dump hk

theorem length_readBytes {n : ℕ} {bytes : List UInt8} (h : exec (readBytes b n) d = (.ok bytes, d')) :
    bytes.length = n := by
  unfold readBytes at h
  rw [exec_get_bind] at h
  rw [exec_bind] at h
  unfold note access at h
  rw [exec_modify] at h
  dsimp only at h
  split at h
  · rw [exec_get_bind] at h
    split at h
    · cases h
    · rename_i hlen
      rw [exec_set_bind] at h
      cases h
      rw [List.length_take, List.length_drop]
      omega
  · cases h

namespace Keeps

variable (h : Keeps P b I J T E)
include h

theorem number {n : ℕ} (hn : n ≤ 8) :
    Triple I (littleEndian <$> readBytes b n) (fun k d => k < 2 ^ (8 * n) ∧ I d) E := by
  intro d hd
  have h1 := h.onBytes n hn d hd
  rw [exec_map]
  rcases hr : exec (readBytes b n) d with ⟨e | bytes, d'⟩
  · rw [hr] at h1
    exact h1
  · rw [hr] at h1
    refine ⟨?_, h1⟩
    have hlt := littleEndian_lt bytes
    rwa [length_readBytes hr] at hlt

theorem u32 : Triple I (readU32Le b) (fun k d => k < 2 ^ 64 ∧ I d) E :=
  (h.number (n := 4) (by norm_num)).mono (fun _ hd => hd)
    (fun _ _ hd => ⟨hd.1.trans (by norm_num), hd.2⟩) fun _ _ hd => hd

theorem u64 : Triple I (readU64Le b) (fun k d => k < 2 ^ 64 ∧ I d) E := h.number (n := 8) le_rfl

/-- An error of the decoder. -/
theorem throws {α : Type} {Q : α → Decoder → Prop} (what : String) :
    Triple I (throw (error what) : Run Exn Decoder α) Q E :=
  .throw _ fun d => h.fails _ d (.own what)

theorem asciiLine : ∀ left, Triple I (readAsciiLine b left) (fun _ => I) E
  | 0 => h.onU8.bind fun _ => .pure _ fun _ hd => hd
  | left + 1 => by
    unfold readAsciiLine
    refine h.onU8.bind fun c => ?_
    split
    · exact .pure _ fun _ hd => hd
    · exact (asciiLine left).bind fun digits => .pure _ fun _ hd => hd

theorem index : Triple I (readIndex b) (fun n d => n < 2 ^ 64 ∧ I d) E := by
  unfold readIndex
  refine Triple.bind (R := fun _ => I) (fun d hd => hd) fun d => ?_
  refine (h.asciiLine _).bind fun digits => ?_
  exact .lift (fun n hn d hd => ⟨stoull_lt hn, hd⟩) fun e he d hd => h.fails e d (.stoull he) hd

theorem dictKey {key : Json} (hk : key.Strings T) {text : Bytes} (ht : dictKey P key = .ok text) : T text := by
  cases key with
  | string s =>
    cases ht
    cases hk with
    | string hs => exact hs
  | _ => exact h.dumps _ _ ht

theorem items : ∀ {items : List Json} {entries entries' : List (Bytes × Json)}, (∀ v ∈ items, v.Strings T) →
    (Json.object entries).Strings T → setItems P items entries = .ok entries' →
    (Json.object entries').Strings T
  | [], _, _, _, he, hs => Except.ok.inj hs ▸ he
  | [_], _, _, _, he, hs => Except.ok.inj hs ▸ he
  | key :: value :: items, entries, entries', hi, he, hs => by
    obtain ⟨k, hk, hs⟩ := bind_eq_ok.mp hs
    refine Keeps.items (fun v hv => hi v (by simp [hv])) ?_ hs
    have hkey : T k := h.dictKey (hi key (by simp)) hk
    have hvalue := hi value (by simp)
    cases he with
    | object h1 h2 =>
      refine .object (fun e hmem => ?_) fun e hmem => ?_
      · rcases SortedMap.mem_insert hmem with rfl | hmem
        · exact hkey
        · exact h1 e hmem
      · rcases SortedMap.mem_insert hmem with rfl | hmem
        · exact hvalue
        · exact h2 e hmem

theorem storeItems {name : String} {items : List Json} (hi : ∀ v ∈ items, v.Strings T) :
    Triple I (storeItems P name items) (fun _ => I) E := by
  unfold SafePickle.storeItems
  refine (h.onTop _).bind fun v => ?_
  cases v with
  | object entries =>
    dsimp only
    split
    · rintro d ⟨he, hd⟩
      refine Triple.bind (R := fun entries d => (Json.object entries).Strings T ∧ I d)
        (.lift (fun es hs d hd => ⟨h.items hi he hs, hd⟩) fun e he d hd => h.fails e d (raised_setItems he) hd)
        (fun es d hd => h.onSetTop _ hd.1 d hd.2) d hd
    · exact fun d hd => h.throws _ d hd.2
  | _ => exact fun d hd => h.throws _ d hd.2

theorem appendItems {name : String} {items : List Json} (hi : ∀ v ∈ items, v.Strings T) :
    Triple I (appendItems name items) (fun _ => I) E := by
  unfold SafePickle.appendItems
  refine (h.onTop _).bind fun v => ?_
  cases v with
  | array vs =>
    rintro d ⟨hv, hd⟩
    refine h.onSetTop _ ?_ d hd
    cases hv with
    | array hv =>
      refine .array fun v hmem => ?_
      rcases List.mem_append.mp hmem with hmem | hmem
      · exact hv v hmem
      · exact hi v hmem
  | _ => exact fun d hd => h.throws _ d hd.2

theorem long {name : String} (n : ℕ) : Triple I (pushLong b name n) (fun _ => I) E := by
  unfold pushLong
  split
  · exact h.onPush _ (.integer 0)
  · split
    · exact h.throws _
    · exact (h.onBytes n (by omega)).bind fun buf => h.onPush _ (.integer _)

/-- A part that keeps `I`, at the end of an opcode. -/
theorem last {x : Run Exn Decoder Unit} (hx : Triple I x (fun _ => I) E) : Triple I x (fun _ => J) E :=
  hx.mono (fun _ hd => hd) (fun _ => h.weaken) fun _ _ hd => hd

/-- **What the operations keep, every opcode keeps.** -/
theorem perform (op : Op) : Triple I (perform P b op) (fun _ => J) E := by
  have hbyte : ∀ c : UInt8, c.toNat < 2 ^ 64 := fun c => c.toNat_lt.trans (by norm_num)
  have htext : ∀ n, Triple (fun d => n < 2 ^ 64 ∧ I d) (pushText P b n) (fun _ => J) E :=
    fun n d hd => h.onText n hd.1 d hd.2
  have hput : ∀ n, Triple (fun d => n < 2 ^ 64 ∧ I d) (memoPut P n) (fun _ => J) E :=
    fun n d hd => h.last (h.onPut n hd.1) d hd.2
  have harray : ∀ vs : List Json, (∀ v ∈ vs, v.Strings T) → Triple I (push (.array vs)) (fun _ => J) E :=
    fun vs hv => h.last (h.onPush _ (.array hv))
  cases op with
  | proto => exact h.onU8.bind fun _ => .pure _ h.weaken
  | frame => exact h.u64.bind fun _ => .pure _ fun d hd => h.weaken d hd.2
  | mark => exact h.last h.onMark
  | pop => exact h.onPop.bind fun _ => .pure _ fun d hd => h.weaken d hd.2
  | popMark => exact h.onPopMark.bind fun _ => .pure _ fun d hd => h.weaken d hd.2
  | dup => exact (h.onTop _).bind fun v d hd => h.last (h.onPush v hd.1) d hd.2
  | none => exact h.last (h.onPush _ .null)
  | newTrue => exact h.last (h.onPush _ (.bool true))
  | newFalse => exact h.last (h.onPush _ (.bool false))
  | binInt =>
    refine Triple.bind (R := fun _ => I) ?_ fun i => h.last (h.onPush _ (.integer i))
    exact (h.u32.mono (fun _ hd => hd) (fun _ _ hd => hd.2) fun _ _ hd => hd).map
  | binInt1 => exact h.onU8.bind fun _ => h.last (h.onPush _ (.integer _))
  | binInt2 => exact (h.onBytes 2 (by norm_num)).bind fun _ => h.last (h.onPush _ (.integer _))
  | long1 => exact h.onU8.bind fun n => h.last (h.long _)
  | long4 => exact h.u32.bind fun n d hd => h.last (h.long n) d hd.2
  | binFloat => exact (h.onBytes 8 le_rfl).bind fun _ => h.last (h.onPush _ (.float _))
  | binUnicode | binString | binBytes => exact h.u32.bind htext
  | shortBinUnicode | shortBinString | shortBinBytes => exact h.onU8.bind fun n => h.onText _ (hbyte n)
  | binUnicode8 | binBytes8 => exact h.u64.bind htext
  | emptyDict => exact h.last (h.onPush _ (.object nofun nofun))
  | emptyList | emptyTuple => exact harray [] nofun
  | tuple1 => exact h.onPop.bind fun x d hd => harray [x] (by simpa using hd.1) d hd.2
  | tuple2 =>
    refine h.onPop.bind fun y d hd => ?_
    refine (h.onPop.bind fun x d' hd' => ?_) d hd.2
    exact harray [x, y] (by simpa using ⟨hd'.1, hd.1⟩) d' hd'.2
  | tuple3 =>
    refine h.onPop.bind fun z d hd => ?_
    refine (h.onPop.bind fun y d' hd' => ?_) d hd.2
    refine (h.onPop.bind fun x d'' hd'' => ?_) d' hd'.2
    exact harray [x, y, z] (by simpa using ⟨hd''.1, hd'.1, hd.1⟩) d'' hd''.2
  | tuple => exact h.onPopMark.bind fun vs d hd => harray vs hd.1 d hd.2
  | setItem =>
    refine h.onPop.bind fun value d hd => ?_
    refine (h.onPop.bind fun key d' hd' => ?_) d hd.2
    exact h.last (h.storeItems (by simpa using ⟨hd'.1, hd.1⟩)) d' hd'.2
  | setItems => exact h.onPopMark.bind fun vs d hd => h.last (h.storeItems hd.1) d hd.2
  | append => exact h.onPop.bind fun v d hd => h.last (h.appendItems (by simpa using hd.1)) d hd.2
  | appends => exact h.onPopMark.bind fun vs d hd => h.last (h.appendItems hd.1) d hd.2
  | put => exact h.index.bind hput
  | binPut => exact h.onU8.bind fun n => h.last (h.onPut _ (hbyte n))
  | longBinPut => exact h.u32.bind hput
  | memoize => exact h.last h.onMemoize
  | get => exact h.index.bind fun n d hd => h.last (h.onGet n) d hd.2
  | binGet => exact h.onU8.bind fun n => h.last (h.onGet _)
  | longBinGet => exact h.u32.bind fun n d hd => h.last (h.onGet n) d hd.2

/-- One round, of which the first byte establishes `I`. -/
theorem step {H : Decoder → Prop} (hread : Triple H (readU8 b) (fun _ => I) E) :
    Triple H (step P b) (fun r d => J d ∧ ∀ v, r = some v → v.Strings T) E := by
  unfold SafePickle.step
  refine hread.bind fun byte => ?_
  split
  · refine Triple.map (h.onPop.mono (fun _ hd => hd) (fun v d hd => ⟨h.weaken d hd.2, ?_⟩) fun _ _ hd => hd)
    rintro v' hv
    exact Option.some.inj hv ▸ hd.1
  · split
    · exact h.throws _
    · split
      · exact (h.perform _).bind fun _ => .pure _ fun d hd => ⟨hd, nofun⟩
      · exact h.throws _

end Keeps

end Keeps

/-! ### The operations, executed -/

section Exec

variable {P : Platform} {b : Buffer} {d : Decoder}

@[simp] theorem exec_note (e : Event) :
    exec (note e) d = (.ok ⟨⟩, { d with trace := d.trace ++ [e] }) := rfl

@[simp] theorem exec_push (v : Json) : exec (push v) d = (.ok ⟨⟩, { d with stack := d.stack ++ [v] }) := rfl

@[simp] theorem exec_setTop (v : Json) :
    exec (setTop v) d = (.ok ⟨⟩, { d with stack := d.stack.dropLast ++ [v] }) := rfl

@[simp] theorem exec_mark : exec mark d = (.ok ⟨⟩, { d with marks := d.marks ++ [d.stack.length] }) := rfl

theorem exec_access (n : ℕ) : exec (access b n) d =
    if b.data.length < d.pos + n then (.error ⟨.undefined, "read past the end of the buffer"⟩, d)
    else (.ok ((b.data.drop d.pos).take n), { d with pos := d.pos + n }) := by
  unfold access
  rw [exec_get_bind]
  split <;> rfl

theorem exec_readU8 : exec (readU8 b) d =
    match b.data[d.pos]? with
    | some byte => (.ok byte, { d with pos := d.pos + 1, trace := d.trace ++ [.read d.pos 1] })
    | none => (.error (error "truncated input (expected 1 byte)"),
        { d with trace := d.trace ++ [.read d.pos 1] }) := by
  unfold readU8
  rw [exec_get_bind]
  rw [exec_bind, exec_note]
  dsimp only
  cases b.data[d.pos]? <;> rfl

/-- A read of bytes, by whether it is checked and whether it is inside. -/
theorem exec_readBytes (n : ℕ) : exec (readBytes b n) d =
    let d' := { d with trace := d.trace ++ [.read d.pos n] }
    if passes b d.pos n then exec (access b n) d'
    else (.error (error ("truncated input (expected " ++ toString n ++ " bytes)")), d') := by
  unfold readBytes
  rw [exec_get_bind]
  rw [exec_bind, exec_note]
  dsimp only
  split <;> rfl

theorem exec_readRawString (n : ℕ) : exec (readRawString P b n) d =
    let d' := { d with trace := d.trace ++ [.read d.pos n] }
    if passes b d.pos n then
      if P.maxString < n then (.error ⟨.lengthError, "basic_string::_M_create"⟩, d')
      else exec (do let s ← access b n; note (.text s); return s) d'
    else (.error (error ("truncated input (expected " ++ toString n ++ "-byte string)")), d') := by
  unfold readRawString
  rw [exec_get_bind]
  rw [exec_bind, exec_note]
  dsimp only
  split
  · split <;> rfl
  · rfl

theorem exec_top (what : String) : exec (top what) d =
    match d.stack.getLast? with
    | some v => (.ok v, d)
    | none => (.error (error what), d) := by
  unfold top
  rw [exec_get_bind]
  cases d.stack.getLast? <;> rfl

theorem exec_pop : exec pop d =
    match d.stack.getLast? with
    | some v => (.ok v, { d with stack := d.stack.dropLast })
    | none => (.error (error "stack underflow"), d) := by
  unfold pop
  rw [exec_bind, exec_top]
  cases d.stack.getLast? <;> rfl

theorem exec_popMark : exec popMark d =
    match d.marks.getLast? with
    | none => (.error (error "MARK stack underflow"), d)
    | some m =>
      if d.stack.length < m then (.error (error "corrupt mark"), { d with marks := d.marks.dropLast })
      else (.ok (d.stack.drop m), { d with marks := d.marks.dropLast, stack := d.stack.take m }) := by
  unfold popMark
  rw [exec_get_bind]
  cases d.marks.getLast? with
  | none => rfl
  | some m =>
    dsimp only
    rw [exec_set_bind]
    split <;> rfl

theorem exec_memoGet (index : ℕ) : exec (memoGet index) d =
    let d' := { d with trace := d.trace ++ [.loaded index d.memo[index]?] }
    match d.memo[index]? with
    | some v => (.ok ⟨⟩, { d' with stack := d.stack ++ [v] })
    | none => (.error (error ("GET references unknown memo id " ++ toString index)), d') := by
  unfold memoGet
  rw [exec_get_bind]
  rw [exec_bind, exec_note]
  dsimp only
  cases d.memo[index]? <;> rfl

theorem exec_memoPut (index : ℕ) : exec (memoPut P index) d =
    match d.stack.getLast? with
    | none => (.error (error "PUT with empty stack"), d)
    | some v =>
      match enlarged P d.memo index with
      | .error e => (.error e, d)
      | .ok memo =>
        let trace := d.trace ++ [.stored index memo.length v]
        if index < memo.length then (.ok ⟨⟩, { d with memo := memo.set index v, trace := trace })
        else (.error ⟨.undefined, "write past the end of the memo"⟩, { d with trace := trace }) := by
  unfold memoPut
  rw [exec_bind, exec_top]
  cases d.stack.getLast? with
  | none => rfl
  | some v =>
    dsimp only
    rw [exec_get_bind]
    rw [exec_bind, exec_lift]
    cases enlarged P d.memo index with
    | error e => rfl
    | ok memo =>
      dsimp only
      rw [exec_bind, exec_note]
      dsimp only
      split <;> rfl

end Exec

/-! ### Every step moves forward, inside the input -/

section Inside

variable {P : Platform} {b : Buffer}

/-- The position and all reads are inside the input. -/
structure Inside (b : Buffer) (d : Decoder) : Prop where
  pos : d.pos ≤ b.data.length
  reads : ∀ q n, Event.read q n ∈ d.trace → q + n ≤ b.data.length

/-- The error of a read that the check turns down. -/
def Truncated (n : ℕ) (e : Exn) : Prop :=
  ∃ unit, e = error ("truncated input (expected " ++ toString n ++ unit)

/-- After an exception, all reads are inside the input, or the last one runs past the
end: if its end fits in 64 bits, the exception says so; otherwise the string is too long. -/
structure Faulted (b : Buffer) (e : Exn) (d : Decoder) : Prop where
  pos : d.pos ≤ b.data.length
  reads : ∀ q n, Event.read q n ∈ d.trace → q + n ≤ b.data.length ∨ q ≤ b.data.length ∧
    (q + n < 2 ^ 64 ∧ Truncated n e ∨ 2 ^ 64 ≤ q + n ∧ n < 2 ^ 64 ∧ e.kind = .lengthError)

theorem Inside.faulted {d : Decoder} (h : Inside b d) (e : Exn) : Faulted b e d :=
  ⟨h.pos, fun q n hq => .inl (h.reads q n hq)⟩

/-- The invariant of a step, from position `p` on. -/
def Ahead (b : Buffer) (p : ℕ) (d : Decoder) : Prop := Inside b d ∧ p < d.pos

theorem Inside.read {d : Decoder} (h : Inside b d) {n : ℕ} (hn : d.pos + n ≤ b.data.length) :
    ∀ q k, Event.read q k ∈ d.trace ++ [.read d.pos n] → q + k ≤ b.data.length := by
  intro q k hmem
  rcases List.mem_append.mp hmem with hmem | hmem
  · exact h.reads q k hmem
  · obtain ⟨rfl, rfl⟩ : q = d.pos ∧ k = n := by simpa using hmem
    exact hn

/-- A read that the check turns down. -/
theorem Inside.turnedDown {d : Decoder} (h : Inside b d) {n : ℕ} (hn : n < 2 ^ 64)
    (hp : passes b d.pos n = false) (unit : String) :
    Faulted b (error ("truncated input (expected " ++ toString n ++ unit))
      { d with trace := d.trace ++ [.read d.pos n] } := by
  refine ⟨h.pos, fun q k hmem => ?_⟩
  rcases List.mem_append.mp hmem with hmem | hmem
  · exact .inl (h.reads q k hmem)
  · obtain ⟨rfl, rfl⟩ : q = d.pos ∧ k = n := by simpa using hmem
    have hpos := h.pos
    have hsmall := b.small
    unfold passes at hp
    rcases Nat.lt_or_ge (d.pos + k) (2 ^ 64) with hlt | hge
    · exact .inr ⟨hpos, .inl ⟨hlt, unit, rfl⟩⟩
    · -- a sum that wraps is below the position
      rw [Nat.mod_eq_sub_mod hge, Nat.mod_eq_of_lt (by omega), decide_eq_false_iff_not] at hp
      omega

theorem passes_iff {pos n : ℕ} (h : pos + n < 2 ^ 64) : passes b pos n = true ↔ pos + n ≤ b.data.length := by
  unfold passes
  rw [Nat.mod_eq_of_lt h, decide_eq_true_iff]

/-- A byte is read, and the position moves. -/
theorem ahead_readU8 (p : ℕ) : Triple (fun d => Inside b d ∧ p ≤ d.pos) (readU8 b) (fun _ => Ahead b p)
    (Faulted b) := by
  rintro d ⟨hd, hp⟩
  rw [exec_readU8]
  have hsmall := b.small
  cases hc : b.data[d.pos]? with
  | some c =>
    obtain ⟨hlt, -⟩ := List.getElem?_eq_some_iff.mp hc
    exact ⟨⟨hlt, hd.read hlt⟩, Nat.lt_succ_of_le hp⟩
  | none =>
    have hle := List.getElem?_eq_none_iff.mp hc
    have hpos := hd.pos
    refine hd.turnedDown (n := 1) (by norm_num) ?_ " byte)"
    rw [Bool.eq_false_iff, ne_eq, passes_iff (by omega)]
    omega

theorem ahead_readBytes {p n : ℕ} (hn : n ≤ 8) : Triple (Ahead b p) (readBytes b n) (fun _ => Ahead b p)
    (Faulted b) := by
  rintro d ⟨hd, hp⟩
  have hpos := hd.pos
  have hsmall := b.small
  rw [exec_readBytes]
  dsimp only
  split
  · rename_i hpass
    rw [passes_iff (by omega)] at hpass
    rw [exec_access, if_neg (by simpa using hpass)]
    exact ⟨⟨hpass, hd.read hpass⟩, Nat.lt_add_right n hp⟩
  · rename_i hpass
    exact hd.turnedDown (by omega) (Bool.eq_false_iff.mpr hpass) _

/-- A text: where the check passes it is inside the input, or the string is too long. -/
theorem ahead_pushText {p n : ℕ} (hn : n < 2 ^ 64) : Triple (Ahead b p) (pushText P b n)
    (fun _ => Ahead b p) (Faulted b) := by
  rintro d ⟨hd, hp⟩
  have hpos := hd.pos
  have hsmall := b.small
  unfold pushText
  rw [exec_bind, exec_readRawString]
  dsimp only
  by_cases hpass : passes b d.pos n = true
  · rw [if_pos hpass]
    rcases Nat.lt_or_ge (d.pos + n) (2 ^ 64) with hlt | hge
    · rw [passes_iff hlt] at hpass
      by_cases hlong : P.maxString < n
      · rw [if_pos hlong]
        exact (show Inside b { d with trace := d.trace ++ [.read d.pos n] } from
          ⟨hpos, hd.read hpass⟩).faulted _
      · rw [if_neg hlong, exec_bind, exec_access, if_neg (by simpa using hpass)]
        refine ⟨⟨hpass, fun q k hmem => hd.read hpass q k ?_⟩, Nat.lt_add_right n hp⟩
        simpa using hmem
    · -- a length that wraps the sum is longer than any string
      have hlong : P.maxString < n := by
        have := P.maxString_lt
        omega
      rw [if_pos hlong]
      refine ⟨hpos, fun q k hmem => ?_⟩
      rcases List.mem_append.mp hmem with hmem | hmem
      · exact .inl (hd.reads q k hmem)
      · obtain ⟨rfl, rfl⟩ : q = d.pos ∧ k = n := by simpa using hmem
        exact .inr ⟨hpos, .inr ⟨hge, hn, rfl⟩⟩
  · rw [if_neg hpass]
    exact hd.turnedDown hn (Bool.eq_false_iff.mpr hpass) _

/-- A part that leaves the position and the reads. -/
theorem Ahead.of_reads {p : ℕ} {d d' : Decoder} (h : Ahead b p d) (hpos : d'.pos = d.pos)
    (hreads : ∀ q n, Event.read q n ∈ d'.trace → Event.read q n ∈ d.trace) : Ahead b p d' :=
  ⟨⟨hpos ▸ h.1.pos, fun q n hq => h.1.reads q n (hreads q n hq)⟩, hpos ▸ h.2⟩

theorem Ahead.throws {p : ℕ} {d d' : Decoder} {e : Exn} (h : Ahead b p d) (hpos : d'.pos = d.pos)
    (hreads : ∀ q n, Event.read q n ∈ d'.trace → Event.read q n ∈ d.trace) : Faulted b e d' :=
  (h.of_reads hpos hreads).1.faulted e

theorem ahead_memoPut (p index : ℕ) : Triple (Ahead b p) (memoPut P index) (fun _ => Ahead b p)
    (Faulted b) := by
  intro d hd
  rw [exec_memoPut]
  cases d.stack.getLast? with
  | none => exact hd.1.faulted _
  | some v =>
    cases enlarged P d.memo index with
    | error e => exact hd.1.faulted _
    | ok memo =>
      dsimp only
      split
      · exact hd.of_reads rfl fun q n hq => by simpa using hq
      · show Faulted b _ _
        exact hd.throws rfl fun q n hq => by simpa using hq

theorem keeps_ahead (p : ℕ) : Keeps P b (Ahead b p) (Ahead b p) (fun _ => True) (Faulted b) where
  fails e d _ hd := hd.1.faulted e
  weaken _ hd := hd
  dumps _ _ _ := trivial
  onU8 := (ahead_readU8 p).mono (fun _ hd => ⟨hd.1, hd.2.le⟩) (fun _ _ hd => hd) fun _ _ hd => hd
  onBytes n hn := ahead_readBytes hn
  onText n hn := ahead_pushText hn
  onPush v _ d hd := hd.of_reads rfl fun _ _ hq => hq
  onTop what d hd := by
    rw [exec_top]
    cases d.stack.getLast? with
    | none => exact hd.1.faulted _
    | some v => exact ⟨v.strings_true, hd⟩
  onPop d hd := by
    rw [exec_pop]
    cases d.stack.getLast? with
    | none => exact hd.1.faulted _
    | some v => exact ⟨v.strings_true, hd.of_reads rfl fun _ _ hq => hq⟩
  onSetTop v _ d hd := hd.of_reads rfl fun _ _ hq => hq
  onMark d hd := hd.of_reads rfl fun _ _ hq => hq
  onPopMark d hd := by
    rw [exec_popMark]
    cases d.marks.getLast? with
    | none => exact hd.1.faulted _
    | some m =>
      dsimp only
      split
      · show Faulted b _ _
        exact hd.throws rfl fun _ _ hq => hq
      · exact ⟨fun v _ => v.strings_true, hd.of_reads rfl fun _ _ hq => hq⟩
  onPut index _ := ahead_memoPut p index
  onMemoize d hd := ahead_memoPut p d.memo.length d hd
  onGet index d hd := by
    rw [exec_memoGet]
    dsimp only
    cases d.memo[index]? with
    | none =>
      show Faulted b _ _
      exact hd.throws rfl fun q n hq => by simpa using hq
    | some v => exact hd.of_reads rfl fun q n hq => by simpa using hq

/-- **A step moves forward** and stays inside the input. -/
theorem step_ahead {d : Decoder} (hd : Inside b d) :
    After (fun _ d' => Inside b d' ∧ d.pos < d'.pos) (Faulted b) (exec (step P b) d) :=
  ((keeps_ahead d.pos).step (ahead_readU8 d.pos) d ⟨hd, le_rfl⟩).mono (fun _ _ h => h.1) fun _ _ h => h

end Inside

/-! ### Runs -/

section Runs

variable {P : Platform} {b : Buffer}

/-- **What every step keeps**, the run keeps. -/
theorem decodeFrom_spec {H : Decoder → Prop} {Q : Json → Decoder → Prop} {E : Exn → Decoder → Prop}
    (h : Triple H (step P b) (fun r d => (r = none → H d) ∧ ∀ v, r = some v → Q v d) E) :
    ∀ (rounds : ℕ) (d : Decoder) {r : Except Exn Json × Decoder}, H d → decodeFrom P b rounds d = some r →
      After Q E r
  | 0, _, _, _, hr => nomatch hr
  | rounds + 1, d, r, hd, hr => by
    have h1 := h d hd
    unfold decodeFrom at hr
    rcases hs : exec (step P b) d with ⟨e | v, d'⟩
    · rw [hs] at h1 hr
      cases hr
      exact h1
    · rw [hs] at h1 hr
      cases v with
      | none => exact decodeFrom_spec h rounds d' (h1.1 rfl) hr
      | some v =>
        cases hr
        exact h1.2 v rfl

/-- A round for each byte that is left suffices. -/
theorem decodeFrom_isSome : ∀ (rounds : ℕ) (d : Decoder), Inside b d → b.data.length < d.pos + rounds →
    (decodeFrom P b rounds d).isSome
  | 0, d, hd, hlt => absurd hd.pos (by omega)
  | rounds + 1, d, hd, hlt => by
    have h1 := step_ahead (P := P) hd
    unfold decodeFrom
    rcases hs : exec (step P b) d with ⟨e | v, d'⟩
    · rfl
    · rw [hs] at h1
      cases v with
      | none => exact decodeFrom_isSome rounds d' h1.1 (by have := h1.2; omega)
      | some v => rfl

/-- More rounds change nothing. -/
theorem decodeFrom_mono : ∀ {rounds rounds' : ℕ} {d : Decoder} {r : Except Exn Json × Decoder},
    rounds ≤ rounds' → decodeFrom P b rounds d = some r → decodeFrom P b rounds' d = some r
  | 0, _, _, _, _, h => nomatch h
  | rounds + 1, rounds', d, r, hle, h => by
    obtain ⟨k, rfl⟩ : ∃ k, rounds' = k + 1 := ⟨rounds' - 1, by omega⟩
    unfold decodeFrom at h ⊢
    rcases hs : exec (step P b) d with ⟨e | v, d'⟩
    · rwa [hs] at h
    · rw [hs] at h
      cases v with
      | none => exact decodeFrom_mono (by omega) h
      | some v => exact h

theorem inside_new : Inside b .new := ⟨Nat.zero_le _, nofun⟩

variable (P b)

/-- The run of `decode`, which ends on every input. -/
def decodeRun : Except Exn Json × Decoder :=
  (decodeFrom P b (b.data.length + 1) .new).get
    (decodeFrom_isSome _ _ inside_new (by show _ < 0 + _; omega))

def decode : Except Exn Json := (decodeRun P b).1

theorem decodeFrom_eq : decodeFrom P b (b.data.length + 1) .new = some (decodeRun P b) :=
  (Option.some_get _).symm

end Runs

end Qsycl.SafePickle
