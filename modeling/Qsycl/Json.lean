/-
# JSON values

What the readers of replies use of the JSON library and of `std::string`: a
value of type `json`, a string of bytes, and `std::stoull`. An object is a
`std::map`, the sorted list of its entries.
-/
import Qsycl.Types
import Qsycl.Lib.SortedMap

namespace Qsycl

/-- Bytes compare as numbers. -/
instance linearOrderUInt8 : LinearOrder UInt8 where
  le_refl a := Nat.le_refl _
  le_trans a b c h₁ h₂ := Nat.le_trans h₁ h₂
  le_antisymm a b h₁ h₂ := UInt8.toNat_inj.mp (Nat.le_antisymm h₁ h₂)
  le_total a b := Nat.le_total _ _
  lt_iff_le_not_ge a b := Nat.lt_iff_le_and_not_ge
  toDecidableLE := inferInstance
  toDecidableLT := inferInstance
  toDecidableEq := inferInstance

/-- A `std::string`. -/
abbrev Bytes := List UInt8

/-- The bytes of a literal. -/
def ascii (s : String) : Bytes := s.toList.map fun c => c.toNat.toUInt8

/-- A `json` value: an `int64_t`, a `uint64_t` and a `double` are three kinds of
number, a `double` is its bit pattern. -/
inductive Json
  | null
  | bool (b : Bool)
  | integer (i : ℤ)
  | unsigned (n : ℕ)
  | float (bits : UInt64)
  | string (s : Bytes)
  | array (items : List Json)
  | object (entries : List (Bytes × Json))

/-! ### Access -/

/-- The characters of a string. -/
def text (s : Bytes) : String := String.ofList (s.map fun c => Char.ofNat c.toNat)

namespace Json

def typeName : Json → String
  | null => "null"
  | bool _ => "boolean"
  | string _ => "string"
  | array _ => "array"
  | object _ => "object"
  | integer _ | unsigned _ | float _ => "number"

def contains (key : String) : Json → Bool
  | object entries => (entries.lookup (ascii key)).isSome
  | _ => false

/-- `at` of an object. -/
def atKey (key : String) : Json → Except Exn Json
  | object entries =>
    match entries.lookup (ascii key) with
    | some v => return v
    | none => throw ⟨.json, "[json.exception.out_of_range.403] key '" ++ key ++ "' not found"⟩
  | v => throw ⟨.json, "[json.exception.type_error.304] cannot use at() with " ++ v.typeName⟩

/-- `at` of an array. -/
def atIndex (i : ℕ) : Json → Except Exn Json
  | array items =>
    match items[i]? with
    | some v => return v
    | none => throw ⟨.json, "[json.exception.out_of_range.401] array index " ++ toString i ++ " is out of range"⟩
  | v => throw ⟨.json, "[json.exception.type_error.304] cannot use at() with " ++ v.typeName⟩

/-- `items`: an array is read by its indices, another value as one entry without a key. -/
def items : Json → List (Bytes × Json)
  | null => []
  | object entries => entries
  | array items => items.zipIdx.map fun e => (ascii (toString e.2), e.1)
  | v => [([], v)]

def getString : Json → Except Exn Bytes
  | string s => return s
  | v => throw ⟨.json, "[json.exception.type_error.302] type must be string, but is " ++ v.typeName⟩

/-- A `double` as a `size_t`: the integer part, undefined unless it is one. -/
def truncate (bits : UInt64) : Except Exn ℕ :=
  let exponent := bits.toNat / 2 ^ 52 % 2 ^ 11
  let n := if exponent = 0 then 0 else (2 ^ 52 + bits.toNat % 2 ^ 52) * 2 ^ exponent / 2 ^ 1075
  if exponent = 2047 ∨ 2 ^ 64 ≤ n ∨ (2 ^ 63 ≤ bits.toNat ∧ n ≠ 0) then
    throw ⟨.undefined, "conversion to an integer"⟩
  else return n

/-- `get<std::size_t>`. -/
def getSize : Json → Except Exn ℕ
  | unsigned n => return n
  | integer i => return (i % 2 ^ 64).toNat
  | float bits => truncate bits
  | v => throw ⟨.json, "[json.exception.type_error.302] type must be number, but is " ++ v.typeName⟩

end Json

/-! ### Texts -/

/-- The bytes are the UTF-8 encoding of some characters. -/
def IsUtf8 (s : Bytes) : Prop := ∃ text : List Char, text.flatMap String.utf8EncodeChar = s

/-- No character starts with a byte that is not a first byte. -/
theorem not_isUtf8_cons {b : UInt8} (h : ¬ b.IsUTF8FirstByte) (s : Bytes) : ¬ IsUtf8 (b :: s) := by
  rintro ⟨text, ht⟩
  cases text with
  | nil => cases ht
  | cons c text =>
    have hfirst := UInt8.isUTF8FirstByte_getElem_zero_utf8EncodeChar (c := c)
    have hb : (String.utf8EncodeChar c)[0]? = some b := by
      rw [List.flatMap_cons] at ht
      have h0 := congrArg (·[0]?) ht
      have hlen : 0 < (String.utf8EncodeChar c).length := by
        rw [String.length_utf8EncodeChar]
        exact c.utf8Size_pos
      simpa [List.getElem?_append_left hlen] using h0
    obtain ⟨_, hb⟩ := List.getElem?_eq_some_iff.mp hb
    exact h (hb ▸ hfirst)

/-- Every string in the value satisfies `T`: the strings in it at any depth and the
keys of its objects. -/
inductive Json.Strings (T : Bytes → Prop) : Json → Prop
  | null : Strings T .null
  | bool (b : Bool) : Strings T (.bool b)
  | integer (i : ℤ) : Strings T (.integer i)
  | unsigned (n : ℕ) : Strings T (.unsigned n)
  | float (bits : UInt64) : Strings T (.float bits)
  | string {s : Bytes} : T s → Strings T (.string s)
  | array {items : List Json} : (∀ v ∈ items, Strings T v) → Strings T (.array items)
  | object {entries : List (Bytes × Json)} : (∀ e ∈ entries, T e.1) → (∀ e ∈ entries, Strings T e.2) →
      Strings T (.object entries)

theorem Json.strings_true : ∀ v : Json, v.Strings fun _ => True
  | .null => .null
  | .bool b => .bool b
  | .integer i => .integer i
  | .unsigned n => .unsigned n
  | .float bits => .float bits
  | .string _ => .string trivial
  | .array _ => .array fun v _ => strings_true v
  | .object _ => .object (fun _ _ => trivial) fun e he =>
    have := List.sizeOf_lt_of_mem he
    have : sizeOf e.2 < sizeOf e := by
      obtain ⟨k, v⟩ := e
      simp
    strings_true e.2

/-! ### Numbers in texts -/

/-- `std::isspace` in the C locale. -/
def isSpace (c : UInt8) : Bool := c == 32 || (9 ≤ c && c ≤ 13)

/-- The digits of a base up to ten. -/
def isDigit (base : ℕ) (c : UInt8) : Bool := 48 ≤ c && c.toNat < 48 + base

/-- The digits at the start of a text, after a sign. -/
def digitsOf (base : ℕ) (s : Bytes) : Bytes :=
  (if s.head? = some 43 ∨ s.head? = some 45 then s.tail else s).takeWhile (isDigit base)

def valueOf (base : ℕ) (digits : Bytes) : ℕ := digits.foldl (fun n c => base * n + (c.toNat - 48)) 0

/-- `std::stoull`: the number at the start of the text. -/
def stoull (base : ℕ) (s : Bytes) : Except Exn ℕ :=
  let s := s.dropWhile isSpace
  let n := valueOf base (digitsOf base s)
  if (digitsOf base s).isEmpty then throw ⟨.invalidArgument, "stoull"⟩
  else if 2 ^ 64 ≤ n then throw ⟨.outOfRange, "stoull"⟩
  else return if s.head? = some 45 then (2 ^ 64 - n) % 2 ^ 64 else n -- a minus sign is no error

theorem stoull_lt {base : ℕ} {s : Bytes} {n : ℕ} (h : stoull base s = .ok n) : n < 2 ^ 64 := by
  unfold stoull at h
  dsimp only at h
  split at h
  · cases h
  · split at h
    · cases h
    · rename_i hlt
      cases Except.ok.inj h
      split
      · exact Nat.mod_lt _ (by norm_num)
      · exact not_le.mp hlt

end Qsycl
