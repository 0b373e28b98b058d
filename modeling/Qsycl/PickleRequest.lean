/-
# The request as a pickle

`safe_pickle::encode_str_tuple` writes the request for QMIO, the program and
its configuration, as the pickle of a tuple of two strings: each after its
length in 32 bits, whatever its bytes are. `decode` reads the two strings
back (`decode_encodeStrTuple`), so that no two requests have one encoding.
-/
import Qsycl.PickleStreams

namespace Qsycl.SafePickle

/-! ### The encoder -/

/-- BINUNICODE: the length, a `std::uint32_t`, and the bytes of the string. -/
def appendBinunicode (out s : Bytes) : Bytes :=
  let len := s.length % 2 ^ 32
  out ++ [0x58, UInt8.ofNat (len &&& 0xFF), UInt8.ofNat (len >>> 8 &&& 0xFF),
    UInt8.ofNat (len >>> 16 &&& 0xFF), UInt8.ofNat (len >>> 24 &&& 0xFF)] ++ s

/-- PROTO 2, the two strings, TUPLE2, STOP. -/
def encodeStrTuple (first second : Bytes) : Bytes :=
  appendBinunicode (appendBinunicode [0x80, 0x02] first) second ++ [0x86] ++ [0x2e]

/-- A string whose length fits the field. -/
abbrev ShortString := { s : Bytes // s.length < 2 ^ 32 }

theorem toNat_and_255 (n : ℕ) : UInt8.ofNat (n &&& 0xFF) = UInt8.ofNat n := by
  have h : n &&& 0xFF = n % 2 ^ 8 := Nat.and_two_pow_sub_one_eq_mod n 8
  apply UInt8.toNat_inj.mp
  rw [h]
  simp

/-- What is appended is the token of the string. -/
theorem appendBinunicode_eq (out : Bytes) (s : ShortString) :
    appendBinunicode out s.1 = out ++ Token.bytes (.binUnicode, leBytes 4 s.1.length ++ s.1) := by
  have hlen : s.1.length % 2 ^ 32 = s.1.length := Nat.mod_eq_of_lt s.2
  simp only [appendBinunicode, hlen, toNat_and_255, Nat.shiftRight_eq_div_pow]
  simp [Token.bytes, leBytes, Op.code, Nat.div_div_eq_div_mul]

/-- The opcodes of a request, after PROTO. -/
def requestTokens (first second : Bytes) : List Token :=
  [(.binUnicode, leBytes 4 first.length ++ first), (.binUnicode, leBytes 4 second.length ++ second), (.tuple2, [])]

theorem encodeStrTuple_eq (first second : ShortString) :
    encodeStrTuple first.1 second.1 = Token.bytes (.proto, [2]) ++
      (requestTokens first.1 second.1).flatMap Token.bytes ++ [0x2e] := by
  rw [encodeStrTuple, appendBinunicode_eq, appendBinunicode_eq]
  simp [requestTokens, Token.bytes, Op.code]

theorem length_encodeStrTuple (first second : ShortString) :
    (encodeStrTuple first.1 second.1).length = first.1.length + second.1.length + 14 := by
  simp [encodeStrTuple, appendBinunicode]
  omega

/-- The request as the input of `decode`. -/
def requestBuffer (first second : ShortString) : Buffer where
  data := encodeStrTuple first.1 second.1
  small := by
    have h1 := first.2
    have h2 := second.2
    rw [length_encodeStrTuple]
    omega

/-! ### The round trip -/

/-- **`decode` reads a request back**, on every platform that can hold its strings. -/
theorem decode_encodeStrTuple (P : Platform) (first second : ShortString)
    (h1 : first.1.length ≤ P.maxString) (h2 : second.1.length ≤ P.maxString) :
    decode P (requestBuffer first second) = .ok (.array [.string first.1, .string second.1]) := by
  refine decode_of_moves (σ := ⟨[], [], []⟩) (encodeStrTuple_eq first second) ?_
  have hfirst := acts_text (P := P) (b := requestBuffer first second) (σ := ⟨[], [], []⟩)
    (TextToken.four first.2) fun _ => h1
  have hsecond := acts_text (P := P) (b := requestBuffer first second)
    (σ := Machine.pushes ⟨[], [], []⟩ [.string first.1]) (TextToken.four second.2) fun _ => h2
  have htuple := acts_tuple2 (P := P) (b := requestBuffer first second) (σ := ⟨[], [], []⟩)
    (.str first.1) (.str second.1)
  simp only [List.map_cons, List.map_nil, toJson_str, toJson_tuple] at htuple
  refine .cons hfirst (.cons hsecond ?_)
  rw [Machine.pushes_pushes]
  exact htuple.moves

/-- **The request is faithful.** `decode` reads the two strings of a request back,
whatever their bytes are and on every platform that can hold them, and no two
requests have one encoding. -/
theorem encodeStrTuple_faithful (P : Platform) :
    (∀ first second : ShortString, first.1.length ≤ P.maxString → second.1.length ≤ P.maxString →
      decode P (requestBuffer first second) = .ok (.array [.string first.1, .string second.1])) ∧
    ∀ first second first' second' : ShortString,
      encodeStrTuple first.1 second.1 = encodeStrTuple first'.1 second'.1 → first = first' ∧ second = second' := by
  refine ⟨decode_encodeStrTuple P, fun first second first' second' heq => ?_⟩
  have hplain : ∀ s : ShortString, s.1.length ≤ plain.maxString := fun s =>
    s.2.le.trans (Nat.pow_le_pow_right (by norm_num) (by norm_num))
  have hbuffer : requestBuffer first second = requestBuffer first' second' := by
    simp only [requestBuffer, heq]
  have h := decode_encodeStrTuple plain first second (hplain _) (hplain _)
  rw [hbuffer, decode_encodeStrTuple plain first' second' (hplain _) (hplain _)] at h
  simp only [Except.ok.injEq, Json.array.injEq, List.cons.injEq, Json.string.injEq, and_true] at h
  exact ⟨Subtype.ext h.1.symm, Subtype.ext h.2.symm⟩

/-- Strings of opcodes: STOP, MARK, REDUCE, and TUPLE2. -/
theorem encodeStrTuple_faithful_opcodes :
    decode plain (requestBuffer ⟨[0x2e, 0x28, 0x52], by decide⟩ ⟨[0x86, 0x2e], by decide⟩) =
      .ok (.array [.string [0x2e, 0x28, 0x52], .string [0x86, 0x2e]]) :=
  (encodeStrTuple_faithful plain).1 ⟨[0x2e, 0x28, 0x52], by decide⟩ ⟨[0x86, 0x2e], by decide⟩
    (show 3 ≤ 2 ^ 62 by norm_num) (show 2 ≤ 2 ^ 62 by norm_num)

end Qsycl.SafePickle
