/-
# LONG1 and LONG4

The two opcodes for an integer in the bytes of its two's complement. They
differ in the width of the length before these bytes; from there on both do the
same (`exec_perform`). Up to 8 bytes push the number they encode, more are
refused, and a number of 64 bits is read back from its shortest encoding under
either opcode (`long_opcodes_agree`).

These are statements about a round of the loop from any decoder, whatever its
stacks and its memo are.
-/
import Qsycl.WideNumbers

namespace Qsycl.SafePickle

open Runs

/-! ### Two's complement -/

/-- The number whose two's complement the bytes are, the lowest byte first. -/
def twosComplement (bytes : Bytes) : ℤ :=
  (BitVec.ofNat (8 * bytes.length) (Nat.ofDigits 256 (bytes.map UInt8.toNat))).toInt

example : (twosComplement [], twosComplement [0xff], twosComplement [0xff, 0xff]) = (0, -1, -1) := by decide

theorem littleEndian_eq_ofDigits : ∀ bytes : Bytes,
    littleEndian bytes = Nat.ofDigits 256 (bytes.map UInt8.toNat)
  | [] => rfl
  | b :: bytes => by
    rw [littleEndian_cons, littleEndian_eq_ofDigits bytes, List.map_cons, Nat.ofDigits_cons]

theorem twosComplement_eq (bytes : Bytes) :
    twosComplement bytes = (littleEndian bytes : ℤ).bmod (2 ^ (8 * bytes.length)) := by
  unfold twosComplement
  rw [← littleEndian_eq_ofDigits, BitVec.toInt_ofNat']

theorem longValue_eq_twosComplement {bytes : Bytes} (h : bytes.length ≤ 8) :
    longValue bytes = twosComplement bytes :=
  (longValue_eq h).trans (twosComplement_eq bytes).symm

theorem fits64_twosComplement {bytes : Bytes} (h : bytes.length ≤ 8) : Fits64 (twosComplement bytes) := by
  have hle : 2 ^ (8 * bytes.length) ≤ 2 ^ 64 := Nat.pow_le_pow_right (by norm_num) (by omega)
  have hpos : 0 < 2 ^ (8 * bytes.length) := by positivity
  rw [twosComplement_eq]
  have hlo := Int.le_bmod (x := littleEndian bytes) hpos
  have hhi := Int.bmod_lt (x := littleEndian bytes) hpos
  unfold Fits64
  omega

theorem twosComplement_leBytes {i : ℤ} {k : ℕ} (hlo : -2 ^ (8 * k) ≤ 2 * i) (hhi : 2 * i < 2 ^ (8 * k)) :
    twosComplement (leBytes k (i % 2 ^ (8 * k)).toNat) = i := by
  rw [twosComplement_eq, length_leBytes, littleEndian_leBytes, Nat.mod_eq_of_lt (toNat_emod_lt i k)]
  exact bmod_toNat hlo hhi

/-- The number in as few bytes as possible, in none for 0. -/
structure Shortest (i : ℤ) (bytes : Bytes) : Prop where
  value : twosComplement bytes = i
  least : ∀ other, twosComplement other = i → bytes.length ≤ other.length

theorem Fits64.eight {i : ℤ} (h : Fits64 i) : twosComplement (leBytes 8 (i % 2 ^ 64).toNat) = i := by
  obtain ⟨hlo, hhi⟩ := h
  exact twosComplement_leBytes (k := 8) (by omega) (by omega)

theorem Fits64.shortest {i : ℤ} (h : Fits64 i) : ∃ bytes, Shortest i bytes := by
  classical
  have hex : ∃ n, ∃ bytes, twosComplement bytes = i ∧ bytes.length = n := ⟨_, _, h.eight, rfl⟩
  obtain ⟨bytes, hvalue, hlength⟩ := Nat.find_spec hex
  exact ⟨bytes, hvalue, fun other hother => hlength ▸ Nat.find_min' hex ⟨other, hother, rfl⟩⟩

theorem Shortest.length_le {i : ℤ} {bytes : Bytes} (h : Shortest i bytes) (hi : Fits64 i) : bytes.length ≤ 8 :=
  (h.least _ hi.eight).trans_eq (length_leBytes 8 _)

/-! ### The two branches -/

inductive LongOp
  | long1 | long4

namespace LongOp

def op : LongOp → Op
  | long1 => .long1
  | long4 => .long4

/-- What the opcode is called in an error. -/
def name : LongOp → String
  | long1 => "LONG1"
  | long4 => "LONG4"

/-- How many bytes the length takes. -/
def width : LongOp → ℕ
  | long1 => 1
  | long4 => 4

/-- The opcode before these bytes. -/
def token (o : LongOp) (payload : Bytes) : Token := (o.op, leBytes o.width payload.length ++ payload)

theorem lt_width (o : LongOp) {n : ℕ} (h : n ≤ 8) : n < 256 ^ o.width := by
  cases o with
  | long1 => exact h.trans_lt (by norm_num [width])
  | long4 => exact h.trans_lt (by norm_num [width])

def tooWide (o : LongOp) : Exn := error (o.name ++ " integer wider than 64 bits is not supported")

end LongOp

section Branches

variable {P : Platform} {b : Buffer} {d : Decoder} {o : LongOp} {payload rest : Bytes} {n : ℕ}

/-- The branches read the length and go on in the same way. -/
theorem exec_perform (o : LongOp) (hn : n < 256 ^ o.width) (h : Next b d (leBytes o.width n ++ rest)) :
    exec (perform P b o.op) d = exec (pushLong b o.name n)
      { d with pos := d.pos + o.width, trace := d.trace ++ [.read d.pos o.width] } := by
  cases o with
  | long1 =>
    have hread := Next.readU8 (show Next b d (UInt8.ofNat n :: rest) from h)
    have hlength : (UInt8.ofNat n).toNat = n := UInt8.toNat_ofNat_of_lt' hn
    show exec (do pushLong b "LONG1" (← readU8 b).toNat) d = _
    rw [exec_bind, hread]
    dsimp only
    rw [hlength]
    rfl
  | long4 =>
    have hread : exec (readU32Le b) d =
        (.ok n, { d with pos := d.pos + 4, trace := d.trace ++ [.read d.pos 4] }) := h.number hn
    show exec (do pushLong b "LONG4" (← readU32Le b)) d = _
    rw [exec_bind, hread]
    rfl

/-! ### Rounds of the loop -/

/-- Where the token stands next, the round pushes the number and moves past the token. -/
def Pushes (P : Platform) (t : Token) (i : ℤ) : Prop :=
  ∀ b d rest, Next b d (t.bytes ++ rest) → ∃ trace, exec (step P b) d = (.ok none,
    { d with pos := d.pos + t.bytes.length, stack := d.stack ++ [.integer i], trace := trace })

/-- Where the token stands next, the round throws, with the stacks and the memo as they were. -/
def Refuses (P : Platform) (t : Token) (e : Exn) : Prop :=
  ∀ b d rest, Next b d (t.bytes ++ rest) → ∃ pos trace, exec (step P b) d =
    (.error e, { d with pos := pos, trace := trace })

/-- The round at the opcode is that of `pushLong` after the length. -/
theorem exec_step_long (o : LongOp) (hn : payload.length < 256 ^ o.width)
    (h : Next b d ((o.token payload).bytes ++ rest)) : ∃ d₁, Next b d₁ (payload ++ rest) ∧
      (∃ trace, d₁ = { d with pos := d.pos + (1 + o.width), trace := trace }) ∧
      exec (step P b) d = match exec (pushLong b o.name payload.length) d₁ with
        | (.ok _, d') => (.ok none, d')
        | (.error e, d') => (.error e, d') := by
  have hcode : Next b d (o.op.code :: (leBytes o.width payload.length ++ (payload ++ rest))) := by
    rw [← List.append_assoc]
    exact h
  let d₀ : Decoder := { d with pos := d.pos + 1, trace := d.trace ++ [.read d.pos 1] }
  have hlength : Next b d₀ (leBytes o.width payload.length ++ (payload ++ rest)) :=
    Next.skip (show Next b d ([o.op.code] ++ _) from hcode) d₀ rfl
  let d₁ : Decoder := { d₀ with pos := d₀.pos + o.width, trace := d₀.trace ++ [.read d₀.pos o.width] }
  refine ⟨d₁, hlength.skip d₁ (by rw [length_leBytes]), ?_, ?_⟩
  · exact ⟨_, by simp only [d₁, d₀, Nat.add_assoc]; rfl⟩
  · have hstep := exec_step (P := P) hcode.readU8
    rw [exec_perform o hn hlength] at hstep
    exact hstep

theorem pushes_long (o : LongOp) (hlen : payload.length ≤ 8) :
    Pushes P (o.token payload) (twosComplement payload) := by
  intro b d rest h
  obtain ⟨d₁, hnext, ⟨trace, rfl⟩, hstep⟩ := exec_step_long (P := P) o (o.lt_width hlen) h
  obtain ⟨trace', hx⟩ := hnext.pushLong o.name hlen
  have hbytes : (o.token payload).bytes.length = 1 + o.width + payload.length := by
    simp [LongOp.token, Token.bytes, Nat.add_comm, Nat.add_left_comm]
  rw [hstep, hx, longValue_eq_twosComplement hlen]
  exact ⟨trace', by rw [hbytes, Nat.add_assoc, Nat.add_assoc]⟩

theorem refuses_long (o : LongOp) (hn : payload.length < 256 ^ o.width) (hlen : 8 < payload.length) :
    Refuses P (o.token payload) o.tooWide := by
  intro b d rest h
  obtain ⟨d₁, -, ⟨trace, rfl⟩, hstep⟩ := exec_step_long (P := P) o hn h
  rw [hstep, exec_pushLong_wide o.name hlen]
  exact ⟨_, trace, rfl⟩

/-- The token as the others of a stream. -/
theorem Pushes.acts {t : Token} {i : ℤ} {σ : Machine} (h : Pushes P t i) :
    Acts P b t σ (σ.pushes [.integer i]) := by
  intro rest d hd
  obtain ⟨trace, hx⟩ := h b d rest hd.next
  have hd' := hd.skip (Nat.zero_le _) trace
  exact ⟨_, hx, { hd' with stack := congrArg (· ++ [Json.integer i]) hd'.stack }⟩

end Branches

/-- **LONG1 and LONG4 agree.** Up to 8 bytes, minimal or not, either pushes the number of
64 bits that they encode; at more, either throws. So a number of 64 bits is decoded from its shortest
encoding. -/
theorem long_opcodes_agree (P : Platform) (o : LongOp) :
    (∀ payload : Bytes, payload.length ≤ 8 →
      Fits64 (twosComplement payload) ∧ Pushes P (o.token payload) (twosComplement payload)) ∧
    (∀ payload : Bytes, 8 < payload.length → payload.length < 256 ^ o.width →
      Refuses P (o.token payload) o.tooWide) ∧
    ∀ i, Fits64 i → (∃ bytes, Shortest i bytes) ∧ ∀ bytes, Shortest i bytes →
      Pushes P (o.token bytes) i ∧
      ∀ (b : Buffer) (version : UInt8),
        b.data = Token.bytes (.proto, [version]) ++ (o.token bytes).bytes ++ [0x2e] →
        decode P b = .ok (.integer i) := by
  refine ⟨fun payload hlen => ⟨fits64_twosComplement hlen, pushes_long o hlen⟩,
    fun payload hlen hn => refuses_long o hn hlen, fun i hi => ⟨hi.shortest, fun bytes hshort => ?_⟩⟩
  have hpush : Pushes P (o.token bytes) i := by
    rw [← hshort.value]
    exact pushes_long o (hshort.length_le hi)
  refine ⟨hpush, fun b version hdata => ?_⟩
  have hmoves : Moves P b [o.token bytes] ⟨[], [], []⟩ (Machine.pushes ⟨[], [], []⟩ [.integer i]) :=
    hpush.acts.moves
  have hstream : b.data = Token.bytes (.proto, [version]) ++ [o.token bytes].flatMap Token.bytes ++ [0x2e] := by
    rw [hdata, List.flatMap_singleton]
  exact decode_of_moves hstream hmoves

end Qsycl.SafePickle
