/-
# The readout of the remote backends

A remote device answers with counts: an object from bitstrings to numbers. CUNQA
looks for it at a fixed place, QMIO (`counts_from_json`) at several places of the
reply, which comes pickled. Both expand the counts into one integer per shot,
which `sample_counts` prints and counts again. `sampleCounts_remote` says when
the map of the reply comes back.
-/
import Qsycl.CunqaBackend
import Qsycl.Qmio
import Qsycl.WideNumbers
import Qsycl.Readout

namespace Qsycl

open Runs SortedMap QuantumRuntime

/-! ### The counts of a QMIO reply -/

namespace Qmio

abbrev Entries := List (Bytes × Json)

def normalizeBitstring (key : Bytes) : Bytes := key.filter fun c => !isSpace c

/-- An integer that is not negative as a `long long`. -/
def isCount : Json → Bool
  | .integer i => 0 ≤ i
  | .unsigned n => 0 ≤ (BitVec.ofNat 64 n).toInt
  | _ => false

def countsEntries : Entries → Entries → Option Entries
  | [], out => some out
  | (key, val) :: entries, out =>
    if isCount val then countsEntries entries (SortedMap.insert (normalizeBitstring key) val out) else none

def asCountsObject : Json → Option Entries
  | .object entries => if entries.isEmpty then none else countsEntries entries []
  | _ => none

/-- The count so far. -/
def previous (bitstring : Bytes) (merged : Entries) : Except Exn ℕ :=
  match merged.lookup bitstring with
  | some v => v.getSize
  | none => return 0

/-- Adds some counts, as `uint64_t`. -/
def addCounts : Entries → Entries → Except Exn Entries
  | [], merged => return merged
  | (bitstring, count) :: counts, merged => do
    let prev ← previous bitstring merged
    let n ← count.getSize
    addCounts counts (SortedMap.insert bitstring (.unsigned ((prev + n) % 2 ^ 64)) merged)

def mergeRegisters : Entries → Entries → Except Exn (Option Entries)
  | [], merged => return some merged
  | (_, val) :: registers, merged =>
    match asCountsObject val with
    | none => return none -- not every entry is a counts object
    | some counts => do
      let merged ← addCounts counts merged
      mergeRegisters registers merged

/-- A map from registers to counts, merged. -/
def asRegisterCounts : Json → Except Exn (Option Entries)
  | .object entries => if entries.isEmpty then return none else mergeRegisters entries []
  | _ => return none

/-- The first of some keys with the counts of registers. -/
def findRegisters (entries : Entries) : List String → Except Exn (Option Entries)
  | [] => return none
  | key :: keys =>
    match entries.lookup (ascii key) with
    | none => findRegisters entries keys
    | some v => do
      match ← asRegisterCounts v with
      | some counts => return some counts
      | none => findRegisters entries keys

def notLocated : Exn :=
  ⟨.runtimeError, "QmioBackend: could not locate a bitstring->count object in the QPU JSON reply"⟩

/-- The counts of a reply that is an object: under one of the known keys, grouped by registers,
or in the first entry that is a counts object. -/
def countsOfEntries (entries : Entries) : Except Exn Entries := do
  let known := ["counts", "result", "results", "data", "c", "register", "measurements"].findSome? fun key =>
    (entries.lookup (ascii key)).bind asCountsObject
  match known with
  | some counts => return counts
  | none =>
    match ← findRegisters entries ["results", "result", "data"] with
    | some counts => return counts
    | none =>
      match entries.findSome? fun e => asCountsObject e.2 with
      | some counts => return counts
      | none => throw notLocated

def countsFromJson (value : Json) : Except Exn Entries :=
  match asCountsObject value with
  | some direct => return direct
  | none =>
    match value with
    | .object entries => countsOfEntries entries
    | _ => throw notLocated

/-- A reply is a value, or JSON in a string. -/
def replyJson (parse : Bytes → Except Exn Json) : Json → Except Exn Json
  | .string s => parse s
  | v => return v

def qmioOutcomes (V : OutcomeVector) (P : SafePickle.Platform) (parse : Bytes → Except Exn Json) (shots : ℕ)
    (reply : List UInt8) : Except Exn (List ℕ) :=
  if h : reply.length < 2 ^ 63 then do
    let decoded ← SafePickle.decode P ⟨reply, h⟩
    let value ← replyJson parse decoded
    let counts ← countsFromJson value
    expandCounts V shots counts
  else throw ⟨.lengthError, "vector"⟩

end Qmio

/-! ### The expansion -/

def countOf (v : Json) : ℕ := match v.getSize with
  | .ok n => n
  | .error _ => 0

theorem countOf_eq {v : Json} {n : ℕ} (h : v.getSize = .ok n) : countOf v = n := by
  unfold countOf
  rw [h]

/-- The vector has room for the shots that were asked for, and for those of the counts. -/
def OutcomeVector.Fits (V : OutcomeVector) (shots : ℕ) (counts : List (Bytes × Json)) : Prop :=
  shots ≤ V.maxSize ∧ (counts.map fun e => countOf e.2).sum ≤ V.maxSize

/-- An entry that is read, as this number. -/
def ReadAs (value : Bytes → ℕ) (e : Bytes × Json) : Prop :=
  stoull 2 e.1 = .ok (value e.1) ∧ e.2.getSize = .ok (countOf e.2)

/-- The loop over the counts, with the outcomes so far. -/
theorem foldlM_pushBack {V : OutcomeVector} {value : Bytes → ℕ} {outcomes : List ℕ} :
    ∀ {counts : List (Bytes × Json)} {acc : List ℕ}, (∀ e ∈ counts, ReadAs value e) → acc.length ≤ V.maxSize →
      (counts.foldlM (fun outcomes e => do
        let value ← stoull 2 e.1
        let n ← e.2.getSize
        V.pushBack outcomes value n) acc = .ok outcomes ↔
          acc.length + (counts.map fun e => countOf e.2).sum ≤ V.maxSize ∧
          outcomes = acc ++ counts.flatMap fun e => List.replicate (countOf e.2) (value e.1))
  | [], acc, _, hacc => by
    rw [List.map_nil, List.sum_nil, List.flatMap_nil, List.append_nil]
    exact ⟨fun h => ⟨hacc, (Except.ok.inj h).symm⟩, fun h => congrArg Except.ok h.2.symm⟩
  | e :: counts, acc, h, hacc => by
    obtain ⟨⟨hvalue, hn⟩, hrest⟩ := List.forall_mem_cons.mp h
    rw [List.foldlM_cons, hvalue, ok_bind, hn, ok_bind, List.map_cons, List.sum_cons, List.flatMap_cons]
    unfold OutcomeVector.pushBack
    have hlength : (acc ++ List.replicate (countOf e.2) (value e.1)).length = acc.length + countOf e.2 := by simp
    by_cases hroom : V.maxSize < acc.length + countOf e.2
    · rw [if_pos hroom]
      exact ⟨nofun, fun h => absurd h.1 (by omega)⟩
    · rw [if_neg hroom]
      refine (foldlM_pushBack hrest (by omega)).trans ?_
      rw [hlength, List.append_assoc, Nat.add_assoc]

/-- **Counts that are read** are expanded exactly if the vector has room for them. -/
theorem expandCounts_readAs {V : OutcomeVector} {shots : ℕ} {value : Bytes → ℕ} {counts : List (Bytes × Json)}
    (h : ∀ e ∈ counts, ReadAs value e) {outcomes : List ℕ} : expandCounts V shots counts = .ok outcomes ↔
      V.Fits shots counts ∧ outcomes = counts.flatMap fun e => List.replicate (countOf e.2) (value e.1) := by
  unfold expandCounts OutcomeVector.reserve OutcomeVector.Fits
  by_cases hshots : V.maxSize < shots
  · rw [if_pos hshots]
    exact ⟨nofun, fun h => absurd h.1.1 (by omega)⟩
  · rw [if_neg hshots]
    refine (foldlM_pushBack h (Nat.zero_le _)).trans ?_
    rw [List.length_nil, Nat.zero_add, List.nil_append, and_iff_right (Nat.le_of_not_lt hshots)]

/-! ### Bitstrings -/

def IsBinary (key : Bytes) : Prop := ∀ c ∈ key, c = 48 ∨ c = 49

theorem bitsOf_succ (k value : ℕ) (b : Bool) :
    bitsOf (k + 1) (Nat.bit b value) = bitsOf k value ++ [bitChar b] := by
  unfold bitsOf
  rw [List.range_succ_eq_map, List.map_cons, List.reverse_cons, List.map_map, Nat.testBit_bit_zero]
  congr 2
  exact List.map_congr_left fun j _ => congrArg bitChar (Nat.testBit_bit_succ j b value)

theorem valueOf_snoc (digits : Bytes) (b : Bool) :
    valueOf 2 (digits ++ [bitChar b]) = Nat.bit b (valueOf 2 digits) := by
  unfold valueOf
  rw [List.foldl_append, Nat.bit_val]
  cases b <;> rfl

/-- **The bits of the number are the string**, leading zeros included. -/
theorem bitsOf_valueOf {key : Bytes} (h : IsBinary key) :
    bitsOf key.length (valueOf 2 key) = key ∧ valueOf 2 key < 2 ^ key.length := by
  induction key using List.reverseRecOn with
  | nil => exact ⟨rfl, by decide⟩
  | append_singleton digits c ih =>
    obtain ⟨hbits, hlt⟩ := ih fun c hc => h c (List.mem_append_left _ hc)
    obtain ⟨b, rfl⟩ : ∃ b, c = bitChar b := by
      rcases h c (List.mem_append_right _ (List.mem_singleton_self c)) with rfl | rfl
      · exact ⟨false, rfl⟩
      · exact ⟨true, rfl⟩
    rw [List.length_append, List.length_singleton, valueOf_snoc, bitsOf_succ, hbits]
    refine ⟨rfl, ?_⟩
    rw [Nat.bit_val, pow_succ]
    have := b.toNat_le
    omega

/-- Binary digits have no space and no sign before them, and are all converted. -/
theorem digitsOf_binary {key : Bytes} (h : IsBinary key) :
    key.dropWhile isSpace = key ∧ digitsOf 2 key = key ∧ key.head? ≠ some 45 := by
  have hhead : ∀ c, key.head? = some c → c = 48 ∨ c = 49 := fun c hc => h c (List.mem_of_head? hc)
  have hsign : ∀ c : UInt8, c = 43 ∨ c = 45 → key.head? ≠ some c := by
    intro c hc heq
    rcases hhead c heq with rfl | rfl <;> revert hc <;> decide
  have hdigit : ∀ x ∈ key, isDigit 2 x = true := by
    intro x hx
    have hx := h x hx
    generalize x = x at hx
    rcases hx with rfl | rfl <;> decide
  refine ⟨?_, ?_, hsign 45 (.inr rfl)⟩
  · cases key with
    | nil => rfl
    | cons c digits =>
      have hspace : isSpace c = false := by rcases hhead c rfl with rfl | rfl <;> decide
      rw [List.dropWhile_cons_of_neg (by rw [hspace]; decide)]
  · unfold digitsOf
    rw [if_neg (not_or.mpr ⟨hsign 43 (.inl rfl), hsign 45 (.inr rfl)⟩),
      List.takeWhile_eq_self_iff.mpr hdigit]

/-- A bitstring of up to 64 digits is read as its number. -/
theorem stoull_binary {key : Bytes} (h : IsBinary key) (hpos : key ≠ []) (hlen : key.length ≤ 64) :
    stoull 2 key = .ok (valueOf 2 key) := by
  obtain ⟨hdrop, hdigits, hsign⟩ := digitsOf_binary h
  have hvalue : valueOf 2 key < 2 ^ 64 :=
    (bitsOf_valueOf h).2.trans_le (Nat.pow_le_pow_right (by decide) hlen)
  unfold stoull
  rw [hdrop]
  dsimp only
  rw [hdigits, if_neg (by rwa [List.isEmpty_iff]), if_neg (by omega), if_neg hsign]
  rfl

/-! ### Maps of counts -/

/-- A map from binary strings of `m` characters to positive counts. -/
structure CountMap (m : ℕ) where
  entries : List (Bytes × ℕ)
  sorted : Sorted entries
  nonempty : entries ≠ []
  binary : ∀ e ∈ entries, IsBinary e.1
  length : ∀ e ∈ entries, e.1.length = m
  pos : ∀ e ∈ entries, 0 < e.2
  lt : ∀ e ∈ entries, e.2 < 2 ^ 64

namespace CountMap

variable {m : ℕ} (c : CountMap m)

/-- The entries with the counts as numbers of some kind. -/
def toEntries (num : ℕ → Json) : List (Bytes × Json) := c.entries.map fun e => (e.1, num e.2)

def outcomes : List ℕ := c.entries.flatMap fun e => List.replicate e.2 (valueOf 2 e.1)

def total : ℕ := (c.entries.map Prod.snd).sum

/-- **The expansion** of the counts. -/
theorem expandCounts_toEntries (h1 : 1 ≤ m) (h64 : m ≤ 64) {num : ℕ → Json}
    (hnum : ∀ n < 2 ^ 64, (num n).getSize = .ok n) {V : OutcomeVector} {shots : ℕ} {outcomes : List ℕ} :
    expandCounts V shots (c.toEntries num) = .ok outcomes ↔
      (shots ≤ V.maxSize ∧ c.total ≤ V.maxSize) ∧ outcomes = c.outcomes := by
  have hcount : ∀ e ∈ c.entries, countOf (num e.2) = e.2 := fun e he => countOf_eq (hnum _ (c.lt e he))
  have hread : ∀ e ∈ c.toEntries num, ReadAs (valueOf 2) e := by
    intro e he
    obtain ⟨e', he', rfl⟩ := List.mem_map.mp he
    have hlen := c.length e' he'
    have hne : e'.1 ≠ [] := by
      rintro h0
      rw [h0, List.length_nil] at hlen
      omega
    have h64' : e'.1.length ≤ 64 := hlen ▸ h64
    refine ⟨stoull_binary (c.binary e' he') hne h64', ?_⟩
    rw [hcount e' he']
    exact hnum _ (c.lt e' he')
  have htotal : ((c.toEntries num).map fun e => countOf e.2) = c.entries.map Prod.snd := by
    rw [toEntries, List.map_map]
    exact List.map_congr_left hcount
  have houtcomes : ((c.toEntries num).flatMap fun e => List.replicate (countOf e.2) (valueOf 2 e.1)) = c.outcomes := by
    rw [toEntries, List.flatMap_map]
    exact List.flatMap_congr fun e he => by rw [hcount e he]
  rw [expandCounts_readAs hread, OutcomeVector.Fits, htotal, houtcomes]
  rfl

/-- **Counting the outcomes** gives the map. -/
theorem countShots_outcomes (h64 : m ≤ 64) : countShots m c.outcomes [] = .ok c.entries := by
  obtain ⟨counts, hcounts, htally⟩ := countShots_tally h64 c.outcomes Tally.nil
  have hkeys : c.outcomes.map (bitsOf m) ++ [] = c.entries.flatMap fun e => List.replicate e.2 e.1 := by
    unfold outcomes
    rw [List.append_nil, List.map_flatMap]
    refine List.flatMap_congr fun e he => ?_
    rw [List.map_replicate, ← c.length e he, (bitsOf_valueOf (c.binary e he)).1]
  rw [hkeys] at htally
  rw [hcounts, htally.unique (Tally.of_replicate c.sorted c.pos)]

theorem sorted_toEntries (num : ℕ → Json) : Sorted (c.toEntries num) := by
  unfold toEntries Sorted
  rw [List.pairwise_map]
  exact c.sorted

end CountMap

/-! ### Containers -/

/-- Where CUNQA finds the counts. -/
inductive CunqaContainer (counts : Json) : Json → Prop
  | counts : CunqaContainer counts (.object [(ascii "counts", counts)])
  | results : CunqaContainer counts
      (.object [(ascii "results", .array [.object [(ascii "data", .object [(ascii "counts", counts)])]])])

/-- Where QMIO finds the counts. -/
inductive QmioContainer (counts : Json) : Json → Prop
  | plain : QmioContainer counts counts
  | counts : QmioContainer counts (.object [(ascii "counts", counts)])
  | results (register : Bytes) : QmioContainer counts (.object [(ascii "results", .object [(register, counts)])])

theorem QmioContainer.object {entries : List (Bytes × Json)} {value : Json}
    (h : QmioContainer (.object entries) value) :
    ∃ es, value = .object es := by
  cases h with
  | plain => exact ⟨_, rfl⟩
  | counts => exact ⟨_, rfl⟩
  | results => exact ⟨_, rfl⟩

theorem cunqaCounts_container {counts response : Json} (h : CunqaContainer counts response) :
    response.contains "ERROR" = false ∧ cunqaCounts response = .ok counts := by
  cases h with
  | counts => exact ⟨rfl, rfl⟩
  | results => exact ⟨rfl, rfl⟩

namespace Qmio

theorem normalizeBitstring_binary {key : Bytes} (h : IsBinary key) : normalizeBitstring key = key := by
  unfold normalizeBitstring
  rw [List.filter_eq_self]
  intro x hx
  have hx := h x hx
  generalize x = x at hx
  rcases hx with rfl | rfl <;> decide

/-- The entries under the keys they are stored under. -/
def stripped (entries : Entries) : Entries := entries.map fun e => (normalizeBitstring e.1, e.2)

/-- Counts are stored one after another, if they are counts. -/
theorem countsEntries_insertAll : ∀ entries out : Entries, countsEntries entries out =
    if ∀ e ∈ entries, isCount e.2 = true then some (insertAll (stripped entries) out) else none
  | [], out => by
    unfold countsEntries
    rw [if_pos nofun]
    rfl
  | (key, val) :: entries, out => by
    unfold countsEntries
    rw [countsEntries_insertAll entries]
    have hcons : (∀ e ∈ (key, val) :: entries, isCount e.2 = true) ↔
        isCount val = true ∧ ∀ e ∈ entries, isCount e.2 = true := List.forall_mem_cons
    by_cases hval : isCount val = true
    · rw [if_pos hval]
      by_cases hall : ∀ e ∈ entries, isCount e.2 = true
      · rw [if_pos hall, if_pos (hcons.mpr ⟨hval, hall⟩)]
        rfl
      · rw [if_neg hall, if_neg fun hc => hall (hcons.mp hc).2]
    · rw [if_neg hval, if_neg fun hc => hval (hcons.mp hc).1]

theorem stripped_binary {entries : Entries} (h : ∀ e ∈ entries, IsBinary e.1) : stripped entries = entries := by
  have hid : ∀ e ∈ entries, (normalizeBitstring e.1, e.2) = e := fun e he => by
    rw [normalizeBitstring_binary (h e he)]
  unfold stripped
  rw [List.map_congr_left hid, List.map_id']

variable {m : ℕ} (c : CountMap m) {num : ℕ → Json}

/-- Every count is taken as a `long long` that is not negative. -/
def Counted (num : ℕ → Json) : Prop := ∀ e ∈ c.entries, isCount (num e.2) = true

instance : Decidable (Counted c num) := List.decidableBAll _ _

/-- The counts are all taken, or the object is not one of counts. -/
theorem asCountsObject_toEntries : asCountsObject (.object (c.toEntries num)) =
    if Counted c num then some (c.toEntries num) else none := by
  have hbinary : ∀ e ∈ c.toEntries num, IsBinary e.1 := by
    intro e he
    obtain ⟨e', he', rfl⟩ := List.mem_map.mp he
    exact c.binary e' he'
  have hne : (c.toEntries num).isEmpty = false := by
    unfold CountMap.toEntries
    rw [List.isEmpty_map, List.isEmpty_eq_false_iff]
    exact c.nonempty
  have hall : (∀ e ∈ c.toEntries num, isCount e.2 = true) ↔ Counted c num := by
    unfold CountMap.toEntries Counted
    rw [List.forall_mem_map]
  unfold asCountsObject
  dsimp only
  rw [hne, if_neg Bool.false_ne_true, countsEntries_insertAll, stripped_binary hbinary,
    insertAll_nil (c.sorted_toEntries num)]
  simp only [hall]

theorem addCounts_new (hnum : ∀ n < 2 ^ 64, (num n).getSize = .ok n) :
    ∀ {l : List (Bytes × ℕ)} {merged : Entries}, l.Pairwise (·.1 < ·.1) → (∀ e ∈ l, e.2 < 2 ^ 64) →
      (∀ e ∈ l, ∀ e' ∈ merged, e'.1 ≠ e.1) →
      addCounts (l.map fun e => (e.1, num e.2)) merged =
        .ok (insertAll (l.map fun e => (e.1, Json.unsigned e.2)) merged)
  | [], merged, _, _, _ => rfl
  | e :: l, merged, hs, hlt, hnew => by
    obtain ⟨hhead, htail⟩ := List.pairwise_cons.mp hs
    have hprevious : previous e.1 merged = .ok 0 := by
      have hnone : merged.lookup e.1 = none := by
        rw [List.lookup_eq_none_iff]
        intro e' he'
        rw [bne_iff_ne]
        exact (hnew e List.mem_cons_self e' he').symm
      unfold previous
      rw [hnone]
      rfl
    have hvalue : (0 + e.2) % 2 ^ 64 = e.2 := by
      rw [Nat.zero_add, Nat.mod_eq_of_lt (hlt e List.mem_cons_self)]
    rw [List.map_cons, List.map_cons]
    unfold addCounts
    rw [hprevious, ok_bind, hnum e.2 (hlt e List.mem_cons_self), ok_bind, hvalue]
    refine addCounts_new hnum htail (fun e he => hlt e (List.mem_cons_of_mem _ he)) fun e₁ h₁ e₂ h₂ => ?_
    rcases mem_insert h₂ with rfl | h₂
    · exact (hhead e₁ h₁).ne
    · exact hnew e₁ (List.mem_cons_of_mem _ h₁) e₂ h₂

theorem asRegisterCounts_single (hnum : ∀ n < 2 ^ 64, (num n).getSize = .ok n) (register : Bytes) :
    asRegisterCounts (.object [(register, .object (c.toEntries num))]) =
      .ok (if Counted c num then some (c.toEntries .unsigned) else none) := by
  have hmerged : addCounts (c.toEntries num) [] = .ok (c.toEntries .unsigned) := by
    unfold CountMap.toEntries
    rw [addCounts_new hnum c.sorted c.lt fun _ _ _ he' => absurd he' List.not_mem_nil]
    exact congrArg Except.ok (insertAll_nil (c.sorted_toEntries .unsigned))
  show (match asCountsObject (.object (c.toEntries num)) with
    | none => return none
    | some counts => addCounts counts [] >>= mergeRegisters []) = _
  rw [asCountsObject_toEntries]
  by_cases hc : Counted c num
  · rw [if_pos hc, if_pos hc]
    dsimp only
    rw [hmerged]
    rfl
  · rw [if_neg hc, if_neg hc]
    rfl

/-! ### The search -/

theorem asCountsObject_nested (key : Bytes) (entries : Entries) :
    asCountsObject (.object [(key, .object entries)]) = none := rfl

theorem mem_of_lookup {entries : Entries} {key : Bytes} {v : Json} (h : entries.lookup key = some v) :
    (key, v) ∈ entries := by
  obtain ⟨l₁, l₂, rfl, -⟩ := List.lookup_eq_some_iff.mp h
  exact List.mem_append_right _ List.mem_cons_self

/-- No value of the object is a counts object. -/
theorem known_none {entries : Entries} (h : ∀ e ∈ entries, asCountsObject e.2 = none) (keys : List String) :
    (keys.findSome? fun key => (entries.lookup (ascii key)).bind asCountsObject) = none := by
  rw [List.findSome?_eq_none_iff]
  intro key _
  rcases hv : entries.lookup (ascii key) with _ | v
  · rfl
  · exact h _ (mem_of_lookup hv)

theorem findRegisters_none {entries : Entries} (h : ∀ e ∈ entries, asRegisterCounts e.2 = .ok none) :
    ∀ keys : List String, findRegisters entries keys = .ok none
  | [] => rfl
  | key :: keys => by
    unfold findRegisters
    rcases hv : entries.lookup (ascii key) with _ | v
    · exact findRegisters_none h keys
    · dsimp only
      rw [h _ (mem_of_lookup hv), ok_bind]
      exact findRegisters_none h keys

theorem countsOfEntries_error {entries : Entries} (hcounts : ∀ e ∈ entries, asCountsObject e.2 = none)
    (hregisters : ∀ e ∈ entries, asRegisterCounts e.2 = .ok none) :
    countsOfEntries entries = .error notLocated := by
  have hlast : (entries.findSome? fun e => asCountsObject e.2) = none := by
    rw [List.findSome?_eq_none_iff]
    exact hcounts
  unfold countsOfEntries
  dsimp only
  rw [known_none hcounts]
  dsimp only
  rw [findRegisters_none hregisters, ok_bind, hlast]
  rfl

/-- A number that the counts are given as. -/
inductive Numeral : (ℕ → Json) → Prop
  | unsigned : Numeral .unsigned
  | integer : Numeral fun n => .integer n

namespace Numeral

theorem getSize (h : Numeral num) : ∀ n < 2 ^ 64, (num n).getSize = .ok n := by
  intro n hn
  cases h with
  | unsigned => rfl
  | integer =>
    show Except.ok ((n : ℤ) % 2 ^ 64).toNat = _
    congr 1
    omega

theorem asCountsObject (h : Numeral num) (n : ℕ) : asCountsObject (num n) = none := by
  cases h <;> rfl

theorem asRegisterCounts (h : Numeral num) (n : ℕ) : asRegisterCounts (num n) = .ok none := by
  cases h <;> rfl

end Numeral

theorem counted_integer : Counted c fun n => .integer n := fun e _ => decide_eq_true (Int.natCast_nonneg e.2)

theorem counted_unsigned : Counted c .unsigned ↔ ∀ e ∈ c.entries, e.2 < 2 ^ 63 := by
  refine forall₂_congr fun e he => ?_
  have hlt := c.lt e he
  have hint : (BitVec.ofNat 64 e.2).toInt = if 2 * e.2 < 2 ^ 64 then (e.2 : ℤ) else e.2 - 2 ^ 64 := by
    rw [BitVec.toInt_eq_toNat_cond, BitVec.toNat_ofNat, Nat.mod_eq_of_lt hlt]
    rfl
  unfold isCount
  rw [decide_eq_true_iff, hint]
  split <;> omega

/-- **The counts are found** in every container, -/
theorem countsFromJson_found (hnum : Numeral num) (hc : Counted c num) {value : Json}
    (h : QmioContainer (.object (c.toEntries num)) value) :
    ∃ num', Numeral num' ∧ countsFromJson value = .ok (c.toEntries num') := by
  have hdirect : asCountsObject (.object (c.toEntries num)) = some (c.toEntries num) := by
    rw [asCountsObject_toEntries, if_pos hc]
  cases h with
  | plain =>
    refine ⟨num, hnum, ?_⟩
    unfold countsFromJson
    rw [hdirect]
    rfl
  | counts =>
    have hlookup : [(ascii "counts", Json.object (c.toEntries num))].lookup (ascii "counts") =
        some (.object (c.toEntries num)) := List.lookup_cons_self
    refine ⟨num, hnum, ?_⟩
    unfold countsFromJson
    rw [asCountsObject_nested]
    dsimp only
    unfold countsOfEntries
    rw [List.findSome?_cons, hlookup, Option.bind_some, hdirect]
    rfl
  | results register =>
    have hlookup : [(ascii "results", Json.object [(register, .object (c.toEntries num))])].lookup
        (ascii "results") = some (.object [(register, .object (c.toEntries num))]) := List.lookup_cons_self
    refine ⟨.unsigned, .unsigned, ?_⟩
    unfold countsFromJson
    rw [asCountsObject_nested]
    dsimp only
    unfold countsOfEntries
    dsimp only
    rw [known_none fun e he => by rw [List.mem_singleton.mp he]; exact asCountsObject_nested _ _]
    dsimp only
    unfold findRegisters
    rw [hlookup]
    dsimp only
    rw [asRegisterCounts_single c hnum.getSize register, if_pos hc]
    rfl

/-- or they are found in none. -/
theorem countsFromJson_error (hnum : Numeral num) (hc : ¬ Counted c num) {value : Json}
    (h : QmioContainer (.object (c.toEntries num)) value) : countsFromJson value = .error notLocated := by
  have hdirect : asCountsObject (.object (c.toEntries num)) = none := by
    rw [asCountsObject_toEntries, if_neg hc]
  have hnumbers : ∀ e ∈ c.toEntries num, asCountsObject e.2 = none ∧ asRegisterCounts e.2 = .ok none := by
    intro e he
    obtain ⟨e', -, rfl⟩ := List.mem_map.mp he
    exact ⟨hnum.asCountsObject e'.2, hnum.asRegisterCounts e'.2⟩
  have hregisters : asRegisterCounts (.object (c.toEntries num)) = .ok none := by
    have hne : c.toEntries num ≠ [] := fun h0 => c.nonempty (List.map_eq_nil_iff.mp h0)
    obtain ⟨e, es, he⟩ := List.exists_cons_of_ne_nil hne
    have hfirst := (hnumbers e (he ▸ List.mem_cons_self)).1
    rw [he]
    show (match asCountsObject e.2 with
      | none => return none
      | some counts => addCounts counts [] >>= mergeRegisters es) = _
    rw [hfirst]
    rfl
  cases h with
  | plain =>
    unfold countsFromJson
    rw [hdirect]
    exact countsOfEntries_error (fun e he => (hnumbers e he).1) fun e he => (hnumbers e he).2
  | counts =>
    unfold countsFromJson
    rw [asCountsObject_nested]
    refine countsOfEntries_error (fun e he => ?_) fun e he => ?_
    · rw [List.mem_singleton.mp he]
      exact hdirect
    · rw [List.mem_singleton.mp he]
      exact hregisters
  | results register =>
    unfold countsFromJson
    rw [asCountsObject_nested]
    refine countsOfEntries_error (fun e he => ?_) fun e he => ?_
    · rw [List.mem_singleton.mp he]
      exact asCountsObject_nested _ _
    · rw [List.mem_singleton.mp he, asRegisterCounts_single c hnum.getSize register, if_neg hc]

end Qmio

/-! ### Replies -/

/-- A Python value where QMIO finds the counts. -/
inductive PyContainer (counts : SafePickle.PyVal) : SafePickle.PyVal → Prop
  | plain : PyContainer counts counts
  | counts : PyContainer counts (.dict [(ascii "counts", counts)])
  | results (register : Bytes) : PyContainer counts (.dict [(ascii "results", .dict [(register, counts)])])

theorem PyContainer.toJson {counts v : SafePickle.PyVal} (h : PyContainer counts v) :
    QmioContainer counts.toJson v.toJson := by
  cases h with
  | plain => exact .plain
  | counts =>
    rw [SafePickle.toJson_dict]
    exact .counts
  | results register =>
    rw [SafePickle.toJson_dict]
    have hinner : (SafePickle.PyVal.dict [(register, counts)]).toJson = .object [(register, counts.toJson)] :=
      SafePickle.toJson_dict _
    simp only [List.map_cons, List.map_nil, hinner]
    exact .results register

theorem PyContainer.narrow {counts v : SafePickle.PyVal} (h : PyContainer counts v) :
    v.Narrow ↔ counts.Narrow := by
  cases h with
  | plain => rfl
  | counts => simp
  | results register => simp

section Replies

variable {m : ℕ} (c : CountMap m) (parse : Bytes → Except Exn Json) (reply : Bytes)

/-- The counts as JSON text. -/
def CunqaReply : Prop :=
  ∃ response, parse reply = .ok response ∧ CunqaContainer (.object (c.toEntries .unsigned)) response

/-- A pickled dict, whose entries may come in any order. -/
def DictReply : Prop :=
  ∃ (entries : List (Bytes × ℕ)) (v : SafePickle.PyVal), entries.Perm c.entries ∧
    PyContainer (.dict (entries.map fun e => (e.1, .int e.2))) v ∧
    SafePickle.PickledWith SafePickle.AnyToken v reply

/-- JSON text in a pickled string. -/
def TextReply : Prop :=
  ∃ s value, SafePickle.Pickled (.str s) reply ∧ parse s = .ok value ∧
    QmioContainer (.object (c.toEntries .unsigned)) value

/-- The library grants strings and a memo of the length of the reply. -/
structure Granted (P : SafePickle.Platform) (reply : Bytes) : Prop where
  string : reply.length ≤ P.maxString
  memo : ∀ n ≤ reply.length, P.grants n = true

variable {c parse reply} {V : OutcomeVector} {P : SafePickle.Platform} {shots : ℕ}

theorem cunqaOutcomes_reply (h1 : 1 ≤ m) (h64 : m ≤ 64) (hfits : shots ≤ V.maxSize ∧ c.total ≤ V.maxSize)
    (h : CunqaReply c parse reply) :
    cunqaOutcomes V parse shots reply = .ok c.outcomes := by
  obtain ⟨response, hparse, hcontainer⟩ := h
  obtain ⟨herror, hcounts⟩ := cunqaCounts_container hcontainer
  unfold cunqaOutcomes
  rw [hparse, ok_bind, herror, if_neg Bool.false_ne_true, hcounts, ok_bind]
  exact (c.expandCounts_toEntries h1 h64 fun n _ => rfl).mpr ⟨hfits, rfl⟩

/-- A pickled value, as `submit_circuit` reads it. -/
theorem qmioOutcomes_pickled (hP : Granted P reply) {v : SafePickle.PyVal} (h : SafePickle.Pickled v reply) :
    Qmio.qmioOutcomes V P parse shots reply = (do
      let value ← Qmio.replyJson parse v.toJson
      let counts ← Qmio.countsFromJson value
      expandCounts V shots counts) := by
  have hlt : reply.length < 2 ^ 63 := hP.string.trans_lt P.maxString_lt
  unfold Qmio.qmioOutcomes
  rw [dif_pos hlt, SafePickle.decode_stream (b := ⟨reply, hlt⟩) hP.string hP.memo h]
  rfl

theorem toJson_counts {entries : List (Bytes × ℕ)} (h : entries.Perm c.entries) :
    (SafePickle.PyVal.dict (entries.map fun e => (e.1, .int e.2))).toJson =
      .object (c.toEntries fun n => .integer n) := by
  have hkeys : ((entries.map fun e => (e.1, SafePickle.PyVal.int e.2)).map Prod.fst).Nodup := by
    rw [List.map_map]
    refine ((h.map Prod.fst).nodup_iff).mpr ?_
    rw [List.nodup_iff_pairwise_ne, List.pairwise_map]
    exact c.sorted.imp ne_of_lt
  obtain ⟨sorted, hjson, hsorted, hperm⟩ := SafePickle.perm_toJson_dict hkeys
  have hvalues : (entries.map fun e => (e.1, SafePickle.PyVal.int e.2)).map (fun e => (e.1, e.2.toJson)) =
      entries.map fun e => (e.1, Json.integer e.2) := by
    rw [List.map_map]
    exact List.map_congr_left fun e _ => by
      show (e.1, (SafePickle.PyVal.int e.2).toJson) = _
      rw [SafePickle.PyVal.toJson]
  rw [hvalues] at hperm
  have hall : sorted.Perm (c.toEntries fun n => .integer n) := hperm.trans (h.map _)
  rw [hjson, hall.eq_of_pairwise (fun a b _ _ hab hba => absurd hba hab.asymm) hsorted (c.sorted_toEntries _)]

theorem narrow_counts {entries : List (Bytes × ℕ)} (h : entries.Perm c.entries) :
    (SafePickle.PyVal.dict (entries.map fun e => (e.1, .int e.2))).Narrow ↔ ∀ e ∈ c.entries, e.2 < 2 ^ 63 := by
  rw [SafePickle.narrow_dict, List.forall_mem_map]
  refine ⟨fun hall e he => ?_, fun hall e he => ?_⟩
  · have hfits := SafePickle.narrow_int.mp (hall e (h.mem_iff.mpr he))
    unfold SafePickle.Fits64 at hfits
    omega
  · have hlt := hall e (h.mem_iff.mp he)
    refine SafePickle.narrow_int.mpr ?_
    unfold SafePickle.Fits64
    omega

/-- What comes of a reply with these counts: their expansion, or an error if some count is not a
`long long`. -/
def Expanded (c : CountMap m) (V : OutcomeVector) (shots : ℕ) (r : Except Exn (List ℕ)) : Prop :=
  (∃ num : ℕ → Json, (∀ n < 2 ^ 64, (num n).getSize = .ok n) ∧ r = expandCounts V shots (c.toEntries num)) ∨
    (¬ ∀ e ∈ c.entries, e.2 < 2 ^ 63) ∧ ∃ e, r = .error e

/-- Only numbers of 64 bits are decoded. -/
theorem expanded_dict (hP : Granted P reply) (h : DictReply c reply) :
    Expanded c V shots (Qmio.qmioOutcomes V P parse shots reply) := by
  obtain ⟨entries, v, hperm, hcontainer, hpickled⟩ := h
  have hlt : reply.length < 2 ^ 63 := hP.string.trans_lt P.maxString_lt
  unfold Expanded
  rw [← narrow_counts hperm, ← hcontainer.narrow]
  rcases SafePickle.decode_wide (b := ⟨reply, hlt⟩) hP.string hP.memo hpickled with
    ⟨-, hpickled⟩ | ⟨hnarrow, e, herror⟩
  · have hjson := hcontainer.toJson
    rw [toJson_counts hperm] at hjson
    have hreply : Qmio.replyJson parse v.toJson = .ok v.toJson := by
      obtain ⟨es, hes⟩ := hjson.object
      rw [hes]
      rfl
    obtain ⟨num, hnum, hfound⟩ := Qmio.countsFromJson_found c .integer (Qmio.counted_integer c) hjson
    refine .inl ⟨num, hnum.getSize, ?_⟩
    rw [qmioOutcomes_pickled hP hpickled, hreply, ok_bind, hfound, ok_bind]
  · refine .inr ⟨hnarrow, e, ?_⟩
    unfold Qmio.qmioOutcomes
    rw [dif_pos hlt, herror]
    rfl

/-- Only counts that are a `long long` are found in JSON text. -/
theorem expanded_text (hP : Granted P reply) (h : TextReply c parse reply) :
    Expanded c V shots (Qmio.qmioOutcomes V P parse shots reply) := by
  obtain ⟨s, value, hpickled, hparse, hcontainer⟩ := h
  have hreply : Qmio.replyJson parse (SafePickle.PyVal.str s).toJson = .ok value := by
    rw [SafePickle.toJson_str]
    exact hparse
  rw [qmioOutcomes_pickled hP hpickled, hreply, ok_bind]
  by_cases hc : ∀ e ∈ c.entries, e.2 < 2 ^ 63
  · obtain ⟨num, hnum, hfound⟩ :=
      Qmio.countsFromJson_found c .unsigned ((Qmio.counted_unsigned c).mpr hc) hcontainer
    refine .inl ⟨num, hnum.getSize, ?_⟩
    rw [hfound, ok_bind]
  · refine .inr ⟨hc, Qmio.notLocated, ?_⟩
    rw [Qmio.countsFromJson_error c .unsigned (mt (Qmio.counted_unsigned c).mp hc) hcontainer]
    rfl

/-- Counts that are not a `long long` have no room in any vector. -/
theorem Expanded.eq_ok (h1 : 1 ≤ m) (h64 : m ≤ 64) {r : Except Exn (List ℕ)} (h : Expanded c V shots r)
    {outcomes : List ℕ} :
    r = .ok outcomes ↔ (shots ≤ V.maxSize ∧ c.total ≤ V.maxSize) ∧ outcomes = c.outcomes := by
  obtain ⟨num, hnum, rfl⟩ | ⟨hlarge, e, rfl⟩ := h
  · exact c.expandCounts_toEntries h1 h64 hnum
  · refine ⟨nofun, fun ⟨⟨_, htotal⟩, _⟩ => absurd (fun e he => ?_) hlarge⟩
    have hle : e.2 ≤ c.total := List.single_le_sum (fun _ _ => Nat.zero_le _) _ (List.mem_map_of_mem he)
    have hmax := V.maxSize_lt
    omega

end Replies

/-! ### Deliveries -/

namespace CUNQABackend

variable {ν φ : Type} (N : Network ν (List ℕ)) (F : Simulator φ (List ℕ))

/-- The vQPU answers the submission of the buffered circuit. -/
def Answers (s : CUNQABackend ν φ) (qubits : List ℕ) (shots : ℕ) (reply : Bytes) : Prop :=
  ∃ entry is n₁ n₂, s.qpu = some entry ∧ taskInstructions s.numQubits s.gateBuffer qubits = .ok is ∧
    exec (N.send entry (s.task entry is qubits shots)) s.network = (.ok (), n₁) ∧
    exec (N.receive entry) n₁ = (.ok (some reply), n₂)

/-- The reply to `sample`: to the first submission, or to the second one after that failed. -/
def Delivers (s : CUNQABackend ν φ) (qubits : List ℕ) (shots : ℕ) (reply : Bytes) : Prop :=
  s.usingCunqa = true ∧ (Answers N s qubits shots reply ∨ ∃ e s₁ s₂,
    exec (runOnCunqa N qubits shots) s = (.error e, s₁) ∧ exec (discoverQpu N) s₁ = (.ok (), s₂) ∧
      s₂.usingCunqa = true ∧ Answers N s₂ qubits shots reply)

variable {N} {s : CUNQABackend ν φ} {qubits : List ℕ} {shots : ℕ} {reply : Bytes}

theorem exec_runOnCunqa_answers (h : Answers N s qubits shots reply) :
    (exec (runOnCunqa N qubits shots) s).1 = N.outcomes shots reply := by
  obtain ⟨entry, is, n₁, n₂, hq, hi, hsend, hreceive⟩ := h
  unfold runOnCunqa
  rw [exec_get_bind]
  rw [exec_bind, exec_lift, hi, hq]
  dsimp only
  rw [exec_modify_bind]
  rw [exec_bind, onNetwork, exec_zoom]
  dsimp only
  rw [hsend]
  dsimp only
  rw [exec_bind, onNetwork, exec_zoom]
  dsimp only
  rw [hreceive]
  rfl

theorem exec_sample_delivers (h : Delivers N s qubits shots reply) {raw : List ℕ}
    (hraw : N.outcomes shots reply = .ok raw) :
    (exec (sample N F qubits shots) s).1 = .ok raw := by
  obtain ⟨hs, hanswers⟩ := h
  unfold sample
  rw [exec_get_bind]
  rw [if_pos hs, exec_tryCatch]
  rcases hanswers with hanswers | ⟨e, s₁, s₂, hfirst, hdiscover, hs₂, hanswers⟩
  · have hx := exec_runOnCunqa_answers hanswers
    rw [hraw] at hx
    rcases hr : exec (runOnCunqa N qubits shots) s with ⟨e | a, s'⟩
    · rw [hr] at hx
      cases hx
    · rw [hr] at hx
      exact hx
  · rw [hfirst]
    dsimp only
    unfold handleFailure
    rw [exec_bind, hdiscover]
    dsimp only
    rw [exec_get_bind]
    rw [if_pos hs₂, exec_runOnCunqa_answers hanswers, hraw]

end CUNQABackend

namespace Qmio

variable {φ : Type} (env : Environment) (cfg : Settings)
  (encode : ℕ → List (GateOp ℝ) → List ℕ → ℕ → Except Exn (List UInt8))

/-- The reply to the submission of the buffered circuit. -/
def Delivers (s : QPUBackend Connection φ) (qubits : List ℕ) (shots : ℕ) (reply : Bytes) : Prop :=
  s.deviceAvailable = true ∧ ∃ request conn, encode s.numQubits s.gateBuffer qubits shots = .ok request ∧
    exec (sendAndReceive env cfg request) s.device = (.ok reply, conn)

variable {env cfg encode} {s : QPUBackend Connection φ} {qubits : List ℕ} {shots : ℕ} {reply : Bytes}

theorem exec_sample_delivers {decode : ℕ → List UInt8 → Except Exn (List ℕ)} {F : Simulator φ (List ℕ)}
    (h : Delivers env cfg encode s qubits shots reply) (hq : qubits.isEmpty = false) :
    (exec (QPUBackend.sample (qmioDevice env cfg encode decode) F qubits shots) s).1 = decode shots reply := by
  obtain ⟨hs, request, conn, hencode, hreply⟩ := h
  have hsubmit : exec (QPUBackend.submission (qmioDevice env cfg encode decode) s qubits shots) s.device =
      (decode shots reply, conn) := by
    unfold QPUBackend.submission qmioDevice
    rw [hq, if_neg Bool.false_ne_true]
    dsimp only
    rw [exec_bind, exec_lift, hencode]
    dsimp only
    rw [exec_bind, hreply]
    rfl
  rcases hd : decode shots reply with e | raw
  · rw [hd] at hsubmit
    rw [QPUBackend.exec_sample_error hs hsubmit, QPUBackend.exec_handleFailure]
    dsimp only
    rw [hs]
    rfl
  · rw [hd] at hsubmit
    rw [QPUBackend.exec_sample_ok hs hsubmit]

end Qmio

/-! ### The round trip -/

section RoundTrip

variable {ν φ : Type}

theorem readout_ne_nil {m : ℕ} (h1 : 1 ≤ m) {circuit : Circuit ℝ} (hm : circuit.readout.length = m) :
    circuit.readout.isEmpty = false := by
  rw [List.isEmpty_eq_false_iff, ← List.length_pos_iff]
  omega

/-- **The round trip of the counts.** If the vector of the outcomes has room for the shots,
`sample_counts` returns the map of the reply; on QMIO, which submits once, it does exactly then. -/
theorem sampleCounts_remote {m : ℕ} (h1 : 1 ≤ m) (h64 : m ≤ 64) (c : CountMap m) {circuit : Circuit ℝ}
    (hm : circuit.readout.length = m) (V : OutcomeVector) (shots : ℕ) (parse : Bytes → Except Exn Json)
    (reply : Bytes) :
    (∀ (N : Network ν (List ℕ)) (F : Simulator φ (List ℕ)) (rt : QuantumRuntime (CUNQABackend ν φ)) s,
      N.outcomes = cunqaOutcomes V parse → CunqaReply c parse reply →
      exec (run (CUNQABackend.simulator N F) circuit) rt = (.ok (), ⟨s, circuit.numQubits⟩) →
      CUNQABackend.Delivers N s circuit.readout shots reply → shots ≤ V.maxSize ∧ c.total ≤ V.maxSize →
      (exec (sampleCounts (CUNQABackend.simulator N F) circuit shots) rt).1 = .ok c.entries) ∧
    ∀ (env : Qmio.Environment) (cfg : Qmio.Settings)
      (encode : ℕ → List (GateOp ℝ) → List ℕ → ℕ → Except Exn (List UInt8)) (P : SafePickle.Platform)
      (F : Simulator φ (List ℕ)) (rt : QuantumRuntime (QPUBackend Qmio.Connection φ)) s,
      let B := QPUBackend.simulator (Qmio.qmioDevice env cfg encode (Qmio.qmioOutcomes V P parse)) F
      Granted P reply → exec (run B circuit) rt = (.ok (), ⟨s, circuit.numQubits⟩) →
      Qmio.Delivers env cfg encode s circuit.readout shots reply →
      DictReply c reply ∨ TextReply c parse reply →
      ((exec (sampleCounts B circuit shots) rt).1 = .ok c.entries ↔
        shots ≤ V.maxSize ∧ c.total ≤ V.maxSize) := by
  have hcount : countShots circuit.readout.length c.outcomes [] = .ok c.entries := by
    rw [hm]
    exact c.countShots_outcomes h64
  constructor
  · intro N F rt s houtcomes hreply hrun hdelivers hfits
    have hraw : N.outcomes shots reply = .ok c.outcomes := by
      rw [houtcomes]
      exact cunqaOutcomes_reply h1 h64 hfits hreply
    rw [exec_sampleCounts hrun]
    show (exec (CUNQABackend.sample N F circuit.readout shots) s).1 >>= _ = _
    rw [CUNQABackend.exec_sample_delivers F hdelivers hraw]
    exact hcount
  · intro env cfg encode P F rt s B hP hrun hdelivers hreply
    have hsample : (exec (B.sample circuit.readout shots) s).1 = Qmio.qmioOutcomes V P parse shots reply :=
      Qmio.exec_sample_delivers hdelivers (readout_ne_nil h1 hm)
    have hexpanded : Expanded c V shots (Qmio.qmioOutcomes V P parse shots reply) :=
      hreply.elim (expanded_dict hP) (expanded_text hP)
    rw [exec_sampleCounts hrun, hsample]
    constructor
    · intro h
      obtain ⟨raw, hraw, -⟩ := bind_eq_ok.mp h
      exact ((hexpanded.eq_ok h1 h64).mp hraw).1
    · intro hfits
      rw [(hexpanded.eq_ok h1 h64).mpr ⟨hfits, rfl⟩]
      exact hcount

end RoundTrip

/-! ### One qubit -/

namespace RemoteReadout

open SafePickle

def oneBit (zeros ones : ℕ) (h0 : 0 < zeros ∧ zeros < 2 ^ 64) (h1 : 0 < ones ∧ ones < 2 ^ 64) : CountMap 1 where
  entries := [([48], zeros), ([49], ones)]
  sorted := List.pairwise_pair.mpr (show ([48] : Bytes) < [49] by decide)
  nonempty := nofun
  binary := by simp [IsBinary]
  length := by simp
  pos := by simp [h0.1, h1.1]
  lt := List.forall_mem_cons.mpr ⟨h0.2, List.forall_mem_singleton.mpr h1.2⟩

def fewShots : CountMap 1 := oneBit 1 2 (by decide) (by decide)

/-- A pickle without frames. -/
def pickle (ts : List Token) : Bytes := Token.bytes (.proto, [4]) ++ ts.flatMap Token.bytes ++ [0x2e]

theorem pickled_pickle {v : PyVal} {ts : List Token} {memo : Memo} {N : ℤ → Token → Prop}
    (h : SafePickle.Emits N [] ts [v] memo) : PickledWith N v (pickle ts) :=
  .mk (by decide) (by decide) h (Framed.refl ts)

def textTokens (b : UInt8) : List Token := [(.shortBinUnicode, [1, b])]

theorem emits_textTokens (N : ℤ → Token → Prop) (b : UInt8) :
    SafePickle.Emits N [] (textTokens b) [.str [b]] [] :=
  .str (.short (by simp)) .skip

def fewShotsTokens : List Token :=
  [(.emptyDict, [])] ++ (textTokens 48 ++ [(.binInt1, [1])]) ++ [(.setItem, [])] ++
    (textTokens 49 ++ [(.binInt1, [2])]) ++ [(.setItem, [])]

theorem emits_fewShots :
    SafePickle.Emits AnyToken [] fewShotsTokens [.dict [([48], .int 1), ([49], .int 2)]] [] := by
  have hnumber : ∀ n : ℕ, n < 2 ^ 8 → SafePickle.Emits AnyToken [] [(.binInt1, leBytes 1 n)] [.int n] [] :=
    fun n hn => .int (.inl (.binInt1 hn))
  have hdict : SafePickle.Emits AnyToken [] [(.emptyDict, [])] [.dict []] [] := .emptyDict .skip
  have hone := SafePickle.Emits.setItem hdict ((emits_textTokens _ 48).append (hnumber 1 (by decide)))
  exact .setItem hone ((emits_textTokens _ 49).append (hnumber 2 (by decide)))

/-- A parser that knows one text. -/
def parseCounts (c : CountMap 1) (_ : Bytes) : Except Exn Json :=
  return .object [(ascii "counts", .object (c.toEntries .unsigned))]

def answering (reply : Bytes) : Qmio.Environment :=
  ⟨fun _ => 0, fun _ => none, fun _ => .sent, fun _ => .reply reply⟩

def settings : Qmio.Settings := ⟨"tcp://10.0.0.1:5556", 1000, 0, 1000, 1000⟩

def noRequest (_ : ℕ) (_ : List (GateOp ℝ)) (_ : List ℕ) (_ : ℕ) : Except Exn (List UInt8) := return []

def connected : QuantumRuntime (QPUBackend Qmio.Connection Unit) := ⟨⟨true, 0, [], ⟨none, 0, 0, []⟩, ()⟩, 0⟩

/-- The backend with a server that answers with `reply`. -/
def qmio (reply : Bytes) (c : CountMap 1) : Simulator (QPUBackend Qmio.Connection Unit) (List ℕ) :=
  QPUBackend.simulator (Qmio.qmioDevice (answering reply) settings noRequest
    (Qmio.qmioOutcomes CUNQABackend.largest plain (parseCounts c))) CUNQABackend.unreached

def vqpu (c : CountMap 1) : Network Unit (List ℕ) :=
  { CUNQABackend.small with outcomes := cunqaOutcomes CUNQABackend.largest (parseCounts c) }

theorem delivers_vqpu (c : CountMap 1) : ∃ s,
    exec (run (CUNQABackend.simulator (vqpu c) CUNQABackend.unreached) (rereadCircuit 1))
      ⟨CUNQABackend.new (vqpu c) 0 () (), 0⟩ = (.ok (), ⟨s, 1⟩) ∧
    CUNQABackend.Delivers (vqpu c) s (rereadCircuit 1).readout 3 [] :=
  ⟨_, rfl, rfl, .inl ⟨_, _, _, _, rfl, rfl, rfl, rfl⟩⟩

def dictReply : Bytes := pickle fewShotsTokens

def textReply : Bytes := pickle (textTokens 106)

/-- The first attempt gets the reply. -/
theorem sendAndReceive_answering {reply : Bytes} (hlen : reply.length ≤ settings.maxReplyBytes) : ∃ conn,
    exec (Qmio.sendAndReceive (answering reply) settings []) ⟨none, 0, 0, []⟩ = (.ok reply, conn) := by
  have hpassed : ¬ (Qmio.deadlineFrom settings 0).toInt ≤ (0 : BitVec 64).toInt := by decide
  have hconnected : exec (Qmio.connected (answering reply)) ⟨none, 0, 2, []⟩ = (.ok (.ok 0), ⟨some 0, 1, 3, []⟩) :=
    rfl
  have hsent : exec (Qmio.trySend (answering reply) settings 0 []) ⟨some 0, 1, 3, []⟩ =
      (.ok (.ok ()), ⟨some 0, 1, 4, [.sent 0 []]⟩) := rfl
  have hreceived : exec (Qmio.receive (answering reply) settings 0) ⟨some 0, 1, 4, [.sent 0 []]⟩ =
      (.ok reply, ⟨some 0, 1, 5, [.sent 0 [], .received 0 reply]⟩) := rfl
  refine ⟨⟨some 0, 1, 5, [.sent 0 [], .received 0 reply]⟩, ?_⟩
  unfold Qmio.sendAndReceive
  rw [exec_bind, Qmio.exec_tick]
  dsimp only [answering]
  rw [Qmio.attempts, exec_bind, Qmio.oneAttempt, exec_bind, Qmio.exec_tick]
  dsimp only
  rw [if_neg hpassed, exec_bind, ← answering, hconnected]
  dsimp only
  rw [exec_bind, hsent]
  dsimp only
  rw [exec_bind, hreceived]
  dsimp only
  rw [if_neg (not_lt.mpr hlen)]
  rfl

theorem delivers_qmio (c : CountMap 1) :
    (∃ s, exec (run (qmio dictReply c) (rereadCircuit 1)) connected = (.ok (), ⟨s, 1⟩) ∧
      Qmio.Delivers (answering dictReply) settings noRequest s (rereadCircuit 1).readout 3 dictReply) ∧
    ∃ s, exec (run (qmio textReply c) (rereadCircuit 1)) connected = (.ok (), ⟨s, 1⟩) ∧
      Qmio.Delivers (answering textReply) settings noRequest s (rereadCircuit 1).readout 3 textReply := by
  obtain ⟨conn, hdict⟩ := @sendAndReceive_answering dictReply (by decide)
  obtain ⟨conn', htext⟩ := @sendAndReceive_answering textReply (by decide)
  exact ⟨⟨_, rfl, rfl, [], conn, rfl, hdict⟩, _, rfl, rfl, [], conn', rfl, htext⟩

theorem dictReply_fewShots : DictReply fewShots dictReply :=
  ⟨_, _, .refl _, .plain, pickled_pickle emits_fewShots⟩

theorem textReply_counts (c : CountMap 1) : TextReply c (parseCounts c) textReply :=
  ⟨_, _, pickled_pickle (emits_textTokens _ 106), rfl, .counts⟩

theorem sampleCounts_fewShots :
    (exec (sampleCounts (CUNQABackend.simulator (vqpu fewShots) CUNQABackend.unreached) (rereadCircuit 1) 3)
      ⟨CUNQABackend.new (vqpu fewShots) 0 () (), 0⟩).1 = .ok [([48], 1), ([49], 2)] ∧
    (exec (sampleCounts (qmio dictReply fewShots) (rereadCircuit 1) 3) connected).1 = .ok [([48], 1), ([49], 2)] ∧
    (exec (sampleCounts (qmio textReply fewShots) (rereadCircuit 1) 3) connected).1 = .ok [([48], 1), ([49], 2)] := by
  obtain ⟨s, hrun, hdelivers⟩ := delivers_vqpu fewShots
  obtain ⟨⟨s₁, hrun₁, hdelivers₁⟩, s₂, hrun₂, hdelivers₂⟩ := delivers_qmio fewShots
  have hreadout : (rereadCircuit 1).readout.length = 1 := rfl
  have hgranted : Granted plain dictReply ∧ Granted plain textReply :=
    ⟨⟨by decide, fun _ _ => rfl⟩, by decide, fun _ _ => rfl⟩
  have hfits : 3 ≤ CUNQABackend.largest.maxSize ∧ fewShots.total ≤ CUNQABackend.largest.maxSize := by decide
  refine ⟨?_, ?_, ?_⟩
  · exact (sampleCounts_remote le_rfl (by decide) fewShots hreadout CUNQABackend.largest 3 (parseCounts fewShots)
      []).1 (vqpu fewShots) CUNQABackend.unreached _ s rfl ⟨_, rfl, .counts⟩ hrun hdelivers hfits
  · exact ((sampleCounts_remote (ν := Unit) le_rfl (by decide) fewShots hreadout CUNQABackend.largest 3
      (parseCounts fewShots) dictReply).2 _ _ _ _ _ connected s₁ hgranted.1 hrun₁ hdelivers₁
      (.inl dictReply_fewShots)).mpr hfits
  · exact ((sampleCounts_remote (ν := Unit) le_rfl (by decide) fewShots hreadout CUNQABackend.largest 3
      (parseCounts fewShots) textReply).2 _ _ _ _ _ connected s₂ hgranted.2 hrun₂ hdelivers₂
      (.inr (textReply_counts fewShots))).mpr hfits

/-- More zeros than a vector holds. -/
def manyShots : CountMap 1 := oneBit (2 ^ 60) 1 (by decide) (by decide)

/-- The reply with `2 ^ 60` zeros throws: there is no vector with an integer for each shot. -/
theorem sampleCounts_manyShots : TextReply manyShots (parseCounts manyShots) textReply ∧
    ∃ e, (exec (sampleCounts (qmio textReply manyShots) (rereadCircuit 1) 3) connected).1 = .error e := by
  have htext := textReply_counts manyShots
  obtain ⟨-, s, hrun, hdelivers⟩ := delivers_qmio manyShots
  have hgranted : Granted plain textReply := ⟨by decide, fun _ _ => rfl⟩
  have hlarge : ¬ manyShots.total ≤ CUNQABackend.largest.maxSize := by
    simp [CountMap.total, manyShots, oneBit, CUNQABackend.largest]
  have hsample : (exec ((qmio textReply manyShots).sample (rereadCircuit 1).readout 3) s).1 =
      Qmio.qmioOutcomes CUNQABackend.largest plain (parseCounts manyShots) 3 textReply :=
    Qmio.exec_sample_delivers hdelivers rfl
  refine ⟨htext, ?_⟩
  rw [exec_sampleCounts hrun, hsample]
  cases hraw : Qmio.qmioOutcomes CUNQABackend.largest plain (parseCounts manyShots) 3 textReply with
  | error e => exact ⟨e, rfl⟩
  | ok raw => exact absurd (((expanded_text hgranted htext).eq_ok le_rfl (by decide)).mp hraw).1.2 hlarge

end RemoteReadout

end Qsycl
