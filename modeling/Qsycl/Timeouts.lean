/-
# The timeouts of QMIO

The constructor of `QmioBackend` reads its timeouts from the environment as
64-bit numbers and computes the default of the global timeout from them, in
unsigned words; it keeps them as signed counts of milliseconds, of which
`make_socket` passes 32 bits on. A call adds the global timeout, in nanoseconds,
to what the clock reads. The loop over the attempts counts in an unsigned word
up to a bound that may be its last value.

Where nothing wraps, the deadline comes after all attempts and cuts none of
them short, the socket waits as long as it is told to, and the loop ends
(`timeouts_right_iff`).
-/
import Qsycl.Qmio
import Qsycl.Json

namespace Qsycl.Qmio

open Runs

/-! ### The settings -/

/-- The values of `QMIO_RECV_TIMEOUT_MS`, `QMIO_RETRY_BACKOFF_MS`, `QMIO_MAX_RETRIES`
and `QMIO_GLOBAL_TIMEOUT_MS`. -/
structure Variables where
  recvTimeout : Option Bytes
  retryBackoff : Option Bytes
  maxRetries : Option Bytes
  globalTimeout : Option Bytes

def envU64 (value : Option Bytes) (defaultValue : BitVec 64) : BitVec 64 :=
  match value with
  | none => defaultValue
  | some v => match stoull 10 v with
    | .ok n => BitVec.ofNat 64 n
    | .error _ => defaultValue

/-- `std::chrono::milliseconds` of an unsigned word; the count is signed. -/
def milliseconds (count : BitVec 64) : ℤ := count.toInt

/-- `static_cast<std::uint64_t>` of such a count. -/
def unsigned (count : ℤ) : BitVec 64 := BitVec.ofInt 64 count

def defaultGlobal (recvTimeout retryBackoff : ℤ) (maxRetries : BitVec 64) : BitVec 64 :=
  let attempts := maxRetries + 1
  let backoffSum := unsigned retryBackoff * (maxRetries * (maxRetries + 1) / 2)
  attempts * 3 * unsigned recvTimeout + backoffSum

/-- The members that the constructor sets. -/
structure Timing where
  recvTimeout : ℤ
  retryBackoff : ℤ
  maxRetries : BitVec 64
  globalTimeout : ℤ

def Timing.ofVariables (v : Variables) : Timing :=
  let recvTimeout := milliseconds (envU64 v.recvTimeout 30000)
  let retryBackoff := milliseconds (envU64 v.retryBackoff 100)
  let maxRetries := envU64 v.maxRetries 3
  let globalTimeout := milliseconds (envU64 v.globalTimeout (defaultGlobal recvTimeout retryBackoff maxRetries))
  ⟨recvTimeout, retryBackoff, maxRetries, globalTimeout⟩

/-- The members that `send_and_receive` reads. -/
def Timing.settings (t : Timing) (endpoint : String) (maxReplyBytes : ℕ) : Settings :=
  ⟨endpoint, t.recvTimeout, t.maxRetries.toNat, t.globalTimeout, maxReplyBytes⟩

/-- `rcvtimeo` and `sndtimeo` of `make_socket`: a `static_cast<int>`. -/
def socketTimeout (timeout : ℤ) : ℤ := timeout.bmod (2 ^ 32)

/-! ### The loop -/

section Loop

variable (env : Environment) (cfg : Settings) (deadline : BitVec 64) (request : List UInt8)

/-- The loop of `send_and_receive` with its 64-bit counter, left after at most
`fuel` tests of its condition; `none` if it is not left by then. -/
def retryLoop : ℕ → ℕ → String → Run Exn Connection (Option (List UInt8))
  | 0, _, _ => return none
  | fuel + 1, attempt, lastError =>
    if attempt ≤ cfg.maxRetries then do
      match ← oneAttempt env cfg deadline request attempt lastError with
      | .ok reply => return some reply
      | .error lastError => retryLoop fuel ((attempt + 1) % 2 ^ 64) lastError
    else throw (exhaustedError cfg lastError)

/-- The loop is left after at most `k` attempts. -/
def LeavesWithin (c : Connection) (k : ℕ) : Prop :=
  (exec (retryLoop env cfg deadline request (k + 1) 0 "") c).1 ≠ .ok none

/-- Below its last value the counter does not wrap, and the loop is that of `attempts`. -/
theorem retryLoop_eq (hmax : cfg.maxRetries + 1 < 2 ^ 64) : ∀ (left attempt : ℕ) (lastError : String),
    attempt + left = cfg.maxRetries + 1 →
    retryLoop env cfg deadline request (left + 1) attempt lastError =
      some <$> attempts env cfg deadline request left attempt lastError
  | 0, attempt, lastError, h => by
    rw [retryLoop, if_neg (by omega)]
    rfl
  | left + 1, attempt, lastError, h => by
    have hnext : (attempt + 1) % 2 ^ 64 = attempt + 1 := Nat.mod_eq_of_lt (by omega)
    rw [retryLoop, if_pos (by omega), attempts, hnext, map_bind]
    refine bind_congr fun r => ?_
    cases r with
    | ok reply => rfl
    | error lastError => exact retryLoop_eq hmax left (attempt + 1) lastError (by omega)

theorem leavesWithin_of_lt (hmax : cfg.maxRetries + 1 < 2 ^ 64) (c : Connection) :
    LeavesWithin env cfg deadline request c (cfg.maxRetries + 1) := by
  rw [LeavesWithin, retryLoop_eq env cfg deadline request hmax _ 0 "" (Nat.zero_add _), exec_map]
  cases (exec (attempts env cfg deadline request (cfg.maxRetries + 1) 0 "") c).1 <;> exact nofun

end Loop

/-- No peer, and a clock that stands still. -/
def unreachable (now : BitVec 64) : Environment :=
  ⟨fun _ => now, fun _ => some "refused", fun _ => .timedOut, fun _ => .timedOut⟩

theorem exec_oneAttempt_unreachable (cfg : Settings) {now deadline : BitVec 64} (hnow : now.toInt < deadline.toInt)
    (request : List UInt8) (attempt : ℕ) (lastError : String) {c : Connection} (hc : c.socket = none) :
    exec (oneAttempt (unreachable now) cfg deadline request attempt lastError) c =
      (.ok (.error "connect failed: refused"), { c with socket := none, time := c.time + 2 }) := by
  have hconnected : exec (connected (unreachable now)) { c with time := c.time + 1 } =
      (.ok (.error "connect failed: refused"), { c with socket := none, time := c.time + 2 }) := by
    unfold connected
    rw [exec_get_bind, hc]
    dsimp only
    rw [exec_tryCatch, exec_bind, exec_makeSocket]
    rfl
  unfold oneAttempt
  rw [exec_bind, exec_tick]
  dsimp only
  rw [if_neg (show ¬ deadline.toInt ≤ ((unreachable now).now c.time).toInt from not_le.mpr hnow), exec_bind,
    hconnected]
  rfl

/-- With the last value as bound the loop does not end. -/
theorem retryLoop_unreachable {cfg : Settings} (hmax : 2 ^ 64 ≤ cfg.maxRetries + 1) {now deadline : BitVec 64}
    (hnow : now.toInt < deadline.toInt) (request : List UInt8) :
    ∀ (fuel attempt : ℕ) (lastError : String) (c : Connection), attempt < 2 ^ 64 → c.socket = none →
      (exec (retryLoop (unreachable now) cfg deadline request fuel attempt lastError) c).1 = .ok none
  | 0, _, _, _, _, _ => rfl
  | fuel + 1, attempt, lastError, c, hattempt, hc => by
    rw [retryLoop, if_pos (by omega), exec_bind,
      exec_oneAttempt_unreachable cfg hnow request attempt lastError hc]
    exact retryLoop_unreachable hmax hnow request fuel _ _ _ (Nat.mod_lt _ (by decide)) rfl

/-- **The loop ends**, on every network and with every deadline, exactly if its bound is
not the last value of the counter. -/
theorem leavesWithin_iff (maxRetries : BitVec 64) : (∀ (env : Environment) (cfg : Settings) (deadline : BitVec 64)
    (request : List UInt8) (c : Connection), cfg.maxRetries = maxRetries.toNat →
      LeavesWithin env cfg deadline request c (maxRetries.toNat + 1)) ↔ maxRetries.toNat < 2 ^ 64 - 1 := by
  constructor
  · intro h
    by_contra hmax
    refine h (unreachable 0) ⟨"", 0, maxRetries.toNat, 0, 0⟩ 1 [] ⟨none, 0, 0, []⟩ rfl ?_
    exact retryLoop_unreachable (by dsimp only; omega) (by decide) [] _ 0 "" _ (by decide) rfl
  · intro h env cfg deadline request c hcfg
    rw [← hcfg] at h ⊢
    exact leavesWithin_of_lt env cfg deadline request (by omega) c

/-! ### The test of the deadline -/

/-- The error of a call that the global timeout ends, by its text. -/
def CutShort (e : Exn) : Prop := "QmioBackend: global timeout (".toList <+: e.what.toList

theorem not_cutShort_exhausted (cfg : Settings) (lastError : String) : ¬ CutShort (exhaustedError cfg lastError) := by
  unfold CutShort exhaustedError
  rw [String.toList_append]
  exact not_prefix_append 14 (by decide) (by decide) _

section Heads

variable (env : Environment) (cfg : Settings) (deadline : BitVec 64) (request : List UInt8)

/-- The loop comes to attempt `attempt` in this state, from the state `c₀` at its first test. -/
inductive Head (c₀ : Connection) : ℕ → String → Connection → Prop
  | first : Head c₀ 0 "" c₀
  | next {attempt : ℕ} {lastError err : String} {c c' : Connection} : Head c₀ attempt lastError c →
      exec (oneAttempt env cfg deadline request attempt lastError) c = (.ok (.error err), c') →
      Head c₀ (attempt + 1) err c'

theorem connected_returns : Triple (fun _ => True) (connected env) (fun _ _ => True) (fun _ _ => False) := by
  intro c _
  unfold connected
  rw [exec_get_bind]
  cases c.socket with
  | some k => trivial
  | none =>
    rw [exec_tryCatch, exec_bind, exec_makeSocket]
    cases env.connect c.time <;> trivial

theorem trySend_returns (k : ℕ) :
    Triple (fun _ => True) (trySend env cfg k request) (fun _ _ => True) (fun _ _ => False) := by
  intro c _
  unfold trySend
  rw [exec_tryCatch, exec_bind, exec_send]
  cases env.send c.time <;> trivial

theorem receive_returns (k : ℕ) :
    Triple (fun _ => True) (receive env cfg k) (fun _ _ => True) (fun e _ => ¬ CutShort e) := by
  intro c _
  unfold receive
  rw [exec_tryCatch, exec_bind, exec_recv]
  cases env.recv c.time with
  | reply bytes => trivial
  | timedOut => exact fun h => not_gaveUp_lost _ (.inr h)
  | threw what => exact fun h => not_gaveUp_lost _ (.inr h)

/-- An attempt that begins in time is not cut short. -/
theorem oneAttempt_inTime (attempt : ℕ) (lastError : String) :
    Triple (fun c => (env.now c.time).toInt < deadline.toInt)
      (oneAttempt env cfg deadline request attempt lastError) (fun _ _ => True) (fun e _ => ¬ CutShort e) := by
  unfold oneAttempt
  refine Triple.bind (R := fun time _ => (env.now time).toInt < deadline.toInt) (fun _ hc => hc) fun time => ?_
  by_cases hpassed : deadline.toInt ≤ (env.now time).toInt
  · exact fun c hc => absurd hpassed (not_le.mpr hc)
  · rw [if_neg hpassed]
    refine ((connected_returns env).mono (fun _ _ => trivial) (fun _ _ h => h) nofun).bind fun r => ?_
    cases r with
    | error err => exact .pure _ fun _ _ => trivial
    | ok k =>
      refine ((trySend_returns env cfg request k).mono (fun _ _ => trivial) (fun _ _ h => h) nofun).bind
        fun r => ?_
      cases r with
      | error err => exact .pure _ fun _ _ => trivial
      | ok _ =>
        refine (receive_returns env cfg k).bind fun reply => ?_
        split
        · exact .throw _ fun _ _ h => not_gaveUp_oversize _ (.inr h)
        · exact .pure _ fun _ _ => trivial

/-- **No call is cut short** in which every attempt begins in time, by induction on the
attempts that are left. -/
theorem attempts_inTime {c₀ : Connection} (htime : ∀ attempt lastError c,
      Head env cfg deadline request c₀ attempt lastError c → attempt ≤ cfg.maxRetries →
      (env.now c.time).toInt < deadline.toInt) :
    ∀ (left attempt : ℕ) (lastError : String) (c : Connection), attempt + left = cfg.maxRetries + 1 →
      Head env cfg deadline request c₀ attempt lastError c →
      ∀ e, (exec (attempts env cfg deadline request left attempt lastError) c).1 = .error e → ¬ CutShort e
  | 0, _, lastError, _, _, _, e, he => by
    obtain rfl : exhaustedError cfg lastError = e := Except.error.inj he
    exact not_cutShort_exhausted cfg lastError
  | left + 1, attempt, lastError, c, hleft, hhead, e, he => by
    have hbegins := htime attempt lastError c hhead (by omega)
    rw [attempts, exec_bind] at he
    rcases hrun : exec (oneAttempt env cfg deadline request attempt lastError) c with ⟨e' | err | reply, c'⟩
    · rw [hrun] at he
      obtain rfl : e' = e := Except.error.inj he
      exact (oneAttempt_inTime env cfg deadline request attempt lastError).of_error hbegins hrun
    · rw [hrun] at he
      exact attempts_inTime htime left (attempt + 1) err c' (by omega) (.next hhead hrun) e he
    · rw [hrun] at he
      cases he

end Heads

/-! ### The default of the global timeout -/

section Arithmetic

/-- The longest sequence of attempts: three timeouts each, and a pause before each but the first. -/
def retrySequence (recvTimeout retryBackoff maxRetries : ℕ) : ℕ :=
  (maxRetries + 1) * 3 * recvTimeout + ∑ a ∈ Finset.Icc 1 maxRetries, a * retryBackoff

theorem sum_backoff (m b : ℕ) : ∑ a ∈ Finset.Icc 1 m, a * b = b * (m * (m + 1) / 2) := by
  have hsum : 2 * ∑ a ∈ Finset.Icc 1 m, a = m * (m + 1) := by
    induction m with
    | zero => simp
    | succ m ih =>
      rw [Finset.sum_Icc_succ_top (by omega), mul_add, ih]
      ring
  rw [← Finset.sum_mul, mul_comm, ← hsum, Nat.mul_div_cancel_left _ Nat.two_pos]

theorem unsigned_milliseconds (count : BitVec 64) : unsigned (milliseconds count) = count := BitVec.ofInt_toInt

/-- The sum of the pauses does not wrap if it fits: with any pause at all the
number of them is smaller still. -/
theorem backoffSum_toNat {b m : BitVec 64} (h : b.toNat * (m.toNat * (m.toNat + 1) / 2) < 2 ^ 63) :
    (b * (m * (m + 1) / 2)).toNat = b.toNat * (m.toNat * (m.toNat + 1) / 2) := by
  by_cases hb : b.toNat = 0
  · simp [BitVec.toNat_mul, hb]
  · have hhalf : m.toNat * (m.toNat + 1) / 2 < 2 ^ 63 :=
      (Nat.le_mul_of_pos_left _ (Nat.pos_of_ne_zero hb)).trans_lt h
    have hproduct : m.toNat * (m.toNat + 1) < 2 ^ 64 := by omega
    have hnext : m.toNat + 1 < 2 ^ 64 := by
      rcases Nat.eq_zero_or_pos m.toNat with hm | hm
      · omega
      · exact (Nat.le_mul_of_pos_left _ hm).trans_lt hproduct
    have hadd : (m + 1).toNat = m.toNat + 1 := by
      rw [BitVec.toNat_add]
      exact Nat.mod_eq_of_lt hnext
    have htwo : (2 : BitVec 64).toNat = 2 := rfl
    rw [BitVec.toNat_mul, BitVec.toNat_udiv, BitVec.toNat_mul, hadd, Nat.mod_eq_of_lt hproduct, htwo]
    exact Nat.mod_eq_of_lt (h.trans (by decide))

/-- The default is the length of the sequence if that fits a signed word. -/
theorem defaultGlobal_toNat {recv backoff maxRetries : BitVec 64}
    (h : retrySequence recv.toNat backoff.toNat maxRetries.toNat < 2 ^ 63) :
    (defaultGlobal (milliseconds recv) (milliseconds backoff) maxRetries).toNat =
      retrySequence recv.toNat backoff.toNat maxRetries.toNat := by
  have hattempts : ((maxRetries + 1) * 3 * recv).toNat = (maxRetries.toNat + 1) * 3 * recv.toNat % 2 ^ 64 := by
    simp only [BitVec.toNat_mul, BitVec.toNat_add]
    simp [Nat.mul_mod]
  rw [retrySequence, sum_backoff] at h ⊢
  simp only [defaultGlobal, unsigned_milliseconds]
  rw [BitVec.toNat_add, hattempts, backoffSum_toNat (by omega), Nat.mod_add_mod, Nat.mod_eq_of_lt (by omega)]

/-- The signed default covers the sequence exactly if this fits. -/
theorem retrySequence_le_iff (recv backoff maxRetries : BitVec 64) :
    (retrySequence recv.toNat backoff.toNat maxRetries.toNat : ℤ) ≤
        milliseconds (defaultGlobal (milliseconds recv) (milliseconds backoff) maxRetries) ↔
      retrySequence recv.toNat backoff.toNat maxRetries.toNat < 2 ^ 63 := by
  constructor
  · intro hle
    have hlt := BitVec.toInt_lt (x := defaultGlobal (milliseconds recv) (milliseconds backoff) maxRetries)
    rw [milliseconds] at hle
    omega
  · intro h
    have heq := defaultGlobal_toNat h
    rw [milliseconds, BitVec.toInt_eq_toNat_of_lt (by omega), heq]

/-- The narrowed timeout is the value of the variable exactly below `2 ^ 31`. -/
theorem socketTimeout_eq_iff (recv : BitVec 64) :
    socketTimeout (milliseconds recv) = recv.toNat ↔ recv.toNat < 2 ^ 31 := by
  have hrecv := recv.isLt
  rw [socketTimeout, milliseconds, BitVec.toInt_eq_toNat_bmod]
  simp only [Int.bmod_def]
  omega

/-- A deadline is as long after the reading of the clock as it is to be exactly if it
fits the clock. -/
theorem deadline_le_iff (now : BitVec 64) (n : ℕ) :
    now.toInt + n ≤ (now + BitVec.ofInt 64 n).toInt ↔ now.toInt + n < 2 ^ 63 := by
  have hnow := BitVec.le_toInt now
  rw [BitVec.toInt_add, BitVec.toInt_ofInt, Int.add_bmod_bmod]
  constructor
  · exact fun h => h.trans_lt (Int.bmod_lt (by decide))
  · intro h
    rw [Int.bmod_eq_of_le_mul_two (by omega) (by omega)]

/-- The nanoseconds that the attempts before this one may take, and the part of its own
that may be over when the deadline is tested: less than its three timeouts. -/
def untilTest (recvTimeout retryBackoff attempt : ℕ) : ℕ :=
  (attempt * 3 * recvTimeout + ∑ a ∈ Finset.range attempt, a * retryBackoff) * 1000000 +
    (3 * recvTimeout * 1000000 - 1)

theorem retrySequence_eq (recv backoff maxRetries : ℕ) : retrySequence recv backoff maxRetries =
    (maxRetries * 3 * recv + ∑ a ∈ Finset.range maxRetries, a * backoff) +
      (3 * recv + maxRetries * backoff) := by
  have hsum : ∑ a ∈ Finset.Icc 1 maxRetries, a * backoff =
      ∑ a ∈ Finset.range maxRetries, a * backoff + maxRetries * backoff := by
    rw [← Finset.sum_range_succ, Finset.range_eq_Ico, Finset.sum_eq_sum_Ico_succ_bot (Nat.succ_pos _), zero_mul,
      zero_add]
    rfl
  rw [retrySequence, hsum]
  ring

theorem untilTest_lt {recv backoff maxRetries : ℕ} (hpos : 0 < retrySequence recv backoff maxRetries)
    {attempt : ℕ} (hattempt : attempt ≤ maxRetries) :
    untilTest recv backoff attempt < retrySequence recv backoff maxRetries * 1000000 := by
  have hpauses : ∑ a ∈ Finset.range attempt, a * backoff ≤ ∑ a ∈ Finset.range maxRetries, a * backoff :=
    Finset.sum_le_sum_of_subset (Finset.range_mono hattempt)
  have htimeouts : attempt * 3 * recv ≤ maxRetries * 3 * recv := by gcongr
  -- the last attempt has timeouts or a pause
  have hlast : 0 < 3 * recv + maxRetries * backoff := by
    by_contra hzero
    obtain ⟨hrecv, hbackoff⟩ : recv = 0 ∧ maxRetries * backoff = 0 := by omega
    rw [retrySequence, sum_backoff, hrecv] at hpos
    obtain rfl | rfl := Nat.mul_eq_zero.mp hbackoff <;> simp at hpos
  rw [retrySequence_eq, untilTest]
  omega

end Arithmetic

/-! ### What the settings are to do -/

/-- The milliseconds of the longest sequence of attempts with these variables. -/
def Variables.sequence (v : Variables) : ℕ := retrySequence (envU64 v.recvTimeout 30000).toNat
  (envU64 v.retryBackoff 100).toNat (envU64 v.maxRetries 3).toNat

/-- The call that begins in this state is on schedule: the test of every attempt comes
when the attempts before it have had their time at the latest, and three timeouts. -/
def OnSchedule (env : Environment) (cfg : Settings) (recvTimeout retryBackoff : ℕ) (request : List UInt8)
    (c : Connection) : Prop :=
  ∀ attempt lastError c', Head env cfg (deadlineFrom cfg (env.now c.time)) request { c with time := c.time + 1 }
      attempt lastError c' → attempt ≤ cfg.maxRetries →
    (env.now c'.time).toInt ≤ (env.now c.time).toInt + untilTest recvTimeout retryBackoff attempt

/-- With these variables, no global timeout and a call that begins when the clock reads
`now`: the default covers all attempts, the deadline comes after them and ends no call
that is on schedule, the socket waits as told, and on every network and with every
deadline the loop makes one attempt more than retries at most. -/
structure TimeoutsRight (v : Variables) (now : BitVec 64) : Prop where
  global : (v.sequence : ℤ) ≤ (Timing.ofVariables v).globalTimeout
  deadline : ∀ endpoint maxReplyBytes, now.toInt + (v.sequence * 1000000 : ℕ) ≤
    (deadlineFrom ((Timing.ofVariables v).settings endpoint maxReplyBytes) now).toInt
  uncut : ∀ (env : Environment) (endpoint : String) (maxReplyBytes : ℕ) (request : List UInt8) (c : Connection),
    let cfg := (Timing.ofVariables v).settings endpoint maxReplyBytes
    env.now c.time = now →
    OnSchedule env cfg (envU64 v.recvTimeout 30000).toNat (envU64 v.retryBackoff 100).toNat request c →
    ∀ e, (exec (sendAndReceive env cfg request) c).1 = .error e → ¬ CutShort e
  socket : socketTimeout (Timing.ofVariables v).recvTimeout = (envU64 v.recvTimeout 30000).toNat
  loop : ∀ (env : Environment) (cfg : Settings) (deadline : BitVec 64) (request : List UInt8) (c : Connection),
    cfg.maxRetries = (Timing.ofVariables v).maxRetries.toNat →
    LeavesWithin env cfg deadline request c ((envU64 v.maxRetries 3).toNat + 1)

section Right

variable {v : Variables} {now : BitVec 64}

theorem globalTimeout_ofVariables (hv : v.globalTimeout = none) (h : v.sequence < 2 ^ 63) :
    (Timing.ofVariables v).globalTimeout = v.sequence := by
  rw [Timing.ofVariables, hv]
  show milliseconds (defaultGlobal _ _ _) = _
  rw [Variables.sequence] at h ⊢
  rw [milliseconds, BitVec.toInt_eq_toNat_of_lt (by rw [defaultGlobal_toNat h]; omega), defaultGlobal_toNat h]

theorem deadlineFrom_ofVariables (hv : v.globalTimeout = none) (h : v.sequence < 2 ^ 63) (endpoint : String)
    (maxReplyBytes : ℕ) : deadlineFrom ((Timing.ofVariables v).settings endpoint maxReplyBytes) now =
      now + BitVec.ofInt 64 (v.sequence * 1000000 : ℕ) := by
  rw [deadlineFrom, Timing.settings, globalTimeout_ofVariables hv h, Nat.cast_mul]
  rfl

theorem sendAndReceive_uncut (hv : v.globalTimeout = none) (hpos : 0 < v.sequence)
    (hfit : now.toInt + (v.sequence * 1000000 : ℕ) < 2 ^ 63) {env : Environment} {endpoint : String}
    {maxReplyBytes : ℕ} {request : List UInt8} {c : Connection} (hnow : env.now c.time = now)
    (hschedule : OnSchedule env ((Timing.ofVariables v).settings endpoint maxReplyBytes)
      (envU64 v.recvTimeout 30000).toNat (envU64 v.retryBackoff 100).toNat request c) {e : Exn}
    (he : (exec (sendAndReceive env ((Timing.ofVariables v).settings endpoint maxReplyBytes) request) c).1 =
      .error e) : ¬ CutShort e := by
  have hlow := BitVec.le_toInt now
  have hdeadline := (deadline_le_iff now _).mpr hfit
  rw [← deadlineFrom_ofVariables hv (by omega) endpoint maxReplyBytes] at hdeadline
  rw [OnSchedule, hnow] at hschedule
  rw [sendAndReceive, exec_bind, exec_tick] at he
  dsimp only at he
  rw [hnow] at he
  refine attempts_inTime env _ _ request (fun attempt lastError c' hhead hattempt => ?_) _ 0 "" _
    (Nat.zero_add _) .first e he
  have htest := hschedule attempt lastError c' hhead hattempt
  have hlt : untilTest _ _ attempt < v.sequence * 1000000 := untilTest_lt hpos hattempt
  omega

/-- Without any time the first test ends the call. -/
theorem sequence_pos (hv : v.globalTimeout = none) (hlt : v.sequence < 2 ^ 63) (h : TimeoutsRight v now) :
    0 < v.sequence := by
  by_contra hpos
  have hzero : v.sequence = 0 := by omega
  have hdeadline : deadlineFrom ((Timing.ofVariables v).settings "" 0) now = now := by
    rw [deadlineFrom_ofVariables hv hlt, hzero]
    exact BitVec.add_zero now
  refine h.uncut (unreachable now) "" 0 [] ⟨none, 0, 0, []⟩ rfl (fun attempt lastError c' _ _ => ?_)
    (timeoutError ((Timing.ofVariables v).settings "" 0) 0 "") ?_ ?_
  · exact Int.le_add_of_nonneg_right (Int.natCast_nonneg _)
  · have hpassed : (deadlineFrom ((Timing.ofVariables v).settings "" 0) now).toInt ≤ now.toInt := by rw [hdeadline]
    rw [sendAndReceive, exec_bind, exec_tick]
    dsimp only
    rw [attempts, exec_bind, oneAttempt, exec_bind, exec_tick]
    dsimp only
    rw [unreachable, if_pos hpassed]
    rfl
  · unfold CutShort timeoutError
    rw [String.toList_append]
    exact List.prefix_append _ _

end Right

/-- **The timeouts of QMIO** are right for all values of the variables whose sequence of
attempts takes some time and does not take the clock out of its range, whose
timeout fits an `int`, and whose retries are not as many as the counter can count. -/
theorem timeouts_right_iff {v : Variables} (hv : v.globalTimeout = none) (now : BitVec 64) :
    TimeoutsRight v now ↔ 0 < v.sequence ∧ now.toInt + (v.sequence * 1000000 : ℕ) < 2 ^ 63 ∧
      (envU64 v.recvTimeout 30000).toNat < 2 ^ 31 ∧ (envU64 v.maxRetries 3).toNat < 2 ^ 64 - 1 := by
  constructor
  · intro h
    have hlt : v.sequence < 2 ^ 63 := by
      have hglobal := h.global
      rw [Timing.ofVariables, hv] at hglobal
      exact (retrySequence_le_iff _ _ _).mp hglobal
    refine ⟨sequence_pos hv hlt h, ?_, (socketTimeout_eq_iff _).mp h.socket, (leavesWithin_iff _).mp h.loop⟩
    have hdeadline := h.deadline "" 0
    rw [deadlineFrom_ofVariables hv hlt] at hdeadline
    exact (deadline_le_iff now _).mp hdeadline
  · rintro ⟨hpos, hfit, hsocket, hloop⟩
    have hlow := BitVec.le_toInt now
    have hlt : v.sequence < 2 ^ 63 := by omega
    refine ⟨(globalTimeout_ofVariables hv hlt).ge, fun endpoint maxReplyBytes => ?_,
      fun env endpoint maxReplyBytes request c hnow hschedule e he =>
        sendAndReceive_uncut hv hpos hfit hnow hschedule he,
      (socketTimeout_eq_iff _).mpr hsocket, (leavesWithin_iff _).mpr hloop⟩
    rw [deadlineFrom_ofVariables hv hlt]
    exact (deadline_le_iff now _).mpr hfit

theorem timeouts_right_default : TimeoutsRight ⟨none, none, none, none⟩ 0 :=
  (timeouts_right_iff rfl 0).mpr ⟨by decide, by decide, by decide, by decide⟩

/-- A timeout of `2 ^ 31` milliseconds is negative for the socket. -/
theorem timeouts_right_fails : ¬ TimeoutsRight ⟨some (ascii "2147483648"), none, none, none⟩ 0 := by
  intro h
  have hvalue : envU64 (some (ascii "2147483648")) 30000 = 2147483648 := by decide
  have hsocket := h.socket
  rw [Timing.ofVariables] at hsocket
  dsimp only at hsocket
  rw [hvalue] at hsocket
  exact absurd hsocket (by decide)

end Qsycl.Qmio
