/-
# QMIO: one request, at most one execution

`QmioBackend` (`qmio_backend.cpp`) sends a circuit over a ZeroMQ REQ socket that
it keeps from call to call. An attempt that fails before the request is out is
repeated on a new socket; once the request is out, the call waits for the
reply or gives up.

The network answers each operation as an `Environment` says, and a `Connection`
notes what was sent and received on each of its sockets. The invariant `Safe` is
that the socket kept is not waiting for a reply and has never failed.
-/
import Qsycl.QpuBackend

namespace Qsycl.Qmio

open Runs

/-! ### The network -/

/-- What happened on a socket: a failed operation timed out or threw. -/
inductive Event
  | sent (socket : ℕ) (request : List UInt8)
  | sendFailed (socket : ℕ)
  | received (socket : ℕ) (reply : List UInt8)
  | recvFailed (socket : ℕ)
  deriving DecidableEq

inductive SendAnswer
  | sent
  | timedOut
  | threw (what : String)

inductive RecvAnswer
  | reply (bytes : List UInt8)
  | timedOut
  | threw (what : String)

/-- The answer to the operation at each point of time: what `steady_clock::now()` reads
(a count of nanoseconds), the exception of `make_socket`, the outcome of `send` and of `recv`. -/
structure Environment where
  now : ℕ → BitVec 64
  connect : ℕ → Option String
  send : ℕ → SendAnswer
  recv : ℕ → RecvAnswer

/-- `Connection`: the live socket, null until first use or after a fault. Sockets
are numbered in the order they are made. -/
structure Connection where
  socket : Option ℕ
  created : ℕ
  time : ℕ
  events : List Event

/-- The members that the attempts depend on. The timeouts are counts of milliseconds. -/
structure Settings where
  endpoint : String
  recvTimeout : ℤ
  maxRetries : ℕ
  globalTimeout : ℤ
  maxReplyBytes : ℕ

section Network

variable (env : Environment)

def tick : Run Exn Connection ℕ := do
  let c ← get
  set { c with time := c.time + 1 }
  return c.time

def note (e : Event) : Run Exn Connection Unit := modify fun c => { c with events := c.events ++ [e] }

/-- `conn_->socket.reset()`. -/
def resetSocket : Run Exn Connection Unit := modify fun c => { c with socket := none }

def makeSocket : Run Exn Connection ℕ := do
  match env.connect (← tick) with
  | some what => throw ⟨.runtimeError, what⟩
  | none =>
    let c ← get
    set { c with created := c.created + 1 }
    return c.created

/-- `send`: whether the request is out. -/
def send (socket : ℕ) (request : List UInt8) : Run Exn Connection Bool := do
  match env.send (← tick) with
  | .sent =>
    note (.sent socket request)
    return true
  | .timedOut =>
    note (.sendFailed socket)
    return false
  | .threw what =>
    note (.sendFailed socket)
    throw ⟨.runtimeError, what⟩

def recv (socket : ℕ) : Run Exn Connection (Option (List UInt8)) := do
  match env.recv (← tick) with
  | .reply bytes =>
    note (.received socket bytes)
    return some bytes
  | .timedOut =>
    note (.recvFailed socket)
    return none
  | .threw what =>
    note (.recvFailed socket)
    throw ⟨.runtimeError, what⟩

/-! ### `send_and_receive` -/

variable (cfg : Settings)

/-- The tail of a message. -/
def lastErrorText (lastError : String) : String :=
  if lastError.isEmpty then "" else "; last error: " ++ lastError

def timeoutError (attempt : ℕ) (lastError : String) : Exn :=
  ⟨.runtimeError, "QmioBackend: global timeout (" ++ (toString cfg.globalTimeout ++
    " ms) exceeded after " ++ toString attempt ++ " attempt(s)" ++ lastErrorText lastError)⟩

def exhaustedError (lastError : String) : Exn :=
  ⟨.runtimeError, "QmioBackend: exhausted " ++ (toString (cfg.maxRetries + 1) ++
    " attempt(s) against " ++ cfg.endpoint ++ lastErrorText lastError)⟩

/-- The end of both messages about a missing reply. -/
def notResent : String :=
  "the QPU may have already executed it, so it was NOT resent (to avoid a double execution). " ++
    "Treat this run's result as unknown before resubmitting."

/-- The live socket, a new one if there is none; otherwise `last_error`. -/
def connected : Run Exn Connection (Except String ℕ) := do
  let c ← get
  match c.socket with
  | some k => return .ok k
  | none =>
    tryCatch (do
      let k ← makeSocket env
      modify fun c => { c with socket := some k }
      return .ok k) fun e => do
      resetSocket
      return .error ("connect failed: " ++ e.what)

/-- Sends the request; otherwise `last_error`. -/
def trySend (k : ℕ) (request : List UInt8) : Run Exn Connection (Except String Unit) :=
  tryCatch (do
    let sent ← send env k request
    if sent then return .ok ()
    else do
      resetSocket
      return .error ("send timed out after " ++ toString cfg.recvTimeout ++ " ms")) fun e => do
    resetSocket
    return .error ("send failed: " ++ e.what)

/-- Waits for the reply. The handler also gets the exception of the body itself. -/
def receive (k : ℕ) : Run Exn Connection (List UInt8) :=
  tryCatch (do
    let received ← recv env k
    match received with
    | some reply => return reply
    | none =>
      resetSocket
      throw ⟨.runtimeError, "QmioBackend: request was sent but no reply arrived within " ++
        toString cfg.recvTimeout ++ " ms; " ++ notResent⟩) fun e => do
    resetSocket
    throw ⟨.runtimeError, "QmioBackend: request was sent but the reply could not be received (" ++
      (e.what ++ "); " ++ notResent)⟩

/-- `now() + global_timeout_`: both counts are of nanoseconds then, in words of 64 bits. -/
def deadlineFrom (now : BitVec 64) : BitVec 64 := now + BitVec.ofInt 64 (cfg.globalTimeout * 1000000)

/-- One attempt: the reply, or `last_error` if the loop goes on. -/
def oneAttempt (deadline : BitVec 64) (request : List UInt8) (attempt : ℕ) (lastError : String) :
    Run Exn Connection (Except String (List UInt8)) := do
  let time ← tick
  if deadline.toInt ≤ (env.now time).toInt then throw (timeoutError cfg attempt lastError)
  else
    match ← connected env with
    | .error err => return .error err
    | .ok k =>
      match ← trySend env cfg k request with
      | .error err => return .error err
      | .ok _ =>
        let reply ← receive env cfg k
        if reply.length > cfg.maxReplyBytes then
          throw ⟨.runtimeError, "QmioBackend: reply of " ++ (toString reply.length ++
            " bytes exceeds the " ++ toString cfg.maxReplyBytes ++ "-byte safety limit")⟩
        else return .ok reply

/-- The loop, with the attempts that are left. -/
def attempts (deadline : BitVec 64) (request : List UInt8) : ℕ → ℕ → String → Run Exn Connection (List UInt8)
  | 0, _, lastError => throw (exhaustedError cfg lastError)
  | left + 1, attempt, lastError => do
    match ← oneAttempt env cfg deadline request attempt lastError with
    | .ok reply => return reply
    | .error lastError => attempts deadline request left (attempt + 1) lastError

def sendAndReceive (request : List UInt8) : Run Exn Connection (List UInt8) := do
  let time ← tick
  attempts env cfg (deadlineFrom cfg (env.now time)) request (cfg.maxRetries + 1) 0 ""

/-- `QmioBackend` as a device. `encode` makes the request of a circuit (the program,
its configuration and their pickle), `decode` the outcomes of the reply to a circuit
with some number of shots. The device is never rechecked. -/
def qmioDevice (encode : ℕ → List (GateOp ℝ) → List ℕ → ℕ → Except Exn (List UInt8))
    (decode : ℕ → List UInt8 → Except Exn (List ℕ)) : Device Connection (List ℕ) where
  submitCircuit numQubits gateBuffer qubits shots := do
    let request ← encode numQubits gateBuffer qubits shots
    let reply ← sendAndReceive env cfg request
    decode shots reply
  recheckDevice := return ()

end Network

/-! ### The sockets -/

/-- What a REQ socket does next. -/
inductive Status
  | idle | awaiting | broken
  deriving DecidableEq

def Event.socket : Event → ℕ
  | sent k _ | sendFailed k | received k _ | recvFailed k => k

def Event.isSend : Event → Bool
  | sent _ _ | sendFailed _ => true
  | received _ _ | recvFailed _ => false

/-- The request is out. -/
def Event.isSent : Event → Bool
  | sent _ _ => true
  | sendFailed _ | received _ _ | recvFailed _ => false

def Status.next : Status → Event → Status
  | .idle, .sent _ _ => .awaiting
  | .awaiting, .received _ _ => .idle
  | _, _ => .broken

/-- The status of socket `k` after the events. -/
def status (k : ℕ) (events : List Event) : Status :=
  (events.filter fun e => e.socket = k).foldl Status.next .idle

theorem status_snoc (k : ℕ) (events : List Event) (e : Event) :
    status k (events ++ [e]) = if e.socket = k then (status k events).next e else status k events := by
  by_cases h : e.socket = k <;> simp [status, h]

/-- Every send is on an idle socket. -/
def WellUsed (events : List Event) : Prop :=
  ∀ i e, events[i]? = some e → e.isSend = true → status e.socket (events.take i) = .idle

theorem WellUsed.snoc {events : List Event} {e : Event} (h : WellUsed events)
    (he : e.isSend = true → status e.socket events = .idle) : WellUsed (events ++ [e]) := by
  intro i e' hi hsend
  rcases Nat.lt_trichotomy i events.length with hlt | rfl | hgt
  · rw [List.getElem?_append_left hlt] at hi
    rw [List.take_append_of_le_length hlt.le]
    exact h i e' hi hsend
  · obtain rfl : e = e' := by simpa using hi
    rw [List.take_left]
    exact he hsend
  · rw [List.getElem?_eq_none (by simp; omega)] at hi
    cases hi

/-- Sends are on idle sockets, a socket not made yet is idle, and the live one
has status `st`. -/
structure Ready (st : Status) (c : Connection) : Prop where
  wellUsed : WellUsed c.events
  fresh : ∀ k, c.created ≤ k → status k c.events = .idle
  made : ∀ k, c.socket = some k → k < c.created
  live : ∀ k, c.socket = some k → status k c.events = st

/-- **The invariant**: the live socket is idle. -/
abbrev Safe : Connection → Prop := Ready .idle

section Ready

variable {st : Status} {c : Connection}

/-- An event on the live socket. -/
theorem Ready.event (h : Ready st c) {k : ℕ} (hk : c.socket = some k) (e : Event) (hek : e.socket = k)
    (hsend : e.isSend = true → st = .idle) (time : ℕ) :
    Ready (st.next e) { c with time := time, events := c.events ++ [e] } where
  wellUsed := h.wellUsed.snoc fun hs => by rw [hek, h.live k hk, hsend hs]
  fresh j hj := by
    have hkj : k < j := (h.made k hk).trans_le hj
    rw [status_snoc, if_neg (by omega), h.fresh j hj]
  made := h.made
  live j hj := by
    obtain rfl : k = j := Option.some.inj (hk.symm.trans hj)
    rw [status_snoc, if_pos hek, h.live k hk]

/-- Without a live socket. -/
theorem Ready.reset {st' : Status} (h : Ready st c) : Ready st' { c with socket := none } :=
  ⟨h.wellUsed, h.fresh, nofun, nofun⟩

theorem Ready.later (h : Ready st c) (time : ℕ) : Ready st { c with time := time } :=
  ⟨h.wellUsed, h.fresh, h.made, h.live⟩

end Ready

/-! ### The errors -/

/-- One of the errors "exhausted … attempt(s)" and "global timeout", by its text. -/
def GaveUp (e : Exn) : Prop :=
  "QmioBackend: exhausted ".toList <+: e.what.toList ∨
    "QmioBackend: global timeout (".toList <+: e.what.toList

theorem not_prefix_append {p s : List Char} (n : ℕ) (hn : n ≤ s.length) (h : ¬ p.take n <+: s.take n)
    (t : List Char) : ¬ p <+: s ++ t := fun hp => h (by
  have hn := hp.take n
  rwa [List.take_append_of_le_length ‹_›] at hn)

/-- An error whose text begins in another way. -/
theorem not_gaveUp_append {kind : ExnKind} {start : String} (n : ℕ) (hn : n ≤ start.toList.length)
    (h : ¬ "QmioBackend: exhausted ".toList.take n <+: start.toList.take n ∧
      ¬ "QmioBackend: global timeout (".toList.take n <+: start.toList.take n) (t : String) :
    ¬ GaveUp ⟨kind, start ++ t⟩ := by
  unfold GaveUp
  rw [String.toList_append]
  intro hgave
  rcases hgave with hgave | hgave
  · exact not_prefix_append n hn h.1 _ hgave
  · exact not_prefix_append n hn h.2 _ hgave

/-- The errors after a send have another text. -/
theorem not_gaveUp_lost (t : String) : ¬ GaveUp ⟨.runtimeError,
    "QmioBackend: request was sent but the reply could not be received (" ++ t⟩ :=
  not_gaveUp_append 14 (by decide) (by decide) t

theorem not_gaveUp_oversize (t : String) :
    ¬ GaveUp ⟨.runtimeError, "QmioBackend: reply of " ++ t⟩ :=
  not_gaveUp_append 14 (by decide) (by decide) t

/-! ### One attempt -/

section Attempt

variable (env : Environment) (cfg : Settings) {h : List Event} {c : Connection} {k : ℕ}

@[simp] theorem exec_tick : exec tick c = (.ok c.time, { c with time := c.time + 1 }) := rfl

@[simp] theorem exec_note (e : Event) : exec (note e) c = (.ok ⟨⟩, { c with events := c.events ++ [e] }) := rfl

@[simp] theorem exec_resetSocket : exec resetSocket c = (.ok ⟨⟩, { c with socket := none }) := rfl

theorem exec_makeSocket : exec (makeSocket env) c = match env.connect c.time with
    | some what => (.error ⟨.runtimeError, what⟩, { c with time := c.time + 1 })
    | none => (.ok c.created, { c with time := c.time + 1, created := c.created + 1 }) := by
  unfold makeSocket
  cases hs : env.connect c.time <;> simp [exec_bind, exec_map, Except.map, hs]

theorem exec_send (request : List UInt8) : exec (send env k request) c = match env.send c.time with
    | .sent => (.ok true, { c with time := c.time + 1, events := c.events ++ [.sent k request] })
    | .timedOut => (.ok false, { c with time := c.time + 1, events := c.events ++ [.sendFailed k] })
    | .threw what => (.error ⟨.runtimeError, what⟩,
        { c with time := c.time + 1, events := c.events ++ [.sendFailed k] }) := by
  unfold send
  cases hs : env.send c.time <;> simp [exec_bind, exec_map, Except.map, hs]

theorem exec_recv : exec (recv env k) c = match env.recv c.time with
    | .reply bytes =>
      (.ok (some bytes), { c with time := c.time + 1, events := c.events ++ [.received k bytes] })
    | .timedOut => (.ok none, { c with time := c.time + 1, events := c.events ++ [.recvFailed k] })
    | .threw what => (.error ⟨.runtimeError, what⟩,
        { c with time := c.time + 1, events := c.events ++ [.recvFailed k] }) := by
  unfold recv
  cases hs : env.recv c.time <;> simp [exec_bind, exec_map, Except.map, hs]

/-- After the events `h`, with live socket `k` of status `st`. -/
structure Live (st : Status) (k : ℕ) (h : List Event) (c : Connection) : Prop where
  ready : Ready st c
  socket : c.socket = some k
  events : c.events = h

/-- In a safe state after the events `h`. -/
structure SafeAt (h : List Event) (c : Connection) : Prop where
  safe : Safe c
  events : c.events = h

theorem tick_spec (E : Exn → Connection → Prop) : Triple (SafeAt h) tick (fun _ => SafeAt h) E :=
  fun _ hc => ⟨hc.safe.later _, hc.events⟩

/-- Either the live socket is idle or there is none. -/
theorem connected_spec : Triple (SafeAt h) (connected env)
    (fun r c => match r with
      | .ok k => Live .idle k h c
      | .error _ => SafeAt h c) (fun _ _ => False) := by
  rintro c ⟨hc, rfl⟩
  unfold connected
  rw [exec_get_bind]
  cases hs : c.socket with
  | some k =>
    exact ⟨hc, hs, rfl⟩
  | none =>
    rw [exec_tryCatch, exec_bind, exec_makeSocket]
    cases env.connect c.time with
    | some what => exact ⟨(hc.later _).reset, rfl⟩
    | none =>
      -- a new socket has no events
      refine ⟨⟨hc.wellUsed, fun j hj => hc.fresh j (Nat.le_of_succ_le hj), ?_, ?_⟩, rfl, rfl⟩
      · rintro j hj
        obtain rfl : c.created = j := Option.some.inj hj
        exact Nat.lt_succ_self _
      · rintro j hj
        obtain rfl : c.created = j := Option.some.inj hj
        exact hc.fresh _ le_rfl

/-- The request is out on the live socket, or the socket is dropped. -/
theorem trySend_spec (request : List UInt8) : Triple (Live .idle k h) (trySend env cfg k request)
    (fun r c => match r with
      | .ok _ => Live .awaiting k (h ++ [.sent k request]) c
      | .error _ => SafeAt (h ++ [.sendFailed k]) c) (fun _ _ => False) := by
  rintro c ⟨hc, hk, rfl⟩
  unfold trySend
  rw [exec_tryCatch, exec_bind, exec_send]
  cases env.send c.time with
  | sent => exact ⟨hc.event hk (.sent k request) rfl (fun _ => rfl) _, hk, rfl⟩
  | timedOut => exact ⟨(hc.event hk (.sendFailed k) rfl (fun _ => rfl) _).reset, rfl⟩
  | threw what => exact ⟨(hc.event hk (.sendFailed k) rfl (fun _ => rfl) _).reset, rfl⟩

/-- The reply comes on the live socket, or the socket is dropped. -/
theorem receive_spec : Triple (Live .awaiting k h) (receive env cfg k)
    (fun reply c => SafeAt (h ++ [.received k reply]) c)
    (fun e c => SafeAt (h ++ [.recvFailed k]) c ∧ ¬ GaveUp e) := by
  rintro c ⟨hc, hk, rfl⟩
  unfold receive
  rw [exec_tryCatch, exec_bind, exec_recv]
  cases env.recv c.time with
  | reply bytes => exact ⟨hc.event hk (.received k bytes) rfl nofun _, rfl⟩
  | timedOut => exact ⟨⟨(hc.event hk (.recvFailed k) rfl nofun _).reset, rfl⟩, not_gaveUp_lost _⟩
  | threw what => exact ⟨⟨(hc.event hk (.recvFailed k) rfl nofun _).reset, rfl⟩, not_gaveUp_lost _⟩

/-- Sends that failed, and nothing else. -/
def Failed (events : List Event) : Prop := ∀ e ∈ events, ∃ k, e = .sendFailed k

/-- The request went out and came to nothing. -/
def Lost (request : List UInt8) (h : List Event) (e : Exn) (c : Connection) : Prop :=
  ¬ GaveUp e ∧ ∃ k last, (last = .recvFailed k ∨ ∃ reply, last = .received k reply) ∧
    SafeAt (h ++ [.sent k request, last]) c

/-- **One attempt** returns with the reply to its request, goes on with the request
not sent, or throws. -/
theorem oneAttempt_spec (deadline : BitVec 64) (request : List UInt8) (attempt : ℕ) (lastError : String) :
    Triple (SafeAt h) (oneAttempt env cfg deadline request attempt lastError)
      (fun r c => match r with
        | .ok reply => ∃ k, SafeAt (h ++ [.sent k request, .received k reply]) c
        | .error _ => ∃ fails, Failed fails ∧ SafeAt (h ++ fails) c)
      (fun e c => SafeAt h c ∨ Lost request h e c) := by
  unfold oneAttempt
  refine (tick_spec fun e c => SafeAt h c ∨ Lost request h e c).bind fun time => ?_
  by_cases hpassed : deadline.toInt ≤ (env.now time).toInt
  · rw [if_pos hpassed]
    exact .throw _ fun c hc => .inl hc
  · rw [if_neg hpassed]
    refine ((connected_spec env).mono (fun _ hc => hc) (fun _ _ hc => hc) nofun).bind fun r => ?_
    cases r with
    | error err => exact .pure _ fun c hc => ⟨[], nofun, by rwa [List.append_nil]⟩
    | ok k =>
      refine ((trySend_spec env cfg request).mono (fun _ hc => hc) (fun _ _ hc => hc) nofun).bind fun r => ?_
      cases r with
      | error err =>
        exact .pure _ fun c hc => ⟨[.sendFailed k], fun e he => ⟨k, List.mem_singleton.mp he⟩, hc⟩
      | ok _ =>
        have htwo : ∀ e, h ++ [.sent k request] ++ [e] = h ++ [.sent k request, e] := fun e => by simp
        refine ((receive_spec env cfg).mono (fun _ hc => hc) (fun _ _ hc => hc) fun e c hc => ?_).bind
          fun reply => ?_
        · exact .inr ⟨hc.2, k, _, .inl rfl, htwo _ ▸ hc.1⟩
        · split
          · exact .throw _ fun c hc => .inr ⟨not_gaveUp_oversize _, k, _, .inr ⟨reply, rfl⟩, htwo _ ▸ hc⟩
          · exact .pure _ fun c hc => ⟨k, htwo _ ▸ hc⟩

/-- **All attempts**, by induction on those that are left. -/
theorem attempts_spec (deadline : BitVec 64) (request : List UInt8) :
    ∀ (left attempt : ℕ) (lastError : String) (h : List Event),
    Triple (SafeAt h) (attempts env cfg deadline request left attempt lastError)
      (fun reply c => ∃ fails k, Failed fails ∧
        SafeAt (h ++ fails ++ [.sent k request, .received k reply]) c)
      (fun e c => ∃ fails, Failed fails ∧ (SafeAt (h ++ fails) c ∨ Lost request (h ++ fails) e c))
  | 0, _, _, h => .throw _ fun c hc => ⟨[], nofun, .inl (by rwa [List.append_nil])⟩
  | left + 1, attempt, lastError, h => by
    unfold attempts
    refine ((oneAttempt_spec env cfg deadline request attempt lastError).mono (fun _ hc => hc) (fun _ _ hc => hc)
      fun e c hc => ⟨[], nofun, by rwa [List.append_nil]⟩).bind fun r => ?_
    cases r with
    | ok reply =>
      refine .pure _ fun c hc => ?_
      obtain ⟨k, hc⟩ := hc
      exact ⟨[], k, nofun, by rwa [List.append_nil]⟩
    | error lastError =>
      rintro c ⟨fails, hf, hc⟩
      -- the failed sends so far come before those of the rest
      have hjoin : ∀ more, Failed more → Failed (fails ++ more) := fun more hm e he =>
        (List.mem_append.mp he).elim (hf e) (hm e)
      refine (attempts_spec deadline request left (attempt + 1) lastError (h ++ fails) c hc).mono ?_ ?_
      · rintro reply c ⟨more, k, hm, hc⟩
        exact ⟨fails ++ more, k, hjoin more hm, by rwa [← List.append_assoc]⟩
      · rintro e c ⟨more, hm, hc⟩
        exact ⟨fails ++ more, hjoin more hm, by rwa [← List.append_assoc]⟩

end Attempt

/-! ### Submissions -/

section Submissions

variable (decode : List UInt8 → Except Exn (List ℕ))

/-- A submission after the events `h`: the result and the connection it leaves. -/
inductive Submitted (h : List Event) : Except Exn (List ℕ) → Connection → Prop
  | unsent {fails : List Event} {e : Exn} {c : Connection} : Failed fails → SafeAt (h ++ fails) c →
      Submitted h (.error e) c
  | answered {fails : List Event} {k : ℕ} {request reply : List UInt8} {c : Connection} : Failed fails →
      SafeAt (h ++ fails ++ [.sent k request, .received k reply]) c → Submitted h (decode reply) c
  | lost {fails : List Event} {request : List UInt8} {e : Exn} {c : Connection} : Failed fails →
      Lost request (h ++ fails) e c → Submitted h (.error e) c

variable {decode} in
theorem safe_submitted {h : List Event} {r : Except Exn (List ℕ)} {c : Connection}
    (hr : Submitted decode h r c) : Safe c := by
  cases hr with
  | unsent _ hc => exact hc.safe
  | answered _ hc => exact hc.safe
  | lost _ hc =>
    obtain ⟨-, k, last, -, hc⟩ := hc
    exact hc.safe

/-- No double execution in a call with result `r` and events `new`: at most one
request goes out; the two errors of giving up (unless the decoder throws one
with their text) mean that none did; after the request comes its reply, on the
same socket and the only source of outcomes, or a failure, and nothing else;
and without a request there are no outcomes. -/
structure SentOnce (r : Except Exn (List ℕ)) (new : List Event) : Prop where
  atMostOnce : (new.filter Event.isSent).length ≤ 1
  gaveUp : ∀ e, r = .error e → GaveUp e → (∀ reply, decode reply ≠ .error e) →
    new.filter Event.isSent = []
  afterSend : ∀ i k request, new[i]? = some (.sent k request) →
    (∃ reply, new.drop (i + 1) = [.received k reply] ∧
      ∀ outcomes, r = .ok outcomes → decode reply = .ok outcomes) ∨
    (new.drop (i + 1) = [.recvFailed k] ∧ ∃ e, r = .error e)
  outcomes : ∀ outcomes, r = .ok outcomes → ∃ k request, Event.sent k request ∈ new

variable {decode} {fails : List Event}

theorem Failed.filter_eq (h : Failed fails) : fails.filter Event.isSent = [] := by
  refine List.filter_eq_nil_iff.mpr fun e he => ?_
  obtain ⟨k, rfl⟩ := h e he
  simp [Event.isSent]

/-- The events of a call that got a request out. -/
theorem sentOnce_of_sent {r : Except Exn (List ℕ)} (hf : Failed fails) {k : ℕ} {request : List UInt8}
    {last : Event} (hgave : ∀ e, r = .error e → GaveUp e → ∃ reply, decode reply = .error e)
    (hlast : (∃ reply, last = .received k reply ∧ ∀ outcomes, r = .ok outcomes → decode reply = .ok outcomes) ∨
      (last = .recvFailed k ∧ ∃ e, r = .error e)) :
    SentOnce decode r (fails ++ [.sent k request, last]) := by
  have hsent : last.isSent = false := by
    obtain ⟨reply, rfl, -⟩ | ⟨rfl, -⟩ := hlast <;> rfl
  have hfilter : (fails ++ [.sent k request, last]).filter Event.isSent = [.sent k request] := by
    rw [List.filter_append, hf.filter_eq, List.nil_append, List.filter_cons_of_pos rfl,
      List.filter_cons_of_neg (by simp [hsent]), List.filter_nil]
  refine ⟨by rw [hfilter]; rfl, fun e he hg hd => ?_, fun i k' request' hi => ?_,
    fun _ _ => ⟨k, request, by simp⟩⟩
  · obtain ⟨reply, hreply⟩ := hgave e he hg
    exact absurd hreply (hd reply)
  · -- the only position of a sent event
    have hpos : i = fails.length := by
      rcases Nat.lt_trichotomy i fails.length with hlt | heq | hgt
      · rw [List.getElem?_append_left hlt] at hi
        obtain ⟨j, hj⟩ := hf _ (List.mem_of_getElem? hi)
        cases hj
      · exact heq
      · obtain ⟨j, rfl⟩ : ∃ j, i = fails.length + (j + 1) := ⟨i - fails.length - 1, by omega⟩
        rw [List.getElem?_append_right (by omega), Nat.add_sub_cancel_left, List.getElem?_cons_succ] at hi
        rw [← List.mem_singleton.mp (List.mem_of_getElem? hi)] at hsent
        cases hsent
    subst hpos
    obtain ⟨rfl, rfl⟩ : k' = k ∧ request' = request := by simpa [eq_comm] using hi
    have hdrop : (fails ++ [.sent k' request', last]).drop (fails.length + 1) = [last] := by simp
    rw [hdrop]
    obtain ⟨reply, rfl, h⟩ | ⟨rfl, h⟩ := hlast
    · exact .inl ⟨reply, rfl, h⟩
    · exact .inr ⟨rfl, h⟩

theorem Submitted.sentOnce {h : List Event} {r : Except Exn (List ℕ)} {c : Connection}
    (hr : Submitted decode h r c) : ∃ new, c.events = h ++ new ∧ SentOnce decode r new := by
  cases hr with
  | @unsent fails e _ hf hc =>
    refine ⟨fails, hc.events, by rw [hf.filter_eq]; exact Nat.zero_le _, fun _ _ _ _ => hf.filter_eq,
      fun i k request hi => ?_, nofun⟩
    obtain ⟨k', hk'⟩ := hf _ (List.mem_of_getElem? hi)
    cases hk'
  | @answered fails k request reply _ hf hc =>
    exact ⟨_, by rw [hc.events, List.append_assoc], sentOnce_of_sent hf (fun e he _ => ⟨reply, he⟩)
      (.inl ⟨reply, rfl, fun _ h => h⟩)⟩
  | @lost fails request e _ hf hc =>
    obtain ⟨hg, k, last, hlast, hc⟩ := hc
    refine ⟨_, by rw [hc.events, List.append_assoc],
      sentOnce_of_sent hf (fun e' he hgave => absurd (Except.error.inj he ▸ hgave) hg) ?_⟩
    obtain rfl | ⟨reply, rfl⟩ := hlast
    · exact .inr ⟨rfl, e, rfl⟩
    · exact .inl ⟨reply, rfl, nofun⟩

end Submissions

/-! ### Calls -/

section Calls

variable (env : Environment) (cfg : Settings)
  (encode : ℕ → List (GateOp ℝ) → List ℕ → ℕ → Except Exn (List UInt8))
  (decode : ℕ → List UInt8 → Except Exn (List ℕ)) {φ : Type} (F : Simulator φ (List ℕ))

theorem submitCircuit_spec {c : Connection} (hc : Safe c) (numQubits : ℕ) (gateBuffer : List (GateOp ℝ))
    (qubits : List ℕ) (shots : ℕ) :
    let r := exec ((qmioDevice env cfg encode decode).submitCircuit numQubits gateBuffer qubits shots) c
    Submitted (decode shots) c.events r.1 r.2 := by
  intro r
  have hsubmit : Triple (SafeAt c.events)
      ((qmioDevice env cfg encode decode).submitCircuit numQubits gateBuffer qubits shots)
      (fun outcomes c' => Submitted (decode shots) c.events (.ok outcomes) c')
      (fun e c' => Submitted (decode shots) c.events (.error e) c') := by
    refine Triple.bind (.lift (Q := fun _ => SafeAt c.events) (fun _ _ _ h => h) fun e _ c' h =>
      .unsent (show Failed [] from nofun) (by rwa [List.append_nil])) fun request => ?_
    refine Triple.bind ((tick_spec _).bind fun time => (attempts_spec env cfg _ request _ 0 "" c.events).mono
      (fun _ h => h) (fun _ _ h => h) fun e c' h => ?_) fun reply => ?_
    · obtain ⟨fails, hf, h | h⟩ := h
      · exact .unsent hf h
      · exact .lost hf h
    · refine .lift (fun outcomes hd c' h => ?_) fun e hd c' h => ?_
      · obtain ⟨fails, k, hf, h⟩ := h
        exact hd ▸ .answered hf h
      · obtain ⟨fails, k, hf, h⟩ := h
        exact hd ▸ .answered hf h
  have h := hsubmit c ⟨hc, rfl⟩
  show Submitted (decode shots) c.events r.1 r.2
  rcases hr : r with ⟨e | outcomes, c'⟩
  · exact hsubmit.of_error ⟨hc, rfl⟩ hr
  · exact hsubmit.of_ok ⟨hc, rfl⟩ hr

/-- A failed submission is never answered by the fallback. -/
theorem exec_sample (s : QPUBackend Connection φ) (hs : s.deviceAvailable = true) (qubits : List ℕ) (shots : ℕ) :
    let D := qmioDevice env cfg encode decode
    let r := exec (QPUBackend.submission D s qubits shots) s.device
    exec (QPUBackend.sample D F qubits shots) s = (r.1, { s with device := r.2 }) := by
  intro D r
  rcases hr : r with ⟨e | outcomes, c⟩
  · have hrecheck : exec D.recheckDevice (c, s.deviceAvailable) = (.ok (), c, true) := by rw [hs]; rfl
    rw [QPUBackend.exec_sample_error hs hr, QPUBackend.exec_handleFailure]
    dsimp only
    rw [hrecheck]
    show (Except.error e, _) = (Except.error e, { s with device := c })
    rw [← hs]
  · exact QPUBackend.exec_sample_ok hs hr

/-- **Every call keeps the invariant**, whatever the network does. -/
theorem safe_after (s : QPUBackend Connection φ) (h : Safe s.device) (call : Simulator.Call) :
    Safe ((QPUBackend.simulator (qmioDevice env cfg encode decode) F).after s call).device := by
  cases call with
  | initializeState numQubits =>
    show Safe (exec (QPUBackend.initializeState F numQubits) s).2.device
    rwa [QPUBackend.device_initializeState]
  | applyGate op =>
    show Safe (exec (QPUBackend.applyGate F op) s).2.device
    rwa [QPUBackend.device_applyGate]
  | sample qubits shots =>
    show Safe (exec (QPUBackend.sample _ F qubits shots) s).2.device
    cases hs : s.deviceAvailable with
    | true =>
      rw [exec_sample env cfg encode decode F s hs]
      exact safe_submitted (submitCircuit_spec env cfg encode decode h _ _ _ _)
    | false => rwa [QPUBackend.exec_sample_unavailable hs, QPUBackend.device_onFallback]

theorem safe_afterCalls : ∀ (calls : List Simulator.Call) (s : QPUBackend Connection φ), Safe s.device →
    Safe ((QPUBackend.simulator (qmioDevice env cfg encode decode) F).afterCalls s calls).device
  | [], _, h => h
  | call :: calls, s, h => safe_afterCalls calls _ (safe_after env cfg encode decode F s h call)

/-- No socket, no events. -/
theorem safe_new : Safe ⟨none, 0, 0, []⟩ :=
  ⟨fun i e hi => by simp at hi, fun k _ => rfl, nofun, nofun⟩

/-- **No double execution on QMIO.** After any calls on a new backend, whatever the
network does, a `sample` gets at most one request out, and every send of the
whole history is on a socket that has replied to all its requests and never
failed. -/
theorem sample_sendsOnce (available : Bool) (fallback : φ) (calls : List Simulator.Call)
    (qubits : List ℕ) (shots : ℕ) :
    let D := qmioDevice env cfg encode decode
    let s := (QPUBackend.simulator D F).afterCalls ⟨available, 0, [], ⟨none, 0, 0, []⟩, fallback⟩ calls
    let r := exec (QPUBackend.sample D F qubits shots) s
    (∃ new, r.2.device.events = s.device.events ++ new ∧
      (s.deviceAvailable = true → SentOnce (decode shots) r.1 new) ∧ (s.deviceAvailable = false → new = [])) ∧
    ∀ i e, r.2.device.events[i]? = some e → e.isSend = true →
      status e.socket (r.2.device.events.take i) = .idle := by
  intro D s r
  have hs : Safe s.device := safe_afterCalls env cfg encode decode F calls _ safe_new
  have hr : Safe r.2.device := safe_after env cfg encode decode F s hs (.sample qubits shots)
  refine ⟨?_, hr.wellUsed⟩
  cases havail : s.deviceAvailable with
  | true =>
    have hexec : r = _ := exec_sample env cfg encode decode F s havail qubits shots
    obtain ⟨new, hnew, hsent⟩ := (submitCircuit_spec env cfg encode decode hs s.numQubits s.gateBuffer
      (if qubits.isEmpty then List.range s.numQubits else qubits) shots).sentOnce
    refine ⟨new, ?_, fun _ => ?_, nofun⟩
    · rw [hexec]
      exact hnew
    · rw [hexec]
      exact hsent
  | false =>
    have hexec : r = _ := QPUBackend.exec_sample_unavailable havail
    refine ⟨[], ?_, nofun, fun _ => rfl⟩
    rw [hexec, QPUBackend.device_onFallback, List.append_nil]

end Calls

end Qsycl.Qmio
