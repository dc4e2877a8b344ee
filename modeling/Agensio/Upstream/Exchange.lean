/-
  Agensio.Upstream.Exchange — one exchange with an upstream, and its attempts.

  Model of `UpstreamPool::pick` and of the control flow of
  `UpstreamRequest` (`upstream/client.cpp`): `begin`, `on_slot`, `connect`,
  `handshake`, `send_head`, `send_body_next`, `read_more`, `try_retry`,
  `on_tick`, `try_next_address`, `fail`, `finish`, `cancel`.  What the
  exchange asks of its pool is a list of actions.  An asynchronous operation
  is in flight from the step that starts it to the step that is its
  completion, which may come at any time; a completion finds out by the
  phase and `reading` alone whether it is still wanted.  The decoder of the
  derived class is a sequence of calls between `data` and `decodeEnd`.

  `log`, `written`, `seen` and `dataOf` are not in the program: they record
  the attempts, the heads that were written, whether a byte was read and
  which attempt's bytes the decoder has.

  Main results:
    * `pick_spec` — what `pick` answers;
    * `fail_cases` — the three ways an attempt fails.
-/
import Mathlib.Data.List.Basic
import Mathlib.Data.List.Nodup
import Agensio.Bytes
import Agensio.Lib.Runs

namespace Agensio.Upstream

/-! ## §1. Addresses and their health. -/

/-- `UpstreamAddress`, as far as an exchange looks at it; `poolKey` is `pool_key()`. -/
structure Address where
  tls : Bool := false
  key : Bytes
  poolKey : Bytes
  deriving DecidableEq

/-- `UpstreamPool::Health`. -/
structure Health where
  failures : Nat := 0
  downUntil : Nat := 0
  marked : Nat := 0
  deriving DecidableEq

/-- `tried_mask & (1u << i)`, with the test for the width of the mask. -/
def masked (tried : BitVec 32) (i : Nat) : Bool := i < 32 && tried.getLsbD i

/-- `if (i < 32) tried_ |= 1u << i`. -/
def mark (tried : BitVec 32) (i : Nat) : BitVec 32 := if i < 32 then tried ||| BitVec.twoPow 32 i else tried

/-- The loop of `pick` over these members. -/
def pickFrom (health : Nat → Health) (now : Nat) (tried : BitVec 32) : List Nat → Option Nat → Option Nat
  | [], fallback => fallback
  | i :: is, fallback =>
    if masked tried i then pickFrom health now tried is fallback
    else if (health i).downUntil ≤ now then some i
    else
      pickFrom health now tried is <|
        match fallback with
        | none => some i
        | some f => if (health i).marked < (health f).marked then some i else some f

/-- `UpstreamPool::pick` in a group of `n`; `start` is the rotation's when there is no `after`. -/
def pick (n : Nat) (health : Nat → Health) (now start : Nat) (after : Option Nat) (tried : BitVec 32) : Option Nat :=
  let start := match after with
    | none => start % n
    | some a => (a + 1) % n
  pickFrom health now tried ((List.range n).map fun k => (start + k) % n) none

/-! ## §2. The exchange. -/

/-- Why an attempt failed. -/
inductive Failure
  | connectRefused
  | socketMissing
  | socketPermission
  | connectError
  | connectTimeout
  | poolSaturated
  | queueTimeout
  | sendTimeout
  | readTimeout
  | closedEarly
  | primaryScriptUnknown
  | badResponseHead
  | headTooLarge
  | protocolError
  | spillError
  | tlsError
  deriving DecidableEq

/-- The reasons that say nothing about the address. -/
def Failure.ours : Failure → Bool
  | .poolSaturated | .queueTimeout | .spillError => true
  | _ => false

/-- The phases of an attempt. -/
inductive Phase
  | queued
  | connecting
  | sending
  | sendingBody
  | receiving
  | finished
  | failed
  | cancelled
  deriving DecidableEq

/-- The phases in which the exchange holds a slot of its address. -/
def Phase.holds : Phase → Bool
  | .connecting | .sending | .sendingBody | .receiving => true
  | _ => false

/-- The phases that are not left. -/
def Phase.over : Phase → Bool
  | .finished | .failed | .cancelled => true
  | _ => false

/-- The request body behind `out_`. -/
inductive Rest
  | nothing
  | spill
  | stream
  deriving DecidableEq

/-- The asynchronous operations. -/
inductive Op
  | connect
  | handshake
  | writeHead
  | readBody
  | writeBody (last : Bool)
  | read
  deriving DecidableEq

/-- The phase a completion is meant for. -/
def Op.phase : Op → Phase
  | .connect => .connecting
  | .handshake | .writeHead => .sending
  | .readBody | .writeBody _ => .sendingBody
  | .read => .receiving

/-- An operation in flight, with the attempt it was started for. -/
structure Started where
  op : Op
  attempt : Nat
  deriving DecidableEq

/-- An attempt: the first one with a member, or the resend on a fresh connection. -/
structure Attempt where
  member : Option Nat
  resend : Bool
  deriving DecidableEq

/-- `UpstreamRequest`: the attempt at hand, its operations and the history. -/
structure Exchange where
  group : List Address
  retryOk : Bool
  rest : Rest
  buffering : Bool
  phase : Phase := .queued
  member : Option Nat
  tried : BitVec 32
  sentAny : Bool := false
  attempts : Nat := 0
  /-- `conn_`, by its `reused`. -/
  conn : Option Bool := none
  headBytes : Nat := 0
  headDelivered : Bool := false
  reading : Bool := false
  inData : Bool := false
  /-- The decoder of the derived class is running. -/
  decoding : Bool := false
  failure : Option Failure := none
  ops : List Started := []
  log : List Attempt := []
  /-- The attempts whose head was written, and whether a byte of a response had been read; the last one first. -/
  written : List (Nat × Bool) := []
  seen : Bool := false
  /-- The attempt that read what the decoder was given last. -/
  dataOf : Nat := 0

/-- What an exchange asks of the pool, and what it tells its handler. -/
inductive Action
  | acquire (key : Bytes)
  | release (key : Bytes)
  | dequeue (key : Bytes)
  | markFailure (key : Bytes)
  | markSuccess (key : Bytes)
  | sendHead
  | startRead
  /-- `deliver_head`, to a handler that may be gone. -/
  | deliver
  deriving DecidableEq

/-- The rest of the world, as a step finds it. -/
structure Env where
  /-- The health of the members, behind the marks of this step. -/
  health : Nat → Health
  now : Nat
  /-- A fresh socket can be opened. -/
  opens : Bool
  /-- The TLS context and the name can be set up. -/
  tlsReady : Bool
  /-- What `read_at` of the request's temporary file gets. -/
  spillGot : Option Nat
  /-- Not less than `kHighWater` is pending. -/
  highWater : Bool
  /-- `on_eof()` ends the response. -/
  eofEnds : Bool
  /-- While the pool takes a slot back for the next member to be tried, it grants it to another exchange, and what
      comes of that cancels this one. -/
  cancelsInRelease : Bool

inductive Ec
  | eof
  | connectionReset
  | brokenPipe
  | operationAborted
  | other
  deriving DecidableEq

/-- How an operation completes; `n` bytes for a read. -/
inductive Result
  | ok (n : Nat)
  | error (ec : Ec)
  deriving DecidableEq

namespace Exchange

/-- A state and what was asked on the way there. -/
abbrev Step := Exchange × List Action

section

variable (env : Env) (s : Exchange)

def address : Option Address := s.member.bind fun m => s.group[m]?

/-- `address_.key`, of no address empty. -/
def key : Bytes := (s.address.map Address.key).getD []

def poolKey : Bytes := (s.address.map Address.poolKey).getD []

/-- The number of the attempt that is on. -/
def attempt : Nat := s.log.length

def start (op : Op) : Exchange := { s with ops := s.ops ++ [⟨op, s.attempt⟩] }

def deliverHead : Step :=
  if s.headDelivered || s.phase = .cancelled then (s, []) else ({ s with headDelivered := true }, [.deliver])

/-- The member `try_next_address` would move to. -/
def nextAddress (why : Failure) : Option Nat :=
  if s.group.length < 2 || s.phase = .cancelled then none
  else if why = .poolSaturated || why = .queueTimeout then none
  else if s.sentAny && (!s.retryOk || 0 < s.headBytes) then none
  else pick s.group.length env.health env.now 0 s.member s.tried

def cancel : Step :=
  if s.phase = .cancelled then (s, [])
  else
    ({ s with phase := .cancelled, conn := none, decoding := false },
      if s.phase = .queued then [.dequeue s.poolKey] else if s.phase.holds then [.release s.poolKey] else [])

/-- The slot of this address, given back by `try_next_address`: the phase and the address are still the old ones. -/
def giveSlot : Step :=
  if s.phase = .queued then (s, [])
  else
    let (t, acts) := if env.cancelsInRelease then s.cancel else (s, [])
    (t, .release s.poolKey :: acts)

/-- `try_next_address`, once there is one.  A cancel inside the release does not stop it. -/
def moveTo (next : Nat) : Step :=
  let (t, acts) := { s with conn := none, decoding := false }.giveSlot env
  let t := { t with member := some next, tried := mark t.tried next, attempts := 0, sentAny := false, phase := .queued }
  (t, acts ++ [.acquire t.poolKey])

def fail (why : Failure) : Step :=
  if s.phase.over then (s, [])
  else
    let marks := if why.ours then [] else [Action.markFailure s.key]
    match s.nextAddress env why with
    | some next =>
      let (t, acts) := s.moveTo env next
      (t, marks ++ acts)
    | none =>
      let given := if s.phase = .queued then Action.dequeue s.poolKey else .release s.poolKey
      ({ s with phase := .failed, conn := if s.phase = .queued then s.conn else none, failure := some why,
                headDelivered := true, decoding := false },
        marks ++ [given] ++ if s.headDelivered then [] else [.deliver])

def sendHead : Step :=
  ({ s.start .writeHead with sentAny := true, written := (s.attempt, s.seen) :: s.written }, [.sendHead])

def connected : Step := { s with phase := .sending }.sendHead

def handshake : Step :=
  if !env.tlsReady then s.fail env .tlsError
  else ({ s with phase := .sending }.start .handshake, [])

def connect : Step :=
  let t := { s with phase := .connecting }
  if env.opens then (t.start .connect, []) else t.fail env .connectError

def readMore : Step :=
  if s.reading || s.inData || s.phase ≠ .receiving then (s, [])
  else if !s.buffering && s.headDelivered && env.highWater then (s, [])
  else ({ s.start .read with reading := true }, [.startRead])

def bodySent : Step := { s with phase := .receiving }.readMore env

def sendBodyNext : Step :=
  match s.rest with
  | .stream => (s.start .readBody, [])
  | _ =>
    match env.spillGot with
    | none => s.fail env .spillError
    | some got => (s.start (.writeBody (got = 0)), [])

/-- Whether `try_retry` resends. -/
def retries (ec : Ec) : Bool :=
  s.retryOk && s.attempts = 1 && s.conn = some true && s.headBytes = 0 &&
    (ec = .eof || ec = .connectionReset || ec = .brokenPipe)

/-- `try_retry`, once it resends. -/
def retry : Step :=
  let t := { s with conn := some false, attempts := s.attempts + 1, log := s.log ++ [Attempt.mk s.member true],
                    decoding := false }
  t.connect env

def finish : Step :=
  let t := { s with phase := .finished, conn := none, decoding := false }
  let (u, acts) := t.deliverHead
  (u, [.markSuccess s.key, .release s.poolKey] ++ acts)

/-- `finish_upgraded`: the connection stays. -/
def finishUpgraded : Step :=
  let t := { s with phase := .finished, decoding := false }
  let (u, acts) := t.deliverHead
  (u, [.release s.poolKey] ++ acts)

/-! ## §3. The completions. -/

def onConnect : Result → Step
  | .error _ => s.fail env .connectError
  | .ok _ => if s.address.any Address.tls then s.handshake env else s.connected

def onHandshake : Result → Step
  | .error _ => s.fail env .tlsError
  | .ok _ => s.sendHead

def onHeadWritten : Result → Step
  | .error ec => if s.retries ec then s.retry env else s.fail env .closedEarly
  | .ok _ =>
    if s.rest = .nothing then s.bodySent env
    else { s with phase := .sendingBody }.sendBodyNext env

def onBodyRead : Result → Step
  | .error _ => s.fail env .closedEarly
  | .ok n => (s.start (.writeBody (n = 0)), [])

def onBodyWritten (last : Bool) : Result → Step
  | .error _ => s.fail env .closedEarly
  | .ok _ => if last then s.bodySent env else s.sendBodyNext env

/-- `a` is the attempt the read was started for. -/
def onRead (a : Nat) : Result → Step
  | .error ec =>
    if s.retries ec then s.retry env
    else if ec = .eof && env.eofEnds then s.finish
    else s.fail env .closedEarly
  | .ok n => ({ s with inData := true, decoding := true, seen := s.seen || 0 < n, dataOf := a }, [])

/-- The completion of an operation that was started for attempt `a`, by its handler alone. -/
def completed (op : Op) (a : Nat) (r : Result) : Step :=
  match op with
  | .read =>
    let s := { s with reading := false }
    if s.phase ≠ .receiving then (s, []) else s.onRead env a r
  | .connect => if s.phase ≠ .connecting then (s, []) else s.onConnect env r
  | .handshake => if s.phase ≠ .sending then (s, []) else s.onHandshake env r
  | .writeHead => if s.phase ≠ .sending then (s, []) else s.onHeadWritten env r
  | .readBody => if s.phase ≠ .sendingBody then (s, []) else s.onBodyRead env r
  | .writeBody last => if s.phase ≠ .sendingBody then (s, []) else s.onBodyWritten env last r

end

/-! ## §4. Steps. -/

inductive Event
  /-- `on_slot`, with a connection that was kept or a fresh one. -/
  | slot (reused : Bool)
  /-- `on_queue_refused`. -/
  | refused
  /-- The pool's tick, behind the deadline. -/
  | tick
  | completed (o : Started) (r : Result)
  /-- `feed_head` with so many bytes. -/
  | feedHead (k : Nat) (complete : Bool)
  /-- The temporary file's cap in `store_body`. -/
  | capReached
  | decodeFail (why : Failure)
  | decodeFinish
  | decodeUpgraded
  | decodeEnd (more : Bool)
  | cancel
  /-- A pull that finds nothing pending. -/
  | pull
  deriving DecidableEq

section

variable (env : Env) (s : Exchange)

def onSlot (reused : Bool) : Step :=
  if s.phase ≠ .queued then (s, [.release s.poolKey])
  else
    let t := { s with attempts := s.attempts + 1, conn := some reused, log := s.log ++ [Attempt.mk s.member false] }
    if reused then t.connected else t.connect env

def onQueueRefused : Step :=
  if s.phase ≠ .queued then (s, [])
  else { s with phase := .failed, failure := some .poolSaturated }.deliverHead

def onTick : Step :=
  match s.phase with
  | .queued =>
    let (t, acts) := { s with phase := .failed, failure := some .queueTimeout }.deliverHead
    (t, .dequeue s.poolKey :: acts)
  | .connecting => s.fail env .connectTimeout
  | .sending | .sendingBody => s.fail env .sendTimeout
  | .receiving => s.fail env .readTimeout
  | _ => (s, [])

/-- A step; nothing where the event cannot occur. -/
def step (ev : Event) : Option Step :=
  match ev with
  | .slot reused => some (s.onSlot env reused)
  | .refused => some s.onQueueRefused
  | .tick => some (s.onTick env)
  | .completed o r =>
    if o ∈ s.ops then some ({ s with ops := s.ops.erase o }.completed env o.op o.attempt r) else none
  | .feedHead k complete =>
    if !s.decoding then none
    else
      let t := { s with headBytes := s.headBytes + k }
      some (if complete && !s.buffering then t.deliverHead else (t, []))
  | .capReached =>
    if !s.decoding || !s.buffering then none else some { s with buffering := false }.deliverHead
  | .decodeFail why => if !s.decoding then none else some (s.fail env why)
  | .decodeFinish => if !s.decoding then none else some s.finish
  | .decodeUpgraded => if !s.decoding then none else some s.finishUpgraded
  | .decodeEnd more =>
    if !s.inData then none
    else
      let t := { s with inData := false, decoding := false }
      some (if more then t.readMore env else (t, []))
  | .cancel => some s.cancel
  | .pull => some (s.readMore env)

end

/-- What may happen next, and how the world is then. -/
abbrev Label := Env × Event

def next (s : Exchange) (l : Label) : Option Exchange := (s.step l.1 l.2).map Prod.fst

/-- The exchange behind `begin`, which has asked for a slot of its address. -/
def begun (group : List Address) (getOrHead : Bool) (rest : Rest) (bodySize : Nat) (buffering : Bool)
    (first : Option Nat) : Exchange :=
  { group := group, retryOk := getOrHead && rest ≠ .stream && bodySize = 0, rest := rest, buffering := buffering,
    member := first,
    tried := match first with
      | none => 0
      | some m => mark 0 m }

end Exchange

/-! ## §5. What `pick` answers. -/

section Pick

variable {health : Nat → Health} {now : Nat} {tried : BitVec 32}

/-- A member that is picked is one of the loop's, or the fallback, and was not tried. -/
theorem pickFrom_spec {is : List Nat} : ∀ {fallback : Option Nat} {m : Nat},
    pickFrom health now tried is fallback = some m → fallback = some m ∨ m ∈ is ∧ masked tried m = false := by
  induction is with
  | nil => intro fallback m h; exact .inl h
  | cons i is ih =>
    intro fallback m h
    unfold pickFrom at h
    split at h
    · rcases ih h with h | ⟨hm, hn⟩
      · exact .inl h
      · exact .inr ⟨.tail _ hm, hn⟩
    · next hmask =>
      have hfree : masked tried i = false := by
        cases hb : masked tried i with
        | false => rfl
        | true => exact absurd hb hmask
      split at h
      · cases h
        exact .inr ⟨.head _, hfree⟩
      rcases ih h with h | ⟨hm, hn⟩
      · -- the fallback of the rest is this member or the fallback before
        cases fallback with
        | none =>
          cases h
          exact .inr ⟨.head _, hfree⟩
        | some f =>
          dsimp only at h
          split at h
          · cases h
            exact .inr ⟨.head _, hfree⟩
          · exact .inl h
      · exact .inr ⟨.tail _ hm, hn⟩

/-- **A member that is picked** is one of the group and was not tried, as far as the mask tells. -/
theorem pick_spec {n start : Nat} {after : Option Nat} {m : Nat} (h : pick n health now start after tried = some m) :
    m < n ∧ masked tried m = false := by
  unfold pick at h
  rcases pickFrom_spec h with h | ⟨hm, hfree⟩
  · cases h
  obtain ⟨k, hk, rfl⟩ := List.mem_map.mp hm
  have hpos : 0 < n := Nat.lt_of_le_of_lt (Nat.zero_le k) (List.mem_range.mp hk)
  exact ⟨Nat.mod_lt _ hpos, hfree⟩

theorem masked_mark_self {i : Nat} (hi : i < 32) : masked (mark tried i) i = true := by
  unfold masked mark
  rw [decide_eq_true hi, if_pos hi, Bool.true_and]
  simp [hi]

theorem masked_mark_of_masked {i j : Nat} (h : masked tried i = true) : masked (mark tried j) i = true := by
  unfold masked mark at *
  split
  · simp only [Bool.and_eq_true, decide_eq_true_eq, BitVec.getLsbD_or, Bool.or_eq_true] at h ⊢
    exact ⟨h.1, .inl h.2⟩
  · exact h

end Pick

/-! ## §6. The three ways an attempt fails. -/

namespace Exchange

variable {env : Env} {s : Exchange} {why : Failure}

/-- The state of an exchange that has failed for good. -/
def failed (s : Exchange) (why : Failure) : Exchange :=
  { s with phase := .failed, conn := if s.phase = .queued then s.conn else none, failure := some why,
           headDelivered := true, decoding := false }

/-- What an attempt that fails says of its address. -/
def marks (s : Exchange) (why : Failure) : List Action := if why.ours then [] else [.markFailure s.key]

def given (s : Exchange) : Action := if s.phase = .queued then .dequeue s.poolKey else .release s.poolKey

/-- The exchange was over before, it moves on to another member, or it has failed. -/
theorem fail_cases (env : Env) (s : Exchange) (why : Failure) :
    (s.phase.over = true ∧ s.fail env why = (s, [])) ∨
    (s.phase.over = false ∧ ∃ next, s.nextAddress env why = some next ∧
      s.fail env why = ((s.moveTo env next).1, s.marks why ++ (s.moveTo env next).2)) ∨
    (s.phase.over = false ∧ s.nextAddress env why = none ∧ s.fail env why =
      (s.failed why, s.marks why ++ [s.given] ++ if s.headDelivered then [] else [.deliver])) := by
  unfold fail
  cases hover : s.phase.over with
  | true => exact .inl ⟨rfl, if_pos rfl⟩
  | false =>
    rw [if_neg Bool.false_ne_true]
    cases hnext : s.nextAddress env why with
    | some next => exact .inr (.inl ⟨rfl, next, rfl, rfl⟩)
    | none => exact .inr (.inr ⟨rfl, rfl, rfl⟩)

/-- Where a move leads, whether the exchange is cancelled on the way or not. -/
theorem moveTo_fst (env : Env) (s : Exchange) (next : Nat) : (s.moveTo env next).1 =
    { s with conn := none, decoding := false, member := some next, tried := mark s.tried next, attempts := 0,
             sentAny := false, phase := .queued } := by
  unfold moveTo giveSlot
  dsimp only
  split
  · rfl
  split
  · unfold cancel
    split <;> rfl
  · rfl

theorem deliverHead_fst (s : Exchange) :
    s.deliverHead.1 = s ∨ s.deliverHead.1 = { s with headDelivered := true } := by
  unfold deliverHead
  split
  · exact .inl rfl
  · exact .inr rfl

theorem deliverHead_phase (s : Exchange) : s.deliverHead.1.phase = s.phase ∧ s.deliverHead.1.decoding = s.decoding := by
  rcases s.deliverHead_fst with h | h <;> rw [h] <;> exact ⟨rfl, rfl⟩

theorem finish_phase (s : Exchange) : s.finish.1.phase = .finished ∧ s.finish.1.decoding = false :=
  deliverHead_phase { s with phase := .finished, conn := none, decoding := false }

theorem finishUpgraded_phase (s : Exchange) :
    s.finishUpgraded.1.phase = .finished ∧ s.finishUpgraded.1.decoding = false :=
  deliverHead_phase { s with phase := .finished, decoding := false }

/-- A member it moves to is another one, as far as the mask tells. -/
theorem nextAddress_spec {next : Nat} (h : s.nextAddress env why = some next) :
    next < s.group.length ∧ masked s.tried next = false ∧ ¬ (s.sentAny = true ∧ (s.retryOk = false ∨ 0 < s.headBytes)) := by
  unfold nextAddress at h
  split at h
  · cases h
  split at h
  · cases h
  split at h
  · cases h
  next hsent =>
  obtain ⟨hlt, hfree⟩ := pick_spec h
  refine ⟨hlt, hfree, ?_⟩
  rintro ⟨hs, hor⟩
  refine hsent ?_
  rw [hs, Bool.true_and]
  rcases hor with hr | hb
  · rw [hr]
    rfl
  · rw [decide_eq_true hb, Bool.or_true]

theorem retries_spec {ec : Ec} (h : s.retries ec = true) :
    s.retryOk = true ∧ s.attempts = 1 ∧ s.conn = some true ∧ s.headBytes = 0 := by
  unfold retries at h
  simp only [Bool.and_eq_true, decide_eq_true_eq] at h
  exact ⟨h.1.1.1.1, h.1.1.1.2, h.1.1.2, h.1.2⟩

end Exchange

end Agensio.Upstream
