/-
  Agensio.Http2.Goaway — the ids GOAWAY frames name.

  Model of `http2/connection.hpp` as far as GOAWAY goes: the frames of a
  header block, `open_stream` and `begin_request`, the budgets for
  misbehaviour (`glitch`, `count_reset`), and every place that puts out a
  GOAWAY (`goaway`, `connection_error`, and `maybe_finish` for one that was
  deferred).  A frame handler goes on after a connection error it caused,
  as in the source; only the next frame is not handled.

  What the other frames, the timers and the writer's completions do here
  is a list of `Act`: any list of them may happen at any time.

  HISTORY VARIABLES: `written`, the Last-Stream-ID of every GOAWAY put out
  (control frames leave in this order), and `dispatched`, the id of every
  request passed to a handler, at first or again after a verification.

  Main results:
    * `goaway_law` — every run.
-/
import Agensio.Http2.HeaderBlocks

namespace Agensio.Http2.Goaway

open Agensio.Lib

/-! ## §1. The state. -/

def kMaxStreamId : Nat := 0x7fffffff

/-- A stream of the table.  `held`: bytes of it are in flight, or a pull of it. -/
structure Stream where
  id : Nat
  state : StreamState := .opened
  responded : Bool := false
  held : Bool := false
  deriving DecidableEq

/-- What a generation of the configuration sets. -/
structure Live where
  maxConcurrentStreams : Nat := 100
  /-- `max_requests_per_connection`, 0 for none. -/
  maxRequests : Nat := 0
  deriving DecidableEq

/-- The connection, as far as its GOAWAY and the streams it answers go. -/
structure Conn where
  live : Live
  /-- The worker's generation when it is not ours: none without our listener. -/
  reloaded : Option (Option Live) := none
  retire : Bool := false
  goingAway : Bool := false
  goawayPending : Bool := false
  goawayLast : Nat := kMaxStreamId
  closingAfterWrite : Bool := false
  closed : Bool := false
  lastStreamId : Nat := 0
  block : Option (Nat × BlockKind) := none
  blockFrames : Nat := 0
  streams : List Stream := []
  streamsOpened : Nat := 0
  recentClosed : List Nat := []
  glitches : Nat := 0
  resets : Nat := 0
  -- history
  written : List Nat := []
  dispatched : List Nat := []

namespace Conn

/-! ## §2. GOAWAY. -/

/-- A GOAWAY with the id of `goaway_last`: the highest the client opened, never above what an
    earlier GOAWAY named. -/
def appendGoaway (c : Conn) : Conn :=
  let last := min c.goawayLast c.lastStreamId
  { c with goawayLast := last, written := c.written ++ [last] }

def connectionError (c : Conn) : Conn :=
  if c.closed || c.closingAfterWrite then c else { c.appendGoaway with closingAfterWrite := true }

/-- The GOAWAY that was deferred goes out with the last stream. -/
def maybeFinish (c : Conn) : Conn :=
  if c.goingAway && c.streams.isEmpty && !c.closed then
    let c₁ := if c.goawayPending then { c with goawayPending := false }.appendGoaway else c
    { c₁ with closingAfterWrite := true }
  else c

def goaway (c : Conn) : Conn :=
  if c.goingAway || c.closed then c else { c with goingAway := true }.appendGoaway.maybeFinish

/-- Graceful, the frame deferred. -/
def leaveAfterStreams (c : Conn) : Conn :=
  if c.goingAway || c.closed then c else { c with goingAway := true, goawayPending := true }

def glitch (c : Conn) : Conn :=
  let c := { c with glitches := c.glitches + 1 }
  if c.glitches = kGlitchSoft then c.goaway
  else if c.glitches ≥ kGlitchBudget then c.connectionError
  else c

/-- Streams cancelled before a response within one second. -/
def countReset (c : Conn) (newSecond : Bool) : Conn :=
  let c := { c with resets := (if newSecond then 0 else c.resets) + 1 }
  if c.resets > c.live.maxConcurrentStreams then c.connectionError else c

/-! ## §3. Streams. -/

def find (c : Conn) (id : Nat) : Option Stream := c.streams.find? fun s => s.id == id

def noteReset (c : Conn) (id : Nat) : Conn :=
  { c with recentClosed := (id :: c.recentClosed).take kRecentClosed }

/-- The stream `id` as `f` leaves it. -/
def modify (c : Conn) (id : Nat) (f : Stream → Stream) : Conn :=
  { c with streams := c.streams.map fun s => if s.id = id then { f s with id := id } else s }

def release (c : Conn) (id : Nat) : Conn :=
  { c with streams := c.streams.filter fun s => s.id ≠ id }

/-- `close_stream`: out of the table, unless something of it is in flight. -/
def closeStream (c : Conn) (id : Nat) : Conn :=
  match c.find id with
  | none => c
  | some s =>
    if s.state = .closed then c
    else
      let c := c.noteReset id
      if s.held then c.modify id fun s => { s with state := .closed } else c.release id

def streamError (c : Conn) (id : Nat) (newSecond : Bool) : Conn :=
  let responded := (c.find id).any Stream.responded
  let c := if responded then c else c.countReset newSecond
  (c.closeStream id).glitch

/-- What the rest of the connection does here. -/
inductive Act where
  | connectionError
  | glitch
  | countReset (newSecond : Bool)
  | noteReset (id : Nat)
  | streamError (id : Nat) (newSecond : Bool)
  | closeStream (id : Nat)
  | maybeFinish
  /-- The stream is answered, or its state changes, or the writer takes or leaves it. -/
  | become (id : Nat) (state : StreamState) (responded held : Bool)
  | release (id : Nat)
  deriving DecidableEq

def act (c : Conn) : Act → Conn
  | .connectionError => c.connectionError
  | .glitch => c.glitch
  | .countReset newSecond => c.countReset newSecond
  | .noteReset id => c.noteReset id
  | .streamError id newSecond => c.streamError id newSecond
  | .closeStream id => c.closeStream id
  | .maybeFinish => c.maybeFinish
  | .become id state responded held =>
    c.modify id fun s => { s with state := state, responded := responded, held := held }
  | .release id => c.release id

def acts (c : Conn) (as : List Act) : Conn := as.foldl act c

/-! ## §4. Requests. -/

/-- `refresh_generation`: a reload is taken at each new stream. -/
def refreshGeneration (c : Conn) : Conn :=
  match c.reloaded with
  | none => c
  | some none => { c with retire := true }
  | some (some live) => { c with live := live, reloaded := none }

/-- A stream kept only to drain its body gives its slot up. -/
def evict (c : Conn) : Conn :=
  match c.streams.find? fun s => s.state = .halfClosedLocal with
  | some s => c.closeStream s.id
  | none => c

/-- The stream is taken from the pool, and may be the last one. -/
def takeStream (c : Conn) (id : Nat) : Conn :=
  let c := c.refreshGeneration
  let c := { c with streams := c.streams ++ [({ id := id } : Stream)], streamsOpened := c.streamsOpened + 1 }
  let c := if c.live.maxRequests ≠ 0 ∧ c.streamsOpened ≥ c.live.maxRequests then c.leaveAfterStreams else c
  if c.retire then c.leaveAfterStreams else c

/-- `open_stream`: the connection, and whether the stream was opened. -/
def openStream (c : Conn) (id : Nat) (newSecond : Bool) : Conn × Bool :=
  if c.goingAway then (c, false)
  else
    let c := if c.streams.length ≥ c.live.maxConcurrentStreams then c.evict else c
    if c.streams.length ≥ c.live.maxConcurrentStreams then (c.glitch.countReset newSecond, false)
    else (c.takeStream id, true)

/-- What a complete block comes to. -/
inductive Verdict where
  /-- HPACK refuses the block, or its list is over the limit. -/
  | refused
  | malformed
  /-- 431 or 413, answered here. -/
  | answered
  | request
  deriving DecidableEq

/-- What happens around a frame that completes a block: what it decodes to, whether a second began,
    and what the answer, if it is there at once, does. -/
structure Around where
  verdict : Verdict := .request
  newSecond : Bool := false
  after : List Act := []
  deriving DecidableEq

/-- `dispatch`: the request goes to a handler. -/
def dispatch (c : Conn) (id : Nat) (after : List Act) : Conn :=
  { c with dispatched := c.dispatched ++ [id] }.acts after

def beginRequest (c : Conn) (id : Nat) (r : Around) : Conn :=
  match r.verdict with
  | .refused => c.connectionError
  | .malformed => c.streamError id r.newSecond
  | .answered => c.acts r.after
  | .request => c.dispatch id r.after

/-- Trailers end the body. -/
def endTrailers (c : Conn) (id : Nat) (r : Around) : Conn :=
  match c.find id with
  | none => c
  | some s =>
    if s.state = .halfClosedLocal then (c.closeStream id).maybeFinish
    else
      let c := c.modify id fun s => { s with state := .halfClosedRemote }
      if r.verdict = .malformed then c.streamError id r.newSecond else c

def finishBlock (c : Conn) (r : Around) : Conn :=
  match c.block with
  | none => c
  | some (id, kind) =>
    let c := { c with block := none }
    match kind with
    | .request =>
      let x := c.openStream id r.newSecond
      if x.2 then x.1.beginRequest id r else x.1
    | .discard => if r.verdict = .refused then c.connectionError else c
    | .trailers => if r.verdict = .refused then c.connectionError else c.endTrailers id r

/-! ## §5. The frames of a block. -/

/-- A HEADERS or CONTINUATION frame.  `broken`: its padding or priority fields are wrong; `fits`:
    the block with it is within the limit. -/
structure BlockFrame where
  id : Nat
  endStream : Bool := true
  selfDependent : Bool := false
  broken : Bool := false
  empty : Bool := false
  fits : Bool := true
  endHeaders : Bool := true
  deriving DecidableEq

/-- `append_block`, then `finish_block` with END_HEADERS. -/
def appendBlock (c : Conn) (f : BlockFrame) (r : Around) : Conn :=
  if !f.fits then c.connectionError else if f.endHeaders then c.finishBlock r else c

/-- The kind of the block a HEADERS frame begins, and what the frame does before it. -/
def beginBlock (c : Conn) (f : BlockFrame) (r : Around) : Option (Conn × BlockKind) :=
  match if f.id ≤ c.lastStreamId then c.find f.id else none with
  | some s =>
    if s.state = .halfClosedRemote ∨ s.state = .closed ∨ f.endStream = false then
      some (c.streamError f.id r.newSecond, .discard)
    else some (c, .trailers)
  | none =>
    if f.id % 2 = 0 ∨ f.id ≤ c.lastStreamId then none
    else
      let c := { c with lastStreamId := f.id }
      if c.recentClosed.contains f.id then some (c, .discard)
      else if f.selfDependent then some (c.glitch.countReset r.newSecond, .discard)
      else some (c, .request)

def onHeaders (c : Conn) (f : BlockFrame) (r : Around) : Conn :=
  if f.id = 0 ∨ f.broken then c.connectionError
  else
    match c.beginBlock f r with
    | none => c.connectionError
    | some (c, kind) => { c with block := some (f.id, kind), blockFrames := 0 }.appendBlock f r

def onContinuation (c : Conn) (f : BlockFrame) (r : Around) : Conn :=
  match c.block with
  | none => c.connectionError
  | some b =>
    if f.id ≠ b.1 then c.connectionError
    else
      let c := { c with blockFrames := c.blockFrames + 1 }
      if c.blockFrames > kMaxContinuations then c.connectionError
      else (if f.empty then c.glitch else c).appendBlock f r

/-! ## §6. The transition system. -/

inductive Label where
  | headers (f : BlockFrame) (r : Around)
  | continuation (f : BlockFrame) (r : Around)
  | clientGoaway
  /-- The answer of a password check: the stream is routed again. -/
  | verified (id : Nat) (after : List Act)
  /-- Any other frame, a timer, a completion. -/
  | other (as : List Act)
  | reload (live : Option Live)
  /-- Idle, or the client is gone. -/
  | close
  deriving DecidableEq

/-- One step; `none` once the connection is closed. -/
def step (c : Conn) (l : Label) : Option Conn :=
  if c.closed then none
  else
    match l with
    -- ids have 31 bits; no frame is handled after the last write was decided
    | .headers f r =>
      if c.closingAfterWrite = false ∧ f.id ≤ kMaxStreamId then
        some (if c.block.isSome then c.connectionError else c.onHeaders f r)
      else none
    | .continuation f r => if c.closingAfterWrite = false then some (c.onContinuation f r) else none
    | .clientGoaway =>
      if c.closingAfterWrite = false then some { c with goingAway := true }.maybeFinish else none
    | .verified id after =>
      if (c.find id).any fun s => s.state ≠ .closed then some (c.dispatch id after) else none
    | .other as => some (c.acts as)
    | .reload live => some { c with reloaded := some live }
    | .close => some { c with closed := true }

def start (live : Live) : Conn := { live := live }

/-! ## §7. The invariant. -/

/-- Until the connection is going away, no GOAWAY has named an id; one that ended the connection
    named the highest of the client's. -/
structure Inv (c : Conn) : Prop where
  streams : ∀ s ∈ c.streams, s.id ≤ c.lastStreamId ∧ s.id ≤ c.goawayLast
  dispatched : ∀ id ∈ c.dispatched, id ≤ c.lastStreamId ∧ id ≤ c.goawayLast
  block : ∀ b ∈ c.block, b.1 ≤ c.lastStreamId
  named : ∀ v ∈ c.written, c.goawayLast ≤ v
  sorted : c.written.Pairwise fun v w => w ≤ v
  fresh : c.goingAway = false → c.goawayLast = kMaxStreamId ∨
    (c.closingAfterWrite = true ∧ c.lastStreamId ≤ c.goawayLast)
  range : c.lastStreamId ≤ kMaxStreamId

variable {c c' : Conn}

theorem start_inv (live : Live) : Inv (start live) where
  streams := fun _ hs => absurd hs List.not_mem_nil
  dispatched := fun _ hs => absurd hs List.not_mem_nil
  block := fun _ hb => absurd hb (by simp [start])
  named := fun _ hv => absurd hv List.not_mem_nil
  sorted := List.Pairwise.nil
  fresh := fun _ => .inl rfl
  range := Nat.zero_le _

/-- Nothing that the law reads changes; streams may leave the table. -/
structure Quiet (c c' : Conn) : Prop where
  streams : ∀ s ∈ c'.streams, ∃ s₀ ∈ c.streams, s₀.id = s.id
  dispatched : c'.dispatched = c.dispatched
  block : c'.block = c.block
  written : c'.written = c.written
  goawayLast : c'.goawayLast = c.goawayLast
  lastStreamId : c'.lastStreamId = c.lastStreamId
  goingAway : c'.goingAway = false → c.goingAway = false
  closing : c'.closingAfterWrite = c.closingAfterWrite

theorem Inv.quiet (h : Inv c) (hq : Quiet c c') : Inv c' where
  streams := by
    intro s hs
    obtain ⟨s₀, hs₀, he⟩ := hq.streams s hs
    rw [hq.lastStreamId, hq.goawayLast, ← he]
    exact h.streams s₀ hs₀
  dispatched := by rw [hq.dispatched, hq.lastStreamId, hq.goawayLast]; exact h.dispatched
  block := by rw [hq.block, hq.lastStreamId]; exact h.block
  named := by rw [hq.written, hq.goawayLast]; exact h.named
  sorted := by rw [hq.written]; exact h.sorted
  fresh := by
    intro ha
    rw [hq.goawayLast, hq.closing, hq.lastStreamId]
    exact h.fresh (hq.goingAway ha)
  range := by rw [hq.lastStreamId]; exact h.range

/-! ## §8. GOAWAY frames. -/

/-- A GOAWAY names an id no lower than any stream's, and no higher than the one before.  It comes
    with the end of the connection, or of new streams. -/
theorem Inv.appendGoaway (h : Inv c) (hc : c'.streams = c.streams) (hd : c'.dispatched = c.dispatched)
    (hb : c'.block = c.block) (hw : c'.written = c.written ++ [min c.goawayLast c.lastStreamId])
    (hg : c'.goawayLast = min c.goawayLast c.lastStreamId) (hl : c'.lastStreamId = c.lastStreamId)
    (hends : c'.goingAway = false → c.goingAway = false ∧ c.closingAfterWrite = false ∧
      c'.closingAfterWrite = true) : Inv c' where
  streams := by
    intro s hs
    rw [hc] at hs
    obtain ⟨hlast, hgo⟩ := h.streams s hs
    rw [hl, hg]
    omega
  dispatched := by
    intro id hid
    rw [hd] at hid
    obtain ⟨hlast, hgo⟩ := h.dispatched id hid
    rw [hl, hg]
    omega
  block := by rw [hb, hl]; exact h.block
  named := by
    intro v hv
    rw [hw] at hv
    rw [hg]
    rcases List.mem_append.mp hv with hv | hv
    · have := h.named v hv
      omega
    · rw [List.mem_singleton.mp hv]
  sorted := by
    rw [hw]
    refine List.pairwise_append.mpr ⟨h.sorted, List.pairwise_singleton _ _, fun v hv w hmem => ?_⟩
    have hle := h.named v hv
    rw [List.mem_singleton.mp hmem]
    omega
  fresh := by
    intro ha
    obtain ⟨hold, hclosing, hnow⟩ := hends ha
    -- no GOAWAY before this one: it names the highest id
    rcases h.fresh hold with hmax | ⟨hc, -⟩
    · have hrange := h.range
      rw [hg, hl, hmax]
      exact .inr ⟨hnow, by omega⟩
    · rw [hclosing] at hc
      cases hc
  range := by rw [hl]; exact h.range

theorem Inv.connectionError (h : Inv c) : Inv c.connectionError := by
  unfold Conn.connectionError
  split
  · exact h
  next hopen =>
  simp only [Bool.or_eq_true, not_or, Bool.not_eq_true] at hopen
  exact h.appendGoaway rfl rfl rfl rfl rfl rfl fun ha => ⟨ha, hopen.2, rfl⟩

theorem Inv.maybeFinish (h : Inv c) : Inv c.maybeFinish := by
  unfold Conn.maybeFinish
  split
  · next hg =>
    simp only [Bool.and_eq_true] at hg
    have haway : c.goingAway = true := hg.1.1
    have hno : ∀ {P : Prop}, c.goingAway = false → P := by
      intro P ha
      rw [haway] at ha
      cases ha
    split
    · exact h.appendGoaway rfl rfl rfl rfl rfl rfl fun ha => hno ha
    · exact { h with fresh := fun ha => hno ha }
  · exact h

theorem Inv.goaway (h : Inv c) : Inv c.goaway := by
  unfold Conn.goaway
  split
  · exact h
  apply Inv.maybeFinish
  exact h.appendGoaway rfl rfl rfl rfl rfl rfl fun ha => absurd ha (by simp [Conn.appendGoaway])

theorem Inv.leaveAfterStreams (h : Inv c) : Inv c.leaveAfterStreams := by
  unfold Conn.leaveAfterStreams
  split
  · exact h
  · exact { h with fresh := nofun }

theorem Inv.glitch (h : Inv c) : Inv c.glitch := by
  have hcount : Inv { c with glitches := c.glitches + 1 } := { h with }
  unfold Conn.glitch
  dsimp only
  split
  · exact hcount.goaway
  split
  · exact hcount.connectionError
  · exact hcount

theorem Inv.countReset (h : Inv c) (newSecond : Bool) : Inv (c.countReset newSecond) := by
  have hcount : ∀ n, Inv { c with resets := n } := fun _ => { h with }
  unfold Conn.countReset
  dsimp only
  generalize (if newSecond then 0 else c.resets) + 1 = n
  have hcount := hcount n
  split
  · exact hcount.connectionError
  · exact hcount

/-! ## §9. Streams. -/

theorem quiet_modify (c : Conn) (id : Nat) (f : Stream → Stream) : Quiet c (c.modify id f) := by
  refine ⟨fun s hs => ?_, rfl, rfl, rfl, rfl, rfl, fun h => h, rfl⟩
  obtain ⟨s₀, hs₀, rfl⟩ := List.mem_map.mp hs
  refine ⟨s₀, hs₀, ?_⟩
  split
  · next he => exact he
  · rfl

theorem quiet_release (c : Conn) (id : Nat) : Quiet c (c.release id) :=
  ⟨fun s hs => ⟨s, (List.mem_filter.mp hs).1, rfl⟩, rfl, rfl, rfl, rfl, rfl, fun h => h, rfl⟩

theorem Inv.closeStream (h : Inv c) (id : Nat) : Inv (c.closeStream id) := by
  have hnote : Inv (c.noteReset id) := { h with }
  unfold Conn.closeStream
  split
  · exact h
  split
  · exact h
  split
  · exact hnote.quiet (quiet_modify _ id _)
  · exact hnote.quiet (quiet_release _ id)

theorem Inv.streamError (h : Inv c) (id : Nat) (newSecond : Bool) : Inv (c.streamError id newSecond) := by
  unfold Conn.streamError
  apply Inv.glitch
  apply Inv.closeStream
  split
  · exact h
  · exact h.countReset newSecond

theorem Inv.act (h : Inv c) (a : Act) : Inv (c.act a) := by
  cases a with
  | connectionError => exact h.connectionError
  | glitch => exact h.glitch
  | countReset newSecond => exact h.countReset newSecond
  | noteReset id => exact { h with }
  | streamError id newSecond => exact h.streamError id newSecond
  | closeStream id => exact h.closeStream id
  | maybeFinish => exact h.maybeFinish
  | become id state responded held => exact h.quiet (quiet_modify c id _)
  | release id => exact h.quiet (quiet_release c id)

theorem Inv.acts (h : Inv c) (as : List Act) : Inv (c.acts as) := by
  induction as generalizing c with
  | nil => exact h
  | cons a as ih => exact ih (h.act a)

/-! ## §10. Requests. -/

theorem Inv.evict (h : Inv c) : Inv c.evict := by
  unfold Conn.evict
  split
  · exact h.closeStream _
  · exact h

theorem quiet_evict (c : Conn) : c.evict.goingAway = c.goingAway ∧
    c.evict.goawayLast = c.goawayLast ∧ c.evict.lastStreamId = c.lastStreamId := by
  have hclose : ∀ id, (c.closeStream id).goingAway = c.goingAway ∧
      (c.closeStream id).goawayLast = c.goawayLast ∧
      (c.closeStream id).lastStreamId = c.lastStreamId := by
    intro id
    unfold Conn.closeStream
    split
    · exact ⟨rfl, rfl, rfl⟩
    split
    · exact ⟨rfl, rfl, rfl⟩
    · split <;> exact ⟨rfl, rfl, rfl⟩
  unfold Conn.evict
  split
  · exact hclose _
  · exact ⟨rfl, rfl, rfl⟩

variable {id : Nat}

/-- A stream is opened with an id that no GOAWAY has excluded. -/
theorem Inv.takeStream (h : Inv c) (hlast : id ≤ c.lastStreamId)
    (hgo : id ≤ c.goawayLast) : Inv (c.takeStream id) := by
  have hrefresh : Quiet c c.refreshGeneration := by
    unfold Conn.refreshGeneration
    split <;> exact ⟨fun s hs => ⟨s, hs, rfl⟩, rfl, rfl, rfl, rfl, rfl, fun h => h, rfl⟩
  have h₁ := h.quiet hrefresh
  rw [← hrefresh.lastStreamId] at hlast
  rw [← hrefresh.goawayLast] at hgo
  unfold Conn.takeStream
  generalize c.refreshGeneration = d at h₁ hlast hgo
  have hpush : Inv { d with
      streams := d.streams ++ [({ id := id } : Stream)], streamsOpened := d.streamsOpened + 1 } := by
    refine { h₁ with streams := ?_ }
    intro s hs
    rcases List.mem_append.mp hs with hs | hs
    · exact h₁.streams s hs
    rw [List.mem_singleton.mp hs]
    exact ⟨hlast, hgo⟩
  have hleave : ∀ {e : Conn} (b : Prop) [Decidable b], Inv e →
      Inv (if b then e.leaveAfterStreams else e) := by
    intro e b _ he
    split
    · exact he.leaveAfterStreams
    · exact he
  exact hleave _ (hleave _ hpush)

theorem takeStream_keeps (c : Conn) (id : Nat) : (c.takeStream id).lastStreamId = c.lastStreamId ∧
    (c.takeStream id).goawayLast = c.goawayLast := by
  have hleave : ∀ (d : Conn) (b : Prop) [Decidable b],
      (if b then d.leaveAfterStreams else d).lastStreamId = d.lastStreamId ∧
      (if b then d.leaveAfterStreams else d).goawayLast = d.goawayLast := by
    intro d b _
    unfold Conn.leaveAfterStreams
    split
    · split <;> exact ⟨rfl, rfl⟩
    · exact ⟨rfl, rfl⟩
  unfold Conn.takeStream
  rw [(hleave _ _).1, (hleave _ _).2, (hleave _ _).1, (hleave _ _).2]
  unfold Conn.refreshGeneration
  split <;> exact ⟨rfl, rfl⟩

/-- **`open_stream`**: refused once the connection is going away, so the id is not excluded. -/
theorem Inv.openStream (h : Inv c) (hlast : id ≤ c.lastStreamId) (newSecond : Bool) :
    Inv (c.openStream id newSecond).1 ∧ ((c.openStream id newSecond).2 = true →
      id ≤ (c.openStream id newSecond).1.lastStreamId ∧ id ≤ (c.openStream id newSecond).1.goawayLast) := by
  unfold Conn.openStream
  split
  · exact ⟨h, nofun⟩
  next haway =>
  have haway : c.goingAway = false := by simpa using haway
  have hgo : id ≤ c.goawayLast := by
    have hrange := h.range
    rcases h.fresh haway with hmax | ⟨-, hle⟩ <;> omega
  dsimp only
  have hroom : Inv (if c.streams.length ≥ c.live.maxConcurrentStreams then c.evict else c) ∧
      id ≤ (if c.streams.length ≥ c.live.maxConcurrentStreams then c.evict else c).lastStreamId ∧
      id ≤ (if c.streams.length ≥ c.live.maxConcurrentStreams then c.evict else c).goawayLast := by
    split
    · obtain ⟨-, hg, hl⟩ := quiet_evict c
      rw [hg, hl]
      exact ⟨h.evict, hlast, hgo⟩
    · exact ⟨h, hlast, hgo⟩
  generalize (if c.streams.length ≥ c.live.maxConcurrentStreams then c.evict else c) = d at hroom
  obtain ⟨hd, hlast, hgo⟩ := hroom
  split
  · exact ⟨hd.glitch.countReset newSecond, nofun⟩
  refine ⟨hd.takeStream hlast hgo, fun _ => ?_⟩
  obtain ⟨hl, hg⟩ := takeStream_keeps d id
  rw [hl, hg]
  exact ⟨hlast, hgo⟩

/-- **A request goes to a handler**, at first or again. -/
theorem Inv.dispatch (h : Inv c) (hlast : id ≤ c.lastStreamId) (hgo : id ≤ c.goawayLast)
    (after : List Act) : Inv (c.dispatch id after) := by
  unfold Conn.dispatch
  apply Inv.acts
  refine { h with dispatched := ?_ }
  intro i hi
  rcases List.mem_append.mp hi with hi | hi
  · exact h.dispatched i hi
  rw [List.mem_singleton.mp hi]
  exact ⟨hlast, hgo⟩

theorem Inv.beginRequest (h : Inv c) (hlast : id ≤ c.lastStreamId)
    (hgo : id ≤ c.goawayLast) (r : Around) : Inv (c.beginRequest id r) := by
  unfold Conn.beginRequest
  split
  · exact h.connectionError
  · exact h.streamError id r.newSecond
  · exact h.acts r.after
  · exact h.dispatch hlast hgo r.after

theorem Inv.endTrailers (h : Inv c) (id : Nat) (r : Around) : Inv (c.endTrailers id r) := by
  unfold Conn.endTrailers
  split
  · exact h
  split
  · exact (h.closeStream id).maybeFinish
  have hmod := h.quiet (quiet_modify c id fun s => { s with state := .halfClosedRemote })
  split
  · exact hmod.streamError id r.newSecond
  · exact hmod

theorem Inv.finishBlock (h : Inv c) (r : Around) : Inv (c.finishBlock r) := by
  have hnone : Inv { c with block := none } := { h with block := fun _ hb => absurd hb (by simp) }
  unfold Conn.finishBlock
  split
  · exact h
  next id kind hb =>
  have hid : id ≤ c.lastStreamId := h.block (id, kind) hb
  cases kind with
  | request =>
    obtain ⟨hopen, hbounds⟩ := hnone.openStream hid r.newSecond
    dsimp only
    split
    · next ho =>
      obtain ⟨hlast, hgo⟩ := hbounds ho
      exact hopen.beginRequest hlast hgo r
    · exact hopen
  | discard =>
    dsimp only
    split
    · exact hnone.connectionError
    · exact hnone
  | trailers =>
    dsimp only
    split
    · exact hnone.connectionError
    · exact hnone.endTrailers id r

theorem Inv.appendBlock (h : Inv c) (f : BlockFrame) (r : Around) : Inv (c.appendBlock f r) := by
  unfold Conn.appendBlock
  split
  · exact h.connectionError
  split
  · exact h.finishBlock r
  · exact h

/-! ## §11. Every step. -/

/-- What connection errors and their like leave alone. -/
theorem lastStreamId_connectionError (c : Conn) : c.connectionError.lastStreamId = c.lastStreamId := by
  unfold Conn.connectionError
  split <;> rfl

theorem lastStreamId_goaway (c : Conn) : c.goaway.lastStreamId = c.lastStreamId := by
  unfold Conn.goaway Conn.maybeFinish
  split
  · rfl
  split
  · split <;> rfl
  · rfl

theorem lastStreamId_glitch (c : Conn) : c.glitch.lastStreamId = c.lastStreamId := by
  unfold Conn.glitch
  dsimp only
  split
  · exact lastStreamId_goaway _
  split
  · exact lastStreamId_connectionError _
  · rfl

theorem lastStreamId_countReset (c : Conn) (newSecond : Bool) :
    (c.countReset newSecond).lastStreamId = c.lastStreamId := by
  unfold Conn.countReset
  dsimp only
  generalize (if newSecond then 0 else c.resets) + 1 = n
  split
  · exact lastStreamId_connectionError _
  · rfl

theorem lastStreamId_closeStream (c : Conn) (id : Nat) :
    (c.closeStream id).lastStreamId = c.lastStreamId := by
  unfold Conn.closeStream
  split
  · rfl
  split
  · rfl
  · split <;> rfl

theorem lastStreamId_streamError (c : Conn) (id : Nat) (newSecond : Bool) :
    (c.streamError id newSecond).lastStreamId = c.lastStreamId := by
  unfold Conn.streamError
  rw [lastStreamId_glitch, lastStreamId_closeStream]
  split
  · rfl
  · exact lastStreamId_countReset c newSecond

/-- **A header block begins**: its id is the highest of the client's, or no new one. -/
theorem Inv.beginBlock (h : Inv c) {f : BlockFrame} {r : Around} {kind : BlockKind}
    (hopen : c.closingAfterWrite = false) (hid : f.id ≤ kMaxStreamId)
    (hb : c.beginBlock f r = some (c', kind)) : Inv c' ∧ f.id ≤ c'.lastStreamId := by
  unfold Conn.beginBlock at hb
  split at hb
  · next s hs =>
    have hold : f.id ≤ c.lastStreamId := by
      by_contra hgt
      rw [if_neg hgt] at hs
      simp at hs
    split at hb
    · cases hb
      rw [lastStreamId_streamError]
      exact ⟨h.streamError f.id r.newSecond, hold⟩
    · cases hb
      exact ⟨h, hold⟩
  · split at hb
    · simp at hb
    next hnew =>
    have hnew : c.lastStreamId < f.id := by omega
    -- a GOAWAY that named an id leaves no new one to be taken
    have hnext : Inv { c with lastStreamId := f.id } := by
      refine { h with streams := ?_, dispatched := ?_, block := ?_, fresh := ?_, range := hid }
      · intro s hs
        obtain ⟨hlast, hgo⟩ := h.streams s hs
        exact ⟨Nat.le_of_lt (hlast.trans_lt hnew), hgo⟩
      · intro i hi
        obtain ⟨hlast, hgo⟩ := h.dispatched i hi
        exact ⟨Nat.le_of_lt (hlast.trans_lt hnew), hgo⟩
      · intro b hb
        exact Nat.le_of_lt (Nat.lt_of_le_of_lt (h.block b hb) hnew)
      · intro ha
        rcases h.fresh ha with hmax | ⟨hc, -⟩
        · exact .inl hmax
        rw [hopen] at hc
        cases hc
    dsimp only at hb
    split at hb
    · cases hb
      exact ⟨hnext, le_rfl⟩
    split at hb
    · cases hb
      refine ⟨hnext.glitch.countReset r.newSecond, ?_⟩
      rw [lastStreamId_countReset, lastStreamId_glitch]
    · cases hb
      exact ⟨hnext, le_rfl⟩

theorem Inv.onHeaders (h : Inv c) {f : BlockFrame} (r : Around) (hopen : c.closingAfterWrite = false)
    (hid : f.id ≤ kMaxStreamId) : Inv (c.onHeaders f r) := by
  unfold Conn.onHeaders
  split
  · exact h.connectionError
  split
  · exact h.connectionError
  next d kind hb =>
  obtain ⟨hd, hle⟩ := h.beginBlock hopen hid hb
  apply Inv.appendBlock
  refine { hd with block := ?_ }
  intro b hb
  cases hb
  exact hle

theorem Inv.onContinuation (h : Inv c) (f : BlockFrame) (r : Around) : Inv (c.onContinuation f r) := by
  have hcount : Inv { c with blockFrames := c.blockFrames + 1 } := { h with }
  unfold Conn.onContinuation
  split
  · exact h.connectionError
  split
  · exact h.connectionError
  dsimp only
  split
  · exact hcount.connectionError
  apply Inv.appendBlock
  split
  · exact hcount.glitch
  · exact hcount

/-- **The step lemma.** -/
theorem Inv.step (h : Inv c) {l : Label} (hs : c.step l = some c') : Inv c' := by
  unfold Conn.step at hs
  split at hs
  · simp at hs
  cases l with
  | headers f r =>
    dsimp only at hs
    split at hs
    · next hg =>
      cases hs
      split
      · exact h.connectionError
      · exact h.onHeaders r hg.1 hg.2
    · simp at hs
  | continuation f r =>
    dsimp only at hs
    split at hs
    · cases hs
      exact h.onContinuation f r
    · simp at hs
  | clientGoaway =>
    dsimp only at hs
    split at hs
    · cases hs
      apply Inv.maybeFinish
      exact { h with fresh := nofun }
    · simp at hs
  | verified id after =>
    dsimp only at hs
    split at hs
    · next hf =>
      cases hs
      -- the stream is in the table
      obtain ⟨s, hs, -⟩ := (Option.any_eq_true _ _).mp hf
      have hid : s.id = id := by simpa using List.find?_some hs
      obtain ⟨hlast, hgo⟩ := h.streams s (List.mem_of_find?_eq_some hs)
      rw [hid] at hlast hgo
      exact h.dispatch hlast hgo after
    · simp at hs
  | other as =>
    cases hs
    exact h.acts as
  | reload live =>
    cases hs
    exact { h with }
  | close =>
    cases hs
    exact { h with }

/-! ## §12. Every run. -/

/-- **The GOAWAY law.**  In every run, the ids GOAWAY frames name never increase, each of them is
    at least the id of every stream whose request was passed to a handler, before it or after it, and
    so no request above the last one is. -/
theorem goaway_law (live : Live) (ls : List Label) (c : Conn)
    (hrun : run Conn.step (Conn.start live) ls = some c) : c.written.Pairwise (fun v w => w ≤ v) ∧
      (∀ v ∈ c.written, ∀ id ∈ c.dispatched, id ≤ v) ∧
      ∀ last ∈ c.written.getLast?, ∀ id ∈ c.dispatched, id ≤ last := by
  have h : Inv c := run_preserves (fun _ _ _ h hs => h.step hs) (start_inv live) hrun
  have hall : ∀ v ∈ c.written, ∀ id ∈ c.dispatched, id ≤ v := by
    intro v hv id hid
    exact Nat.le_trans (h.dispatched id hid).2 (h.named v hv)
  exact ⟨h.sorted, hall, fun last hl => hall last (List.mem_of_getLast? hl)⟩

/-- Two requests, the GOAWAY of the glitch budget, a request behind it that is refused, a password
    check that is answered late, and a connection error. -/
def budgetRun : List Label :=
  [.headers { id := 1 } {}, .headers { id := 3 } {}, .other (List.replicate 75 .glitch),
    .headers { id := 5 } {}, .verified 3 [], .other [.connectionError]]

theorem goaway_law_budgetRun : ∃ c, run Conn.step (Conn.start {}) budgetRun = some c ∧ c.lastStreamId = 5 ∧
      c.written = [3, 3] ∧ c.dispatched = [1, 3, 3] ∧ ∀ v ∈ c.written, ∀ id ∈ c.dispatched, id ≤ v := by
  have hstate : (run Conn.step (Conn.start {}) budgetRun).map (fun c =>
      (c.lastStreamId, c.written, c.dispatched)) = some (5, [3, 3], [1, 3, 3]) := by decide +kernel
  obtain ⟨c, hc, he⟩ := Option.map_eq_some_iff.mp hstate
  simp only [Prod.mk.injEq] at he
  obtain ⟨hl, hw, hd⟩ := he
  obtain ⟨-, hall, -⟩ := goaway_law {} budgetRun c hc
  exact ⟨c, hc, hl, hw, hd, hall⟩

end Conn

end Agensio.Http2.Goaway
