/-
  Agensio.Http2.Emit — the frames of one response.

  Model of `emit`, `emit_now`, `pull` and `close_headers` of
  `http2/writer.hpp`: a stream's head and then its body, within the
  stream's window, the connection's window, the peer's frame size and what
  one cycle may carry.  Payloads are counted, not kept.

  `DataFrame` remembers what both windows had left when the frame was
  written (history).  The frames of a file's block are counted against the
  windows one by one; the source subtracts their sum behind the block.

  What the source takes from elsewhere is a parameter: `headBlock` (the
  length of the head `build_head` encodes) and `FileReads` (`read_at`).

  Main results:
    * `Wrote` — what the frames of an emission are, and what they leave of
      the two windows;
    * `emit_wrote` / `emitNow_wrote` — every emission is one.
-/
import Mathlib.Algebra.BigOperators.Group.List.Basic
import Mathlib.Algebra.GroupWithZero.Nat
import Agensio.Http2.Receive

namespace Agensio.Http2

/-! ## §1. Frames, bodies, streams. -/

inductive ErrorCode where
  | noError
  | protocolError
  | internalError
  | flowControlError
  | streamClosed
  | frameSizeError
  | refusedStream
  | compressionError
  | enhanceYourCalm
  deriving DecidableEq

structure DataFrame where
  id : Nat
  length : Nat
  endStream : Bool
  /-- `send_window` and `conn_window_` when it was written. -/
  streamRoom : Int
  connRoom : Int
  deriving DecidableEq

/-- The frames the server writes. -/
inductive Frame where
  | headers (id : Nat) (endStream endHeaders : Bool)
  | continuation (id : Nat) (endHeaders : Bool)
  | data (f : DataFrame)
  | rstStream (id : Nat) (code : ErrorCode)
  | windowUpdate (id increment : Nat)
  | settingsAck
  | pingAck
  | goaway (code : ErrorCode)
  deriving DecidableEq

/-- `Response::body`, with the bytes it has; a source's length when it knows one. -/
inductive Body where
  | noBody
  | memoryBody (size : Nat)
  | fileBody (size : Nat)
  | streamBody (length : Option Nat)
  deriving DecidableEq

/-- The sending side of a stream. -/
structure OutStream where
  id : Nat
  closed : Bool := false
  sendWindow : Int
  /-- `response.head`: the answer to a HEAD request. -/
  head : Bool := false
  body : Body := .noBody
  headBlock : Nat := 0
  ready : Bool := false
  headSent : Bool := false
  responded : Bool := false
  finished : Bool := false
  pulling : Bool := false
  sourceDone : Bool := false
  /-- `source_remaining` of a source whose length is known. -/
  sourceRemaining : Option Nat := none
  bodyOffset : Nat := 0
  chunkPos : Nat := 0
  chunkLen : Nat := 0
  deriving DecidableEq

/-- What a cycle is at: the windows and limits `emit` reads, and the frames so far. -/
structure Cycle where
  connWindow : Int := 65535
  maxFrame : Nat := 16384
  /-- `external_.size()`. -/
  external : Nat := 0
  pulls : Nat := 0
  wire : List Frame := []
  deriving DecidableEq

/-- The socket and the configuration. -/
structure Transport where
  tls : Bool := false
  streamChunkSize : Nat := 65536
  deriving DecidableEq

/-- What `read_at` returns for an offset and a length: never more than it was asked for. -/
structure FileReads where
  read : Nat → Nat → Int
  le : ∀ offset n, read offset n ≤ n

def kPayload (k : Transport) : Nat := if k.tls then 16384 - 9 else 16384

def kFramesPerChunk : Nat := 4

def kQuantum (k : Transport) : Nat := kFramesPerChunk * kPayload k

def kCopyMax : Nat := 2048

def kMaxExternal : Nat := 128

def kPullBudget : Nat := 8

/-! ## §2. Emitting. -/

/-- How an emission ends.  `Emit::pulling` of the source is `reading` (a read is in flight),
    `waits` (for the pull budget), `pulls` (one was started) or `drained` (the source is done, the
    stream queued again); `Emit::finished` is `finished`, `idle` (END_STREAM was written before) or
    `failed` (the file cannot be read). -/
inductive Emission where
  | more
  | blocked
  | reading
  | waits
  | pulls
  | drained
  | finished
  | idle
  | failed
  deriving DecidableEq

/-- A DATA frame, counted against both windows. -/
def sendData (w : Cycle) (s : OutStream) (n : Nat) (endStream : Bool) : Cycle × OutStream :=
  ({ w with
      wire := w.wire ++ [.data ⟨s.id, n, endStream, s.sendWindow, w.connWindow⟩]
      connWindow := w.connWindow - n }, { s with sendWindow := s.sendWindow - n })

/-- The end: an empty DATA frame carries END_STREAM. -/
def sendEnd (w : Cycle) (s : OutStream) : Emission × Cycle × OutStream :=
  if s.finished then (.idle, w, s)
  else
    let r := sendData w s 0 true
    (.finished, r.1, { r.2 with finished := true })

/-- The lengths of the slices a block of a file is read into. -/
def slices (payload : Nat) : Nat → Nat → List Nat
  | 0, _ => []
  | k + 1, left => if left = 0 then [] else min left payload :: slices payload k (left - min left payload)

/-- The frames of a block of which `left` bytes were read. -/
def sendBlock (ends : Bool) : List Nat → Nat → Cycle → OutStream → Cycle × OutStream
  | [], _, w, s => (w, s)
  | n :: ns, left, w, s =>
    if left = 0 then (w, s)
    else
      let r := sendData w s (min left n) (ends && decide (left - min left n = 0))
      sendBlock ends ns (left - min left n) r.1 r.2

def pull (w : Cycle) (s : OutStream) : Emission × Cycle × OutStream :=
  if s.sourceRemaining = some 0 then (.drained, w, { s with sourceDone := true })
  else (.pulls, { w with pulls := w.pulls + 1 }, { s with pulling := true })

/-- What a round of `emit` comes to: out of the loop, or on with less of the quantum. -/
inductive Turn where
  | leave (e : Emission) (w : Cycle) (s : OutStream)
  | goOn (quantum : Nat) (referenced : Bool) (w : Cycle) (s : OutStream)

/-- A DATA frame of what is at hand: `size` bytes, the last of the body or not. -/
def emitFrame (k : Transport) (size : Nat) (last : Bool) (quantum : Nat) (referenced : Bool) (w : Cycle)
    (s : OutStream) : Turn :=
  let source := s.body matches .streamBody _
  let n := min (min size quantum) (min w.maxFrame (kPayload k))
  if s.sendWindow ≤ 0 ∨ w.connWindow ≤ 0 then .leave .blocked w s
  else
    let n := min (min n s.sendWindow.toNat) w.connWindow.toNat
    if n = 0 then .leave (if quantum = 0 then .more else .blocked) w s
    else
      let ends := last && decide (n = size)
      let external := !k.tls && decide (kCopyMax < n)
      let r := sendData w s n ends
      let w' := { r.1 with external := w.external + if external then 1 else 0 }
      let s' := { r.2 with
        bodyOffset := s.bodyOffset + n, chunkPos := s.chunkPos + if source then n else 0 }
      if ends then .leave .finished w' { s' with finished := true }
      else if quantum - n = 0 then .leave .more w' s'
      else .goOn (quantum - n) (referenced || source && external) w' s'

/-- A block of a file, read into the stream's chunk. -/
def emitFile (k : Transport) (reads : FileReads) (size quantum : Nat) (referenced : Bool) (w : Cycle)
    (s : OutStream) : Turn :=
  if s.sendWindow ≤ 0 ∨ w.connWindow ≤ 0 then .leave .blocked w s
  else
    let allowed := min (min (min (size - s.bodyOffset) quantum) s.sendWindow.toNat) w.connWindow.toNat
    if allowed = 0 then .leave (if quantum = 0 then .more else .blocked) w s
    else
      let got := reads.read s.bodyOffset allowed
      if got ≤ 0 then .leave .failed w s
      else
        let total := got.toNat
        let ends := decide (s.bodyOffset + total = size)
        let r := sendBlock ends (slices (kPayload k) kFramesPerChunk allowed) total w s
        let w' := { r.1 with external := w.external + 1 }
        let s' := { r.2 with bodyOffset := s.bodyOffset + total }
        if ends then .leave .finished w' { s' with finished := true }
        else if quantum - total = 0 ∨ w'.external ≥ kMaxExternal then .leave .more w' s'
        else .goOn (quantum - total) referenced w' s'

def emitRound (k : Transport) (reads : FileReads) (quantum : Nat) (referenced : Bool) (w : Cycle)
    (s : OutStream) : Turn :=
  let ended := fun r : Emission × Cycle × OutStream => Turn.leave r.1 r.2.1 r.2.2
  match s.body with
  | .noBody => ended (sendEnd w s)
  | .memoryBody size =>
    if size - s.bodyOffset = 0 then ended (sendEnd w s)
    else emitFrame k (size - s.bodyOffset) true quantum referenced w s
  | .fileBody size =>
    if size - s.bodyOffset = 0 then ended (sendEnd w s)
    else emitFile k reads size quantum referenced w s
  | .streamBody _ =>
    if s.chunkPos = s.chunkLen then
      if s.sourceDone then ended (sendEnd w s)
      else if s.pulling then .leave .reading w s
      else if referenced then .leave .more w s
      else if w.pulls ≥ kPullBudget then .leave .waits w s
      else ended (pull w s)
    else emitFrame k (s.chunkLen - s.chunkPos) s.sourceDone quantum referenced w s

def emitLoop (k : Transport) (reads : FileReads) : Nat → Nat → Bool → Cycle → OutStream →
    Emission × Cycle × OutStream
  | 0, _, _, w, s => (.more, w, s)
  | fuel + 1, quantum, referenced, w, s =>
    if w.external ≥ kMaxExternal then (.more, w, s)
    else
      match emitRound k reads quantum referenced w s with
      | .leave e w' s' => (e, w', s')
      | .goOn quantum' referenced' w' s' => emitLoop k reads fuel quantum' referenced' w' s'

/-- The CONTINUATION frames of a block that does not fit one frame. -/
def continuations (id maxFrame : Nat) : Nat → Nat → List Frame
  | 0, _ => []
  | fuel + 1, left =>
    if left = 0 then []
    else .continuation id (decide (left ≤ maxFrame)) :: continuations id maxFrame fuel (left - maxFrame)

/-- `close_headers`. -/
def closeHeaders (id maxFrame block : Nat) (endStream : Bool) : List Frame :=
  if block ≤ maxFrame then [.headers id endStream true]
  else .headers id endStream false :: continuations id maxFrame block (block - maxFrame)

/-- `build_head` asks a source for its length. -/
def buildHead (s : OutStream) : OutStream :=
  match s.body with
  | .streamBody len => { s with sourceRemaining := len }
  | _ => s

/-- Nothing follows the head. -/
def headOnly (s : OutStream) : Bool :=
  s.head ||
    match s.body with
    | .noBody => true
    | .memoryBody size => size == 0
    | .fileBody size => size == 0
    | .streamBody _ => false

/-- The head of the response, when it has not gone out yet. -/
def sendHead (w : Cycle) (s : OutStream) (endStream : Bool) : Cycle × OutStream :=
  ({ w with wire := w.wire ++ closeHeaders s.id w.maxFrame s.headBlock endStream },
    { buildHead s with headSent := true, responded := true })

/-- The fuel is never used up (`emitLoop_fuel`): a round that goes on takes of the quantum. -/
def emit (k : Transport) (reads : FileReads) (w : Cycle) (s : OutStream) : Emission × Cycle × OutStream :=
  let fuel := kQuantum k + 1
  if s.headSent then emitLoop k reads fuel (kQuantum k) false w s
  else
    let r := sendHead w s (headOnly s)
    if headOnly s then (.finished, r.1, { r.2 with finished := true })
    else emitLoop k reads fuel (kQuantum k) false r.1 r.2

/-- The body `emit_now` puts behind the head; `none` when the answer has to go through the list. -/
def smallBody (w : Cycle) (s : OutStream) : Option Nat :=
  if s.head then some 0
  else
    match s.body with
    | .noBody => some 0
    | .memoryBody size =>
      if size > kCopyMax then none
      else if 0 < size ∧ (s.sendWindow < size ∨ w.connWindow < size) then none
      else some size
    | _ => none

/-- `emit_now`, where the writer is held and the cycle has room. -/
def emitNow (w : Cycle) (s : OutStream) : Option (Cycle × OutStream) :=
  (smallBody w s).map fun size =>
    let r := sendHead w s (decide (size = 0))
    let r := if size = 0 then r else sendData r.1 r.2 size true
    (r.1, { r.2 with finished := true })

/-! ## §3. What an emission writes. -/

/-- The DATA frames on the wire. -/
def datas (wire : List Frame) : List DataFrame :=
  wire.filterMap fun
    | .data f => some f
    | _ => none

@[simp] theorem datas_append (a b : List Frame) : datas (a ++ b) = datas a ++ datas b :=
  List.filterMap_append

/-- The payload bytes of some frames. -/
def payloadOf (fs : List DataFrame) : Nat := (fs.map DataFrame.length).sum

@[simp] theorem payloadOf_append (a b : List DataFrame) : payloadOf (a ++ b) = payloadOf a + payloadOf b := by
  simp [payloadOf]

/-- A frame with payload was within both windows. -/
def DataFrame.Fits (f : DataFrame) : Prop :=
  f.length ≠ 0 → (f.length : Int) ≤ f.streamRoom ∧ (f.length : Int) ≤ f.connRoom

/-- An emission of the stream `s` wrote the DATA frames `fs`, and no other. -/
structure Wrote (w : Cycle) (s : OutStream) (w' : Cycle) (s' : OutStream) (fs : List DataFrame) : Prop where
  id : s'.id = s.id
  closed : s'.closed = s.closed
  wire : datas w'.wire = datas w.wire ++ fs
  frames : ∀ f ∈ fs, f.id = s.id ∧ f.Fits
  stream : s'.sendWindow = s.sendWindow - payloadOf fs
  conn : w'.connWindow = w.connWindow - payloadOf fs
  fits : payloadOf fs ≠ 0 → (payloadOf fs : Int) ≤ s.sendWindow ∧ (payloadOf fs : Int) ≤ w.connWindow

variable {w w' : Cycle} {s s' : OutStream}

/-- No DATA frame is written. -/
theorem Wrote.none (hid : s'.id = s.id) (hc : s'.closed = s.closed)
    (hw : datas w'.wire = datas w.wire) (hs : s'.sendWindow = s.sendWindow)
    (hconn : w'.connWindow = w.connWindow) : Wrote w s w' s' [] :=
  ⟨hid, hc, by rw [hw, List.append_nil], by simp, by simp [hs, payloadOf], by simp [hconn, payloadOf],
    fun h => absurd rfl h⟩

theorem Wrote.trans {w'' : Cycle} {s'' : OutStream} {fs gs : List DataFrame}
    (h : Wrote w s w' s' fs) (h' : Wrote w' s' w'' s'' gs) : Wrote w s w'' s'' (fs ++ gs) := by
  have hstream := h.stream
  have hconn := h.conn
  refine ⟨h'.id.trans h.id, h'.closed.trans h.closed, ?_, ?_, ?_, ?_, ?_⟩
  · rw [h'.wire, h.wire, List.append_assoc]
  · intro f hf
    rcases List.mem_append.mp hf with hf | hf
    · exact h.frames f hf
    obtain ⟨hid, hfits⟩ := h'.frames f hf
    exact ⟨hid.trans h.id, hfits⟩
  · rw [h'.stream, hstream, payloadOf_append]
    push_cast
    omega
  · rw [h'.conn, hconn, payloadOf_append]
    push_cast
    omega
  · intro hne
    rw [payloadOf_append] at hne ⊢
    push_cast
    by_cases hg : payloadOf gs = 0
    · have hf : payloadOf fs ≠ 0 := by omega
      have hfits := h.fits hf
      omega
    · -- the second part fits what the first has left
      have hfits := h'.fits hg
      omega

/-- What is not seen by the windows may change. -/
theorem Wrote.of_eq {w'' : Cycle} {s'' : OutStream} {fs : List DataFrame}
    (h : Wrote w s w' s' fs) (hw : w''.wire = w'.wire) (hcw : w''.connWindow = w'.connWindow)
    (hid : s''.id = s'.id) (hc : s''.closed = s'.closed) (hs : s''.sendWindow = s'.sendWindow) :
    Wrote w s w'' s'' fs := by
  have hlast : Wrote w' s' w'' s'' [] := .none hid hc (by rw [hw]) hs hcw
  have := h.trans hlast
  rwa [List.append_nil] at this

theorem sendData_wrote (w : Cycle) (s : OutStream) {n : Nat} (endStream : Bool)
    (h : n ≠ 0 → (n : Int) ≤ s.sendWindow ∧ (n : Int) ≤ w.connWindow) :
    Wrote w s (sendData w s n endStream).1 (sendData w s n endStream).2
      [⟨s.id, n, endStream, s.sendWindow, w.connWindow⟩] := by
  refine ⟨rfl, rfl, by simp [sendData, datas], ?_, by simp [sendData, payloadOf],
    by simp [sendData, payloadOf], by simpa [payloadOf] using h⟩
  intro f hf
  rw [List.mem_singleton] at hf
  subst hf
  exact ⟨rfl, h⟩

theorem sendEnd_wrote (w : Cycle) (s : OutStream) :
    ∃ fs, Wrote w s (sendEnd w s).2.1 (sendEnd w s).2.2 fs := by
  unfold sendEnd
  split
  · exact ⟨[], .none rfl rfl rfl rfl rfl⟩
  · exact ⟨_, (sendData_wrote w s true (fun h => absurd rfl h)).of_eq rfl rfl rfl rfl rfl⟩

theorem sendBlock_wrote (ends : Bool) (ns : List Nat) (left : Nat) (w : Cycle) (s : OutStream)
    (h : (left : Int) ≤ s.sendWindow ∧ (left : Int) ≤ w.connWindow) :
    ∃ fs, Wrote w s (sendBlock ends ns left w s).1 (sendBlock ends ns left w s).2 fs := by
  induction ns generalizing left w s with
  | nil => exact ⟨[], .none rfl rfl rfl rfl rfl⟩
  | cons n ns ih =>
    unfold sendBlock
    split
    · exact ⟨[], .none rfl rfl rfl rfl rfl⟩
    -- one frame, and the rest of the block in what it leaves
    have hone := sendData_wrote w s (ends && decide (left - min left n = 0))
      (show min left n ≠ 0 → _ from fun _ => by omega)
    obtain ⟨fs, hrest⟩ := ih (left - min left n)
      (sendData w s (min left n) (ends && decide (left - min left n = 0))).1
      (sendData w s (min left n) (ends && decide (left - min left n = 0))).2
      (by simp only [sendData]; omega)
    exact ⟨_, hone.trans hrest⟩

theorem pull_wrote (w : Cycle) (s : OutStream) : Wrote w s (pull w s).2.1 (pull w s).2.2 [] := by
  unfold pull
  split
  · exact .none rfl rfl rfl rfl rfl
  · exact .none rfl rfl rfl rfl rfl

/-- A round of `emit` wrote some frames. -/
def Turn.Wrote (w : Cycle) (s : OutStream) : Turn → Prop
  | .leave _ w' s' => ∃ fs, Http2.Wrote w s w' s' fs
  | .goOn _ _ w' s' => ∃ fs, Http2.Wrote w s w' s' fs

theorem Turn.Wrote.same (w : Cycle) (s : OutStream) (e : Emission) : Turn.Wrote w s (.leave e w s) :=
  ⟨[], .none rfl rfl rfl rfl rfl⟩

variable (k : Transport)

theorem emitFrame_wrote (size : Nat) (last : Bool) (quantum : Nat) (referenced : Bool)
    (w : Cycle) (s : OutStream) : Turn.Wrote w s (emitFrame k size last quantum referenced w s) := by
  unfold emitFrame
  dsimp only
  split
  · exact .same w s _
  rename_i hopen
  split
  · exact .same w s _
  set n := min (min (min (min size quantum) (min w.maxFrame (kPayload k))) s.sendWindow.toNat)
    w.connWindow.toNat with hn
  have hone := sendData_wrote w s (last && decide (n = size)) (show n ≠ 0 → _ from fun _ => by omega)
  split
  · exact ⟨_, hone.of_eq rfl rfl rfl rfl rfl⟩
  split
  · exact ⟨_, hone.of_eq rfl rfl rfl rfl rfl⟩
  · exact ⟨_, hone.of_eq rfl rfl rfl rfl rfl⟩

theorem emitFile_wrote (reads : FileReads) (size quantum : Nat) (referenced : Bool)
    (w : Cycle) (s : OutStream) : Turn.Wrote w s (emitFile k reads size quantum referenced w s) := by
  unfold emitFile
  dsimp only
  split
  · exact .same w s _
  rename_i hopen
  split
  · exact .same w s _
  split
  · exact .same w s _
  set allowed := min (min (min (size - s.bodyOffset) quantum) s.sendWindow.toNat) w.connWindow.toNat
    with hallowed
  have hle := reads.le s.bodyOffset allowed
  obtain ⟨fs, hblock⟩ := sendBlock_wrote
    (decide (s.bodyOffset + (reads.read s.bodyOffset allowed).toNat = size))
    (slices (kPayload k) kFramesPerChunk allowed) (reads.read s.bodyOffset allowed).toNat w s (by omega)
  split
  · exact ⟨_, hblock.of_eq rfl rfl rfl rfl rfl⟩
  split
  · exact ⟨_, hblock.of_eq rfl rfl rfl rfl rfl⟩
  · exact ⟨_, hblock.of_eq rfl rfl rfl rfl rfl⟩

theorem emitRound_wrote (reads : FileReads) (quantum : Nat) (referenced : Bool) (w : Cycle)
    (s : OutStream) : Turn.Wrote w s (emitRound k reads quantum referenced w s) := by
  unfold emitRound
  dsimp only
  split
  · exact sendEnd_wrote w s
  · split
    · exact sendEnd_wrote w s
    · exact emitFrame_wrote ..
  · split
    · exact sendEnd_wrote w s
    · exact emitFile_wrote ..
  · split
    · split
      · exact sendEnd_wrote w s
      split
      · exact .same w s _
      split
      · exact .same w s _
      split
      · exact .same w s _
      · exact ⟨_, pull_wrote w s⟩
    · exact emitFrame_wrote ..

/-- The loop, by induction on its rounds. -/
theorem emitLoop_wrote (reads : FileReads) (fuel quantum : Nat) (referenced : Bool)
    (w : Cycle) (s : OutStream) : ∃ fs, Wrote w s (emitLoop k reads fuel quantum referenced w s).2.1
      (emitLoop k reads fuel quantum referenced w s).2.2 fs := by
  induction fuel generalizing quantum referenced w s with
  | zero => exact ⟨[], .none rfl rfl rfl rfl rfl⟩
  | succ fuel ih =>
    unfold emitLoop
    split
    · exact ⟨[], .none rfl rfl rfl rfl rfl⟩
    have hround := emitRound_wrote k reads quantum referenced w s
    generalize emitRound k reads quantum referenced w s = turn at hround
    cases turn with
    | leave e w' s' => exact hround
    | goOn quantum' referenced' w' s' =>
      obtain ⟨fs, hfs⟩ := hround
      obtain ⟨gs, hgs⟩ := ih quantum' referenced' w' s'
      exact ⟨_, hfs.trans hgs⟩

theorem datas_continuations (id maxFrame fuel left : Nat) : datas (continuations id maxFrame fuel left) = [] := by
  induction fuel generalizing left with
  | zero => rfl
  | succ fuel ih =>
    unfold continuations
    split
    · rfl
    · simpa [datas] using ih (left - maxFrame)

theorem sendHead_wrote (w : Cycle) (s : OutStream) (endStream : Bool) :
    Wrote w s (sendHead w s endStream).1 (sendHead w s endStream).2 [] := by
  have hdatas : datas (closeHeaders s.id w.maxFrame s.headBlock endStream) = [] := by
    unfold closeHeaders
    split
    · rfl
    · simpa [datas] using datas_continuations s.id w.maxFrame s.headBlock (s.headBlock - w.maxFrame)
  have hbuild : (buildHead s).id = s.id ∧ (buildHead s).closed = s.closed ∧
      (buildHead s).sendWindow = s.sendWindow := by
    unfold buildHead
    split <;> exact ⟨rfl, rfl, rfl⟩
  exact .none hbuild.1 hbuild.2.1 (by simp [sendHead, hdatas]) hbuild.2.2 rfl

theorem emit_wrote (reads : FileReads) (w : Cycle) (s : OutStream) :
    ∃ fs, Wrote w s (emit k reads w s).2.1 (emit k reads w s).2.2 fs := by
  unfold emit
  -- the lemma on the loop holds for any fuel
  generalize kQuantum k + 1 = fuel
  dsimp only
  split
  · exact emitLoop_wrote k reads fuel (kQuantum k) false w s
  have hhead := sendHead_wrote w s (headOnly s)
  split
  · exact ⟨_, hhead.of_eq rfl rfl rfl rfl rfl⟩
  obtain ⟨fs, hfs⟩ := emitLoop_wrote k reads fuel (kQuantum k) false
    (sendHead w s (headOnly s)).1 (sendHead w s (headOnly s)).2
  exact ⟨_, hhead.trans hfs⟩

theorem smallBody_fits {size : Nat} (h : smallBody w s = some size)
    (hne : size ≠ 0) : (size : Int) ≤ s.sendWindow ∧ (size : Int) ≤ w.connWindow := by
  unfold smallBody at h
  split at h
  · cases h
    exact absurd rfl hne
  split at h
  · cases h
    exact absurd rfl hne
  · split at h
    · cases h
    split at h
    · cases h
    rename_i hroom
    cases h
    omega
  · cases h

theorem emitNow_wrote (h : emitNow w s = some (w', s')) : ∃ fs, Wrote w s w' s' fs := by
  obtain ⟨size, hsize, heq⟩ := Option.map_eq_some_iff.mp h
  have hhead := sendHead_wrote w s (decide (size = 0))
  simp only [Prod.mk.injEq] at heq
  obtain ⟨rfl, rfl⟩ := heq
  split
  · exact ⟨_, hhead.of_eq rfl rfl rfl rfl rfl⟩
  have hfits := smallBody_fits hsize
  have hstream := hhead.stream
  have hconn := hhead.conn
  simp only [payloadOf, List.map_nil, List.sum_nil] at hstream hconn
  have hdata := sendData_wrote (sendHead w s (decide (size = 0))).1 (sendHead w s (decide (size = 0))).2
    true (show size ≠ 0 → _ from fun hne => by have := hfits hne; omega)
  have hboth := hhead.trans hdata
  refine ⟨_, hboth.of_eq ?_ ?_ ?_ ?_ ?_⟩
  · rfl
  · rfl
  · rfl
  · rfl
  · rfl

end Agensio.Http2
