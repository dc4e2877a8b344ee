/-
  Agensio.Quic.Connection — a QUIC connection's streams, credit and
  lists.

  Model of the part of `quic/connection.hpp` that owns stream state: the
  application interface (`stream_ready`, `stream_consumed`,
  `stream_reset`, …), the frames of the peer that touch a stream or the
  credit, what an acknowledged or lost item does, and the intrusive
  ready list.  The application's side of the stream table (the pool of
  `http/stream_pool.hpp`, `find_stream`, `on_new_stream`,
  `for_each_stream` of `http3/connection.hpp`) is part of the state,
  because the transport reaches its streams only through it.

  Packet protection, acknowledgement bookkeeping, connection ids and
  path validation do not touch this state and are not here.  Byte
  counters are natural numbers: a connection would have to carry 2^64
  bytes for the difference to show.
-/
import Agensio.Quic.Stream
import Mathlib.Logic.Function.Basic

namespace Agensio.Quic

/-! ## §1. The state. -/

inductive State where
  | handshaking
  | established
  | closing
  | draining
  | closed
  deriving DecidableEq

def errFlowControl : Nat := 0x03
def errStreamLimit : Nat := 0x04
def errStreamState : Nat := 0x05
def errFinalSize : Nat := 0x06
def errFrameEncoding : Nat := 0x07
def errProtocolViolation : Nat := 0x0a

/-- `App::kExcessiveLoad`, H3_EXCESSIVE_LOAD. -/
def kExcessiveLoad : Nat := 0x107

def kGlitchBudget : Nat := 100

def kClosedWindow : Nat := 1024

/-- The part of `Limits` that concerns streams, and the pool's bound. -/
structure Limits where
  maxData : Nat := 2 ^ 20
  streamWindow : Nat := 16384
  uniStreamWindow : Nat := 65536
  maxStreamsBidi : Nat := 128
  maxStreamsUni : Nat := 8
  maxConcurrentStreams : Nat := 128
  deriving DecidableEq

/-- The part of the peer's transport parameters that concerns streams. -/
structure PeerParams where
  initialMaxData : Nat := 0
  initialMaxStreamDataBidiLocal : Nat := 0
  initialMaxStreamDataUni : Nat := 0
  initialMaxStreamsBidi : Nat := 0
  initialMaxStreamsUni : Nat := 0
  deriving DecidableEq

/-- `control_`, `credit_` and the pool are vectors used at their back: here the back is the
    head of the list.  `streams` is the heap of stream objects. -/
structure Conn where
  limits : Limits
  peerTp : PeerParams := {}
  peerParamsOk : Bool := false
  state : State := .handshaking
  closeApp : Bool := false
  closeCode : Nat := 0
  closeFrameType : Nat := 0
  closeReason : String := ""
  -- flow control
  ourMaxData : Nat
  dataReceived : Nat := 0
  dataConsumed : Nat := 0
  peerMaxData : Nat := 0
  dataSent : Nat := 0
  ourMaxStreamsBidi : Nat
  ourMaxStreamsUni : Nat
  openedBidi : Nat := 0
  openedUni : Nat := 0
  closedBidi : Nat := 0
  closedUni : Nat := 0
  closedMapBidi : BitVec kClosedWindow := 0
  closedMapUni : BitVec kClosedWindow := 0
  peerMaxStreamsBidi : Nat := 0
  peerMaxStreamsUni : Nat := 0
  nextUniIndex : Nat := 0
  -- frames due
  maxDataDue : Bool := false
  maxStreamsDue : Bool := false
  maxStreamsPending : Bool := false
  advertisedBidi : Nat
  advertisedUni : Nat
  control : List Ptr := []
  credit : List Ptr := []
  readyHead : Option Ptr := none
  readyTail : Option Ptr := none
  -- budgets
  glitches : Nat := 0
  resetSecond : Int := -1
  resetsInSecond : Nat := 0
  -- the application's stream table
  streams : Ptr → QuicStream := fun _ => {}
  active : List Ptr := []
  pool : List Ptr := []
  allocated : Nat := 3

/-- The three streams the application owns for the connection's life: control, QPACK encoder,
    QPACK decoder. -/
def ownStreams : List Ptr := [0, 1, 2]

namespace Conn

/-- A connection as its constructor leaves it. -/
def create (limits : Limits) : Conn where
  limits := limits
  ourMaxData := limits.maxData
  ourMaxStreamsBidi := limits.maxStreamsBidi
  ourMaxStreamsUni := limits.maxStreamsUni
  advertisedBidi := limits.maxStreamsBidi
  advertisedUni := limits.maxStreamsUni

/-- One stream object changes, all else stays. -/
def modify (c : Conn) (p : Ptr) (f : QuicStream → QuicStream) : Conn :=
  { c with streams := Function.update c.streams p (f (c.streams p)) }

def setState (c : Conn) (st : State) : Conn := { c with state := st }

def setReadyHead (c : Conn) (h : Option Ptr) : Conn := { c with readyHead := h }

def setReadyTail (c : Conn) (t : Option Ptr) : Conn := { c with readyTail := t }

def setActive (c : Conn) (ps : List Ptr) : Conn := { c with active := ps }

def setAllocated (c : Conn) (n : Nat) : Conn := { c with allocated := n }

def setPool (c : Conn) (ps : List Ptr) : Conn := { c with pool := ps }

def setControl (c : Conn) (ps : List Ptr) : Conn := { c with control := ps }

def setCredit (c : Conn) (ps : List Ptr) : Conn := { c with credit := ps }

/-- `data_received_ += n`. -/
def addReceived (c : Conn) (n : Nat) : Conn := { c with dataReceived := c.dataReceived + n }

/-- `state_` is closing, draining or closed: `fail` and `close` do nothing any more. -/
def ended (c : Conn) : Bool := c.state == .closing || c.state == .draining || c.state == .closed

/-- `fail`: the connection closes with a transport error. -/
def fail (c : Conn) (code frameType : Nat) (reason : String) : Conn :=
  if c.ended then c
  else { c with
    state := .closing, closeApp := false, closeCode := code, closeFrameType := frameType,
    closeReason := reason }

/-- `close`: the application's close. -/
def close (c : Conn) (appError : Bool) (code : Nat) (reason : String) : Conn :=
  if c.ended then c
  else { c with
    state := .closing, closeApp := appError, closeCode := code, closeFrameType := 0,
    closeReason := String.ofList (reason.toList.take 64) }

/-- The peer's transport parameters arrive with the handshake (`advance_tls`). -/
def applyPeerParams (c : Conn) (tp : PeerParams) : Conn :=
  { c with
    peerTp := tp, peerParamsOk := true, peerMaxData := tp.initialMaxData
    peerMaxStreamsBidi := tp.initialMaxStreamsBidi, peerMaxStreamsUni := tp.initialMaxStreamsUni }

/-! ## §2. The ready list. -/

/-- `s.next_ready = n`. -/
def setNext (c : Conn) (p : Ptr) (n : Option Ptr) : Conn :=
  c.modify p fun s => { s with nextReady := n }

/-- `s.ready = r; s.next_ready = nullptr`. -/
def setFlag (c : Conn) (p : Ptr) (r : Bool) : Conn :=
  c.modify p fun s => { s with ready := r, nextReady := none }

def enqueue (c : Conn) (p : Ptr) : Conn :=
  if (c.streams p).ready || !(c.streams p).isOpen then c
  else
    let c₁ := c.setFlag p true
    let c₂ := match c.readyTail with
      | some t => c₁.setNext t (some p)
      | none => c₁.setReadyHead (some p)
    c₂.setReadyTail (some p)

/-- The walk of `dequeue` from the head: the stream before `p`, when `p` is met.  A list that
    holds each stream once is never longer than the number of streams allocated. -/
def walkTo (streams : Ptr → QuicStream) (p : Ptr) :
    Nat → Option Ptr → Option Ptr → Option (Option Ptr)
  | 0, _, _ => none
  | _ + 1, _, none => none
  | n + 1, prev, some q =>
    if q = p then some prev else walkTo streams p n (some q) (streams q).nextReady

/-- The link that led to a stream now leads past it. -/
def linkPast (c : Conn) (prev after : Option Ptr) : Conn :=
  match prev with
  | some r => c.setNext r after
  | none => c.setReadyHead after

/-- `p`, met behind `prev`, leaves the links; the tail moves back when it was `p`. -/
def unlink (c : Conn) (p : Ptr) (prev : Option Ptr) : Conn :=
  let c₁ := c.linkPast prev (c.streams p).nextReady
  if c₁.readyTail = some p then c₁.setReadyTail prev else c₁

def dequeue (c : Conn) (p : Ptr) : Conn :=
  if !(c.streams p).ready then c
  else
    match walkTo c.streams p c.allocated none c.readyHead with
    | none => c.setFlag p false
    | some prev => (c.unlink p prev).setFlag p false

/-- The head to the tail. -/
def rotate (c : Conn) : Conn :=
  match c.readyHead, c.readyTail with
  | some h, some t =>
    if h = t then c
    else
      let c₁ := c.setReadyHead (c.streams h).nextReady
      ((c₁.setNext h none).setNext t (some h)).setReadyTail (some h)
  | _, _ => c

/-! ## §3. The application interface. -/

/-- `grant`: the stream's limit moves and a MAX_STREAM_DATA is due. -/
def grant (c : Conn) (p : Ptr) (maxRecv : Nat) : Conn :=
  let c₁ := c.modify p fun s => { s with maxRecv := maxRecv }
  if (c.streams p).creditDue then c₁
  else
    let c₂ := c₁.modify p fun s => { s with creditDue := true }
    c₂.setCredit (p :: c₂.credit)

def setUniIndex (c : Conn) (n : Nat) : Conn := { c with nextUniIndex := n }

/-- `open_uni_stream`: false (the state unchanged) when the peer allows no further stream. -/
def openUniStream (c : Conn) (p : Ptr) : Conn × Bool :=
  if c.nextUniIndex ≥ c.peerMaxStreamsUni then (c, false)
  else
    ((c.setUniIndex (c.nextUniIndex + 1)).modify p fun s =>
      { s with
        id := c.nextUniIndex * 4 + 3, isOpen := true
        maxSend := c.peerTp.initialMaxStreamDataUni }, true)

def streamReady (c : Conn) (p : Ptr) : Conn := c.enqueue p

/-- The connection's half of `stream_consumed`. -/
def creditConnection (c : Conn) (n : Nat) : Conn :=
  let consumed := c.dataConsumed + n
  if consumed + c.limits.maxData - c.ourMaxData ≥ c.limits.maxData / 4 then
    { c with
      dataConsumed := consumed, ourMaxData := consumed + c.limits.maxData, maxDataDue := true }
  else { c with dataConsumed := consumed }

/-- The refill test of `stream_consumed`, in the code's unsigned arithmetic. -/
def refillDue (s : QuicStream) : Bool :=
  !s.finSeen &&
    decide (sub64 (add64 s.consumed s.window) s.maxRecv ≥ s.window / 4)

def streamConsumed (c : Conn) (p : Ptr) (n : Nat) : Conn :=
  let c₁ := (c.modify p fun s => s.consume n).creditConnection n
  let s := c₁.streams p
  if refillDue s then c₁.grant p (add64 s.consumed s.window) else c₁

def streamWindow (c : Conn) (p : Ptr) (window : Nat) : Conn :=
  let c₁ := c.modify p fun s => { s with window := window }
  let s := c.streams p
  if add64 s.consumed window > s.maxRecv then c₁.grant p (add64 s.consumed window) else c₁

/-- `stream_reset`: the flag `ready` is cleared here, the links are not. -/
def streamReset (c : Conn) (p : Ptr) (code : Nat) : Conn :=
  if (c.streams p).resetSent || (c.streams p).resetDue then c
  else
    let c₁ := c.modify p fun s =>
      { s with resetDue := true, resetSendCode := code, ready := false }
    c₁.setControl (p :: c₁.control)

def streamStopSending (c : Conn) (p : Ptr) (code : Nat) : Conn :=
  if (c.streams p).stopDue then c
  else
    let c₁ := c.modify p fun s => { s with stopDue := true, stopSendCode := code }
    c₁.setControl (p :: c₁.control)

/-- The closed bitmap and the stream credit of a client stream that is closed. -/
def countClosed (c : Conn) (id : Nat) : Conn :=
  let index := id / 4
  if streamIsBidi id then
    let map := if index < c.openedBidi ∧ c.openedBidi - 1 - index < kClosedWindow then
        c.closedMapBidi ||| BitVec.twoPow kClosedWindow (c.openedBidi - 1 - index)
      else c.closedMapBidi
    { c with
      closedMapBidi := map
      closedBidi := c.closedBidi + 1
      ourMaxStreamsBidi := c.closedBidi + 1 + c.limits.maxStreamsBidi
      maxStreamsDue := c.maxStreamsDue ||
        decide (c.advertisedBidi - min c.advertisedBidi c.openedBidi < c.limits.maxStreamsBidi / 4)
      maxStreamsPending := true }
  else
    let map := if index < c.openedUni ∧ c.openedUni - 1 - index < kClosedWindow then
        c.closedMapUni ||| BitVec.twoPow kClosedWindow (c.openedUni - 1 - index)
      else c.closedMapUni
    { c with
      closedMapUni := map
      closedUni := c.closedUni + 1
      ourMaxStreamsUni := c.closedUni + 1 + c.limits.maxStreamsUni
      maxStreamsDue := c.maxStreamsDue ||
        decide (c.advertisedUni - min c.advertisedUni c.openedUni < c.limits.maxStreamsUni / 4)
      maxStreamsPending := true }

def streamClosed (c : Conn) (p : Ptr) : Conn :=
  let c₁ := c.dequeue p
  let c₂ := (c₁.setControl (c₁.control.filter (· ≠ p))).setCredit (c₁.credit.filter (· ≠ p))
  let id := (c.streams p).id
  let c₃ := if streamIsClient id then c₂.countClosed id else c₂
  c₃.modify p fun s => { s with isOpen := false }

/-- The last active stream moves into the slot of `p`. -/
def swapRemove (active : List Ptr) (p : Ptr) : List Ptr :=
  (active.set (active.idxOf p) (active.getLast?.getD p)).dropLast

/-- `StreamPool::release`: the last active stream takes the slot, the released one is reset and
    kept while the pool is below its bound. -/
def release (c : Conn) (p : Ptr) : Conn :=
  if p ∈ c.active then
    let c₁ := (c.setActive (swapRemove c.active p)).modify p QuicStream.resetQuic
    if c.pool.length < c.limits.maxConcurrentStreams then c₁.setPool (p :: c.pool) else c₁
  else c

/-- The transport's part of the application's `close_stream`. -/
def closeStream (c : Conn) (p : Ptr) : Conn := (c.streamClosed p).release p

/-! ## §4. The stream table. -/

/-- `find_stream`: the active streams first, then the application's own. -/
def findStream (c : Conn) (id : Nat) : Option Ptr :=
  (c.active ++ ownStreams).find? fun p => (c.streams p).isOpen && (c.streams p).id == id

/-- `StreamPool::take`: a stream from the pool, or a new one. -/
def takeStream (c : Conn) : Conn × Ptr :=
  match c.pool with
  | p :: rest => ((c.setPool rest).setActive (c.active ++ [p]), p)
  | [] =>
    let p := c.allocated
    (((c.setAllocated (p + 1)).setActive (c.active ++ [p])).modify p fun _ => {}, p)

/-- The highest opened index of the kind moves to `index + 1` and the closed bitmap with it. -/
def noteOpened (c : Conn) (bidi : Bool) (index : Nat) : Conn :=
  if bidi then
    if index + 1 > c.openedBidi then
      let shift := index + 1 - c.openedBidi
      { c with
        openedBidi := index + 1
        closedMapBidi := if shift ≥ kClosedWindow then 0 else c.closedMapBidi <<< shift }
    else c
  else
    if index + 1 > c.openedUni then
      let shift := index + 1 - c.openedUni
      { c with
        openedUni := index + 1
        closedMapUni := if shift ≥ kClosedWindow then 0 else c.closedMapUni <<< shift }
    else c

/-- The index was opened and closed before, or lies too far back to tell. -/
def knownClosed (c : Conn) (bidi : Bool) (index : Nat) : Bool :=
  let opened := if bidi then c.openedBidi else c.openedUni
  let map := if bidi then c.closedMapBidi else c.closedMapUni
  decide (index < opened) &&
    (decide (opened - 1 - index ≥ kClosedWindow) || map.getLsbD (opened - 1 - index))

/-- A new client stream, its limits set. -/
def openStream (c : Conn) (id : Nat) : Conn × Ptr :=
  let bidi := streamIsBidi id
  let (c₁, p) := c.takeStream
  let c₂ := c₁.noteOpened bidi (id / 4)
  let window := if bidi then c.limits.streamWindow else c.limits.uniStreamWindow
  (c₂.modify p fun s =>
    { s with
      id := id, isOpen := true, window := window, maxRecv := window
      maxSend := if bidi then c.peerTp.initialMaxStreamDataBidiLocal else 0 }, p)

/-- The stream limit of a kind the peer knows. -/
def advertised (c : Conn) (bidi : Bool) : Nat := if bidi then c.advertisedBidi else c.advertisedUni

/-- `incoming_stream`: a client stream by id, existing or new; `none` when it is closed already
    or the frame is an error. -/
def incomingStream (c : Conn) (id : Nat) : Conn × Option Ptr :=
  if !streamIsClient id then
    (c.fail errStreamState 0 "frame for a server-initiated stream", none)
  else
    let bidi := streamIsBidi id
    let index := id / 4
    if index ≥ c.advertised bidi then
      (c.fail errStreamLimit 0 "stream beyond MAX_STREAMS", none)
    else
      match c.findStream id with
      | some p => (c, some p)
      | none =>
        if c.knownClosed bidi index then (c, none)
        else
          ((c.openStream id).1, some (c.openStream id).2)

/-! ## §5. The peer's frames. -/

/-- The frames of the peer that touch streams, credit or the connection's state. -/
inductive Frame where
  | resetStream (id code finalSize : Nat)
  | stopSending (id code : Nat)
  | maxData (v : Nat)
  | maxStreamData (id v : Nat)
  | maxStreamsBidi (v : Nat)
  | maxStreamsUni (v : Nat)
  | stream (id offset : Nat) (data : Bytes) (fin : Bool)
  | connectionClose
  deriving DecidableEq

/-- The frame type on the wire, as `fail` reports it. -/
def Frame.type : Frame → Nat
  | .resetStream .. => 0x04
  | .stopSending .. => 0x05
  | .maxData .. => 0x10
  | .maxStreamData .. => 0x11
  | .maxStreamsBidi .. => 0x12
  | .maxStreamsUni .. => 0x13
  | .stream _ offset _ fin => 0x08 + (if offset = 0 then 0 else 4) + 2 + (if fin then 1 else 0)
  | .connectionClose => 0x1c

def countGlitch (c : Conn) : Conn := { c with glitches := c.glitches + 1 }

def glitch (c : Conn) : Conn :=
  if c.countGlitch.glitches ≥ kGlitchBudget then
    c.countGlitch.fail errProtocolViolation 0 "too many protocol glitches"
  else c.countGlitch

/-- One more reset in the second `sec`; another second starts at zero. -/
def noteReset (c : Conn) (sec : Int) : Conn :=
  { c with
    resetSecond := sec
    resetsInSecond := if sec ≠ c.resetSecond then 1 else c.resetsInSecond + 1 }

/-- RESET_STREAM and STOP_SENDING per second, the stream limit's worth. -/
def countReset (c : Conn) (sec : Int) : Conn × Bool :=
  if (c.noteReset sec).resetsInSecond > c.limits.maxStreamsBidi then
    ((c.noteReset sec).close true kExcessiveLoad "too many stream resets", false)
  else (c.noteReset sec, true)

def setPeerMaxData (c : Conn) (v : Nat) : Conn := { c with peerMaxData := v }

/-- CONNECTION_CLOSE of the peer. -/
def drain (c : Conn) : Conn := c.setState .draining

/-- One round of `wake_blocked`. -/
def wakeOne (c : Conn) (p : Ptr) : Conn :=
  let s := c.streams p
  if s.isOpen && s.hasUnsent && !s.ready && !s.resetSent then
    (c.modify p fun s => { s with blockedReported := false }).enqueue p
  else c

/-- `wake_blocked`: connection credit wakes every stream with unsent data. -/
def wakeBlocked (c : Conn) : Conn := (c.active ++ ownStreams).foldl wakeOne c

/-- The RESET_STREAM frame on the stream it is for. -/
def applyReset (c : Conn) (p : Ptr) (f : Frame) (code finalSize : Nat) : Conn :=
  let s := c.streams p
  if s.finSeen && s.finalSize != finalSize then c.fail errFinalSize f.type "final size changed"
  else if finalSize < s.highest then
    c.fail errFinalSize f.type "final size below data received"
  else if !s.finSeen && decide (finalSize > s.maxRecv) then
    c.fail errFlowControl f.type "final size beyond the window"
  else
    let c₁ := if s.finSeen then c
      else
        (c.addReceived (finalSize - s.highest)).modify p fun s =>
          { s with highest := finalSize, finSeen := true, finalSize := finalSize }
    if s.resetReceived then c₁
    else c₁.modify p fun s => { s with resetReceived := true, resetCode := code }

/-- The part of `on_stream_frame` that accepts bytes charged already. -/
def storeData (c : Conn) (p : Ptr) (offset : Nat) (data : Bytes) : Conn :=
  if (c.streams p).resetReceived then c
  else if data ≠ [] then c.modify p fun s => s.store offset data
  else c

/-- The part of `on_stream_frame` that charges the bytes, stream found and final size settled. -/
def chargeData (c : Conn) (p : Ptr) (f : Frame) (offset : Nat) (data : Bytes) : Conn :=
  let end_ := offset + data.length
  let s := c.streams p
  if end_ > s.highest then
    let c₁ := c.addReceived (end_ - s.highest)
    if c₁.dataReceived > c₁.ourMaxData then
      c₁.fail errFlowControl f.type "connection data beyond the window"
    else (c₁.modify p fun s => { s with highest := end_ }).storeData p offset data
  else c.storeData p offset data

/-- `on_stream_frame` on the stream the frame is for. -/
def applyStreamFrame (c : Conn) (p : Ptr) (f : Frame) (offset : Nat) (data : Bytes)
    (fin : Bool) : Conn :=
  let end_ := offset + data.length
  let s := c.streams p
  if end_ > s.maxRecv then c.fail errFlowControl f.type "stream data beyond the window"
  else if s.finSeen then
    if decide (end_ > s.finalSize) || (fin && end_ != s.finalSize) then
      c.fail errFinalSize f.type "data beyond the final size"
    else c.chargeData p f offset data
  else if fin then
    if end_ < s.highest then c.fail errFinalSize f.type "final size below data received"
    else
      (c.modify p fun s => { s with finSeen := true, finalSize := end_ }).chargeData p f offset data
  else c.chargeData p f offset data

/-- The stream a send-side frame is about: the peer's, or one of ours. -/
def sendStream (c : Conn) (id : Nat) : Conn × Option Ptr :=
  if streamIsClient id then c.incomingStream id else (c, c.findStream id)

/-- `handle_frame`; the callbacks to the application are steps of their own (`Transitions`). -/
def handleFrame (c : Conn) (f : Frame) (sec : Int) : Conn :=
  match f with
  | .resetStream id code finalSize =>
    match c.countReset sec with
    | (c₁, false) => c₁
    | (c₁, true) =>
      match c₁.incomingStream id with
      | (c₂, none) => c₂
      | (c₂, some p) => c₂.applyReset p f code finalSize
  | .stopSending id code =>
    if streamIsClient id && !streamIsBidi id then
      c.fail errStreamState f.type "STOP_SENDING on a receive-only stream"
    else
      match c.countReset sec with
      | (c₁, false) => c₁
      | (c₁, true) =>
        match c₁.sendStream id with
        | (c₂, none) => c₂
        | (c₂, some p) =>
          if (c₂.streams p).stopSendingReceived then c₂
          else c₂.modify p fun s => { s with stopSendingReceived := true, stopCode := code }
  | .maxData v =>
    if v > c.peerMaxData then (c.setPeerMaxData v).wakeBlocked else c.glitch
  | .maxStreamData id v =>
    if streamIsClient id && !streamIsBidi id then
      c.fail errStreamState f.type "MAX_STREAM_DATA on a receive-only stream"
    else
      match c.sendStream id with
      | (c₁, none) => c₁
      | (c₁, some p) =>
        if v > (c₁.streams p).maxSend then
          let c₂ := c₁.modify p fun s => { s with maxSend := v, blockedReported := false }
          if (c₂.streams p).hasUnsent then c₂.enqueue p else c₂
        else c₁.glitch
  | .maxStreamsBidi v =>
    if v > 2 ^ 60 then c.fail errFrameEncoding f.type "MAX_STREAMS too large"
    else if v > c.peerMaxStreamsBidi then { c with peerMaxStreamsBidi := v } else c.glitch
  | .maxStreamsUni v =>
    if v > 2 ^ 60 then c.fail errFrameEncoding f.type "MAX_STREAMS too large"
    else if v > c.peerMaxStreamsUni then { c with peerMaxStreamsUni := v } else c.glitch
  | .stream id offset data fin =>
    match c.incomingStream id with
    | (c₁, none) => c₁
    | (c₁, some p) => c₁.applyStreamFrame p f offset data fin
  | .connectionClose => c.drain

/-! ## §6. Acknowledged and lost items. -/

/-- The kinds of `SentItem` that concern streams and credit. -/
inductive SentItem where
  | stream (id offset len : Nat) (fin : Bool)
  | maxData
  | maxStreams
  | maxStreamData (id : Nat)
  | resetStream (id : Nat)
  | stopSending (id : Nat)
  deriving DecidableEq

/-- The head of a long-lived stream once `upto` is acknowledged in order. -/
def trimAcked (s : QuicStream) : QuicStream :=
  let upto := s.acked.contiguousFrom s.headBase
  if upto > s.headBase + 16384 ∧ upto ≤ s.headEnd then
    { s with
      head := s.head.drop (upto - s.headBase), headBase := upto
      acked := s.acked.removeBelow upto }
  else s

/-- The bytes and the FIN an acknowledged STREAM frame carried. -/
def noteAcked (s : QuicStream) (offset len : Nat) (fin : Bool) : QuicStream :=
  { s with
    acked := if len ≠ 0 then s.acked.add offset (offset + len) else s.acked
    finAcked := s.finAcked || fin }

/-- A control stream drops what is acknowledged in order; another one may be done sending. -/
def settleAcked (s : QuicStream) : QuicStream :=
  if s.trimHead then trimAcked s
  else if !s.sendDone && s.finAcked && (s.total == 0 || s.acked.contains 0 s.total) then
    { s with sendDone := true }
  else s

/-- One round of `apply_acked`. -/
def applyAcked (c : Conn) : SentItem → Conn
  | .stream id offset len fin =>
    match c.findStream id with
    | none => c
    | some p =>
      if !(c.streams p).isOpen then c
      else c.modify p fun s => settleAcked (noteAcked s offset len fin)
  | _ => c

/-- The bytes and the FIN a lost STREAM frame carried are to be sent again. -/
def noteLost (s : QuicStream) (offset len : Nat) (fin : Bool) : QuicStream :=
  { s with
    lost := if len ≠ 0 then s.lost.add offset (offset + len) else s.lost
    finSent := s.finSent && !fin }

/-- One round of `apply_lost`. -/
def applyLost (c : Conn) : SentItem → Conn
  | .stream id offset len fin =>
    match c.findStream id with
    | none => c
    | some p =>
      let s := c.streams p
      if !s.isOpen || s.sendDone || s.resetSent then c
      else
        let c₁ := c.modify p fun s => noteLost s offset len fin
        if (c₁.streams p).hasUnsent then c₁.enqueue p else c₁
  | .maxData => { c with maxDataDue := true }
  | .maxStreams => { c with maxStreamsDue := true, maxStreamsPending := true }
  | .maxStreamData id =>
    match c.findStream id with
    | none => c
    | some p =>
      let s := c.streams p
      if s.isOpen && !s.finSeen then c.grant p s.maxRecv else c
  | .resetStream id =>
    match c.findStream id with
    | none => c
    | some p =>
      let s := c.streams p
      if s.isOpen && !s.resetDue then
        let c₁ := c.modify p fun s => { s with resetDue := true }
        c₁.setControl (p :: c₁.control)
      else c
  | .stopSending id =>
    match c.findStream id with
    | none => c
    | some p =>
      let s := c.streams p
      if s.isOpen && !s.stopDue then
        let c₁ := c.modify p fun s => { s with stopDue := true }
        c₁.setControl (p :: c₁.control)
      else c

end Conn

end Agensio.Quic
