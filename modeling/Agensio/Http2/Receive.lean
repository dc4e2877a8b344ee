/-
  Agensio.Http2.Receive — request bodies and the receive windows.

  Model of the receiving half of `http2/connection.hpp`: DATA frames,
  header blocks as far as they open or end a stream, the handler's reads,
  the ways in which a stream is closed, and the windows that are charged
  and given back on the way.

  A stream is kept under its id.  `inFlight` stands for what the writer
  and the pull hold of it: a stream closed meanwhile stays in the table
  until they let go.  What a header block decodes to is in the label
  (`Verdict`), and so is the half-closed stream that gives up its slot,
  which in the source is the first one of the table.

  The budgets for misbehaviour (`glitch`, `count_reset`) and the other
  frames close the connection by the label `giveUp`.
-/
import Agensio.Lib.Assoc
import Agensio.Lib.Runs

namespace Agensio.Http2

open Agensio.Lib

/-! ## §1. The state. -/

def kDefaultWindow : Nat := 65535

/-- What we let the peer send in total. -/
def kConnectionWindow : Nat := 1048576

/-- The most one stream is granted for a body. -/
def kStreamWindowMax : Nat := 1048576

/-- Body bytes still taken after a response. -/
def kDrainAfterResponse : Nat := 65536

/-- Ids of closed streams that are remembered. -/
def kRecentClosed : Nat := 8

inductive StreamState where
  | opened
  | halfClosedLocal
  | halfClosedRemote
  | closed
  deriving DecidableEq

/-- The receiving side of a stream.  `answered` is `responded || ready`, `pending` the length of
    the buffer of a read that waits. -/
structure H2Stream where
  state : StreamState := .opened
  recvGrant : Nat := kDefaultWindow
  recvPending : Nat := 0
  recvUnreturned : Nat := 0
  hasBody : Bool := false
  contentLength : Option Nat := none
  bodyReceived : Nat := 0
  bodyLimit : Nat := 0
  discarded : Nat := 0
  bodyDone : Bool := false
  /-- `body_len - body_pos`. -/
  buffered : Nat := 0
  pending : Option Nat := none
  answered : Bool := false
  inFlight : Bool := false
  deferRelease : Bool := false
  deriving DecidableEq

/-- What a header block is for. -/
inductive BlockKind where
  | request
  | trailers
  | discard
  deriving DecidableEq

/-- The receiving side: streams, the connection window, the block in progress. -/
structure Connection where
  streams : List (Nat × H2Stream) := []
  lastStreamId : Nat := 0
  /-- The header block in progress: its stream, its kind, whether it ends the stream. -/
  block : Option (Nat × BlockKind × Bool) := none
  recentClosed : List Nat := []
  maxConcurrent : Nat
  goingAway : Bool := false
  closing : Bool := false
  connRecvGrant : Nat := kConnectionWindow
  connUnreturned : Nat := 0
  deriving DecidableEq

/-! ## §2. Windows. -/

/-- The stream's part of `return_window`. -/
def H2Stream.returned (s : H2Stream) (n : Nat) : H2Stream :=
  if n = 0 ∨ s.state = .closed ∨ s.state = .halfClosedRemote ∨ s.bodyDone = true then s
  else if s.recvUnreturned + n ≥ max (s.recvGrant + s.recvPending) 1 / 2 ∨
      s.recvGrant ≤ kDefaultWindow / 4 then
    { s with recvGrant := s.recvGrant + (s.recvUnreturned + n), recvUnreturned := 0 }
  else { s with recvUnreturned := s.recvUnreturned + n }

namespace Connection

def put (c : Connection) (id : Nat) (s : H2Stream) : Connection :=
  { c with streams := setAt c.streams id s }

def connectionError (c : Connection) : Connection := { c with closing := true }

def returnConnWindow (c : Connection) (n : Nat) : Connection :=
  if n = 0 then c
  else if c.connUnreturned + n ≥ kConnectionWindow / 2 ∨ c.connRecvGrant < kConnectionWindow / 4 then
    { c with connRecvGrant := c.connRecvGrant + (c.connUnreturned + n), connUnreturned := 0 }
  else { c with connUnreturned := c.connUnreturned + n }

/-- `return_window`: the connection's window, and the stream's while it takes more. -/
def returnWindow (c : Connection) (id : Nat) (s : H2Stream) (n : Nat) : Connection :=
  (c.returnConnWindow n).put id (s.returned n)

/-! ## §3. The end of a stream. -/

def noteReset (c : Connection) (id : Nat) : Connection :=
  { c with recentClosed := (id :: c.recentClosed).take kRecentClosed }

/-- `close_stream`: what the handler has not read is given back, unless the body is done. -/
def closeStream (c : Connection) (id : Nat) : Connection :=
  match c.streams.lookup id with
  | none => c
  | some s =>
    if s.state = .closed then c
    else
      let c := if s.bodyDone = false ∧ s.recvPending > 0 then c.returnConnWindow s.recvPending else c
      let c := c.noteReset id
      if s.inFlight then c.put id { s with state := .closed, pending := none, deferRelease := true }
      else { c with streams := dropAt c.streams id }

/-- `stream_error`; what it counts may close the connection, which is a label of its own. -/
def streamError (c : Connection) (id : Nat) : Connection := c.closeStream id

/-! ## §4. Bodies. -/

/-- `deliver`: the read that waits gets what is buffered. -/
def deliver (c : Connection) (id : Nat) (s : H2Stream) : Connection :=
  match s.pending with
  | none => c.put id s
  | some room =>
    let n := min s.buffered room
    c.returnWindow id
      { s with pending := none, buffered := s.buffered - n, recvPending := s.recvPending - n } n

def endOfBody (c : Connection) (id : Nat) (s : H2Stream) : Connection :=
  let s := { s with bodyDone := true }
  if s.contentLength.any (· ≠ s.bodyReceived) then (c.put id s).streamError id
  else c.deliver id s

/-- The payload of a DATA frame without its padding. -/
def payloadLength (length : Nat) : Option Nat → Option Nat
  | none => some length
  | some pad => if pad + 1 > length then none else some (length - (pad + 1))

/-- DATA behind the response: dropped, still checked. -/
def dropData (c : Connection) (id : Nat) (s : H2Stream) (length len : Nat) (endStream : Bool) :
    Connection :=
  if length > s.recvGrant then c.streamError id
  else
    let s := { { s with recvGrant := s.recvGrant - length }.returned length with
      bodyReceived := s.bodyReceived + len, discarded := s.discarded + len }
    let c := (c.returnConnWindow length).put id s
    if s.contentLength.any (· < s.bodyReceived) then c.streamError id
    else if endStream then
      if s.contentLength.any (· ≠ s.bodyReceived) then c.streamError id
      else c.closeStream id
    else if s.discarded > kDrainAfterResponse then c.closeStream id
    else c

/-- DATA for the handler. -/
def takeData (c : Connection) (id : Nat) (s : H2Stream) (length len : Nat) (endStream : Bool) :
    Connection :=
  if length > s.recvGrant then c.streamError id
  else
    -- padding never waits for the handler
    let s := { { s with recvGrant := s.recvGrant - length }.returned (length - len) with
      bodyReceived := s.bodyReceived + len }
    let c := c.returnConnWindow (length - len)
    if s.contentLength.any (· < s.bodyReceived) then (c.put id s).streamError id
    else if s.bodyReceived > s.bodyLimit then
      -- 413, unless something was answered
      (c.returnConnWindow len).put id
        { s with answered := true, bodyDone := true, state := .halfClosedRemote, pending := none }
    else
      let s := { s with buffered := s.buffered + len, recvPending := s.recvPending + len }
      if endStream then c.endOfBody id { s with state := .halfClosedRemote }
      else c.deliver id s

def onData (c : Connection) (id length : Nat) (pad : Option Nat) (endStream : Bool) : Connection :=
  if id = 0 then c.connectionError
  else
    match payloadLength length pad with
    | none => c.connectionError
    | some len =>
      if length > c.connRecvGrant then c.connectionError
      else
        let c := { c with connRecvGrant := c.connRecvGrant - length }
        match c.streams.lookup id with
        | none =>
          if id > c.lastStreamId then (c.returnConnWindow length).connectionError
          else c.returnConnWindow length
        | some s =>
          match s.state with
          | .opened => c.takeData id s length len endStream
          | .halfClosedLocal => c.dropData id s length len endStream
          | .halfClosedRemote => (c.returnConnWindow length).streamError id
          | .closed => (c.returnConnWindow length).streamError id

/-- `read_body`; a read that is answered at once with nothing leaves no trace. -/
def readBody (c : Connection) (id room : Nat) : Connection :=
  match c.streams.lookup id with
  | none => c
  | some s =>
    if s.hasBody = false ∨ room = 0 ∨ s.state = .closed then c
    else if s.buffered > 0 ∨ s.bodyDone = true then c.deliver id { s with pending := some room }
    else c.put id { s with pending := some room }

/-- `on_stream_written`: END_STREAM of the response reached the kernel. -/
def onStreamWritten (c : Connection) (id : Nat) : Connection :=
  match c.streams.lookup id with
  | none => c
  | some s =>
    if s.hasBody = true ∧ s.bodyDone = false ∧ s.state = .opened ∧
        s.bodyReceived ≤ s.bodyLimit ∧
        s.contentLength.any (· - s.bodyReceived > kDrainAfterResponse) = false then
      c.put id { s with state := .halfClosedLocal }
    else c.closeStream id

/-! ## §5. Header blocks. -/

/-- `on_headers`, up to the block. -/
def onHeaders (c : Connection) (id : Nat) (endStream selfDependent : Bool) : Connection :=
  if id = 0 then c.connectionError
  else
    -- a new id is never in the table
    match if id ≤ c.lastStreamId then c.streams.lookup id else none with
    | some s =>
      if s.state = .halfClosedRemote ∨ s.state = .closed ∨ endStream = false then
        { c.streamError id with block := some (id, .discard, endStream) }
      else { c with block := some (id, .trailers, endStream) }
    | none =>
      if id % 2 = 0 ∨ id ≤ c.lastStreamId then c.connectionError
      else
        let kind := if c.recentClosed.contains id || selfDependent then .discard else .request
        { c with lastStreamId := id, block := some (id, kind, endStream) }

/-- What a block decodes to and the request is assembled as. -/
inductive Verdict where
  | request (contentLength : Option Nat) (bodyLimit : Nat)
  /-- Too many fields: 431. -/
  | overflow
  | malformed
  /-- A block the decoder refuses. -/
  | refused
  deriving DecidableEq

/-- `begin_request` on the stream just opened. -/
def beginRequest (c : Connection) (id : Nat) (endStream : Bool) : Verdict → Connection
  | .refused => c.connectionError
  | .malformed => c.streamError id
  | .overflow => c.put id { answered := true }
  | .request contentLength bodyLimit =>
    let s : H2Stream := { contentLength := contentLength }
    if endStream then
      let c := c.put id { s with state := .halfClosedRemote, bodyDone := true }
      if contentLength.any (· ≠ 0) then c.streamError id else c
    else
      let s := { s with hasBody := true, bodyLimit := bodyLimit }
      if contentLength.any (· > bodyLimit) then c.put id { s with answered := true }
      else
        -- the window follows the body limit
        let want := min (max bodyLimit 1) kStreamWindowMax
        c.put id (if want > kDefaultWindow then { s with recvGrant := want } else s)

/-- A half-closed stream gives its slot up. -/
def evict (c : Connection) : Option Nat → Connection
  | none => c
  | some id =>
    match c.streams.lookup id with
    | none => c
    | some s => if s.state = .halfClosedLocal then c.closeStream id else c

/-- A request's block is complete: `open_stream` and `begin_request`. -/
def openRequest (c : Connection) (id : Nat) (endStream : Bool) (v : Verdict) (evicted : Option Nat) :
    Connection :=
  if c.goingAway then c
  else
    let c := if c.streams.length ≥ c.maxConcurrent then c.evict evicted else c
    if c.streams.length ≥ c.maxConcurrent then c
    else { c with streams := c.streams ++ [(id, ({} : H2Stream))] }.beginRequest id endStream v

/-- `finish_block`. -/
def finishBlock (c : Connection) (v : Verdict) (evicted : Option Nat) : Connection :=
  match c.block with
  | none => c
  | some (id, kind, endStream) =>
    let c := { c with block := none }
    match kind with
    | .request => c.openRequest id endStream v evicted
    | .discard => if v = .refused then c.connectionError else c
    | .trailers =>
      if v = .refused then c.connectionError
      else
        match c.streams.lookup id with
        | none => c
        | some s =>
          if s.state = .halfClosedLocal then c.closeStream id
          else c.endOfBody id { s with state := .halfClosedRemote }

/-! ## §6. Labels. -/

/-- What may happen next.  `reset` is a frame of the client that closes a stream (RST_STREAM, a
    WINDOW_UPDATE or PRIORITY that is a stream error); `cut` is the server's own close (a timeout, a
    failed body, an answer emitted at once). -/
inductive Label where
  | data (id length : Nat) (pad : Option Nat) (endStream : Bool)
  | headers (id : Nat) (endStream selfDependent : Bool)
  | block (v : Verdict) (evicted : Option Nat)
  | reset (id : Nat)
  | priority (id : Nat)
  | read (id room : Nat)
  | written (id : Nat)
  | cut (id : Nat)
  | answer (id : Nat)
  /-- The writer or a pull holds the stream, or lets go of it. -/
  | hold (id : Nat) (held : Bool)
  | goAway
  | giveUp
  deriving DecidableEq

/-- A frame of the client; one that interrupts a header block closes the connection. -/
def frame (c : Connection) (next : Connection) : Connection :=
  if c.block.isSome then c.connectionError else next

/-- The writer's or the pull's hold on a stream; `release_deferred` where it was closed meanwhile. -/
def hold (c : Connection) (id : Nat) (held : Bool) : Connection :=
  match c.streams.lookup id with
  | none => c
  | some s =>
    if s.deferRelease ∧ held = false then { c with streams := dropAt c.streams id }
    else c.put id { s with inFlight := held }

/-- One step; `none` while the connection is closing. -/
def step (c : Connection) (l : Label) : Option Connection :=
  if c.closing then none
  else
    match l with
    | .data id length pad endStream => some (c.frame (c.onData id length pad endStream))
    | .headers id endStream selfDependent => some (c.frame (c.onHeaders id endStream selfDependent))
    | .block v evicted => some (c.finishBlock v evicted)
    | .reset id => some (c.frame (c.streamError id))
    | .priority id => some (c.frame (if id > c.lastStreamId then c.noteReset id else c))
    | .read id room => some (c.readBody id room)
    | .written id => some (c.onStreamWritten id)
    | .cut id => some (c.closeStream id)
    | .answer id =>
      some (match c.streams.lookup id with
        | none => c
        | some s => c.put id { s with answered := true })
    | .hold id held => some (c.hold id held)
    | .goAway => some { c with goingAway := true }
    | .giveUp => some c.connectionError

/-- The connection after `start`. -/
def start (maxConcurrent : Nat) : Connection := { maxConcurrent }

end Connection

end Agensio.Http2
