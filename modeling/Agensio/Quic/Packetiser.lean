/-
  Agensio.Quic.Packetiser — the frames `build_packet` writes.

  Model of the part of `build_packet` that regenerates credit and control
  frames and frames stream data.  Each `while` loop of the source is one
  function per ROUND, so that what the application does between two
  rounds (its `on_stream_sent` may close the stream) is a step of its
  own.

  A round is given the room left in the packet and answers the state,
  the frames written and whether the loop goes on.
-/
import Agensio.Quic.Varint
import Agensio.Quic.Connection
import Mathlib.Algebra.GroupWithZero.Nat

namespace Agensio.Quic

/-! ## §1. Frames and their sizes. -/

inductive OutFrame where
  | maxData (v : Nat)
  | maxStreamData (id v : Nat)
  | maxStreams (bidi : Bool) (v : Nat)
  | resetStream (id code finalSize : Nat)
  | stopSending (id code : Nat)
  | dataBlocked (v : Nat)
  | streamDataBlocked (id v : Nat)
  | stream (id offset : Nat) (data : Bytes) (fin : Bool)
  deriving DecidableEq

/-- `stream_header_size` with a Length field. -/
def streamHeaderSize (id offset len : Nat) : Nat :=
  1 + varintSize id + (if offset = 0 then 0 else varintSize offset) + varintSize len

/-- The bytes a frame takes (`put_varints`, `put_stream_header` and the payload). -/
def OutFrame.size : OutFrame → Nat
  | .maxData v => 1 + varintSize v
  | .maxStreamData id v => 1 + varintSize id + varintSize v
  | .maxStreams _ v => 1 + varintSize v
  | .resetStream id code finalSize => 1 + varintSize id + varintSize code + varintSize finalSize
  | .stopSending id code => 1 + varintSize id + varintSize code
  | .dataBlocked v => 1 + varintSize v
  | .streamDataBlocked id v => 1 + varintSize id + varintSize v
  | .stream id offset data _ => streamHeaderSize id offset data.length + data.length

/-- What one round leaves: the state, the frames written, whether the loop goes on. -/
structure Turn where
  conn : Conn
  frames : List OutFrame := []
  more : Bool := false

/-- H3_INTERNAL_ERROR, the code of a stream whose source failed. -/
def h3InternalError : Nat := 0x102

namespace Conn

/-! ## §2. Credit and control frames. -/

/-- MAX_DATA, when due and it fits. -/
def maxDataTurn (c : Conn) (room : Nat) : Turn :=
  let f := OutFrame.maxData c.ourMaxData
  if c.maxDataDue ∧ f.size ≤ room then
    { conn := { c with maxDataDue := false }, frames := [f] }
  else { conn := c }

/-- One round over `credit_`: MAX_STREAM_DATA with the limit of now. -/
def creditTurn (c : Conn) (room : Nat) : Turn :=
  match c.credit with
  | [] => { conn := c }
  | p :: rest =>
    let s := c.streams p
    if !s.creditDue then { conn := c.setCredit rest, more := true }
    else
      let f := OutFrame.maxStreamData s.id s.maxRecv
      if f.size > room then { conn := c }
      else
        let c₁ := c.modify p fun s => { s with creditDue := false }
        { conn := c₁.setCredit rest, frames := [f], more := true }

/-- The RESET_STREAM half of a control round: the state, the frame, and whether it fitted. -/
def putReset (c : Conn) (p : Ptr) (room : Nat) : Conn × List OutFrame × Bool :=
  let s := c.streams p
  let f := OutFrame.resetStream s.id s.resetSendCode s.total
  if !s.resetDue then (c, [], true)
  else if f.size > room then (c, [], false)
  else (c.modify p fun s => { s with resetDue := false, resetSent := true }, [f], true)

/-- The STOP_SENDING half. -/
def putStop (c : Conn) (p : Ptr) (room : Nat) : Conn × List OutFrame × Bool :=
  let s := c.streams p
  let f := OutFrame.stopSending s.id s.stopSendCode
  if !s.stopDue then (c, [], true)
  else if f.size > room then (c, [], false)
  else (c.modify p fun s => { s with stopDue := false }, [f], true)

/-- One round over `control_`.  A stream whose RESET_STREAM went out is done sending and leaves
    the ready list. -/
def controlTurn (c : Conn) (room : Nat) : Turn :=
  match c.control with
  | [] => { conn := c }
  | p :: rest =>
    let resetNow := (c.streams p).resetDue
    match c.putReset p room with
    | (c₁, fs, false) => { conn := c₁, frames := fs }
    | (c₁, fs, true) =>
      match c₁.putStop p (room - (fs.map OutFrame.size).sum) with
      | (c₂, gs, false) => { conn := c₂, frames := fs ++ gs }
      | (c₂, gs, true) =>
        let c₃ := c₂.setControl rest
        if resetNow && !(c₃.streams p).sendDone then
          let c₄ := c₃.modify p fun s => { s with sendDone := true }
          { conn := c₄.dequeue p, frames := fs ++ gs, more := true }
        else { conn := c₃, frames := fs ++ gs, more := true }

/-- MAX_STREAMS of both kinds, when pending and due or riding on another frame. -/
def maxStreamsTurn (c : Conn) (room : Nat) (eliciting : Bool) : Turn :=
  let fs := [OutFrame.maxStreams true c.ourMaxStreamsBidi, OutFrame.maxStreams false c.ourMaxStreamsUni]
  if c.maxStreamsPending ∧ (c.maxStreamsDue ∨ eliciting) ∧ (fs.map OutFrame.size).sum ≤ room then
    { conn := { c with
        maxStreamsPending := false, maxStreamsDue := false
        advertisedBidi := c.ourMaxStreamsBidi, advertisedUni := c.ourMaxStreamsUni }
      frames := fs }
  else { conn := c }

/-! ## §3. Stream data. -/

/-- What the round robin does with the stream at the head: send `take` bytes from `b` (lost bytes
    again, new ones, or the bare FIN), or take it out of the list (blocked, or nothing to send). -/
inductive Pick where
  | send (b take : Nat) (resend : Bool)
  | blocked
  | idle
  deriving DecidableEq

/-- The bytes the peer's credit allows of a stream's unsent ones. -/
def allowed (c : Conn) (s : QuicStream) : Nat :=
  min (min (c.peerMaxData - c.dataSent) (s.maxSend - s.next)) (s.total - s.next)

def pick (c : Conn) (s : QuicStream) (avail : Nat) : Pick :=
  match s.lost with
  | (b, e) :: _ => .send b (min (e - b) avail) true
  | [] =>
    if s.next < s.total then
      if c.allowed s = 0 then .blocked else .send s.next (min (c.allowed s) avail) false
    else if s.fin && !s.finSent then .send s.total 0 false
    else .idle

/-- A stream out of credit says so once, then leaves the list until MAX_* arrives. -/
def blockStream (c : Conn) (p : Ptr) (room : Nat) : Turn :=
  let s := c.streams p
  if s.blockedReported then { conn := c.dequeue p, more := true }
  else
    let f := if s.maxSend - s.next = 0 then OutFrame.streamDataBlocked s.id s.maxSend
      else OutFrame.dataBlocked c.peerMaxData
    let c₁ := c.modify p fun s => { s with blockedReported := true }
    { conn := c₁.dequeue p, frames := if f.size ≤ room then [f] else [], more := true }

/-- `data_sent_ += n`. -/
def addSent (c : Conn) (n : Nat) : Conn := { c with dataSent := c.dataSent + n }

/-- The bytes of a STREAM frame that was written are no longer to be sent. -/
def markSent (c : Conn) (p : Ptr) (b take : Nat) (resend : Bool) : Conn :=
  if resend then c.modify p fun s => { s with lost := s.lost.remove b (b + take) }
  else if take ≠ 0 then (c.addSent take).modify p fun s => { s with next := b + take }
  else c

def markFin (c : Conn) (p : Ptr) (fin : Bool) : Conn :=
  if fin then c.modify p fun s => { s with finSent := true } else c

/-- After a STREAM frame the head goes to the tail, or leaves the list with nothing unsent. -/
def noteSent (c : Conn) (p : Ptr) (b take : Nat) (resend fin : Bool) : Conn :=
  let c₁ := (c.markSent p b take resend).markFin p fin
  if (c₁.streams p).hasUnsent then c₁.rotate else c₁.dequeue p

/-- One round of the STREAM loop: one frame of the stream at the head of the ready list. -/
def streamTurn (c : Conn) (room : Nat) (read : ReadAt) : Turn :=
  match c.readyHead with
  | none => { conn := c }
  | some p =>
    let s := c.streams p
    let hdrMax := streamHeaderSize s.id s.total 65535
    if room ≤ hdrMax + 1 then { conn := c }
    else
      match c.pick s (room - hdrMax) with
      | .blocked => c.blockStream p room
      | .idle => { conn := c.dequeue p, more := true }
      | .send b take resend =>
        let fin := s.fin && b + take == s.total
        if streamHeaderSize s.id b take > room then { conn := c }
        else
          match s.copyStreamBytes read b take with
          | none => { conn := (c.streamReset p h3InternalError).dequeue p, more := true }
          | some (data, s') =>
            { conn := (c.modify p fun _ => s').noteSent p b take resend fin
              frames := [.stream s.id b data fin], more := true }

/-- The round would frame bytes of `p`, and their source fails (a file read, or a body shorter
    than announced). -/
def sourceFails (c : Conn) (p : Ptr) (room : Nat) (read : ReadAt) : Bool :=
  let s := c.streams p
  let hdrMax := streamHeaderSize s.id s.total 65535
  match c.pick s (room - hdrMax) with
  | .send b take _ =>
    decide (hdrMax + 1 < room) && decide (streamHeaderSize s.id b take ≤ room) &&
      (s.copyStreamBytes read b take).isNone
  | _ => false

end Conn

end Agensio.Quic
