/-
  Agensio.Quic.Transitions — the connection as a transition system.

  One label per thing that can happen to a connection: a call of the
  application, a frame of the peer, an item reported acknowledged or
  lost, a round of the packetiser.  A callback of the source (say
  `on_stream_reset` inside `handle_frame`) is the application's labels
  that follow the frame's; so EVERY order the code can produce is a run
  here, and what holds along every run holds for the code.

  The guards say when a label can occur: frames and packets only while
  the connection is not closing, calls on a stream only while it is
  open, bytes consumed only on a stream of the peer, and no more than
  are available.
-/
import Agensio.Quic.Packetiser
import Agensio.Lib.Runs

namespace Agensio.Quic

/-- A response: the head, then a memory body or a file region, with FIN (`respond`). -/
structure Answer where
  head : Bytes := []
  mem : Bytes := []
  file : Option FileRegion := none

def Answer.bodyLen (a : Answer) : Nat :=
  a.mem.length + match a.file with
    | some f => f.len
    | none => 0

/-- Everything that may happen to a connection. -/
inductive Op where
  -- the handshake
  | peerParams (tp : PeerParams)
  | handshakeComplete
  -- the application
  | openUniStream (p : Ptr) (head : Bytes) (trim : Bool)
  | appendHead (p : Ptr) (data : Bytes)
  | answer (p : Ptr) (a : Answer)
  | streamReady (p : Ptr)
  | streamConsumed (p : Ptr) (n : Nat)
  | streamWindow (p : Ptr) (window : Nat)
  | streamReset (p : Ptr) (code : Nat)
  | streamStopSending (p : Ptr) (code : Nat)
  | closeStream (p : Ptr)
  | close (appError : Bool) (code : Nat) (reason : String)
  -- the peer
  | frame (f : Conn.Frame) (sec : Int)
  | acked (it : Conn.SentItem)
  | lost (it : Conn.SentItem)
  -- the packetiser
  | maxDataTurn (room : Nat)
  | creditTurn (room : Nat)
  | controlTurn (room : Nat)
  | streamTurn (room : Nat) (read : ReadAt)
  | maxStreamsTurn (room : Nat) (eliciting : Bool)
  -- the close timer
  | finish

namespace Conn

/-- The application fills a stream that grows (control, QPACK) or answers a request on it. -/
def appendHead (c : Conn) (p : Ptr) (data : Bytes) : Conn :=
  c.modify p fun s => { s with head := s.head ++ data, total := s.headEnd + data.length }

def answer (c : Conn) (p : Ptr) (a : Answer) : Conn :=
  c.modify p fun s =>
    { s with
      head := a.head, mem := a.mem, file := a.file
      total := a.head.length + a.bodyLen, fin := true }

/-- The first bytes of one of the application's streams, written before it is opened. -/
def beginOwn (c : Conn) (p : Ptr) (head : Bytes) (trim : Bool) : Conn :=
  c.modify p fun s => { s with head := head, trimHead := trim }

/-- `on_handshake_done` for one of the application's streams. -/
def openOwn (c : Conn) (p : Ptr) (head : Bytes) (trim : Bool) : Conn :=
  match (c.beginOwn p head trim).openUniStream p with
  | (c₁, true) => c₁.modify p fun s => { s with total := s.head.length, fin := false }
  | (c₁, false) => c₁

/-- The connection's next state, `none` where the label cannot occur. -/
def step (c : Conn) : Op → Option Conn
  | .peerParams tp =>
    if c.state = .handshaking ∧ c.peerParamsOk = false then some (c.applyPeerParams tp) else none
  | .handshakeComplete =>
    if c.state = .handshaking then some (c.setState .established) else none
  | .openUniStream p head trim =>
    if p ∈ ownStreams ∧ (c.streams p).isOpen = false then some (c.openOwn p head trim) else none
  | .appendHead p data => if (c.streams p).isOpen then some (c.appendHead p data) else none
  | .answer p a => if (c.streams p).isOpen then some (c.answer p a) else none
  | .streamReady p => some (c.streamReady p)
  | .streamConsumed p n =>
    if p ∈ c.active ∧ (c.streams p).isOpen ∧ n ≤ (c.streams p).available then
      some (c.streamConsumed p n)
    else none
  | .streamWindow p window =>
    if (c.streams p).isOpen then some (c.streamWindow p window) else none
  | .streamReset p code => if (c.streams p).isOpen then some (c.streamReset p code) else none
  | .streamStopSending p code =>
    if (c.streams p).isOpen then some (c.streamStopSending p code) else none
  | .closeStream p =>
    if p ∈ c.active ∧ (c.streams p).isOpen then some (c.closeStream p) else none
  | .close appError code reason => some (c.close appError code reason)
  | .frame f sec => if c.ended then none else some (c.handleFrame f sec)
  | .acked it => if c.ended then none else some (c.applyAcked it)
  | .lost it => if c.ended then none else some (c.applyLost it)
  | .maxDataTurn room => if c.ended then none else some (c.maxDataTurn room).conn
  | .creditTurn room => if c.ended then none else some (c.creditTurn room).conn
  | .controlTurn room => if c.ended then none else some (c.controlTurn room).conn
  | .streamTurn room read => if c.ended then none else some (c.streamTurn room read).conn
  | .maxStreamsTurn room eliciting =>
    if c.ended then none else some (c.maxStreamsTurn room eliciting).conn
  | .finish =>
    if c.state = .closing ∨ c.state = .draining then some (c.setState .closed) else none

end Conn

end Agensio.Quic
