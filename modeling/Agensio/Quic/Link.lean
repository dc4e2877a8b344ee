/-
  Agensio.Quic.Link — datagrams in and out of a connection.

  Model of `receive`, `produce`, `send_close` and of the peer's address
  (`migrate`, `revert_path`) of `quic/connection.hpp`: which packets are
  opened and processed, and how many bytes go to which address.  The
  content of packets is not here.  What the AEAD answers (`opens`), which
  frames a packet carries as far as they touch this state (`Frame`), and
  how much there is to send (`Plan`) come with the labels, so every
  answer the rest of the connection could give is a run of this model.

  One round of the loop of `produce` is one label.  Three fields are
  HISTORY VARIABLES: `processed`, the packets whose frames were processed,
  and `sentTo` and `receivedFrom`, the bytes of the datagrams sent to and
  received from the current address since it became the peer's.
-/
import Agensio.Lib.Runs
import Agensio.Quic.Connection

namespace Agensio.Quic

/-! ## §1. Packets. -/

inductive Space where
  | initial
  | handshake
  | application
  deriving DecidableEq

/-- The part of `AckState` that remembers packet numbers. -/
structure AckState where
  received : RangeSet := []
  any : Bool := false
  largest : Nat := 0
  deriving DecidableEq

/-- `kMaxAckRanges`. -/
def kMaxAckRanges : Nat := 32

/-- The part of `on_packet_received` that remembers the packet number. -/
def AckState.note (a : AckState) (pn : Nat) : AckState where
  received := (a.received.addPoint pn).keepHighest (kMaxAckRanges + 1)
  any := true
  largest := if !a.any || pn > a.largest then pn else a.largest

/-- `decode_pn`, RFC 9000 appendix A.3. -/
def decodePn (largest : Nat) (any : Bool) (truncated bits : Nat) : Nat :=
  if !any then truncated
  else
    let expected := largest + 1
    let win := 2 ^ bits
    let hwin := win / 2
    let candidate := (expected - expected % win) ||| truncated
    if candidate + hwin ≤ expected ∧ candidate < 2 ^ 62 - win then candidate + win
    else if candidate > expected + hwin ∧ candidate ≥ win then candidate - win
    else candidate

inductive LongType where
  | initial
  | zeroRtt
  | handshake
  | retry
  deriving DecidableEq

/-- The keys a packet is opened with. -/
inductive KeySel where
  | current
  | previous
  | next
  deriving DecidableEq

/-- The frames of a packet, as far as they touch the state here.  `ack` carries the number of
    PATH_CHALLENGE frames it declares lost, and the datagram size when it acknowledges a probe. -/
inductive PathFrame where
  | other
  | pathResponse (matches_ : Bool)
  | pathChallenge
  | ack (lostChallenges : Nat) (mtu : Option Nat)
  | crypto (keys : List Space) (maxDatagram : Option Nat) (complete : Bool)
  | failing
  | connectionClose
  deriving DecidableEq

/-- A packet of a datagram, its header protection removed. -/
structure Packet where
  longForm : Bool := false
  type : LongType := .initial
  version1 : Bool := true
  fixedBit : Bool := true
  /-- Long enough for the sample of header protection. -/
  sampled : Bool := true
  truncated : Nat := 0
  pnLen : Nat := 1
  phase : Bool := false
  /-- Reserved header bits are set. -/
  reserved : Bool := false
  /-- The AEAD accepts it under these keys and this packet number. -/
  opens : KeySel → Nat → Bool := fun _ _ => true
  /-- A failure to open it is one above the integrity limit. -/
  overLimit : Bool := false
  /-- The derivation of keys it asks for succeeds. -/
  derives : Bool := true
  nonProbing : Bool := true
  frames : List PathFrame := [.other]

def Packet.space (p : Packet) : Space :=
  if p.longForm then if p.type = .initial then .initial else .handshake else .application

/-! ## §2. The state. -/

abbrev Addr := Nat

/-- `kMinInitialDatagram` and `kAeadTagLen`. -/
def kMinInitialDatagram : Nat := 1200
def kAeadTagLen : Nat := 16
def kHpSampleLen : Nat := 16

/-- The connection as its datagrams concern it. -/
structure Link where
  state : State := .handshaking
  acks : Space → AckState := fun _ => {}
  rx : Space → Bool := fun sp => sp == .initial
  -- key phases
  rxPhase : Bool := false
  rxPrev : Bool := false
  rxNext : Bool := false
  phaseFirstPn : Nat := 0
  keyPhase : Bool := false
  updateAckPending : Bool := false
  -- the path
  peer : Addr
  prevPeer : Addr := 0
  addressValidated : Bool := false
  prevValidated : Bool := false
  bytesReceived : Nat := 0
  bytesSent : Nat := 0
  pathValidating : Bool := false
  pathChallengeDue : Bool := false
  pathTries : Nat := 0
  pathResponses : Nat := 0
  maxDatagram : Nat := kMinInitialDatagram
  mtuTarget : Nat := kMinInitialDatagram
  mtuProbeDue : Bool := false
  mtuProbeSent : Bool := false
  -- the close
  closeDue : Bool := false
  closePackets : Nat := 0
  -- history
  processed : List (Space × Nat) := []
  sentTo : Nat := 0
  receivedFrom : Nat := 0

namespace Link

/-- The connection as its constructor leaves it; a Retry may have validated the address. -/
def create (peer : Addr) (validated : Bool) : Link :=
  { peer := peer, addressValidated := validated }

def ended (l : Link) : Bool := l.state == .closing || l.state == .draining || l.state == .closed

/-- `fail` and `close`: the connection closes and the close is due. -/
def fail (l : Link) : Link := if l.ended then l else { l with state := .closing, closeDue := true }

/-- `migrate`: the peer's address changes; `len` bytes arrived from the new one. -/
def migrate (l : Link) (from_ : Addr) (len : Nat) : Link :=
  { l with
    prevPeer := l.peer, prevValidated := l.addressValidated
    peer := from_, addressValidated := false
    bytesReceived := len, bytesSent := 0
    maxDatagram := kMinInitialDatagram
    pathChallengeDue := true, pathValidating := true, pathTries := 0
    sentTo := 0, receivedFrom := len }

/-- `revert_path`: back to the address before.  The counters stay. -/
def revertPath (l : Link) : Link :=
  { l with
    peer := l.prevPeer, addressValidated := l.prevValidated
    pathValidating := false, pathChallengeDue := false
    sentTo := 0, receivedFrom := 0 }

/-- A PATH_CHALLENGE declared lost (`apply_lost`). -/
def loseChallenge (l : Link) : Link :=
  if l.pathValidating then
    if l.pathTries + 1 < 3 then { l with pathTries := l.pathTries + 1, pathChallengeDue := true }
    else { l with pathTries := l.pathTries + 1 }.revertPath
  else l

def loseChallenges (l : Link) : Nat → Link
  | 0 => l
  | n + 1 => l.loseChallenge.loseChallenges n

/-- `discard_initial`. -/
def discardInitial (l : Link) : Link :=
  { l with rx := fun sp => l.rx sp && decide (sp ≠ .initial) }

/-! ## §3. Receiving. -/

/-- `handle_frame`. -/
def handlePathFrame (l : Link) (onPeerPath : Bool) : PathFrame → Link
  | .other => l
  | .pathResponse ok =>
    if l.pathValidating && onPeerPath && ok then
      { l with pathValidating := false, addressValidated := true }
    else l
  | .pathChallenge => if l.pathResponses < 4 then { l with pathResponses := l.pathResponses + 1 } else l
  | .ack lost mtu =>
    let l := match mtu with
      | some n => { l with maxDatagram := n }
      | none => l
    l.loseChallenges lost
  | .crypto keys mtu complete =>
    let l := { l with rx := fun sp => l.rx sp || keys.contains sp }
    let l := match mtu with
      | some n => { l with maxDatagram := n }
      | none => l
    if complete && l.state == .handshaking then
      { l with state := .established, rx := fun sp => l.rx sp && decide (sp ≠ .handshake) }
    else l
  | .failing => l.fail
  | .connectionClose => { l with state := .draining }

/-- `process_frames`: until the connection closes or drains. -/
def processFrames (l : Link) (onPeerPath : Bool) : List PathFrame → Link
  | [] => l
  | f :: fs =>
    let l := l.handlePathFrame onPeerPath f
    if l.state == .closing || l.state == .draining then l else l.processFrames onPeerPath fs

/-- The keys of the packet's phase, and whether the packet updates them; none when the next
    keys cannot be derived. -/
def selectKeys (l : Link) (p : Packet) (pn : Nat) : Option KeySel :=
  if !p.longForm && p.phase != l.rxPhase then
    if l.rxPrev && decide (pn < l.phaseFirstPn) then some .previous
    else if !l.rxNext && !p.derives then none
    else some .next
  else some .current

/-- A key update of the peer, opened under the next keys. -/
def updateKeys (l : Link) (p : Packet) (pn : Nat) : Link :=
  if l.updateAckPending then l.fail
  else
    let l := { l with rxPrev := true, rxNext := false, rxPhase := !l.rxPhase, phaseFirstPn := pn }
    if l.keyPhase != l.rxPhase then
      if !p.derives then l.fail else { l with keyPhase := !l.keyPhase, updateAckPending := true }
    else l

/-- The loop of `receive`: where it goes on, and whether the datagram is on the peer's path. -/
structure Turn where
  link : Link
  goesOn : Bool
  onPeerPath : Bool

/-- A packet that was opened and is not a duplicate. -/
def processPacket (l : Link) (from_ : Addr) (len : Nat) (onPeerPath : Bool) (p : Packet) (pn : Nat) :
    Turn :=
  let prev := l.acks p.space
  let l₁ := { l with processed := (p.space, pn) :: l.processed }.processFrames onPeerPath p.frames
  if l₁.state == .closing || l₁.state == .draining then ⟨l₁, false, onPeerPath⟩
  else
    let l₂ := { l₁ with
      acks := fun sp => if sp = p.space then (l₁.acks sp).note pn else l₁.acks sp }
    let moved := !onPeerPath && !p.longForm && p.nonProbing && (!prev.any || decide (pn > prev.largest))
    let l₃ := if moved then l₂.migrate from_ len else l₂
    let l₄ := if p.space = .handshake then { l₃ with addressValidated := true }.discardInitial else l₃
    ⟨l₄, p.longForm, onPeerPath || moved⟩

/-- An opened packet: the key update, the reserved bits, the duplicate check. -/
def openedPacket (l : Link) (from_ : Addr) (len : Nat) (onPeerPath : Bool) (p : Packet) (pn : Nat)
    (updating : Bool) : Turn :=
  let l := if updating then l.updateKeys p pn else l
  if l.state == .closing then ⟨l, false, onPeerPath⟩
  else if p.reserved then ⟨l.fail, false, onPeerPath⟩
  else if (l.acks p.space).received.containsPoint pn then ⟨l, p.longForm, onPeerPath⟩
  else l.processPacket from_ len onPeerPath p pn

/-- The packet number of a packet, from its truncated form. -/
def pnOf (l : Link) (p : Packet) : Nat :=
  decodePn (l.acks p.space).largest (l.acks p.space).any p.truncated (p.pnLen * 8)

/-- One round of the loop of `receive`. -/
def receivePacket (l : Link) (from_ : Addr) (len : Nat) (onPeerPath : Bool) (p : Packet) : Turn :=
  if p.longForm && (!p.version1 || p.type == .retry) then ⟨l, false, onPeerPath⟩
  else if p.longForm && p.type == .zeroRtt then ⟨l, true, onPeerPath⟩
  else if !p.fixedBit then ⟨l, false, onPeerPath⟩
  else if !l.rx p.space then ⟨l, p.longForm, onPeerPath⟩
  else if !p.sampled then ⟨l, false, onPeerPath⟩
  else
    let pn := l.pnOf p
    match l.selectKeys p pn with
    | none => ⟨l, false, onPeerPath⟩
    | some k =>
      let l := if k = .next then { l with rxNext := true } else l
      if !p.opens k pn then
        if p.overLimit then ⟨l.fail, false, onPeerPath⟩ else ⟨l, p.longForm, onPeerPath⟩
      else l.openedPacket from_ len onPeerPath p pn (decide (k = .next))

def receiveLoop (l : Link) (from_ : Addr) (len : Nat) (onPeerPath : Bool) : List Packet → Link
  | [] => l
  | p :: ps =>
    if l.state == .closing then l
    else
      let t := l.receivePacket from_ len onPeerPath p
      if t.goesOn then t.link.receiveLoop from_ len t.onPeerPath ps else t.link

/-- `bytes_received_ += len`. -/
def countReceived (l : Link) (len : Nat) : Link :=
  { l with bytesReceived := l.bytesReceived + len, receivedFrom := l.receivedFrom + len }

def receive (l : Link) (from_ : Addr) (len : Nat) (ps : List Packet) : Link :=
  if l.state == .closed || l.state == .draining then l
  else
    let onPeerPath := decide (from_ = l.peer)
    if !onPeerPath && l.state != .established then l
    else
      let l := if onPeerPath then l.countReceived len else l
      if l.state == .closing then
        let l := { l with closePackets := l.closePackets + 1 }
        if l.closePackets % 3 = 1 then { l with closeDue := true } else l
      else l.receiveLoop from_ len onPeerPath ps

/-! ## §4. Sending. -/

/-- What there is to send in one datagram, for each space: the header, and the bytes of the
    frames due as far as they fit. -/
structure Plan where
  /-- `cwnd_room()`. -/
  room : Nat
  wants : Space → Bool
  header : Space → Nat
  pnLen : Space → Nat
  payload : Space → Nat
  sealed : Space → Bool
  /-- The PATH frames due are among the frames. -/
  pathWritten : Bool := false

/-- The bytes `build_packet` writes into `cap` bytes. -/
def buildPacket (header pnLen payload cap padTo : Nat) (sealed : Bool) : Nat :=
  if cap < header + kAeadTagLen + 1 then 0
  else
    let w := min payload (cap - header - kAeadTagLen)
    if w = 0 then 0
    else
      let need := 4 + kHpSampleLen - kAeadTagLen - pnLen - w
      let w := if pnLen + w + kAeadTagLen < 4 + kHpSampleLen ∧ header + w + need + kAeadTagLen ≤ cap
        then w + need else w
      let w := if padTo ≠ 0 ∧ header + w + kAeadTagLen < padTo ∧ padTo ≤ cap
        then padTo - header - kAeadTagLen else w
      if sealed then header + w + kAeadTagLen else 0

/-- What an unvalidated address may still be sent. -/
def left (l : Link) : Nat := 3 * l.bytesReceived - l.bytesSent

/-- The size of the next datagram, `none` when the limit of an unvalidated address is reached. -/
def datagramCap (l : Link) (room : Nat) : Option Nat :=
  if !l.addressValidated && decide (l.left < 64) then none
  else
    let cap := if !l.addressValidated then min l.maxDatagram l.left else l.maxDatagram
    some (if room < cap then max room kMinInitialDatagram else cap)

def spaces : List Space := [.initial, .handshake, .application]

/-- The packets of a datagram, space by space: the bytes used and whether an Initial is there. -/
def fillDatagram (plan : Plan) (cap : Nat) (last : Space) (pathFrames : Bool) :
    List Space → Nat × Bool → Nat × Bool
  | [], acc => acc
  | sp :: sps, (used, initial) =>
    if plan.wants sp then
      let padTo := if (initial || sp == .initial) && sp == last then kMinInitialDatagram else 0
      let padTo := if sp == .application && pathFrames && decide (padTo < kMinInitialDatagram)
        then min kMinInitialDatagram cap else padTo
      let n := buildPacket (plan.header sp) (plan.pnLen sp) (plan.payload sp) (cap - used)
        (if padTo > used then padTo - used else 0) (plan.sealed sp)
      if n = 0 then fillDatagram plan cap last pathFrames sps (used, initial)
      else fillDatagram plan cap last pathFrames sps (used + n, initial || sp == .initial)
    else fillDatagram plan cap last pathFrames sps (used, initial)

/-- `batch.commit`. -/
def commit (l : Link) (n : Nat) : Link :=
  { l with bytesSent := l.bytesSent + n, sentTo := l.sentTo + n }

/-- One round of the loop of `produce`. -/
def produceOne (l : Link) (plan : Plan) : Link :=
  match l.datagramCap plan.room with
  | none => l
  | some cap =>
    match (spaces.filter plan.wants).getLast? with
    | none => l
    | some last =>
      if plan.wants .initial && decide (cap < kMinInitialDatagram) then l
      else
        let pathFrames := (l.pathChallengeDue || decide (l.pathResponses > 0)) &&
          (l.addressValidated || decide (l.bytesSent + kMinInitialDatagram ≤ 3 * l.bytesReceived))
        let used := (fillDatagram plan cap last pathFrames spaces (0, false)).1
        if used = 0 then l
        else
          let l := l.commit used
          if plan.pathWritten then { l with pathChallengeDue := false, pathResponses := 0 } else l

/-- The path MTU probe, to a validated address only. -/
def probeMtu (l : Link) (n : Nat) : Link :=
  if l.mtuProbeDue && !l.mtuProbeSent && l.addressValidated && decide (0 < n ∧ n ≤ l.mtuTarget) then
    { l.commit n with mtuProbeSent := true }
  else l

/-- The size of a CONNECTION_CLOSE datagram: header, frame and tag; an Initial is padded. -/
def closeSize (initial : Bool) (header frame : Nat) : Nat :=
  let n := header + frame + kAeadTagLen
  if initial then max n kMinInitialDatagram else n

/-- `send_close`: the datagram goes to the peer, `bytes_sent_` does not count it. -/
def sendClose (l : Link) (n : Nat) : Link := { l with closeDue := false, sentTo := l.sentTo + n }

/-! ## §5. The transition system. -/

inductive Label where
  | receive (from_ : Addr) (len : Nat) (ps : List Packet)
  | produce (plan : Plan)
  | mtuProbe (n : Nat)
  | startMtuProbe (target : Nat)
  | sendClose (initial : Bool) (header frame : Nat)
  | close
  | lossTimer (lostChallenges : Nat)
  | idleTimer
  | finish
  /-- Our key updates, the acknowledgement of one, the timer of the previous keys. -/
  | keys (prev next pending phase : Bool)

/-- One step; `none` where it cannot happen. -/
def step (l : Link) : Label → Option Link
  | .receive from_ len ps => some (l.receive from_ len ps)
  | .produce plan => if l.ended then none else some (l.produceOne plan)
  | .mtuProbe n => if l.ended then none else some (l.probeMtu n)
  | .startMtuProbe target =>
    some { l with mtuTarget := target, mtuProbeDue := true, mtuProbeSent := false }
  | .sendClose initial header frame =>
    if l.state == .closing && l.closeDue then some (l.sendClose (closeSize initial header frame))
    else none
  | .close => some l.fail
  | .lossTimer lost => if l.ended then none else some (l.loseChallenges lost)
  | .idleTimer => if l.ended then none else some { l with state := .closed }
  | .finish =>
    if l.state == .closing || l.state == .draining then some { l with state := .closed } else none
  | .keys prev next pending phase =>
    some { l with rxPrev := prev, rxNext := next, updateAckPending := pending, keyPhase := phase }

end Link

end Agensio.Quic
