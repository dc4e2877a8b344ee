/-
  Agensio.Quic.Transport — a connection with its recovery.

  The connection of `Transitions` takes acknowledged and lost items as
  they come.  Here they come from somewhere: `build_packet` records what
  it frames with the packet, ACK frames and the loss timer take packets
  out of the record, and only THEIR items are applied.  CRYPTO bytes have
  their own send state per space (`CryptoOut`).

  `build_packet` is a label per round, between `beginPacket` (the packet
  is recorded) and `sendPacket` or `abandonPacket` (nothing was due).  An
  ACK is one label: `apply_acked` and `apply_lost` run to their end in
  it, with the application's calls from `on_stream_sent` in between.

  What the application promises is in `callable`: it answers a request
  stream once (`responded` in `http3/connection.hpp`), and only its own
  streams grow.  Sealing succeeds.

  `written` is a HISTORY VARIABLE: the frames built that disclose an
  offset of a stream, each with the stream's `max_send` at that time.
-/
import Agensio.Quic.Recovery
import Agensio.Quic.Sending

namespace Agensio.Quic

open Agensio.Lib

/-! ## §1. CRYPTO bytes. -/

structure CryptoOut where
  sent : Nat := 0
  lost : RangeSet := []
  acked : RangeSet := []
  deriving DecidableEq

namespace CryptoOut

/-- The bytes a CRYPTO frame is to carry: the first lost range, or what TLS has written since
    (`size` bytes in all). -/
def due (co : CryptoOut) (size : Nat) : Option (Nat × Nat) :=
  match co.lost with
  | (b, e) :: _ => some (b, e)
  | [] => if co.sent < size then some (co.sent, size) else none

/-- The bytes `[b, b + take)` went into a frame. -/
def markSent (co : CryptoOut) (b take : Nat) : CryptoOut :=
  if !co.lost.isEmpty then { co with lost := co.lost.remove b (b + take) }
  else { co with sent := b + take }

/-- One round of the CRYPTO loop; `none` where the loop ends. -/
def turn (co : CryptoOut) (size room : Nat) : Option (CryptoOut × Nat × Nat) :=
  match co.due size with
  | none => none
  | some (b, e) =>
    let hdr := 1 + varintSize b + varintSize (e - b)
    if room ≤ hdr + 1 then none
    else
      let take := min (e - b) (room - hdr)
      some (co.markSent b take, b, take)

end CryptoOut

/-! ## §2. The frames that were written. -/

/-- The stream of a frame that discloses an offset, and the offset. -/
def OutFrame.streamId : OutFrame → Nat
  | .stream id .. => id
  | .resetStream id .. => id
  | _ => 0

def OutFrame.upto : OutFrame → Nat
  | .stream _ offset data _ => offset + data.length
  | .resetStream _ _ finalSize => finalSize
  | _ => 0

/-- What `build_packet` records with a frame, for its loss. -/
def OutFrame.item : OutFrame → Option Conn.SentItem
  | .stream id offset data fin => some (.stream id offset data.length fin)
  | .resetStream id .. => some (.resetStream id)
  | .stopSending id .. => some (.stopSending id)
  | .maxData .. => some .maxData
  | .maxStreamData id .. => some (.maxStreamData id)
  | .maxStreams true .. => some .maxStreams
  | _ => none

structure Disclosure where
  frame : OutFrame
  limit : Nat
  deriving DecidableEq

/-! ## §3. The state. -/

/-- A connection with its packet number spaces and what they record. -/
structure Transport where
  conn : Conn
  space : Space → PnSpace := fun _ => {}
  crypto : Space → CryptoOut := fun _ => {}
  keys : Space → Bool := fun sp => sp = .initial
  building : Option Space := none
  written : List Disclosure := []

inductive Label where
  -- the application and the handshake
  | call (op : Op)
  | install (sp : Space)
  | discard (sp : Space)
  -- the peer
  | frame (f : Conn.Frame) (sec : Int)
  | ack (sp : Space) (ranges : List (Nat × Nat)) (largestAck : Nat) (lostSendTime : Int)
      (calls : List (List Op))
  -- the loss timer
  | timer (detect : Option (Space × Int)) (probed : List Space)
  -- the packetiser
  | beginPacket (sp : Space)
  | cryptoTurn (size room : Nat)
  | note (it : Item)
  | turn (op : Op)
  | sendPacket (time : Int) (eliciting inFlight : Bool)
  | abandonPacket

namespace Conn

/-- The calls an application can make, and what it promises of them. -/
def callable (c : Conn) : Op → Bool
  | .peerParams _ => true
  | .handshakeComplete => true
  | .openUniStream .. => c.peerParamsOk
  | .appendHead p _ => p ∈ ownStreams
  | .answer p _ => p ∈ c.active ∧ (c.streams p).fin = false
  | .streamReady _ => true
  | .streamConsumed .. => true
  | .streamWindow .. => true
  | .streamReset .. => true
  | .streamStopSending .. => true
  | .closeStream _ => true
  | .close .. => true
  | .finish => true
  | _ => false

/-- One call. -/
def call (c : Conn) (op : Op) : Option Conn := if c.callable op then c.step op else none

/-- A round of the packetiser, with the frames it writes. -/
def turn (c : Conn) : Op → Option Turn
  | .maxDataTurn room => some (c.maxDataTurn room)
  | .creditTurn room => some (c.creditTurn room)
  | .controlTurn room => some (c.controlTurn room)
  | .streamTurn room read => some (c.streamTurn room read)
  | .maxStreamsTurn room eliciting => some (c.maxStreamsTurn room eliciting)
  | _ => none

/-- `max_send` of the stream with this id. -/
def sendLimit (c : Conn) (id : Nat) : Nat :=
  match c.findStream id with
  | some p => (c.streams p).maxSend
  | none => 0

end Conn

namespace Transport

def start (limits : Limits) : Transport where
  conn := Conn.create limits

def setConn (t : Transport) (c : Conn) : Transport := { t with conn := c }

def setSpace (t : Transport) (sp : Space) (ps : PnSpace) : Transport :=
  { t with space := Function.update t.space sp ps }

def setCrypto (t : Transport) (sp : Space) (co : CryptoOut) : Transport :=
  { t with crypto := Function.update t.crypto sp co }

/-! ## §4. Acknowledged and lost items. -/

/-- One round of `apply_acked`, the application's calls aside. -/
def applyAcked (t : Transport) : Item → Transport
  | .conn it => t.setConn (t.conn.applyAcked it)
  | .crypto sp offset len =>
    t.setCrypto sp { t.crypto sp with acked := (t.crypto sp).acked.add offset (offset + len) }
  | _ => t

/-- `apply_acked`: each item, then what the application does when it is told. -/
def applyAckedAll (t : Transport) : List Item → List (List Op) → Option Transport
  | [], _ => some t
  | it :: items, calls =>
    match run Conn.call (t.applyAcked it).conn (calls.headD []) with
    | none => none
    | some c => ((t.applyAcked it).setConn c).applyAckedAll items calls.tail

theorem applyAckedAll_cons {t t' : Transport} {it : Item} {items : List Item} {calls : List (List Op)}
    (h : t.applyAckedAll (it :: items) calls = some t') :
    ∃ c, run Conn.call (t.applyAcked it).conn (calls.headD []) = some c ∧
      ((t.applyAcked it).setConn c).applyAckedAll items calls.tail = some t' := by
  unfold applyAckedAll at h
  cases hrun : run Conn.call (t.applyAcked it).conn (calls.headD []) with
  | none =>
    rw [hrun] at h
    simp at h
  | some c =>
    rw [hrun] at h
    exact ⟨c, rfl, h⟩

/-- One round of `apply_lost`. -/
def applyLost (t : Transport) : Item → Transport
  | .conn it => t.setConn (t.conn.applyLost it)
  | .crypto sp offset len =>
    if t.keys sp then
      t.setCrypto sp { t.crypto sp with lost := (t.crypto sp).lost.add offset (offset + len) }
    else t
  | _ => t

def applyLostAll (t : Transport) (items : List Item) : Transport := items.foldl applyLost t

/-- An ACK frame in a space. -/
def onAck (t : Transport) (sp : Space) (ranges : List (Nat × Nat)) (largestAck : Nat)
    (lostSendTime : Int) (calls : List (List Op)) : Option Transport :=
  match (t.space sp).onAckReceived ranges largestAck lostSendTime with
  | none =>
    some (t.setConn (t.conn.fail errProtocolViolation 0x02 "ACK of a packet never sent"))
  | some (ps, acked, lost) =>
    match (t.setSpace sp ps).applyAckedAll acked calls with
    | none => none
    | some t' => some (t'.applyLostAll lost)

/-- The loss timer: packets of one space declared lost, or none; then the probes that are due. -/
def onTimer (t : Transport) (detect : Option (Space × Int)) (probed : List Space) : Transport :=
  match detect with
  | none => t.applyLostAll (probed.flatMap fun sp => (t.space sp).probeItems)
  | some (sp, lostSendTime) =>
    let d := (t.space sp).detectLost lostSendTime
    let t₁ := t.setSpace sp d.1
    t₁.applyLostAll (d.2 ++ probed.flatMap fun sp => (t₁.space sp).probeItems)

theorem onAck_cases {t t' : Transport} {sp : Space} {ranges : List (Nat × Nat)} {largestAck : Nat}
    {lostSendTime : Int} {calls : List (List Op)}
    (ha : t.onAck sp ranges largestAck lostSendTime calls = some t') :
    (t' = t.setConn (t.conn.fail errProtocolViolation 0x02 "ACK of a packet never sent")) ∨
    ∃ ps acked lost t₁, (t.space sp).onAckReceived ranges largestAck lostSendTime = some (ps, acked, lost) ∧
      (t.setSpace sp ps).applyAckedAll acked calls = some t₁ ∧ t' = t₁.applyLostAll lost := by
  unfold onAck at ha
  split at ha
  · exact .inl (Option.some.inj ha).symm
  next ps acked lost hr =>
  split at ha
  · simp at ha
  · next t₁ haa => exact .inr ⟨ps, acked, lost, t₁, hr, haa, (Option.some.inj ha).symm⟩

/-- The state in which the loss timer hands out its items, and the packets it declares lost. -/
def detected (t : Transport) : Option (Space × Int) → Transport × List Item
  | none => (t, [])
  | some (sp, lostSendTime) =>
    let d := (t.space sp).detectLost lostSendTime
    (t.setSpace sp d.1, d.2)

/-- All of the items: what is declared lost, and the probes. -/
def expired (t : Transport) (detect : Option (Space × Int)) (probed : List Space) : List Item :=
  (t.detected detect).2 ++ probed.flatMap fun sp => ((t.detected detect).1.space sp).probeItems

theorem onTimer_eq (t : Transport) (detect : Option (Space × Int)) (probed : List Space) :
    t.onTimer detect probed = (t.detected detect).1.applyLostAll (t.expired detect probed) := by
  cases detect <;> rfl

/-- Only a space changes before the items are handed out. -/
theorem detected_kept (t : Transport) (detect : Option (Space × Int)) :
    (t.detected detect).1.conn = t.conn ∧ (t.detected detect).1.written = t.written ∧
      (t.detected detect).1.keys = t.keys := by
  cases detect <;> exact ⟨rfl, rfl, rfl⟩

/-! ## §5. Packets. -/

/-- Items go on the record of the packet being built. -/
def push (t : Transport) (sp : Space) (items : List Item) : Transport :=
  t.setSpace sp ((t.space sp).amend (t.space sp).nextPn fun pkt =>
    { pkt with items := pkt.items ++ items })

/-- The frames of a round go into the packet being built. -/
def write (t : Transport) (r : Turn) : Transport :=
  let frames := r.frames.filter OutFrame.discloses
  let t₁ := { t with
    conn := r.conn
    written := t.written ++ frames.map fun f =>
      { frame := f, limit := t.conn.sendLimit f.streamId : Disclosure } }
  t₁.push .application ((r.frames.filterMap OutFrame.item).map .conn)

/-- One round of the CRYPTO loop. -/
def cryptoTurn (t : Transport) (sp : Space) (size room : Nat) : Transport :=
  match (t.crypto sp).turn size room with
  | none => t
  | some (co, b, take) => (t.setCrypto sp co).push sp [.crypto sp b take]

/-- The packet goes out: its record is completed and its number used up. -/
def sendPacket (t : Transport) (sp : Space) (time : Int) (eliciting inFlight : Bool) : Transport :=
  let ps := (t.space sp).amend (t.space sp).nextPn fun pkt =>
    { pkt with time := time, ackEliciting := eliciting, inFlight := inFlight }
  { t.setSpace sp { ps with nextPn := ps.nextPn + 1 } with building := none }

/-- Nothing was due: the record is dropped and the number is used by the next packet. -/
def abandonPacket (t : Transport) (sp : Space) : Transport :=
  { t.setSpace sp ((t.space sp).forget (t.space sp).nextPn) with building := none }

/-- The packet being built carries no items. -/
def unfilled (t : Transport) (sp : Space) : Bool :=
  match (t.space sp).find (t.space sp).nextPn with
  | some pkt => pkt.items.isEmpty
  | none => false

/-! ## §6. The steps. -/

/-- No packet is being built and the connection is not closing. -/
def idle (t : Transport) : Bool := t.building.isNone && !t.conn.ended

/-- One step; `none` where it cannot happen. -/
def step (t : Transport) : Label → Option Transport
  | .call op => (t.conn.call op).map t.setConn
  -- TLS has no 1-RTT secret before it has the client's transport parameters
  | .install sp =>
    if sp = .application → t.conn.peerParamsOk then
      some { t with keys := Function.update t.keys sp true }
    else none
  | .discard sp =>
    if t.building = none ∧ sp ≠ .application then
      some { t.setSpace sp (t.space sp).discard with keys := Function.update t.keys sp false }
    else none
  | .frame f sec =>
    if t.idle ∧ t.keys .application then some (t.setConn (t.conn.handleFrame f sec)) else none
  | .ack sp ranges largestAck lostSendTime calls =>
    if t.idle then t.onAck sp ranges largestAck lostSendTime calls else none
  | .timer detect probed => if t.idle then some (t.onTimer detect probed) else none
  | .beginPacket sp =>
    if t.idle ∧ t.keys sp ∧ (t.space sp).discarded = false then
      some { t.setSpace sp ((t.space sp).record (t.space sp).nextPn) with building := some sp }
    else none
  | .cryptoTurn size room =>
    match t.building with
    | some sp => some (t.cryptoTurn sp size room)
    | none => none
  | .note it =>
    match t.building with
    | some sp => if it = .handshakeDone ∨ it = .other then some (t.push sp [it]) else none
    | none => none
  | .turn op =>
    if t.building = some .application then (t.conn.turn op).map t.write else none
  | .sendPacket time eliciting inFlight =>
    match t.building with
    | some sp => some (t.sendPacket sp time eliciting inFlight)
    | none => none
  | .abandonPacket =>
    match t.building with
    | some sp => if t.unfilled sp then some (t.abandonPacket sp) else none
    | none => none

/-- What a step was, with what it was allowed by. -/
inductive Stepped (t : Transport) : Label → Transport → Prop
  | call {op : Op} {c' : Conn} (hc : t.conn.call op = some c') : Stepped t (.call op) (t.setConn c')
  | install {sp : Space} (hg : sp = .application → t.conn.peerParamsOk) :
    Stepped t (.install sp) { t with keys := Function.update t.keys sp true }
  | discard {sp : Space} (hb : t.building = none) (hsp : sp ≠ .application) :
    Stepped t (.discard sp)
      { t.setSpace sp (t.space sp).discard with keys := Function.update t.keys sp false }
  | frame {f : Conn.Frame} {sec : Int} : Stepped t (.frame f sec) (t.setConn (t.conn.handleFrame f sec))
  | ack {sp : Space} {ranges : List (Nat × Nat)} {largestAck : Nat} {lostSendTime : Int}
      {calls : List (List Op)} {t' : Transport} (hi : t.idle)
      (ha : t.onAck sp ranges largestAck lostSendTime calls = some t') :
    Stepped t (.ack sp ranges largestAck lostSendTime calls) t'
  | timer {detect : Option (Space × Int)} {probed : List Space} (hi : t.idle) :
    Stepped t (.timer detect probed) (t.onTimer detect probed)
  | beginPacket {sp : Space} (hi : t.idle) (hk : t.keys sp) (hd : (t.space sp).discarded = false) :
    Stepped t (.beginPacket sp)
      { t.setSpace sp ((t.space sp).record (t.space sp).nextPn) with building := some sp }
  | cryptoTurn {sp : Space} {size room : Nat} (hb : t.building = some sp) :
    Stepped t (.cryptoTurn size room) (t.cryptoTurn sp size room)
  | note {sp : Space} {it : Item} (hb : t.building = some sp) (hit : it = .handshakeDone ∨ it = .other) :
    Stepped t (.note it) (t.push sp [it])
  | turn {op : Op} {r : Turn} (hb : t.building = some .application) (hr : t.conn.turn op = some r) :
    Stepped t (.turn op) (t.write r)
  | sendPacket {sp : Space} {time : Int} {eliciting inFlight : Bool} (hb : t.building = some sp) :
    Stepped t (.sendPacket time eliciting inFlight) (t.sendPacket sp time eliciting inFlight)
  | abandonPacket {sp : Space} (hb : t.building = some sp) (hu : t.unfilled sp) :
    Stepped t .abandonPacket (t.abandonPacket sp)

theorem stepped {t t' : Transport} {l : Label} (hs : t.step l = some t') : t.Stepped l t' := by
  cases l with
  | call op =>
    obtain ⟨c', hc, rfl⟩ := Option.map_eq_some_iff.mp hs
    exact .call hc
  | install sp | discard sp | frame f sec | timer detect probed | beginPacket sp =>
    simp only [step, Option.ite_none_right_eq_some, Option.some.injEq] at hs
    obtain ⟨hg, rfl⟩ := hs
    first
      | exact .install hg
      | exact .discard hg.1 hg.2
      | exact .frame
      | exact .timer hg
      | exact .beginPacket hg.1 hg.2.1 hg.2.2
  | ack sp ranges largestAck lostSendTime calls =>
    simp only [step, Option.ite_none_right_eq_some] at hs
    exact .ack hs.1 hs.2
  | turn op =>
    simp only [step, Option.ite_none_right_eq_some] at hs
    obtain ⟨r, hr, rfl⟩ := Option.map_eq_some_iff.mp hs.2
    exact .turn hs.1 hr
  | cryptoTurn size room | note it | sendPacket time eliciting inFlight | abandonPacket =>
    unfold step at hs
    dsimp only at hs
    split at hs
    next sp hb =>
      simp only [Option.ite_none_right_eq_some, Option.some.injEq] at hs
      first
        | exact hs ▸ .cryptoTurn hb
        | exact hs ▸ .sendPacket hb
        | exact hs.2 ▸ .note hb hs.1
        | exact hs.2 ▸ .abandonPacket hb hs.1
    · simp at hs

@[simp] theorem conn_cryptoTurn (t : Transport) (sp : Space) (size room : Nat) :
    (t.cryptoTurn sp size room).conn = t.conn := by
  unfold cryptoTurn
  split <;> rfl

end Transport

end Agensio.Quic
