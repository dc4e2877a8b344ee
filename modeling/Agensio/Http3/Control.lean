/-
  Agensio.Http3.Control — the client's control stream.

  Model of `on_uni_data` of `http3/connection.hpp` on a control stream and
  of `apply_settings`.  The bytes arrive in order, in pieces; the parser
  keeps its place in `inFrame`, `frameType` and `frameRemaining`.

  The second `read_varint` of a frame header is given an end that is one
  type too far, so it can read past the bytes that arrived: into the
  terminator of the buffer (`std::string` keeps a zero there), and past
  it into `beyond`, whatever the memory holds.

  Streams of other types are not followed here: they end with `uniType`.
-/
import Agensio.Quic.Stream
import Agensio.Quic.Varint

namespace Agensio.Http3

open Agensio.Quic

/-! ## §1. Settings. -/

/-- Connection errors (`err::`) of the control stream. -/
def closedCriticalStream : Nat := 0x104
def frameUnexpected : Nat := 0x105
def frameError : Nat := 0x106
def settingsError : Nat := 0x109
def missingSettings : Nat := 0x10a

structure PeerSettings where
  qpackCapacity : Nat := 0
  qpackBlocked : Nat := 0
  maxFieldSection : Nat := 2 ^ 64 - 1
  deriving DecidableEq

/-- One setting; none for an identifier of HTTP/2. -/
def PeerSettings.set (s : PeerSettings) (id value : Nat) : Option PeerSettings :=
  match id with
  | 0x01 => some { s with qpackCapacity := value }
  | 0x06 => some { s with maxFieldSection := value }
  | 0x07 => some { s with qpackBlocked := value }
  | 0x00 | 0x02 | 0x03 | 0x04 | 0x05 => none
  | _ => some s

/-- The loop of `apply_settings`: what was set, and whether all of it was valid.  Every round
    reads at least two bytes, so the length of the payload is enough rounds. -/
def settingsLoop : Nat → Bytes → (seen : List Nat) → PeerSettings → PeerSettings × Bool
  | 0, p, _, s => (s, p.isEmpty)
  | fuel + 1, p, seen, s =>
    if p.isEmpty then (s, true)
    else
      match readFrameHeader p with
      | none => (s, false)
      | some (id, value, n) =>
        if id < 64 ∧ id ∈ seen then (s, false)
        else
          match s.set id value with
          | none => (s, false)
          | some s' => settingsLoop fuel (p.drop n) (if id < 64 then id :: seen else seen) s'

def applySettings (payload : Bytes) (s : PeerSettings) : PeerSettings × Bool :=
  settingsLoop payload.length payload [] s

/-! ## §2. What the frames do. -/

/-- What the control stream has brought so far.  `skipped` is a history variable: the frames
    passed over, as type and length. -/
structure Progress where
  settingsSeen : Bool := false
  /-- `section`: the payload of SETTINGS as it arrives. -/
  payload : Bytes := []
  settings : PeerSettings := {}
  error : Option Nat := none
  skipped : List (Nat × Nat) := []
  deriving DecidableEq

namespace Progress

/-- `connection_error`. -/
def fail (p : Progress) (code : Nat) : Progress := if p.error.isSome then p else { p with error := some code }

def onHeader (p : Progress) (type len : Nat) : Progress :=
  if !p.settingsSeen && type != 0x04 then p.fail missingSettings
  else if !p.settingsSeen && decide (len > 4096) then p.fail frameError
  else if p.settingsSeen && type == 0x04 then p.fail frameUnexpected
  else if p.settingsSeen && (type == 0x00 || type == 0x01 || type == 0x05) then p.fail frameUnexpected
  else { p with
    payload := []
    skipped := if type = 0x04 then p.skipped else p.skipped ++ [(type, len)] }

def onPayload (p : Progress) (type : Nat) (chunk : Bytes) : Progress :=
  if type = 0x04 then { p with payload := p.payload ++ chunk } else p

def onDone (p : Progress) (type : Nat) : Progress :=
  if type = 0x04 then
    let r := applySettings p.payload p.settings
    if r.2 then { p with settings := r.1, settingsSeen := true }
    else { p with settings := r.1 }.fail settingsError
  else p

end Progress

/-! ## §3. The parser. -/

/-- The client's control stream as it is read. -/
structure Control where
  q : QuicStream := {}
  typeKnown : Bool := false
  uniType : Nat := 0
  inFrame : Bool := false
  frameType : Nat := 0
  frameRemaining : Nat := 0
  progress : Progress := {}
  finDelivered : Bool := false
  deriving DecidableEq

namespace Control

/-- The memory from `q.data()` on. -/
def memory (beyond : Bytes) (c : Control) : Bytes := c.q.rbuf.drop c.q.rpos ++ 0 :: beyond

def consume (c : Control) (n : Nat) : Control := { c with q := c.q.consume n }

/-- A frame header: the end of the second varint is counted from where the first one ended. -/
def readHeader (beyond : Bytes) (c : Control) : Option (Nat × Nat × Nat) :=
  match readVarint (c.memory beyond) c.q.available with
  | none => none
  | some (type, n) =>
    match readVarint ((c.memory beyond).drop n) c.q.available with
    | none => none
    | some (len, m) => some (type, len, n + m)

/-- One round of the loop, and whether it goes on. -/
def round (beyond : Bytes) (c : Control) : Control × Bool :=
  if c.q.available = 0 then (c, false)
  else if !c.inFrame then
    match c.readHeader beyond with
    | none => (c, false)
    | some (type, len, n) =>
      ({ c.consume n with
          inFrame := true, frameType := type, frameRemaining := len
          progress := c.progress.onHeader type len }, true)
  else
    let take := min c.q.available c.frameRemaining
    let chunk := (c.memory beyond).take take
    let c' : Control := { c.consume take with
      frameRemaining := c.frameRemaining - take
      progress := c.progress.onPayload c.frameType chunk }
    if c'.frameRemaining = 0 then
      ({ c' with inFrame := false, progress := c'.progress.onDone c.frameType }, decide (take ≠ 0))
    else (c', decide (take ≠ 0))

/-- `for (guard = 0; guard < 256 && !closed; ++guard)`. -/
def loop (beyond : Bytes) : Nat → Control → Control
  | 0, c => c
  | n + 1, c =>
    if c.progress.error.isSome then c
    else if (c.round beyond).2 then loop beyond n (c.round beyond).1
    else (c.round beyond).1

/-- The type of the stream, at its beginning; none while it is incomplete. -/
def readType (beyond : Bytes) (c : Control) : Option Control :=
  if c.typeKnown then some c
  else
    match readVarint (c.memory beyond) c.q.available with
    | none => none
    | some (type, n) => some { c.consume n with typeKnown := true, uniType := type }

/-- The end of the stream is an error of its own. -/
def finish (c : Control) : Control :=
  if c.progress.error.isNone && c.q.atEnd && !c.finDelivered then
    { c with finDelivered := true, progress := c.progress.fail closedCriticalStream }
  else c

def onUniData (beyond : Bytes) (c : Control) : Control :=
  match c.readType beyond with
  | none => c
  | some c => if c.uniType = 0x00 then (c.loop beyond 256).finish else c

/-- The next bytes of the stream are stored, with the end of it or not (`on_stream_frame`). -/
def received (c : Control) (data : Bytes) (fin : Bool) : Control :=
  let stop := c.q.highest + data.length
  let q := { c.q with highest := stop, finSeen := fin, finalSize := if fin then stop else kNoSize }
  { c with q := if data.isEmpty then q else q.store c.q.highest data }

/-- The next bytes of the stream arrive. -/
def arrive (beyond : Bytes) (c : Control) (data : Bytes) (fin : Bool) : Control :=
  if c.progress.error.isSome then c
  else
    let c := c.received data fin
    if c.q.available > 0 ∨ (c.q.atEnd = true ∧ c.finDelivered = false) then c.onUniData beyond else c

/-- The pieces of a stream, the last one with the end of the stream when `fin`. -/
def arriveAll (beyond : Bytes) (fin : Bool) : Control → List Bytes → Control
  | c, [] => c
  | c, [b] => c.arrive beyond b fin
  | c, b :: b' :: bs => arriveAll beyond fin (c.arrive beyond b false) (b' :: bs)

end Control

end Agensio.Http3
