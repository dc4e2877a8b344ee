/-
  Agensio.Http3.Request — a request stream.

  Model of `pump` of `http3/connection.hpp` and of what it calls: frame
  headers, the field section and its decoding, the body handed to the
  handler or discarded, trailers, skipped frames, the end of the stream.

  The stream is seen as the application sees it: the bytes that arrived
  without a gap and were not consumed (`avail`), and whether the end of
  the stream is behind them (`fin`).  What the rest of the connection
  answers is `Env` (set by a label) and `Decoding`: how many inserts the
  QPACK decoder has, what a section decodes to, the prefix the encoder
  would write.

  `section_` is the buffer of the request's section, of the trailers' and
  the scratch of `build_head`, as in the source.  HISTORY VARIABLES:
  `request`, `delivered`, `ended`, `answers` (what the handler and the
  client got), `payload` (of the HEADERS frame being read), `decoded`
  (what `decode_trailers` was given, with the payload of its frame) and
  `unknown` (the frame being read is of an unknown type).
-/
import Agensio.Http.RequestAssembly
import Agensio.Qpack.Decoder
import Agensio.Quic.Varint

namespace Agensio.Http3

open Agensio.Quic Agensio.Codec

/-! ## §1. The state. -/

/-- The frame being read: reserved and unknown frames and oversized trailers are skipped. -/
inductive FrameType where
  | headers
  | data
  | skipped
  deriving DecidableEq

/-- The types of `frame::` that `pump` knows. -/
def knownType (type : Nat) : Bool :=
  type == 0x00 || type == 0x01 || type == 0x03 || type == 0x04 || type == 0x05 || type == 0x07 ||
    type == 0x0d

def kDiscardMax : Nat := 65536

/-- What the rest of the connection is at. -/
structure Env where
  /-- `decoder_.insert_count()`. -/
  inserts : Nat := 0
  /-- `blocked_.size() >= kMaxBlocked`. -/
  full : Bool := false
  maxHeaderSize : Nat := 16384
  /-- What `encoder_.prefix` would write. -/
  sectionPrefix : Bytes := [0x00, 0x00]
  deriving DecidableEq

/-- What a section comes to: the request with the content-length it has, or why there is none. -/
inductive Verdict where
  | request (contentLength : Option Nat)
  | malformed
  | overflow
  | tooLarge
  | decompression
  deriving DecidableEq

/-- The QPACK decoder, the assembly of the request, and whether the dispatcher answers it before it
    returns. -/
structure Decoding where
  required : Env → Bytes → Nat
  verdict : Env → Bytes → Verdict
  trailersFail : Env → Bytes → Bool
  bodyLimit : Env → Bytes → Nat
  answersAtOnce : Env → Bytes → Bool

/-- What the fields of a section come to. -/
def assembled (fields : List Qpack.Decoder.Reported) : Verdict :=
  let a := fields.foldl (fun a x => a.sinkEvery x.1.1 x.1.2) ({} : Http.Assembly)
  if a.seen.overflow then .overflow
  else
    match Http.finishRequest a (bytes "HTTP/3.0") with
    | (.ok, _, length) => .request length
    | _ => .malformed

/-- The connection's decoder: its table and its capacity, with the inserts of the environment. -/
def decoderAt (table : Env → DynamicTable) (maxCapacity : Nat) (e : Env) : Qpack.Decoder :=
  { table := table e, maxCapacity := maxCapacity, insertCount := e.inserts }

def Decoding.qpack (table : Env → DynamicTable) (maxCapacity : Nat) (bodyLimit : Env → Bytes → Nat)
    (answersAtOnce : Env → Bytes → Bool) : Decoding where
  required e bs :=
    ((decoderAt table maxCapacity e).decode bs e.maxHeaderSize Qpack.takeAll).required
  verdict e bs :=
    let r := (decoderAt table maxCapacity e).decode bs e.maxHeaderSize Qpack.takeAll
    match r.result with
    | .ok => assembled r.fields
    | .tooLarge => .tooLarge
    | _ => .decompression
  trailersFail e bs :=
    ((decoderAt table maxCapacity e).decode bs e.maxHeaderSize Qpack.takeAll).result = .malformed
  bodyLimit := bodyLimit
  answersAtOnce := answersAtOnce

/-- The decoder before any insert, a body limit of 1000 bytes, answers that come later. -/
def Decoding.fresh : Decoding :=
  .qpack (fun _ => DynamicTable.new 4096) 4096 (fun _ _ => 1000) fun _ _ => false

/-- A request stream: what arrived, the frame being read, the request and its answer. -/
structure RequestStream where
  avail : Bytes := []
  fin : Bool := false
  inFrame : Bool := false
  frameType : FrameType := .skipped
  frameRemaining : Nat := 0
  section_ : Bytes := []
  headersDone : Bool := false
  blocked : Bool := false
  trailers : Bool := false
  required : Nat := 0
  contentLength : Option Nat := none
  hasBody : Bool := false
  bodyReceived : Nat := 0
  bodyLimit : Nat := 0
  discarded : Nat := 0
  bodyDone : Bool := false
  finDelivered : Bool := false
  /-- `pending_handler`, with the length of its buffer. -/
  pending : Option Nat := none
  responded : Bool := false
  stopReceived : Bool := false
  sendOver : Bool := false
  closed : Bool := false
  /-- `closed_`, with the error when the connection was closed for one. -/
  connClosed : Bool := false
  error : Option Nat := none
  env : Env := {}
  -- history
  request : Option (Bytes × Bool) := none
  delivered : List Bytes := []
  ended : Bool := false
  answers : List Nat := []
  payload : Bytes := []
  decoded : List (Bytes × Bytes) := []
  unknown : Bool := false
  deriving DecidableEq

namespace RequestStream

def atEnd (s : RequestStream) : Bool := s.fin && s.avail.isEmpty

def consume (s : RequestStream) (n : Nat) : RequestStream := { s with avail := s.avail.drop n }

/-- `connection_error`; `on_closed` fails the handler's read. -/
def connectionError (s : RequestStream) (code : Nat) : RequestStream :=
  if s.connClosed then s else { s with connClosed := true, error := some code, pending := none }

/-- `maybe_close`. -/
def maybeClose (s : RequestStream) : RequestStream :=
  if s.sendOver && s.finDelivered then { s with closed := true, pending := none } else s

/-- `respond`, as far as this side of the stream goes: `build_head` leaves the section prefix in
    the section's buffer. -/
def respond (s : RequestStream) : RequestStream :=
  if s.closed || s.responded || s.connClosed then s
  else { s with section_ := s.env.sectionPrefix, responded := true }

/-- `fail_stream`. -/
def failStream (s : RequestStream) (status : Nat) : RequestStream :=
  { s with headersDone := true, answers := s.answers ++ [status] }.respond

def malformed (s : RequestStream) : RequestStream :=
  { s with headersDone := true, responded := true, finDelivered := true, bodyDone := true }.maybeClose

def block (s : RequestStream) (required : Nat) : RequestStream :=
  if s.env.full then s.connectionError 0x200 else { s with blocked := true, required := required }

/-! ## §2. Sections. -/

/-- `dispatch`: the request goes to its handler, which answers at once or later. -/
def dispatch (d : Decoding) (section_ : Bytes) (hasBody : Bool) (s : RequestStream) : RequestStream :=
  let s' := { s with request := some (section_, hasBody) }
  if d.answersAtOnce s.env section_ then s'.respond else s'

/-- `begin_request`; `ended` is whether the stream is at its end. -/
def beginRequestAt (d : Decoding) (ended : Bool) (s : RequestStream) : RequestStream :=
  if d.required s.env s.section_ > s.env.inserts then s.block (d.required s.env s.section_)
  else
    match d.verdict s.env s.section_ with
    | .decompression => s.connectionError 0x200
    | .tooLarge => { s with section_ := [] }.failStream 431
    | .overflow => { s with section_ := [] }.failStream 431
    | .malformed => { s with section_ := [] }.malformed
    | .request len =>
      let s' := { s with section_ := [], headersDone := true, contentLength := len }
      if ended then
        let s' := { s' with bodyDone := true, finDelivered := true }
        if len ≠ none ∧ len ≠ some 0 then s'.malformed
        else s'.dispatch d s.section_ false
      else
        let limit := d.bodyLimit s.env s.section_
        let s' := { s' with hasBody := true, bodyLimit := limit }
        if len.getD 0 > limit then s'.failStream 413
        else s'.dispatch d s.section_ true

def beginRequest (d : Decoding) (s : RequestStream) : RequestStream := s.beginRequestAt d s.atEnd

def decodeTrailers (d : Decoding) (s : RequestStream) : RequestStream :=
  let s := { s with decoded := (s.section_, s.payload) :: s.decoded }
  if d.required s.env s.section_ > s.env.inserts then s.block (d.required s.env s.section_)
  else if d.trailersFail s.env s.section_ then
    { s with section_ := [], trailers := false }.connectionError 0x200
  else { s with section_ := [], trailers := false }

/-! ## §3. The rounds of `pump`. -/

/-- Where a round leaves the loop: on to the next, out of it, or out of `pump`. -/
inductive Flow where
  | goOn
  | stop
  | leave
  deriving DecidableEq

/-- A frame whose header was consumed: what its type and length mean here. -/
def enterFrame (s : RequestStream) (type len : Nat) : RequestStream × Flow :=
  let s := { s with
    inFrame := true, frameRemaining := len, unknown := !knownType type
    payload := if type = 0x01 then [] else s.payload }
  if type = 0x01 then
    if len > s.env.maxHeaderSize then
      if !s.headersDone then ({ s with frameType := .headers }.failStream 431, .leave)
      else ({ s with frameType := .skipped }, .goOn)
    else ({ s with frameType := .headers, trailers := s.headersDone || s.trailers }, .goOn)
  else if type = 0x00 then
    if !s.headersDone then ({ s with frameType := .data }.connectionError 0x105, .leave)
    else ({ s with frameType := .data }, .goOn)
  else if knownType type then ({ s with frameType := .skipped }.connectionError 0x105, .leave)
  else ({ s with frameType := .skipped }, .goOn)

def headerRound (s : RequestStream) : RequestStream × Flow :=
  if s.avail.isEmpty then (s, .stop)
  else
    match readFrameHeader s.avail with
    | none => if s.atEnd then (s.connectionError 0x106, .leave) else (s, .stop)
    | some (type, len, n) => (s.consume n).enterFrame type len

def headersRound (d : Decoding) (s : RequestStream) : RequestStream × Flow :=
  let take := min s.avail.length s.frameRemaining
  if take = 0 ∧ s.frameRemaining ≠ 0 then (s, .stop)
  else
    let chunk := s.avail.take take
    let s' := { s.consume take with
      section_ := s.section_ ++ chunk, payload := s.payload ++ chunk
      frameRemaining := s.frameRemaining - take }
    if s.frameRemaining - take = 0 then
      let s' := { s' with inFrame := false }
      (if s.trailers then decodeTrailers d s' else beginRequest d s', .goOn)
    else (s', .goOn)

def dataRound (s : RequestStream) : RequestStream × Flow :=
  if s.frameRemaining = 0 then ({ s with inFrame := false }, .goOn)
  else
    match s.pending with
    | some room =>
      let take := min (min s.avail.length room) s.frameRemaining
      if take = 0 then (s, .stop)
      else
        let s' := { s.consume take with
          frameRemaining := s.frameRemaining - take, bodyReceived := s.bodyReceived + take }
        if s.bodyReceived + take > s.bodyLimit then
          let s' := if !s.responded then s'.failStream 413 else s'
          ({ s' with pending := none }, .leave)
        else
          ({ s' with pending := none, delivered := s.delivered ++ [s.avail.take take] }, .goOn)
    | none =>
      if s.responded then
        let take := min s.avail.length s.frameRemaining
        if take = 0 then (s, .stop)
        else
          let s' := { s.consume take with
            frameRemaining := s.frameRemaining - take, discarded := s.discarded + take }
          if s.discarded + take > kDiscardMax && !s.stopReceived then
            ({ s' with finDelivered := true, bodyDone := true }.maybeClose, .leave)
          else (s', .goOn)
      else (s, .stop)

/-- The payload of a skipped frame; one without payload is never left. -/
def skippedRound (s : RequestStream) : RequestStream × Flow :=
  let take := min s.avail.length s.frameRemaining
  if take = 0 then (s, .stop)
  else
    let s' := { s.consume take with frameRemaining := s.frameRemaining - take }
    if s.frameRemaining - take = 0 then ({ s' with inFrame := false }, .goOn) else (s', .goOn)

def round (d : Decoding) (s : RequestStream) : RequestStream × Flow :=
  if !s.inFrame then s.headerRound
  else
    match s.frameType with
    | .headers => s.headersRound d
    | .data => s.dataRound
    | .skipped => s.skippedRound

section
variable {d : Decoding} {s : RequestStream}

theorem round_idle (hin : s.inFrame = false) : s.round d = s.headerRound := by
  unfold round
  rw [hin]
  rfl

theorem round_headers (hin : s.inFrame = true) (hf : s.frameType = .headers) :
    s.round d = s.headersRound d := by
  unfold round
  rw [hin, hf]
  rfl

theorem round_data (hin : s.inFrame = true) (hf : s.frameType = .data) : s.round d = s.dataRound := by
  unfold round
  rw [hin, hf]
  rfl

theorem round_skipped (hin : s.inFrame = true) (hf : s.frameType = .skipped) :
    s.round d = s.skippedRound := by
  unfold round
  rw [hin, hf]
  rfl

end

/-- The loop is not entered again. -/
def halted (s : RequestStream) : Bool := s.closed || s.connClosed || s.blocked

def pumpLoop (d : Decoding) : Nat → RequestStream → RequestStream × Flow
  | 0, s => (s, .stop)
  | n + 1, s =>
    if s.halted then (s, .stop)
    else
      match s.round d with
      | (s', .goOn) => pumpLoop d n s'
      | (s', flow) => (s', flow)

/-- The end of the stream, behind the loop. -/
def endOfPump (s : RequestStream) : RequestStream :=
  if s.halted then s
  else if s.atEnd && !s.finDelivered then
    let s := { s with finDelivered := true }
    if s.inFrame && decide (s.frameRemaining ≠ 0) then s.connectionError 0x106
    else
      let s := { s with bodyDone := true }
      if !s.headersDone then s.maybeClose
      else if s.pending.isSome then { s with pending := none, ended := true }.maybeClose
      else s.maybeClose
  else s

def pump (d : Decoding) (s : RequestStream) : RequestStream :=
  match s.pumpLoop d 1024 with
  | (s', .leave) => s'
  | (s', _) => s'.endOfPump

/-! ## §4. What reaches the stream. -/

/-- Bytes arrive, with the end of the stream or not. -/
def store (s : RequestStream) (data : Bytes) (fin : Bool) : RequestStream :=
  { s with avail := s.avail ++ data, fin := s.fin || fin }

/-- `on_stream_readable`.  The transport makes no call that brings neither bytes nor the end;
    here such a call is a pump like any other. -/
def arrive (d : Decoding) (s : RequestStream) (data : Bytes) (fin : Bool) : RequestStream :=
  (s.store data fin).pump d

/-- The handler asks for body bytes: `read_body`, before it pumps. -/
def asks (s : RequestStream) (room : Nat) : RequestStream :=
  if s.bodyDone && s.avail.isEmpty then { s with pending := none, ended := true }
  else { s with pending := some room }

def readBody (d : Decoding) (s : RequestStream) (room : Nat) : RequestStream :=
  if s.bodyDone && s.avail.isEmpty then s.asks room else (s.asks room).pump d

/-- A blocked stream has the inserts its section requires; a closed one waits no longer. -/
def canUnblock (s : RequestStream) : Bool :=
  s.blocked && decide (s.required ≤ s.env.inserts) && !s.connClosed && !s.closed

/-- A blocked stream whose inserts have arrived goes on (`unblock_streams`), before it pumps. -/
def unblock (d : Decoding) (s : RequestStream) : RequestStream :=
  if s.trailers then { s with blocked := false }.decodeTrailers d
  else { s with blocked := false }.beginRequest d

/-- The encoder stream brought inserts, or the rest of the connection moved on. -/
def environment (d : Decoding) (s : RequestStream) (e : Env) : RequestStream :=
  let s := { s with env := e }
  if s.canUnblock then
    let s := s.unblock d
    if s.closed || s.blocked then s else s.pump d
  else s

end RequestStream

end Agensio.Http3
