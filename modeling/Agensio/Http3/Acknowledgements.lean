/-
  Agensio.Http3.Acknowledgements — the decoder stream's account of a stream.

  For the sections of one request stream, what `begin_request`,
  `decode_trailers` and `close_stream` write on the QPACK decoder stream:
  a Section Acknowledgement when a section that refers to the table was
  decoded, a Stream Cancellation when one still waits for its inserts as
  the stream is closed.  `Account` is the stream with this ledger: the
  sections that were received completely and refer to the table, and the
  instructions written.

  Three kinds of section fall through both: a request's that decodes to
  more than the limit, one whose frame is over the limit, and one that
  lies complete and unread when the stream is closed.  A fourth is decoded
  from other bytes (`Trailers`).

  Main results:
    * `sections_accounted` — in every run without these, every section of
      a closed stream is acknowledged, or the stream is cancelled;
    * `oversized_section_unaccounted` — one that decodes to too much.
-/
import Agensio.Http3.Trailers
import Agensio.Qpack.Timing

namespace Agensio.Http3

open Agensio.Lib Agensio.Quic Agensio.Codec

/-! ## §1. The decoder. -/

/-- A section with a Required Insert Count above zero. -/
def refers (bs : Bytes) : Bool :=
  match readInteger 8 bs with
  | none => false
  | some (encoded, _) => encoded ≠ 0

/-- The count a decoder finds is above zero for exactly the sections that refer to the table; a
    section whose count it cannot find is an error. -/
structure Decoding.Counts (d : Decoding) : Prop where
  pos : ∀ e bs, 0 < d.required e bs → refers bs = true
  zero : ∀ e bs, refers bs = true → d.required e bs = 0 →
    d.verdict e bs = .decompression ∧ d.trailersFail e bs = true

theorem refers_of_readHead {bs lines : Bytes} {h : Qpack.Head} (hh : Qpack.readHead bs = some (h, lines)) :
    refers bs = true ↔ h.encoded ≠ 0 := by
  unfold Qpack.readHead at hh
  unfold refers
  split at hh
  · simp at hh
  · simp at hh
  next hr =>
  obtain ⟨r, -, heq⟩ := Option.map_eq_some_iff.mp hh
  obtain ⟨rfl, -⟩ := Prod.mk.inj heq
  rw [hr]
  simp

theorem Decoding.qpack_counts (table : Env → DynamicTable) (maxCapacity : Nat)
    (bodyLimit : Env → Bytes → Nat) (answersAtOnce : Env → Bytes → Bool) :
    (Decoding.qpack table maxCapacity bodyLimit answersAtOnce).Counts := by
  have hcases : ∀ e bs, ((decoderAt table maxCapacity e).readPrefix bs = none) ∨
      ∃ required base lines, (decoderAt table maxCapacity e).readPrefix bs = some (required, base, lines) ∧
        (refers bs = true ↔ required ≠ 0) ∧
        ((decoderAt table maxCapacity e).decode bs e.maxHeaderSize Qpack.takeAll).required = required := by
    intro e bs
    cases hp : (decoderAt table maxCapacity e).readPrefix bs with
    | none => exact .inl rfl
    | some r =>
      obtain ⟨required, base, lines⟩ := r
      obtain ⟨h, hh, hc, hm⟩ := Qpack.Decoder.readPrefix_means hp
      refine .inr ⟨required, base, lines, rfl, ?_, ?_⟩
      · rw [refers_of_readHead hh, ne_eq, hm.count]
      · unfold Qpack.Decoder.decode
        rw [hp]
        dsimp only
        split <;> rfl
  constructor
  · intro e bs hpos
    rcases hcases e bs with hnone | ⟨required, base, lines, hp, hiff, hreq⟩
    · unfold Decoding.qpack Qpack.Decoder.decode at hpos
      dsimp only at hpos
      rw [hnone] at hpos
      simp at hpos
    · have : ((decoderAt table maxCapacity e).decode bs e.maxHeaderSize Qpack.takeAll).required ≠ 0 :=
        Nat.pos_iff_ne_zero.mp hpos
      rw [hreq] at this
      exact hiff.mpr this
  · intro e bs hr hzero
    rcases hcases e bs with hnone | ⟨required, base, lines, hp, hiff, hreq⟩
    · unfold Decoding.qpack Qpack.Decoder.decode
      dsimp only
      rw [hnone]
      exact ⟨rfl, rfl⟩
    · exact absurd (hreq.symm.trans hzero) (hiff.mp hr)

namespace RequestStream

/-! ## §2. The ledger. -/

/-- What is written on the decoder stream for this stream. -/
inductive Instr where
  | acknowledged
  | cancelled
  deriving DecidableEq

/-- A request stream with the ledger of its sections. -/
structure Account where
  stream : RequestStream := {}
  /-- The payload so far of trailers over the limit. -/
  skipped : Bytes := []
  /-- The sections received completely that refer to the table. -/
  sections : List Bytes := []
  written : List Instr := []
  deriving DecidableEq

/-- A complete section is acknowledged (`begin_request` and `decode_trailers`, behind the decode). -/
def acknowledges (d : Decoding) (s : RequestStream) : Bool :=
  decide (d.required s.env s.section_ ≤ s.env.inserts) && decide (0 < d.required s.env s.section_) &&
    if s.trailers then !d.trailersFail s.env s.section_
    else d.verdict s.env s.section_ != .decompression && d.verdict s.env s.section_ != .tooLarge

def inHeaders (s : RequestStream) : Bool := s.inFrame && decide (s.frameType = .headers)

/-- The next round takes the rest of a HEADERS frame. -/
def completes (s : RequestStream) : Bool := s.inHeaders && decide (s.frameRemaining ≤ s.avail.length)

/-- The stream with its section complete, as the decode is given it. -/
def whole (s : RequestStream) : RequestStream :=
  { s with
    avail := s.avail.drop s.frameRemaining
    section_ := s.section_ ++ s.avail.take s.frameRemaining
    payload := s.payload ++ s.avail.take s.frameRemaining
    frameRemaining := 0, inFrame := false }

/-- The frame being skipped is one of trailers over the limit. -/
def inOversized (s : RequestStream) : Bool :=
  s.inFrame && decide (s.frameType = .skipped) && !s.unknown

/-- The section a round brings to its end. -/
def received (skipped : Bytes) (s : RequestStream) : List Bytes :=
  if s.completes then [s.whole.payload].filter refers
  else if s.inOversized && decide (0 < s.frameRemaining ∧ s.frameRemaining ≤ s.avail.length) then
    [skipped ++ s.avail.take s.frameRemaining].filter refers
  else []

/-- The sections that are complete in the bytes not consumed, between frames. -/
def unreadFrames : Nat → Bytes → List Bytes
  | 0, _ => []
  | fuel + 1, bs =>
    match readFrameHeader bs with
    | none => []
    | some (type, len, n) =>
      if (bs.drop n).length < len then []
      else
        (if type = 0x01 then [(bs.drop n).take len] else []) ++ unreadFrames fuel (bs.drop (n + len))

/-- The sections that are complete and unread. -/
def unread (skipped : Bytes) (s : RequestStream) : List Bytes :=
  (if !s.inFrame then unreadFrames s.avail.length s.avail
  else if s.avail.length < s.frameRemaining then []
  else
    (if s.frameType = .headers then [s.payload ++ s.avail.take s.frameRemaining]
      else if s.inOversized then [skipped ++ s.avail.take s.frameRemaining] else []) ++
      unreadFrames s.avail.length (s.avail.drop s.frameRemaining)).filter refers

namespace Account

/-- The step of the stream, with the section it completes and the acknowledgement it writes. -/
def progress (d : Decoding) (a : Account) (lb : Label) (s' : RequestStream) : Account :=
  { a with
    stream := s'
    skipped :=
      if lb matches .round then
        if a.stream.inOversized then a.skipped ++ a.stream.avail.take a.stream.frameRemaining else []
      else a.skipped
    sections := a.sections ++ if lb matches .round then received a.skipped a.stream else []
    written := a.written ++
      match lb with
      | .round =>
        if a.stream.completes && acknowledges d a.stream.whole then [.acknowledged] else []
      | .unblock => if acknowledges d a.stream then [.acknowledged] else []
      | _ => [] }

/-- `close_stream`: what is complete and unread goes with the stream, a section that waits is
    cancelled. -/
def settle (wasClosed : Bool) (a : Account) : Account :=
  if a.stream.closed && !wasClosed then
    { a with
      sections := a.sections ++ unread a.skipped a.stream
      written := a.written ++ if a.stream.blocked then [.cancelled] else [] }
  else a

/-- A handler answers the request it was given. -/
def possible (a : Account) : Label → Bool
  | .respond => a.stream.request.isSome
  | _ => true

/-- A step of the stream, and what it writes on the decoder stream. -/
def step (d : Decoding) (a : Account) (lb : Label) : Option Account :=
  if a.possible lb then
    (RequestStream.step d a.stream lb).map fun s' => (a.progress d lb s').settle a.stream.closed
  else none

/-- Every section has its acknowledgement, or the stream its cancellation. -/
def Accounted (a : Account) : Prop :=
  a.written.count .acknowledged = a.sections.length ∧ a.written.count .cancelled = 0 ∨
    a.written.count .acknowledged < a.sections.length ∧ a.written.count .cancelled = 1

/-! ## §3. The condition. -/

/-- A request's section over the limit when it is decoded. -/
def decodesTooLarge (d : Decoding) (s : RequestStream) : Prop :=
  s.trailers = false ∧ d.required s.env s.section_ ≤ s.env.inserts ∧
    d.verdict s.env s.section_ = .tooLarge ∧ refers s.section_ = true

instance (d : Decoding) (s : RequestStream) : Decidable (decodesTooLarge d s) :=
  inferInstanceAs (Decidable (_ ∧ _))

/-- The header of a request's section over the limit is next. -/
def headOversized (s : RequestStream) : Prop :=
  s.inFrame = false ∧ s.headersDone = false ∧
    ∃ x ∈ readFrameHeader s.avail, x.1 = 0x01 ∧ s.env.maxHeaderSize < x.2.1

instance (s : RequestStream) : Decidable (headOversized s) :=
  inferInstanceAs (Decidable (_ ∧ _ ∧ ∃ x ∈ readFrameHeader s.avail, _))

/-- The rest of trailers over the limit that refer to the table is skipped. -/
def skipsTrailers (a : Account) : Prop :=
  a.stream.completes = false ∧ received a.skipped a.stream ≠ []

instance (a : Account) : Decidable a.skipsTrailers := inferInstanceAs (Decidable (_ ∧ _))

/-- The step closes a stream that waits for nothing and has a section unread. -/
def leavesUnread (d : Decoding) (a : Account) (lb : Label) : Prop :=
  ∃ s' ∈ RequestStream.step d a.stream lb, a.stream.closed = false ∧ s'.closed = true ∧
    s'.blocked = false ∧ unread (a.progress d lb s').skipped s' ≠ []

instance (d : Decoding) (a : Account) (lb : Label) : Decidable (a.leavesUnread d lb) :=
  inferInstanceAs (Decidable (∃ s' ∈ RequestStream.step d a.stream lb, _))

/-- **The condition** on a step. -/
def Accountable (d : Decoding) (a : Account) (lb : Label) : Prop :=
  a.stream.Undisturbed lb ∧ ¬ a.leavesUnread d lb ∧
    match lb with
    | .round => ¬ headOversized a.stream ∧ ¬ a.skipsTrailers ∧
        (a.stream.completes = true → ¬ decodesTooLarge d a.stream.whole)
    | .unblock => ¬ decodesTooLarge d a.stream
    | _ => True

instance (d : Decoding) (a : Account) : ∀ lb, Decidable (a.Accountable d lb)
  | .round | .unblock => inferInstanceAs (Decidable (_ ∧ _ ∧ _))
  | .arrive .. | .endOfPump | .asks _ | .respond | .environment _ | .sent | .stopSending
  | .cancelled => inferInstanceAs (Decidable (_ ∧ _ ∧ True))

/-! ## §4. The invariant. -/

/-- While the stream is open: the buffer is the payload of the frame, and all sections but one that
    waits have their acknowledgement. -/
structure Balanced (a : Account) : Prop where
  apart : a.stream.blocked = true → a.stream.inFrame = false
  turn : a.stream.inHeaders = true ∨ a.stream.blocked = true →
    a.stream.trailers = a.stream.headersDone
  buffer : a.stream.inHeaders = true ∨ a.stream.blocked = true →
    a.stream.section_ = a.stream.payload
  fresh : a.stream.headersDone = false → a.stream.inHeaders = false → a.stream.blocked = false →
    a.stream.section_ = []
  plain : a.stream.headersDone = false → a.stream.trailers = false
  begun : a.stream.request.isSome = true → a.stream.headersDone = true
  waits : a.stream.blocked = true → refers a.stream.section_ = true
  late : a.stream.inFrame = true → a.stream.frameType = .data → a.stream.headersDone = true
  count : a.sections.length =
    a.written.count .acknowledged + if a.stream.blocked then 1 else 0
  open_ : a.written.count .cancelled = 0

/-- What the invariant reads of a stream. -/
structure Agree (s s' : RequestStream) : Prop where
  inFrame : s'.inFrame = s.inFrame
  frameType : s'.frameType = s.frameType
  blocked : s'.blocked = s.blocked
  trailers : s'.trailers = s.trailers
  headersDone : s'.headersDone = s.headersDone
  section_ : s'.section_ = s.section_
  payload : s'.payload = s.payload
  request : s'.request = s.request

variable {a : Account} {s s' : RequestStream} {d : Decoding}

theorem Agree.maybeClose (h : Agree s s') : Agree s s'.maybeClose := by
  unfold RequestStream.maybeClose
  split
  · exact ⟨h.1, h.2, h.3, h.4, h.5, h.6, h.7, h.8⟩
  · exact h

theorem endOfPump_agree (s : RequestStream) : Agree s s.endOfPump := by
  unfold endOfPump
  split
  · exact ⟨rfl, rfl, rfl, rfl, rfl, rfl, rfl, rfl⟩
  split
  · dsimp only
    split
    · unfold connectionError
      split <;> exact ⟨rfl, rfl, rfl, rfl, rfl, rfl, rfl, rfl⟩
    split
    · exact Agree.maybeClose ⟨rfl, rfl, rfl, rfl, rfl, rfl, rfl, rfl⟩
    split
    · exact Agree.maybeClose ⟨rfl, rfl, rfl, rfl, rfl, rfl, rfl, rfl⟩
    · exact Agree.maybeClose ⟨rfl, rfl, rfl, rfl, rfl, rfl, rfl, rfl⟩
  · exact ⟨rfl, rfl, rfl, rfl, rfl, rfl, rfl, rfl⟩

theorem inHeaders_congr (h : Agree s s') : s'.inHeaders = s.inHeaders := by
  unfold inHeaders
  rw [h.inFrame, h.frameType]

variable {a' : Account} {lb : Label}

/-- A step that the invariant does not see. -/
theorem Balanced.of_agree (h : a.Balanced) (hs : Agree a.stream a'.stream)
    (hsec : a'.sections = a.sections) (hw : a'.written = a.written) : a'.Balanced := by
  constructor
  · rw [hs.blocked, hs.inFrame]
    exact h.apart
  · rw [inHeaders_congr hs, hs.blocked, hs.trailers, hs.headersDone]
    exact h.turn
  · rw [inHeaders_congr hs, hs.blocked, hs.section_, hs.payload]
    exact h.buffer
  · rw [inHeaders_congr hs, hs.blocked, hs.headersDone, hs.section_]
    exact h.fresh
  · rw [hs.headersDone, hs.trailers]
    exact h.plain
  · rw [hs.request, hs.headersDone]
    exact h.begun
  · rw [hs.blocked, hs.section_]
    exact h.waits
  · rw [hs.inFrame, hs.frameType, hs.headersDone]
    exact h.late
  · rw [hs.blocked, hsec, hw]
    exact h.count
  · rw [hw]
    exact h.open_

/-! ## §5. A complete section. -/

/-- What becomes of a complete section: the connection ends, it waits, or it is done with. -/
inductive Done (d : Decoding) (s s' : RequestStream) : Prop where
  | failed (h : s'.connClosed = true)
  | waits (hs : Agree { s with blocked := true } s') (hr : refers s.section_ = true)
      (ha : acknowledges d s = false)
  | passed (hb : s'.blocked = s.blocked) (hin : s'.inFrame = s.inFrame)
      (hd : s'.headersDone = true) (ha : acknowledges d s = refers s.section_)

theorem connectionError_connClosed (s : RequestStream) (code : Nat) :
    (s.connectionError code).connClosed = true := by
  unfold connectionError
  split
  · next h => exact h
  · rfl

theorem respond_frame (s : RequestStream) : s.respond.blocked = s.blocked ∧ s.respond.inFrame = s.inFrame ∧
      s.respond.headersDone = s.headersDone := by
  unfold respond
  split <;> exact ⟨rfl, rfl, rfl⟩

theorem dispatch_frame (d : Decoding) (section_ : Bytes) (hasBody : Bool) (s : RequestStream) :
    (s.dispatch d section_ hasBody).blocked = s.blocked ∧ (s.dispatch d section_ hasBody).inFrame = s.inFrame ∧
      (s.dispatch d section_ hasBody).headersDone = s.headersDone := by
  unfold dispatch
  dsimp only
  split
  · exact respond_frame _
  · exact ⟨rfl, rfl, rfl⟩

theorem failStream_frame (s : RequestStream) (status : Nat) :
    (s.failStream status).blocked = s.blocked ∧ (s.failStream status).inFrame = s.inFrame ∧
      (s.failStream status).headersDone = true := respond_frame _

theorem malformed_frame (s : RequestStream) :
    s.malformed.blocked = s.blocked ∧ s.malformed.inFrame = s.inFrame ∧ s.malformed.headersDone = true := by
  unfold malformed maybeClose
  split <;> exact ⟨rfl, rfl, rfl⟩

/-- The section waits for inserts. -/
theorem Done.of_block (hc : d.Counts) (hr : d.required s.env s.section_ > s.env.inserts) :
    Done d s (s.block (d.required s.env s.section_)) := by
  unfold block
  split
  · exact .failed (connectionError_connClosed ..)
  refine .waits ⟨rfl, rfl, rfl, rfl, rfl, rfl, rfl, rfl⟩ (hc.pos s.env s.section_ (by omega)) ?_
  unfold acknowledges
  rw [decide_eq_false (by omega)]
  rfl

/-- The section was decoded. -/
theorem acknowledges_eq (hc : d.Counts) (hle : d.required s.env s.section_ ≤ s.env.inserts)
    (hok : (if s.trailers then !d.trailersFail s.env s.section_
      else d.verdict s.env s.section_ != .decompression &&
        d.verdict s.env s.section_ != .tooLarge) = true) : acknowledges d s = refers s.section_ := by
  unfold acknowledges
  rw [hok, decide_eq_true hle, Bool.true_and, Bool.and_true]
  cases hr : refers s.section_ with
  | false =>
    apply decide_eq_false
    intro hpos
    cases (hc.pos s.env s.section_ hpos).symm.trans hr
  | true =>
    apply decide_eq_true
    by_contra h0
    obtain ⟨hv, ht⟩ := hc.zero s.env s.section_ hr (by omega)
    rw [hv, ht] at hok
    exact absurd hok (by cases s.trailers <;> simp)

theorem Done.of_beginRequest (hc : d.Counts) (ht : s.trailers = false)
    (hok : ¬ decodesTooLarge d s) : Done d s (s.beginRequest d) := by
  unfold beginRequest beginRequestAt
  split
  · next hr => exact .of_block hc hr
  next hr =>
  have hle : d.required s.env s.section_ ≤ s.env.inserts := by omega
  have hack : d.verdict s.env s.section_ ≠ .decompression →
      d.verdict s.env s.section_ ≠ .tooLarge → acknowledges d s = refers s.section_ := by
    intro h₁ h₂
    refine acknowledges_eq hc hle ?_
    simp [ht, h₁, h₂]
  split
  · exact .failed (connectionError_connClosed ..)
  · next hv =>
    -- over the limit: nothing is written, so it must refer to nothing
    have hno : refers s.section_ = false := by
      rw [← Bool.not_eq_true]
      exact fun hr => hok ⟨ht, hle, hv, hr⟩
    obtain ⟨hb, hin, hd⟩ := failStream_frame { s with section_ := [] } 431
    refine .passed hb hin hd ?_
    rw [hno]
    unfold acknowledges
    rw [ht, hv]
    simp
  · next hv =>
    obtain ⟨hb, hin, hd⟩ := failStream_frame { s with section_ := [] } 431
    exact .passed hb hin hd (hack (by rw [hv]; simp) (by rw [hv]; simp))
  · next hv =>
    obtain ⟨hb, hin, hd⟩ := malformed_frame { s with section_ := [] }
    exact .passed hb hin hd (hack (by rw [hv]; simp) (by rw [hv]; simp))
  · next len hv =>
    have ha := hack (by rw [hv]; simp) (by rw [hv]; simp)
    dsimp only
    split
    · split
      · exact .passed (malformed_frame _).1 (malformed_frame _).2.1 (malformed_frame _).2.2 ha
      · obtain ⟨hb, hin, hd⟩ := dispatch_frame d s.section_ false { s with
          section_ := [], headersDone := true, contentLength := len, bodyDone := true, finDelivered := true }
        exact .passed hb hin hd ha
    · split
      · exact .passed (failStream_frame _ _).1 (failStream_frame _ _).2.1 (failStream_frame _ _).2.2 ha
      · obtain ⟨hb, hin, hd⟩ := dispatch_frame d s.section_ true { s with
          section_ := [], headersDone := true, contentLength := len, hasBody := true
          bodyLimit := d.bodyLimit s.env s.section_ }
        exact .passed hb hin hd ha

theorem Done.of_decodeTrailers (hc : d.Counts) (ht : s.trailers = true) (hd : s.headersDone = true) :
    Done d s (s.decodeTrailers d) := by
  unfold decodeTrailers
  dsimp only
  split
  · next hr =>
    -- the history of what was decoded is not part of it
    unfold block
    split
    · exact .failed (connectionError_connClosed ..)
    refine .waits ⟨rfl, rfl, rfl, rfl, rfl, rfl, rfl, rfl⟩ (hc.pos s.env s.section_ (by omega)) ?_
    unfold acknowledges
    rw [decide_eq_false (by omega)]
    rfl
  · next hr =>
    split
    · exact .failed (connectionError_connClosed ..)
    next hf =>
    refine .passed rfl rfl hd (acknowledges_eq hc (by omega) ?_)
    rw [if_pos ht, Bool.not_eq_true _ |>.mp hf]
    rfl

/-- **A complete section**: it waits, or it is acknowledged when it refers to the table. -/
theorem Balanced.of_done {a' : Account} (hdone : Done d s a'.stream) (hb : s.blocked = false)
    (hin : s.inFrame = false) (hbuf : s.section_ = s.payload) (hturn : s.trailers = s.headersDone)
    (hbegun : s.request.isSome = true → s.headersDone = true) {w : List Instr} {n : Nat}
    (hsec : a'.sections.length = n + if refers s.section_ then 1 else 0)
    (hw : a'.written = w ++ if acknowledges d s then [.acknowledged] else [])
    (hn : w.count .acknowledged = n) (hc : w.count .cancelled = 0) :
    a'.stream.connClosed = true ∨ a'.Balanced := by
  have hopen : a'.written.count .cancelled = 0 := by
    rw [hw, List.count_append, hc]
    cases acknowledges d s <;> rfl
  cases hdone with
  | failed h => exact .inl h
  | waits hs hr ha =>
    right
    have hbl : a'.stream.blocked = true := hs.blocked
    have hin' : a'.stream.inFrame = false := hs.inFrame.trans hin
    refine ⟨fun _ => hin', fun _ => ?_, fun _ => ?_, ?_, ?_, ?_, fun _ => ?_, ?_, ?_, hopen⟩
    · rw [hs.trailers, hs.headersDone]
      exact hturn
    · rw [hs.section_, hs.payload]
      exact hbuf
    · intro _ _ hno
      cases hbl.symm.trans hno
    · rw [hs.trailers, hs.headersDone]
      exact fun h => hturn.trans h
    · rw [hs.request, hs.headersDone]
      exact hbegun
    · rw [hs.section_]
      exact hr
    · intro h
      cases hin'.symm.trans h
    · rw [hsec, hw, hr, ha, hbl, List.count_append, hn]
      rfl
  | passed hb' hin₁ hd ha =>
    right
    have hbl : a'.stream.blocked = false := hb'.trans hb
    have hin' : a'.stream.inFrame = false := hin₁.trans hin
    have hout : a'.stream.inHeaders = false := by
      unfold inHeaders
      rw [hin']
      rfl
    have hnever : ¬ (a'.stream.inHeaders = true ∨ a'.stream.blocked = true) := by
      rw [hout, hbl]
      simp
    refine ⟨fun _ => hin', fun h => absurd h hnever, fun h => absurd h hnever, ?_, ?_, fun _ => hd,
      ?_, fun _ _ => hd, ?_, hopen⟩
    · exact fun h => absurd (hd.symm.trans h) (by simp)
    · exact fun h => absurd (hd.symm.trans h) (by simp)
    · exact fun h => absurd (hbl.symm.trans h) (by simp)
    · rw [hsec, hw, ha, hbl, List.count_append, hn]
      cases refers s.section_ <;> rfl

/-! ## §6. Rounds. -/

/-- Outside a HEADERS frame, with the buffer as it was. -/
theorem Balanced.outside (h : a.Balanced) (hb : a.stream.blocked = false)
    (hb' : a'.stream.blocked = false) (hout : a.stream.inHeaders = false)
    (hout' : a'.stream.inHeaders = false) (hd : a'.stream.headersDone = a.stream.headersDone)
    (hs : a'.stream.section_ = a.stream.section_) (ht : a'.stream.trailers = a.stream.trailers)
    (hr : a'.stream.request = a.stream.request)
    (hlate : a'.stream.inFrame = true → a'.stream.frameType = .data → a.stream.headersDone = true)
    (hsec : a'.sections = a.sections) (hw : a'.written = a.written) : a'.Balanced := by
  have hnever : ¬ (a'.stream.inHeaders = true ∨ a'.stream.blocked = true) := by
    rw [hout', hb']
    simp
  refine ⟨?_, fun h => absurd h hnever, fun h => absurd h hnever, ?_, ?_, ?_, ?_, ?_, ?_, ?_⟩
  · exact fun h => absurd (hb'.symm.trans h) (by simp)
  · rw [hd, hs]
    exact fun h₁ _ _ => h.fresh h₁ hout hb
  · rw [hd, ht]
    exact h.plain
  · rw [hr, hd]
    exact h.begun
  · exact fun h => absurd (hb'.symm.trans h) (by simp)
  · rw [hd]
    exact hlate
  · have hcount := h.count
    rw [hb] at hcount
    rw [hsec, hw, hb']
    exact hcount
  · rw [hw]
    exact h.open_

/-- Behind the request's section nothing of the buffer matters outside a HEADERS frame. -/
theorem Balanced.behind (h : a.Balanced) (hb : a.stream.blocked = false)
    (hb' : a'.stream.blocked = false) (hout' : a'.stream.inHeaders = false)
    (hd : a'.stream.headersDone = true) (hsec : a'.sections = a.sections)
    (hw : a'.written = a.written) : a'.Balanced := by
  have hnever : ¬ (a'.stream.inHeaders = true ∨ a'.stream.blocked = true) := by
    rw [hout', hb']
    simp
  have hno : ∀ {P : Prop}, a'.stream.headersDone = false → P :=
    fun h => absurd (hd.symm.trans h) (by simp)
  refine ⟨?_, fun h => absurd h hnever, fun h => absurd h hnever, fun h => hno h, fun h => hno h,
    fun _ => hd, ?_, fun _ _ => hd, ?_, ?_⟩
  · exact fun h => absurd (hb'.symm.trans h) (by simp)
  · exact fun h => absurd (hb'.symm.trans h) (by simp)
  · have hcount := h.count
    rw [hb] at hcount
    rw [hsec, hw, hb']
    exact hcount
  · rw [hw]
    exact h.open_

/-- A round that completes nothing leaves the ledger. -/
theorem progress_round_of {s' : RequestStream} (hc : a.stream.completes = false)
    (hr : received a.skipped a.stream = []) :
    (a.progress d .round s').sections = a.sections ∧ (a.progress d .round s').written = a.written := by
  unfold progress
  rw [if_pos rfl, hr, hc]
  exact ⟨List.append_nil _, List.append_nil _⟩

theorem not_inHeaders_of (h : s.inFrame = false) : s.inHeaders = false := by
  unfold inHeaders
  rw [h]
  rfl

theorem Balanced.headerRound (h : a.Balanced) (hb : a.stream.blocked = false)
    (hin : a.stream.inFrame = false) (hund : a.stream.Undisturbed .round)
    (hhead : ¬ headOversized a.stream) (hs : a'.stream = a.stream.headerRound.1)
    (hsec : a'.sections = a.sections) (hw : a'.written = a.written) :
    a'.stream.connClosed = true ∨ a'.Balanced := by
  have hout := not_inHeaders_of hin
  unfold RequestStream.headerRound at hs
  split at hs
  · exact .inr (h.of_agree (by rw [hs]; exact ⟨rfl, rfl, rfl, rfl, rfl, rfl, rfl, rfl⟩) hsec hw)
  split at hs
  · split at hs
    · left
      rw [hs]
      exact connectionError_connClosed ..
    · exact .inr (h.of_agree (by rw [hs]; exact ⟨rfl, rfl, rfl, rfl, rfl, rfl, rfl, rfl⟩) hsec hw)
  next type len n hread =>
    unfold enterFrame at hs
    dsimp only at hs
    split at hs
    next htype =>
      split at hs
      next hlen =>
        split at hs
        next hnew =>
          -- the head of a request over the limit
          refine absurd ⟨hin, ?_, (type, len, n), hread, htype, hlen⟩ hhead
          exact (Bool.not_eq_true' _).mp hnew
        next hdone =>
          refine .inr (h.behind hb (by rw [hs]; exact hb) (by rw [hs]; rfl) ?_ hsec hw)
          rw [hs]
          exact (Bool.not_eq_false' _).mp (Bool.not_eq_true _ |>.mp hdone)
      next hlen =>
        right
        have hempty : a.stream.section_ = [] := by
          cases hdone : a.stream.headersDone with
          | false => exact h.fresh hdone hout hb
          | true => exact hund ⟨hin, hdone, (type, len, n), hread, htype, Nat.le_of_not_lt hlen⟩
        have hpay : a'.stream.payload = [] := by
          rw [hs]
        have hsame : (a.stream.headersDone || a.stream.trailers) = a.stream.headersDone := by
          cases hdone : a.stream.headersDone with
          | false => rw [h.plain hdone]; rfl
          | true => rfl
        refine ⟨?_, fun _ => ?_, fun _ => ?_, ?_, ?_, ?_, ?_, ?_, ?_, ?_⟩
        · rw [hs]
          exact fun hbl => absurd (hb.symm.trans hbl) (by simp)
        · rw [hs]
          exact hsame
        · rw [hpay, hs]
          exact hempty
        · rw [hs]
          exact fun _ hh _ => absurd hh (by simp [inHeaders])
        · rw [hs]
          exact fun hd => hsame.trans hd
        · rw [hs]
          exact h.begun
        · rw [hs]
          exact fun hbl => absurd (hb.symm.trans hbl) (by simp)
        · rw [hs]
          exact fun _ hft => absurd hft (by simp)
        · rw [hsec, hw, hs]
          exact h.count
        · rw [hw]
          exact h.open_
    next htype =>
      split at hs
      · split at hs
        · left
          rw [hs]
          exact connectionError_connClosed ..
        next hdone =>
          refine .inr (h.behind hb (by rw [hs]; exact hb) (by rw [hs]; rfl) ?_ hsec hw)
          rw [hs]
          exact (Bool.not_eq_false' _).mp (Bool.not_eq_true _ |>.mp hdone)
      · split at hs
        · left
          rw [hs]
          exact connectionError_connClosed ..
        · refine .inr (h.outside hb (by rw [hs]; exact hb) hout (by rw [hs]; rfl) (by rw [hs]; rfl)
            (by rw [hs]; rfl) (by rw [hs]; rfl) (by rw [hs]; rfl) ?_ hsec hw)
          rw [hs]
          exact fun _ hft => absurd hft (by simp)

/-- The round that takes the rest of a section. -/
theorem round_of_completes (hc : s.completes = true) :
    (s.round d).1 = if s.trailers then s.whole.decodeTrailers d else s.whole.beginRequest d := by
  unfold completes inHeaders at hc
  simp only [Bool.and_eq_true, decide_eq_true_eq] at hc
  obtain ⟨⟨hin, hft⟩, hle⟩ := hc
  have htake : min s.avail.length s.frameRemaining = s.frameRemaining := Nat.min_eq_right hle
  rw [round_headers hin hft]
  unfold headersRound
  rw [htake, if_neg (fun h => h.2 h.1), if_pos (Nat.sub_self _)]
  rw [Nat.sub_self]
  rfl

/-- A round inside a section. -/
theorem round_of_inHeaders (hh : s.inHeaders = true) (hc : s.completes = false) : (s.round d).1 = s ∨
      (s.round d).1 = { s with
        avail := s.avail.drop s.avail.length, section_ := s.section_ ++ s.avail
        payload := s.payload ++ s.avail, frameRemaining := s.frameRemaining - s.avail.length } := by
  unfold completes at hc
  rw [hh, Bool.true_and, decide_eq_false_iff_not] at hc
  unfold inHeaders at hh
  simp only [Bool.and_eq_true, decide_eq_true_eq] at hh
  have htake : min s.avail.length s.frameRemaining = s.avail.length := Nat.min_eq_left (by omega)
  rw [round_headers hh.1 hh.2]
  unfold headersRound
  dsimp only
  rw [htake]
  split
  · exact .inl rfl
  right
  rw [if_neg (by omega), List.take_length]
  rfl

theorem Balanced.headersRound (hcounts : d.Counts) (h : a.Balanced) (hb : a.stream.blocked = false)
    (hh : a.stream.inHeaders = true)
    (hlarge : a.stream.completes = true → ¬ decodesTooLarge d a.stream.whole) :
    (a.progress d .round (a.stream.round d).1).stream.connClosed = true ∨
      (a.progress d .round (a.stream.round d).1).Balanced := by
  have hturn := h.turn (.inl hh)
  have hbuf := h.buffer (.inl hh)
  cases hc : a.stream.completes with
  | true =>
    have hround := round_of_completes (d := d) hc
    have hwhole : a.stream.whole.section_ = a.stream.whole.payload := by
      show a.stream.section_ ++ _ = a.stream.payload ++ _
      rw [hbuf]
    have hdone : Done d a.stream.whole (a.stream.round d).1 := by
      rw [hround]
      cases ht : a.stream.trailers with
      | true => exact .of_decodeTrailers hcounts ht (hturn.symm.trans ht)
      | false => exact .of_beginRequest hcounts ht (hlarge hc)
    have hcount := h.count
    rw [hb] at hcount
    apply @Balanced.of_done a.stream.whole d (a.progress d .round (a.stream.round d).1) hdone hb rfl
      hwhole hturn h.begun a.written a.sections.length
    · show (a.sections ++ if _ then received a.skipped a.stream else []).length = _
      rw [if_pos rfl]
      unfold received
      rw [if_pos hc, List.length_append, hwhole]
      cases hr : refers a.stream.whole.payload with
      | true => simp [hr]
      | false => simp [hr]
    · show a.written ++ (if a.stream.completes && acknowledges d a.stream.whole then _ else _) = _
      rw [hc, Bool.true_and]
    · exact hcount.symm
    · exact h.open_
  | false =>
    have hnone : received a.skipped a.stream = [] := by
      unfold received
      have hft : a.stream.frameType = .headers := by
        unfold inHeaders at hh
        simp only [Bool.and_eq_true, decide_eq_true_eq] at hh
        exact hh.2
      rw [if_neg (by simp [hc]), if_neg (by simp [inOversized, hft])]
    obtain ⟨hsec, hw⟩ := @progress_round_of a d (a.stream.round d).1 hc hnone
    right
    rcases round_of_inHeaders (d := d) hh hc with hr | hr
    · refine h.of_agree ?_ hsec hw
      rw [hr]
      exact ⟨rfl, rfl, rfl, rfl, rfl, rfl, rfl, rfl⟩
    · rw [hr] at hsec hw ⊢
      refine ⟨h.apart, fun _ => hturn, fun _ => ?_, fun _ hno _ => ?_, h.plain, h.begun, fun hbl => ?_,
        h.late, ?_, ?_⟩
      · show a.stream.section_ ++ _ = a.stream.payload ++ _
        rw [hbuf]
      · cases hh.symm.trans hno
      · cases hb.symm.trans hbl
      · rw [hsec, hw]
        exact h.count
      · rw [hw]
        exact h.open_

/-- The round of a DATA frame: the request's section is behind it, and stays so. -/
theorem dataRound_frame (hd : s.headersDone = true) (hft : s.frameType = .data) :
    s.dataRound.1.blocked = s.blocked ∧ s.dataRound.1.inHeaders = false ∧
      s.dataRound.1.headersDone = true := by
  have hof : ∀ s' : RequestStream, s'.blocked = s.blocked → s'.frameType = s.frameType →
      s'.headersDone = true →
      s'.blocked = s.blocked ∧ s'.inHeaders = false ∧ s'.headersDone = true := by
    intro s' h₁ h₂ h₃
    exact ⟨h₁, by simp [inHeaders, h₂, hft], h₃⟩
  unfold dataRound
  split
  · exact hof _ rfl rfl hd
  split
  · dsimp only
    split
    · exact hof _ rfl rfl hd
    split
    · split
      · unfold failStream respond
        split <;> exact hof _ rfl rfl rfl
      · exact hof _ rfl rfl hd
    · exact hof _ rfl rfl hd
  · split
    · dsimp only
      split
      · exact hof _ rfl rfl hd
      split
      · unfold maybeClose
        split <;> exact hof _ rfl rfl hd
      · exact hof _ rfl rfl hd
    · exact hof _ rfl rfl hd

theorem skippedRound_agree (s : RequestStream) :
    s.skippedRound.1.blocked = s.blocked ∧ s.skippedRound.1.frameType = s.frameType ∧
      s.skippedRound.1.headersDone = s.headersDone ∧ s.skippedRound.1.section_ = s.section_ ∧
      s.skippedRound.1.trailers = s.trailers ∧ s.skippedRound.1.request = s.request := by
  unfold skippedRound
  dsimp only
  split
  · exact ⟨rfl, rfl, rfl, rfl, rfl, rfl⟩
  · split <;> exact ⟨rfl, rfl, rfl, rfl, rfl, rfl⟩

/-- **One round.** -/
theorem Balanced.round (hcounts : d.Counts) (h : a.Balanced) (hb : a.stream.blocked = false)
    (hok : a.Accountable d .round) : (a.progress d .round (a.stream.round d).1).stream.connClosed = true ∨
      (a.progress d .round (a.stream.round d).1).Balanced := by
  obtain ⟨hund, -, hhead, hskip, hlarge⟩ := hok
  have hnone : a.stream.completes = false → received a.skipped a.stream = [] := by
    intro hc
    by_contra hne
    exact hskip ⟨hc, hne⟩
  cases hin : a.stream.inFrame with
  | false =>
    have hc : a.stream.completes = false := by
      unfold completes
      rw [not_inHeaders_of hin]
      rfl
    obtain ⟨hsec, hw⟩ := @progress_round_of a d (a.stream.round d).1 hc (hnone hc)
    refine h.headerRound hb hin hund hhead ?_ hsec hw
    exact congrArg Prod.fst (round_idle hin)
  | true =>
    cases hft : a.stream.frameType with
    | headers => exact h.headersRound hcounts hb (by simp [inHeaders, hin, hft]) hlarge
    | data =>
      have hc : a.stream.completes = false := by simp [completes, inHeaders, hft]
      obtain ⟨hsec, hw⟩ := @progress_round_of a d (a.stream.round d).1 hc (hnone hc)
      obtain ⟨hb', hout, hd⟩ := dataRound_frame (h.late hin hft) hft
      rw [← round_data (d := d) hin hft] at hb' hout hd
      exact .inr (h.behind hb (hb'.trans hb) hout hd hsec hw)
    | skipped =>
      have hc : a.stream.completes = false := by simp [completes, inHeaders, hft]
      obtain ⟨hsec, hw⟩ := @progress_round_of a d (a.stream.round d).1 hc (hnone hc)
      obtain ⟨hb', hft', hd, hs, ht, hr⟩ := skippedRound_agree a.stream
      rw [← round_skipped (d := d) hin hft] at hb' hft' hd hs ht hr
      refine .inr (h.outside hb (hb'.trans hb) (by simp [inHeaders, hft]) ?_ hd hs ht hr ?_ hsec hw)
      · show (a.stream.round d).1.inHeaders = false
        simp [inHeaders, hft', hft]
      · intro _ hdata
        cases (hft'.symm.trans hdata).symm.trans hft

/-! ## §7. Steps and runs. -/

/-- An answer of the handler: no section is being collected, and none waits. -/
theorem Balanced.respond (h : a.Balanced) (hposs : a.stream.request.isSome = true)
    (hund : a.stream.Undisturbed .respond) (hs : a'.stream = a.stream.respond)
    (hsec : a'.sections = a.sections) (hw : a'.written = a.written) : a'.Balanced := by
  have hd := h.begun hposs
  by_cases hstop : (a.stream.closed || a.stream.responded || a.stream.connClosed) = true
  · refine h.of_agree ?_ hsec hw
    rw [hs, RequestStream.respond, if_pos hstop]
    exact ⟨rfl, rfl, rfl, rfl, rfl, rfl, rfl, rfl⟩
  · have hnot : ¬ (a.stream.inHeaders = true ∨ a.stream.blocked = true) := by
      intro hor
      have := hund ((h.turn hor).trans hd)
      exact hstop (by simp [this])
    obtain ⟨hout, hb⟩ := not_or.mp hnot
    rw [Bool.not_eq_true] at hout hb
    rw [RequestStream.respond, if_neg hstop] at hs
    refine h.behind hb (by rw [hs]; exact hb) (by rw [hs]; exact hout) (by rw [hs]; exact hd) hsec hw

/-- A section that waited. -/
theorem Balanced.unblock (hcounts : d.Counts) (h : a.Balanced) (hb : a.stream.blocked = true)
    (hok : ¬ decodesTooLarge d a.stream) :
    (a.progress d .unblock (a.stream.unblock d)).stream.connClosed = true ∨
      (a.progress d .unblock (a.stream.unblock d)).Balanced := by
  have hturn := h.turn (.inr hb)
  have hdone : Done d { a.stream with blocked := false } (a.stream.unblock d) := by
    unfold RequestStream.unblock
    by_cases ht : a.stream.trailers = true
    · rw [if_pos ht]
      exact .of_decodeTrailers hcounts ht (hturn.symm.trans ht)
    rw [if_neg ht]
    exact .of_beginRequest hcounts (Bool.not_eq_true _ |>.mp ht) hok
  have hcount := h.count
  rw [hb] at hcount
  apply @Balanced.of_done { a.stream with blocked := false } d
    (a.progress d .unblock (a.stream.unblock d)) hdone rfl (h.apart hb) (h.buffer (.inr hb)) hturn
    h.begun a.written (a.written.count .acknowledged)
  · show (a.sections ++ []).length = _ + if refers a.stream.section_ then 1 else 0
    rw [List.append_nil, h.waits hb]
    exact hcount
  · rfl
  · rfl
  · exact h.open_

/-- **One step of an open stream.** -/
theorem Balanced.progress (hcounts : d.Counts) (h : a.Balanced)
    (hposs : a.possible lb = true) (hok : a.Accountable d lb)
    (hstep : RequestStream.step d a.stream lb = some s') :
    (a.progress d lb s').stream.connClosed = true ∨ (a.progress d lb s').Balanced := by
  have hagree : Agree a.stream s' → (∀ s'', (a.progress d lb s'').sections = a.sections ∧
      (a.progress d lb s'').written = a.written) →
      (a.progress d lb s').stream.connClosed = true ∨ (a.progress d lb s').Balanced :=
    fun hs hl => .inr (h.of_agree hs (hl s').1 (hl s').2)
  have hquiet : ∀ s'', lb ≠ .round → lb ≠ .unblock → (a.progress d lb s'').sections = a.sections ∧
      (a.progress d lb s'').written = a.written := by
    intro s'' h₁ h₂
    cases lb <;> first
      | exact absurd rfl h₁
      | exact absurd rfl h₂
      | exact ⟨List.append_nil _, List.append_nil _⟩
  cases lb with
  | arrive data fin =>
    cases hstep
    exact hagree ⟨rfl, rfl, rfl, rfl, rfl, rfl, rfl, rfl⟩ fun s'' => hquiet s'' (by simp) (by simp)
  | round =>
    unfold RequestStream.step at hstep
    dsimp only at hstep
    split at hstep
    · simp at hstep
    next hlive =>
      cases hstep
      exact h.round hcounts (not_halted (Bool.not_eq_true _ |>.mp hlive)).2 hok
  | endOfPump =>
    cases hstep
    exact hagree (endOfPump_agree _) fun s'' => hquiet s'' (by simp) (by simp)
  | asks room =>
    cases hstep
    refine hagree ?_ fun s'' => hquiet s'' (by simp) (by simp)
    unfold asks
    split <;> exact ⟨rfl, rfl, rfl, rfl, rfl, rfl, rfl, rfl⟩
  | respond =>
    cases hstep
    obtain ⟨hsec, hw⟩ := hquiet a.stream.respond (by simp) (by simp)
    exact .inr (h.respond hposs hok.1 rfl hsec hw)
  | environment e =>
    cases hstep
    exact hagree ⟨rfl, rfl, rfl, rfl, rfl, rfl, rfl, rfl⟩ fun s'' => hquiet s'' (by simp) (by simp)
  | unblock =>
    unfold RequestStream.step at hstep
    dsimp only at hstep
    split at hstep
    next hcan =>
      cases hstep
      have hb : a.stream.blocked = true := by
        unfold canUnblock at hcan
        simp only [Bool.and_eq_true] at hcan
        exact hcan.1.1.1
      exact h.unblock hcounts hb hok.2.2
    · simp at hstep
  | sent =>
    cases hstep
    exact hagree (Agree.maybeClose ⟨rfl, rfl, rfl, rfl, rfl, rfl, rfl, rfl⟩)
      fun s'' => hquiet s'' (by simp) (by simp)
  | stopSending =>
    cases hstep
    exact hagree ⟨rfl, rfl, rfl, rfl, rfl, rfl, rfl, rfl⟩ fun s'' => hquiet s'' (by simp) (by simp)
  | cancelled =>
    cases hstep
    exact hagree (Agree.maybeClose ⟨rfl, rfl, rfl, rfl, rfl, rfl, rfl, rfl⟩)
      fun s'' => hquiet s'' (by simp) (by simp)

/-- A connection that ended stays so. -/
theorem step_connClosed (h : s.connClosed = true)
    (hstep : RequestStream.step d s lb = some s') : s'.connClosed = true := by
  have hhalt : s.halted = true := by simp [halted, h]
  have hclose : ∀ s₁ : RequestStream, s₁.connClosed = true → s₁.maybeClose.connClosed = true := by
    intro s₁ h₁
    unfold maybeClose
    split <;> exact h₁
  cases lb with
  | round => simp [RequestStream.step, hhalt] at hstep
  | unblock => simp [RequestStream.step, canUnblock, h] at hstep
  | endOfPump =>
    cases hstep
    unfold endOfPump
    rw [if_pos hhalt]
    exact h
  | respond =>
    cases hstep
    unfold RequestStream.respond
    split <;> exact h
  | asks room =>
    cases hstep
    unfold asks
    split <;> exact h
  | arrive | environment | stopSending =>
    cases hstep
    exact h
  | sent | cancelled =>
    cases hstep
    exact hclose _ h

/-- So does a stream that was closed, and the ledger with it. -/
theorem step_closed (h : a.stream.closed = true) (hstep : RequestStream.step d a.stream lb = some s') :
    s'.closed = true ∧ (a.progress d lb s').sections = a.sections ∧
      (a.progress d lb s').written = a.written := by
  have hhalt : a.stream.halted = true := by simp [halted, h]
  have hsame : ∀ s₁ : RequestStream, s₁.closed = true → s₁.maybeClose.closed = true := by
    intro s₁ h₁
    unfold maybeClose
    split
    · rfl
    · exact h₁
  cases lb with
  | round => simp [RequestStream.step, hhalt] at hstep
  | unblock => simp [RequestStream.step, canUnblock, h] at hstep
  | endOfPump =>
    cases hstep
    refine ⟨?_, List.append_nil _, List.append_nil _⟩
    unfold endOfPump
    rw [if_pos hhalt]
    exact h
  | respond =>
    cases hstep
    refine ⟨?_, List.append_nil _, List.append_nil _⟩
    unfold RequestStream.respond
    split <;> exact h
  | asks room =>
    cases hstep
    refine ⟨?_, List.append_nil _, List.append_nil _⟩
    unfold asks
    split <;> exact h
  | arrive | environment | stopSending =>
    cases hstep
    exact ⟨h, List.append_nil _, List.append_nil _⟩
  | sent | cancelled =>
    cases hstep
    exact ⟨hsame _ h, List.append_nil _, List.append_nil _⟩

theorem settle_stream (wasClosed : Bool) (a : Account) : (a.settle wasClosed).stream = a.stream := by
  unfold settle
  split <;> rfl

/-- The stream closes: a section that waits is cancelled, otherwise nothing is left. -/
theorem Balanced.settle (h : a.Balanced) (hclosed : a.stream.closed = true)
    (hunread : a.stream.blocked = false → unread a.skipped a.stream = []) : (a.settle false).Accounted := by
  have hcount := h.count
  have hopen := h.open_
  unfold Account.settle
  rw [if_pos (by simp [hclosed])]
  unfold Accounted
  cases hb : a.stream.blocked with
  | true =>
    right
    rw [hb] at hcount
    rw [List.length_append, List.count_append, List.count_append, hopen]
    refine ⟨?_, rfl⟩
    show a.written.count .acknowledged + 0 < _
    rw [if_pos rfl] at hcount
    omega
  | false =>
    left
    rw [hb] at hcount
    rw [hunread hb, List.append_nil]
    refine ⟨?_, by rw [List.count_append, hopen]; rfl⟩
    rw [List.count_append]
    exact hcount.symm

/-- What a conditioned run keeps. -/
def Inv (a : Account) : Prop :=
  a.stream.connClosed = true ∨ (a.stream.closed = false ∧ a.Balanced) ∨
    (a.stream.closed = true ∧ a.Accounted)

theorem Inv.step (hcounts : d.Counts) {a' : Account} {lb : Label} (h : a.Inv)
    (hok : a.Accountable d lb) (hstep : a.step d lb = some a') : a'.Inv := by
  unfold Account.step at hstep
  split at hstep
  next hposs =>
    obtain ⟨s', hs, rfl⟩ := Option.map_eq_some_iff.mp hstep
    unfold Inv
    rw [settle_stream]
    rcases h with hconn | ⟨hopen, hbal⟩ | ⟨hclosed, hacc⟩
    · exact .inl (step_connClosed hconn hs)
    · rcases hbal.progress hcounts hposs hok hs with hconn | hnext
      · exact .inl hconn
      right
      cases hc : s'.closed with
      | false =>
        refine .inl ⟨hc, ?_⟩
        unfold Account.settle
        rw [if_neg (by show ¬ (s'.closed && _) = true; simp [hc])]
        exact hnext
      | true =>
        refine .inr ⟨hc, ?_⟩
        rw [hopen]
        apply hnext.settle hc
        intro hb
        by_contra hne
        exact hok.2.1 ⟨s', hs, hopen, hc, hb, hne⟩
    · obtain ⟨hc, hsec, hw⟩ := step_closed hclosed hs
      refine .inr (.inr ⟨hc, ?_⟩)
      unfold Account.settle
      rw [hclosed, if_neg (by simp)]
      unfold Accounted
      rw [hsec, hw]
      exact hacc
  · simp at hstep

theorem initial_inv : ({} : Account).Inv := by
  refine .inr (.inl ⟨rfl, ?_⟩)
  constructor <;> simp [inHeaders]

/-- **Every section is accounted for.**  In every run whose steps meet the condition, on a connection
    that is open, a stream that is closed has an acknowledgement for each of its sections that
    refers to the table, or fewer and one cancellation. -/
theorem sections_accounted (table : Env → DynamicTable) (maxCapacity : Nat)
    (bodyLimit : Env → Bytes → Nat) (answersAtOnce : Env → Bytes → Bool) {lbs : List Label} {a : Account}
    (hrun : run (step (Decoding.qpack table maxCapacity bodyLimit answersAtOnce)) {} lbs = some a)
    (hok : Meets (step (Decoding.qpack table maxCapacity bodyLimit answersAtOnce))
      (fun a lb => a.Accountable (Decoding.qpack table maxCapacity bodyLimit answersAtOnce) lb) {} lbs)
    (hopen : a.stream.connClosed = false) (hclosed : a.stream.closed = true) : a.Accounted := by
  have hcounts := Decoding.qpack_counts table maxCapacity bodyLimit answersAtOnce
  have hinv : a.Inv := run_invariant (fun s l t hs hl hst => Inv.step hcounts hs hl hst) initial_inv
    hrun hok
  rcases hinv with hconn | ⟨hno, -⟩ | ⟨-, hacc⟩
  · cases hopen.symm.trans hconn
  · cases hno.symm.trans hclosed
  · exact hacc

/-- A table with one entry, `a: b`. -/
def oneEntry : DynamicTable := ((DynamicTable.new 4096).add (bytes "a") (bytes "b")).2

def withEntry : Decoding := .qpack (fun _ => oneEntry) 4096 (fun _ _ => 1000) fun _ _ => false

/-- A GET with the entry behind its pseudo-headers, and the end of the stream. -/
def decodedRun : List Label :=
  [.environment { inserts := 1 },
    .arrive [0x01, 0x09, 0x02, 0x00, 0xd1, 0xd7, 0x50, 0x01, 0x61, 0xc1, 0x80] true,
    .round, .round, .endOfPump, .respond, .sent]

def decodedEnd : Account := (run (step withEntry) {} decodedRun).getD {}

/-- The request is answered, its section acknowledged. -/
theorem sections_accounted_decodedRun :
    run (step withEntry) {} decodedRun = some decodedEnd ∧ decodedEnd.stream.closed = true ∧
      decodedEnd.stream.responded = true ∧ decodedEnd.stream.request.isSome = true ∧
      decodedEnd.sections.length = 1 ∧ decodedEnd.Accounted :=
  ⟨by decide +kernel, by decide +kernel, by decide +kernel, by decide +kernel, by decide +kernel,
    sections_accounted (fun _ => oneEntry) 4096 (fun _ _ => 1000) (fun _ _ => false)
      (show run (step withEntry) {} decodedRun = some decodedEnd by decide +kernel)
      (by decide +kernel) (by decide +kernel) (by decide +kernel)⟩

/-- A section of the entry and 25 fields of 42 bytes, at a limit of 1024: it is answered with 431. -/
def tooLargeRun : List Label :=
  [.environment { inserts := 1, maxHeaderSize := 1024 },
    .arrive ([0x01, 0x1c, 0x02, 0x00, 0x80] ++ List.replicate 25 0xd1) true,
    .round, .round, .endOfPump, .sent]

def tooLargeEnd : Account := (run (step withEntry) {} tooLargeRun).getD {}

theorem oversized_section_unaccounted :
    run (step withEntry) {} tooLargeRun = some tooLargeEnd ∧ tooLargeEnd.stream.connClosed = false ∧
      tooLargeEnd.stream.closed = true ∧ tooLargeEnd.stream.answers = [431] ∧
      tooLargeEnd.sections.length = 1 ∧ tooLargeEnd.written = [] ∧ ¬ tooLargeEnd.Accounted := by
  unfold Accounted
  decide +kernel

end Account

end RequestStream

end Agensio.Http3
