/-
  Agensio.Http3.Transparent — unknown frames on a request stream.

  A run over a stream and the run over the same stream without its
  frames of unknown types (`withoutUnknown`: the bytes of those frames
  are taken out of each arrival) are compared round by round: the rounds
  inside an unknown frame have no counterpart, the others do the same.

  It fails for an unknown frame without payload that bytes follow (the
  round for skipped payload breaks off before it leaves the frame), for
  a pump that needs more than its 1,024 rounds, where the last frames
  of the stream are unknown and arrive before the request is begun (it
  then has a body, of no bytes), and where the handler reads on after
  the body is done with only unknown frames left.

  Main results:
    * `unknown_frames_transparent` — where none of these happens, the
      two runs end in the same state but for the place in the stream;
    * `empty_unknown_frame_stalls` — a reserved frame of length zero.
-/
import Agensio.Lib.Runs
import Agensio.Http3.Request

namespace Agensio.Http3

open Agensio.Lib Agensio.Quic

/-- Whether a frame is kept: the types that `pump` knows. -/
def sieve : HeaderReader UInt8 Bool := frameHeader.map knownType

theorem sieve_read_some {p : Bytes} {type len n : Nat} (h : readFrameHeader p = some (type, len, n)) :
    sieve.read p = some (knownType type, len, n) := by
  show (readFrameHeader p).map _ = _
  rw [h]
  rfl

theorem sieve_read_none {p : Bytes} (h : readFrameHeader p = none) : sieve.read p = none := by
  show (readFrameHeader p).map _ = _
  rw [h]
  rfl

namespace RequestStream

/-! ## §1. The place in the stream. -/

/-- Where a stream is: what it has not consumed, and the frame it is in. -/
structure Place where
  avail : Bytes := []
  inFrame : Bool := false
  frameType : FrameType := .skipped
  frameRemaining : Nat := 0
  unknown : Bool := false

def placed (s : RequestStream) (p : Place) : RequestStream :=
  { s with
    avail := p.avail, inFrame := p.inFrame, frameType := p.frameType
    frameRemaining := p.frameRemaining, unknown := p.unknown }

/-- Where the stream is in its bytes. -/
def place (s : RequestStream) : Place :=
  ⟨s.avail, s.inFrame, s.frameType, s.frameRemaining, s.unknown⟩

/-- What became of the stream, wherever it is in its bytes. -/
def outcome (s : RequestStream) : RequestStream := s.placed {}

/-- An operation that neither sees nor moves the place, nor the end of the stream. -/
structure Local (op : RequestStream → RequestStream) : Prop where
  placed : ∀ s p, op (s.placed p) = (op s).placed p
  fin : ∀ s, (op s).fin = s.fin

theorem Local.place {op : RequestStream → RequestStream} (h : Local op) (s : RequestStream) :
    (op s).place = s.place := by
  have := congrArg RequestStream.place (h.placed s s.place)
  exact this

theorem Local.comp {op op' : RequestStream → RequestStream} (h : Local op) (h' : Local op') :
    Local (op ∘ op') := by
  refine ⟨?_, ?_⟩
  · intro s p
    show op (op' (s.placed p)) = _
    rw [h'.placed, h.placed]
    rfl
  · intro s
    exact (h.fin _).trans (h'.fin s)

/-- A choice that does not look at the place either. -/
theorem Local.ite {op op' : RequestStream → RequestStream} {c : RequestStream → Prop} [DecidablePred c]
    (hc : ∀ s p, c (s.placed p) ↔ c s) (h : Local op) (h' : Local op') :
    Local fun s => if c s then op s else op' s := by
  refine ⟨fun s p => ?_, fun s => ?_⟩
  · by_cases hs : c s
    · rw [if_pos hs, if_pos ((hc s p).mpr hs)]
      exact h.placed s p
    rw [if_neg hs, if_neg (mt (hc s p).mp hs)]
    exact h'.placed s p
  · split
    · exact h.fin s
    · exact h'.fin s

theorem local_id : Local fun s => s := ⟨fun _ _ => rfl, fun _ => rfl⟩

theorem local_connectionError (code : Nat) : Local (connectionError · code) :=
  .ite (c := fun s => s.connClosed = true) (fun _ _ => Iff.rfl) local_id
    ⟨fun _ _ => rfl, fun _ => rfl⟩

theorem local_maybeClose : Local maybeClose :=
  .ite (c := fun s => (s.sendOver && s.finDelivered) = true) (fun _ _ => Iff.rfl)
    ⟨fun _ _ => rfl, fun _ => rfl⟩ local_id

theorem local_respond : Local respond :=
  .ite (c := fun s => (s.closed || s.responded || s.connClosed) = true) (fun _ _ => Iff.rfl) local_id
    ⟨fun _ _ => rfl, fun _ => rfl⟩

theorem local_failStream (status : Nat) : Local (failStream · status) := by
  have h : Local fun s => { s with headersDone := true, answers := s.answers ++ [status] } :=
    ⟨fun _ _ => rfl, fun _ => rfl⟩
  exact local_respond.comp h

theorem local_malformed : Local malformed := by
  have h : Local fun s => { s with headersDone := true, responded := true, finDelivered := true,
                                   bodyDone := true } :=
    ⟨fun _ _ => rfl, fun _ => rfl⟩
  exact local_maybeClose.comp h

theorem local_block (required : Nat) : Local (block · required) :=
  .ite (c := fun s => s.env.full = true) (fun _ _ => Iff.rfl) (local_connectionError 0x200)
    ⟨fun _ _ => rfl, fun _ => rfl⟩

variable (d : Decoding)

theorem local_dispatch (section_ : Bytes) (hasBody : Bool) : Local (dispatch d section_ hasBody) := by
  have hgiven : Local fun s => { s with request := some (section_, hasBody) } :=
    ⟨fun _ _ => rfl, fun _ => rfl⟩
  exact .ite (c := fun s => d.answersAtOnce s.env section_ = true) (fun _ _ => Iff.rfl)
    (local_respond.comp hgiven) hgiven

theorem local_beginRequestAt (ended : Bool) : Local (beginRequestAt d ended) := by
  have hclear : Local fun s => { s with section_ := [] } := ⟨fun _ _ => rfl, fun _ => rfl⟩
  refine ⟨?_, ?_⟩
  · intro s p
    unfold beginRequestAt
    rw [show (s.placed p).env = s.env from rfl, show (s.placed p).section_ = s.section_ from rfl]
    split
    · exact (local_block _).placed s p
    cases d.verdict s.env s.section_ with
    | decompression => exact (local_connectionError 0x200).placed s p
    | tooLarge => exact ((local_failStream 431).comp hclear).placed s p
    | overflow => exact ((local_failStream 431).comp hclear).placed s p
    | malformed => exact (local_malformed.comp hclear).placed s p
    | request len =>
      dsimp only
      cases ended with
      | true =>
        rw [if_pos rfl, if_pos rfl]
        split
        · have h : Local fun s => { s with section_ := [], headersDone := true, contentLength := len,
                                           bodyDone := true, finDelivered := true } :=
            ⟨fun _ _ => rfl, fun _ => rfl⟩
          exact (local_malformed.comp h).placed s p
        · exact (local_dispatch d s.section_ false).placed { s with
            section_ := [], headersDone := true, contentLength := len, bodyDone := true
            finDelivered := true } p
      | false =>
        show (if len.getD 0 > d.bodyLimit s.env s.section_ then _ else _) =
          placed (if len.getD 0 > d.bodyLimit s.env s.section_ then _ else _) p
        split
        · have h : Local fun t => { t with section_ := [], headersDone := true, contentLength := len,
                                           hasBody := true, bodyLimit := d.bodyLimit s.env s.section_ } :=
            ⟨fun _ _ => rfl, fun _ => rfl⟩
          exact ((local_failStream 413).comp h).placed s p
        · exact (local_dispatch d s.section_ true).placed { s with
            section_ := [], headersDone := true, contentLength := len, hasBody := true
            bodyLimit := d.bodyLimit s.env s.section_ } p
  · intro s
    unfold beginRequestAt
    split
    · exact (local_block _).fin s
    split
    · exact (local_connectionError 0x200).fin s
    · exact ((local_failStream 431).comp hclear).fin s
    · exact ((local_failStream 431).comp hclear).fin s
    · exact (local_malformed.comp hclear).fin s
    dsimp only
    split
    · split
      · exact local_malformed.fin _
      · exact (local_dispatch d _ _).fin _
    · split
      · exact (local_failStream 413).fin _
      · exact (local_dispatch d _ _).fin _

theorem local_decodeTrailers : Local (decodeTrailers d) := by
  refine ⟨?_, ?_⟩
  · intro s p
    unfold decodeTrailers
    show (if d.required s.env s.section_ > s.env.inserts then _ else
        if d.trailersFail s.env s.section_ then _ else _) =
      placed (if d.required s.env s.section_ > s.env.inserts then _ else
        if d.trailersFail s.env s.section_ then _ else _) p
    split
    · exact (local_block _).placed { s with decoded := (s.section_, s.payload) :: s.decoded } p
    split
    · exact (local_connectionError 0x200).placed
        { s with decoded := (s.section_, s.payload) :: s.decoded, section_ := [], trailers := false } p
    · rfl
  · intro s
    unfold decodeTrailers
    dsimp only
    split
    · exact (local_block _).fin _
    split
    · exact (local_connectionError 0x200).fin _
    · rfl

/-! ## §2. The two streams side by side. -/

/-- Where the sieve is when the stream is at its place. -/
def mode (s : RequestStream) : FrameMode UInt8 Bool :=
  if s.inFrame then .inside (!s.unknown) s.frameRemaining else .between []

/-- The place of the stream without its unknown frames; `m` is where the sieve is behind all the
    bytes that arrived. -/
structure Related (m : FrameMode UInt8 Bool) (s : RequestStream) (p : Place) : Prop where
  avail : p.avail = (sieve.sift s.mode s.avail).2
  mode : m.norm = (sieve.sift s.mode s.avail).1.norm
  skips : s.inFrame = true → s.unknown = true → s.frameType = .skipped ∧ p.inFrame = false
  same : (s.inFrame = true → s.unknown = false) → p.inFrame = s.inFrame ∧
    (s.inFrame = true → p.frameType = s.frameType ∧ p.frameRemaining = s.frameRemaining)
  whole : s.fin = true → m.norm = .between []

variable {m : FrameMode UInt8 Bool} {s t : RequestStream} {p : Place} {k : Nat}

/-- Only the place and the end count. -/
theorem Related.congr (h : Related m s p) (hp : t.place = s.place) (hf : t.fin = s.fin) : Related m t p := by
  unfold place at hp
  simp only [Place.mk.injEq] at hp
  obtain ⟨h₁, h₂, h₃, h₄, h₅⟩ := hp
  have hmode : t.mode = s.mode := by
    unfold RequestStream.mode
    rw [h₂, h₄, h₅]
  refine ⟨?_, ?_, ?_, ?_, ?_⟩
  · rw [hmode, h₁]
    exact h.avail
  · rw [hmode, h₁]
    exact h.mode
  · rw [h₂, h₃, h₅]
    exact h.skips
  · rw [h₂, h₃, h₄, h₅]
    exact h.same
  · rw [hf]
    exact h.whole

theorem Related.op (h : Related m s p)
    {f : RequestStream → RequestStream} (hf : Local f) : Related m (f s) p :=
  h.congr (hf.place s) (hf.fin s)

/-- The payload of a kept frame is the same in both streams. -/
theorem sift_inside (rem : Nat) (avail : Bytes) :
    min (sieve.sift (.inside true rem) avail).2.length rem = min avail.length rem ∧
      ∀ k, k ≤ min avail.length rem → (sieve.sift (.inside true rem) avail).2.take k = avail.take k ∧
        (sieve.sift (.inside true rem) avail).2.drop k =
          (sieve.sift (.inside true (rem - k)) (avail.drop k)).2 := by
  refine ⟨?_, ?_⟩
  · have hall := (sieve.sift_payload true (Nat.min_le_right avail.length rem)
      (Nat.min_le_left avail.length rem)).1
    rcases Nat.lt_or_ge avail.length rem with hlt | hge
    · -- nothing is behind the payload yet
      rw [Nat.min_eq_left hlt.le] at hall
      rw [hall, List.drop_length, if_pos rfl, List.take_length]
      show min (avail ++ []).length rem = _
      rw [List.append_nil]
    · rw [Nat.min_eq_right hge] at hall
      rw [hall, if_pos rfl, List.length_append, List.length_take, Nat.min_eq_left hge]
      omega
  · intro k hk
    have hsplit := (sieve.sift_payload true (n := rem) (k := k) (l := avail) (by omega) (by omega)).1
    rw [if_pos rfl] at hsplit
    have hlen : (avail.take k).length = k := by
      rw [List.length_take]
      omega
    rw [hsplit]
    exact ⟨List.take_left' hlen, List.drop_left' hlen⟩

/-! ## §3. One round. -/

/-- Bytes that hold nothing but unknown frames. -/
def AllUnknown (bs : Bytes) : Prop := (sieve.sift (.between []) bs).2 = []

instance (bs : Bytes) : Decidable (AllUnknown bs) := inferInstanceAs (Decidable (_ = _))

/-- The condition on a round: no bytes behind an empty skipped frame, and no request begun at the
    end of the stream but for unknown frames. -/
def Clear (s : RequestStream) : Prop :=
  (s.inFrame = true → s.frameType = .skipped → s.frameRemaining = 0 → s.avail = []) ∧
    (s.inFrame = true → s.frameType = .headers → s.trailers = false →
      s.frameRemaining ≤ s.avail.length → s.fin = true →
      AllUnknown (s.avail.drop s.frameRemaining) → s.avail.drop s.frameRemaining = [])

instance (s : RequestStream) : Decidable s.Clear :=
  inferInstanceAs (Decidable ((_ → _ → _ → _) ∧ (_ → _ → _ → _ → _ → _ → _)))

/-- What a round of the stream is for the stream without unknown frames: nothing, or the round
    it makes itself. -/
def Matches (d : Decoding) (m : FrameMode UInt8 Bool) (s : RequestStream) (p : Place) : Prop :=
  (∃ t, s.round d = (t, .goOn) ∧ t.placed p = s.placed p ∧ Related m t p) ∨
    ∃ t flow p', s.round d = (t, flow) ∧ (s.placed p).round d = (t.placed p', flow) ∧ Related m t p'

theorem mode_idle (h : s.inFrame = false) : s.mode = .between [] := by
  unfold mode
  rw [h]
  rfl

theorem mode_inside (h : s.inFrame = true) : s.mode = .inside (!s.unknown) s.frameRemaining := by
  unfold mode
  rw [h]
  rfl

/-- A stream without bytes between two frames stops. -/
theorem round_idle_empty (hin : s.inFrame = false) (hav : s.avail = []) : s.round d = (s, .stop) := by
  rw [round_idle hin]
  unfold RequestStream.headerRound
  rw [hav]
  rfl

/-- A known frame is entered in the same way wherever the stream is. -/
theorem enterFrame_known (s : RequestStream) (avail : Bytes) (p : Place) {type : Nat} (len : Nat)
    (h : knownType type = true) : (s.placed { p with avail := avail }).enterFrame type len =
        ((s.enterFrame type len).1.placed ⟨avail, true, (s.enterFrame type len).1.frameType, len, false⟩,
          (s.enterFrame type len).2) ∧ (s.enterFrame type len).1.place =
        ⟨s.avail, true, (s.enterFrame type len).1.frameType, len, false⟩ ∧
      (s.enterFrame type len).1.fin = s.fin := by
  -- every branch is a local operation behind the entered frame
  have hbranch : ∀ (b : RequestStream) (op : RequestStream → RequestStream) (flow : Flow), Local op →
      b.place = ⟨s.avail, true, b.frameType, len, false⟩ → b.fin = s.fin →
      (op (b.placed ⟨avail, true, b.frameType, len, false⟩), flow) =
          ((op b).placed ⟨avail, true, (op b).frameType, len, false⟩, flow) ∧
        (op b).place = ⟨s.avail, true, (op b).frameType, len, false⟩ ∧ (op b).fin = s.fin := by
    intro b op flow hop hplace hfin
    have htype : (op b).frameType = b.frameType := congrArg Place.frameType (hop.place b)
    rw [hop.placed, hop.place, htype, hplace, hop.fin]
    exact ⟨rfl, rfl, hfin⟩
  have hid : Local id := ⟨fun _ _ => rfl, fun _ => rfl⟩
  unfold enterFrame
  rw [h]
  show (if type = 0x01 then
      if len > s.env.maxHeaderSize then if !s.headersDone then _ else _ else _
    else if type = 0x00 then if !s.headersDone then _ else _
    else if true = true then _ else _) = _ ∧ _
  dsimp only
  split
  · split
    · split
      · exact hbranch { s with inFrame := true, frameRemaining := len, unknown := false, payload := [],
                               frameType := .headers } _ .leave (local_failStream 431) rfl rfl
      exact hbranch { s with inFrame := true, frameRemaining := len, unknown := false, payload := [],
                             frameType := .skipped } _ .goOn hid rfl rfl
    · exact hbranch { s with inFrame := true, frameRemaining := len, unknown := false, payload := [],
                             frameType := .headers, trailers := s.headersDone || s.trailers } _ .goOn
        hid rfl rfl
  · split
    · split
      · exact hbranch { s with inFrame := true, frameRemaining := len, unknown := false,
                               frameType := .data } _ .leave (local_connectionError 0x105) rfl rfl
      exact hbranch { s with inFrame := true, frameRemaining := len, unknown := false,
                             frameType := .data } _ .goOn hid rfl rfl
    · exact hbranch { s with inFrame := true, frameRemaining := len, unknown := false,
                             frameType := .skipped } _ .leave (local_connectionError 0x105) rfl rfl

theorem Related.headerRound (h : Related m s p) (hin : s.inFrame = false) : Matches d m s p := by
  obtain ⟨hpin, -⟩ := h.same (fun ht => absurd (hin.symm.trans ht) (by simp))
  have hpin' : p.inFrame = false := hpin.trans hin
  have havail := h.avail
  have hmode := h.mode
  rw [mode_idle hin] at havail hmode
  have hround : s.round d = s.headerRound := round_idle hin
  have hround' : (s.placed p).round d = (s.placed p).headerRound := round_idle hpin'
  -- both stop when the other stream has no bytes
  have hstop : s.headerRound = (s, .stop) → p.avail = [] → Matches d m s p := by
    intro hs hp
    refine .inr ⟨s, .stop, p, hround.trans hs, ?_, h⟩
    exact round_idle_empty d hpin' hp
  by_cases hempty : s.avail = []
  · apply hstop
    · unfold RequestStream.headerRound
      rw [hempty]
      rfl
    · rw [havail, hempty]
      rfl
  · have hne : s.avail.isEmpty = false := by simpa using hempty
    cases hread : readFrameHeader s.avail with
    | none =>
      -- a header that is not complete waits, kept or not
      apply hstop
      · unfold RequestStream.headerRound atEnd
        rw [hne, hread]
        simp
      · rw [havail, sieve.sift_incomplete (sieve_read_none hread)]
    | some tln =>
      obtain ⟨type, len, n⟩ := tln
      have hsift := sieve.sift_header (sieve_read_some hread)
      rw [hsift] at havail hmode
      obtain ⟨hn, hle⟩ := frameHeader.le_length hread
      have htake : (s.avail.take n).length = n := by
        rw [List.length_take]
        omega
      cases hknown : knownType type with
      | false =>
        -- an unknown frame: the other stream does not see it
        rw [hknown, if_neg (by simp), List.nil_append] at havail
        rw [hknown] at hmode
        left
        have hfree : type ≠ 0x01 ∧ type ≠ 0x00 := by
          constructor
          · rintro rfl
            cases hknown
          · rintro rfl
            cases hknown
        refine ⟨{ s.consume n with inFrame := true, frameRemaining := len, unknown := true,
                                   frameType := .skipped }, ?_, rfl, ?_⟩
        · rw [hround]
          unfold RequestStream.headerRound enterFrame
          rw [hne, hread]
          simp only [Bool.false_eq_true, if_false, hfree.1, hfree.2, hknown, Bool.not_false]
        · refine ⟨?_, ?_, fun _ _ => ⟨rfl, hpin'⟩, fun hs => absurd (hs rfl) (by simp), h.whole⟩
          · exact havail
          · exact hmode
      | true =>
        rw [hknown, if_pos rfl] at havail
        rw [hknown] at hmode
        have hpread : readFrameHeader p.avail = some (type, len, n) := by
          rw [havail]
          exact frameHeader.stable hread _
        have hpdrop : p.avail.drop n = (sieve.sift (.inside true len) (s.avail.drop n)).2 := by
          rw [havail]
          exact List.drop_left' htake
        have hpne : p.avail.isEmpty = false := by
          rw [havail]
          cases hc : s.avail.take n with
          | nil =>
            rw [hc] at htake
            exact absurd htake (by simp only [List.length_nil]; omega)
          | cons b bs => rfl
        -- a known frame: both enter it
        obtain ⟨hplaced, hplace, hfin⟩ := enterFrame_known (s.consume n) (p.avail.drop n) p len hknown
        refine .inr ⟨((s.consume n).enterFrame type len).1, ((s.consume n).enterFrame type len).2,
          ⟨p.avail.drop n, true, ((s.consume n).enterFrame type len).1.frameType, len, false⟩, ?_, ?_, ?_⟩
        · rw [hround]
          unfold RequestStream.headerRound
          rw [hne, hread]
          rfl
        · rw [hround']
          unfold RequestStream.headerRound
          rw [show (s.placed p).avail = p.avail from rfl, hpne, hpread]
          exact hplaced
        · have h₁ : ((s.consume n).enterFrame type len).1.avail = s.avail.drop n :=
            congrArg Place.avail hplace
          have h₂ : ((s.consume n).enterFrame type len).1.inFrame = true :=
            congrArg Place.inFrame hplace
          have h₃ : ((s.consume n).enterFrame type len).1.frameRemaining = len :=
            congrArg Place.frameRemaining hplace
          have h₄ : ((s.consume n).enterFrame type len).1.unknown = false :=
            congrArg Place.unknown hplace
          have hmode' : ((s.consume n).enterFrame type len).1.mode = .inside true len := by
            rw [mode_inside h₂, h₃, h₄]
            rfl
          refine ⟨?_, ?_, ?_, ?_, ?_⟩
          · rw [hmode', h₁]
            exact hpdrop
          · rw [hmode', h₁]
            exact hmode
          · intro _ hu
            cases h₄.symm.trans hu
          · intro _
            exact ⟨h₂.symm, fun _ => ⟨rfl, h₃.symm⟩⟩
          · rw [hfin]
            exact h.whole

/-- A frame is left with its last byte. -/
theorem sift_left {r : Nat} (hin : t.inFrame = !decide (r = 0)) (hr : t.frameRemaining = r) :
    (sieve.sift t.mode t.avail).2 = (sieve.sift (.inside (!t.unknown) r) t.avail).2 ∧
      (sieve.sift t.mode t.avail).1.norm = (sieve.sift (.inside (!t.unknown) r) t.avail).1.norm := by
  cases r with
  | zero =>
    rw [mode_idle hin]
    have h := sieve.sift_norm (.inside (!t.unknown) 0) t.avail
    exact ⟨h.1.symm, h.2.symm⟩
  | succ r =>
    rw [mode_inside hin, hr]
    exact ⟨rfl, rfl⟩

/-- The round over skipped payload. -/
theorem skippedRound_take {take : Nat}
    (htake : min s.avail.length s.frameRemaining = take) (hne : take ≠ 0) (hin : s.inFrame = true) :
    s.skippedRound =
      ({ s.consume take with frameRemaining := s.frameRemaining - take,
                             inFrame := !decide (s.frameRemaining - take = 0) }, .goOn) := by
  unfold skippedRound
  rw [htake]
  rw [if_neg hne]
  by_cases hz : s.frameRemaining - take = 0
  · rw [if_pos hz]
    simp only [hz, decide_true, Bool.not_true]
  rw [if_neg hz]
  simp only [hz, decide_false, Bool.not_false]
  rw [← hin]
  rfl

/-- Inside an unknown frame the other stream waits. -/
theorem Related.unknownRound
    (h : Related m s p) (hin : s.inFrame = true) (hu : s.unknown = true) (hclear : s.Clear) :
    Matches d m s p := by
  obtain ⟨hf, hpin⟩ := h.skips hin hu
  have havail := h.avail
  have hmode := h.mode
  rw [mode_inside hin, hu] at havail hmode
  have hround : s.round d = s.skippedRound := round_skipped hin hf
  by_cases htake : min s.avail.length s.frameRemaining = 0
  · -- no payload is there: the frame is not at its end, or no byte follows it
    have hempty : s.avail = [] := by
      rcases Nat.eq_zero_or_pos s.frameRemaining with hz | hpos
      · exact hclear.1 hin hf hz
      rw [← List.length_eq_zero_iff]
      omega
    refine .inr ⟨s, .stop, p, ?_, ?_, h⟩
    · rw [hround]
      unfold skippedRound
      rw [htake]
      rfl
    · apply round_idle_empty d hpin
      show p.avail = []
      rw [havail, hempty]
      rfl
  · left
    obtain ⟨hout, hnorm⟩ := sieve.sift_payload false (Nat.min_le_right s.avail.length s.frameRemaining)
      (Nat.min_le_left s.avail.length s.frameRemaining)
    generalize hk : min s.avail.length s.frameRemaining = take at htake hout hnorm
    rw [if_neg (by simp), List.nil_append] at hout
    refine ⟨_, hround.trans (skippedRound_take hk htake hin), rfl, ?_⟩
    have hleft := sift_left (t := { s.consume take with
      frameRemaining := s.frameRemaining - take, inFrame := !decide (s.frameRemaining - take = 0) })
      rfl rfl
    rw [show RequestStream.unknown { s.consume take with
      frameRemaining := s.frameRemaining - take,
      inFrame := !decide (s.frameRemaining - take = 0) } = true from hu] at hleft
    refine ⟨?_, ?_, ?_, ?_, h.whole⟩
    · rw [hleft.1]
      exact havail.trans hout
    · rw [hleft.2]
      exact hmode.trans hnorm
    · intro _ _
      exact ⟨hf, hpin⟩
    · intro hs
      -- the frame is left, or it is still unknown
      refine ⟨?_, ?_⟩
      · rw [hpin]
        cases hi : (!decide (s.frameRemaining - take = 0)) with
        | false => rfl
        | true => cases hu.symm.trans (hs hi)
      · intro hi
        cases hu.symm.trans (hs hi)

/-- Inside a known frame the other stream is in the same frame. -/
theorem Related.known (h : Related m s p) (hin : s.inFrame = true) (hu : s.unknown = false) :
    p = ⟨p.avail, true, s.frameType, s.frameRemaining, p.unknown⟩ ∧
      p.avail = (sieve.sift (.inside true s.frameRemaining) s.avail).2 ∧
      m.norm = (sieve.sift (.inside true s.frameRemaining) s.avail).1.norm := by
  obtain ⟨h₁, h₂⟩ := h.same (fun _ => hu)
  obtain ⟨h₃, h₄⟩ := h₂ hin
  have havail := h.avail
  have hmode := h.mode
  rw [mode_inside hin, hu] at havail hmode
  refine ⟨?_, havail, hmode⟩
  obtain ⟨pa, pi, pf, pr, pu⟩ := p
  simp only [Place.mk.injEq, true_and, and_true]
  exact ⟨h₁.trans hin, h₃, h₄⟩

theorem Related.placed_known (h : Related m s p) (hin : s.inFrame = true) (hu : s.unknown = false) :
    (s.placed p).inFrame = true ∧ (s.placed p).frameType = s.frameType ∧
      (s.placed p).frameRemaining = s.frameRemaining ∧
      min (s.placed p).avail.length (s.placed p).frameRemaining = min s.avail.length s.frameRemaining := by
  obtain ⟨hp, havail, -⟩ := h.known hin hu
  have hmin := (sift_inside s.frameRemaining s.avail).1
  rw [← havail] at hmin
  rw [← hmin, hp]
  exact ⟨rfl, rfl, rfl, rfl⟩

/-- Payload of a known frame is consumed by both. -/
theorem Related.advance (h : Related m s p) (hin : s.inFrame = true) (hu : s.unknown = false)
    (hk : k ≤ min s.avail.length s.frameRemaining) (ha : t.avail = s.avail.drop k)
    (hr : t.frameRemaining = s.frameRemaining - k) (ht : t.unknown = false)
    (hi : t.inFrame = true ∨ s.frameRemaining - k = 0) (hfin : t.fin = s.fin) :
    Related m t ⟨p.avail.drop k, t.inFrame, t.frameType, t.frameRemaining, p.unknown⟩ := by
  obtain ⟨-, havail, hmode⟩ := h.known hin hu
  have hdrop := ((sift_inside s.frameRemaining s.avail).2 k hk).2
  have hnorm := (sieve.sift_payload true (n := s.frameRemaining) (k := k) (l := s.avail)
    (by omega) (by omega)).2
  -- the sieve is where the frame is, left or not
  have hsift : (sieve.sift t.mode t.avail).2 =
        (sieve.sift (.inside true (s.frameRemaining - k)) (s.avail.drop k)).2 ∧
      (sieve.sift t.mode t.avail).1.norm =
        (sieve.sift (.inside true (s.frameRemaining - k)) (s.avail.drop k)).1.norm := by
    rw [ha]
    cases htin : t.inFrame with
    | true =>
      rw [mode_inside htin, ht, hr]
      exact ⟨rfl, rfl⟩
    | false =>
      have hz : s.frameRemaining - k = 0 := by
        rcases hi with hi | hz
        · cases htin.symm.trans hi
        · exact hz
      rw [mode_idle htin, hz]
      have hn := sieve.sift_norm (.inside true 0) (s.avail.drop k)
      exact ⟨hn.1.symm, hn.2.symm⟩
  refine ⟨?_, ?_, ?_, ?_, ?_⟩
  · rw [hsift.1, ← hdrop, ← havail]
  · rw [hsift.2, ← hnorm]
    exact hmode
  · intro _ hun
    cases ht.symm.trans hun
  · intro _
    exact ⟨rfl, fun _ => ⟨rfl, rfl⟩⟩
  · rw [hfin]
    exact h.whole

/-- Payload of a known frame that stays. -/
theorem Related.advance_inside (h : Related m s p) (hin : s.inFrame = true) (hu : s.unknown = false)
    (hk : k ≤ min s.avail.length s.frameRemaining) (h₁ : t.avail = s.avail.drop k)
    (h₂ : t.frameRemaining = s.frameRemaining - k) (h₃ : t.unknown = s.unknown)
    (h₄ : t.inFrame = s.inFrame) (h₅ : t.frameType = s.frameType) (h₆ : t.fin = s.fin) :
    Related m t ⟨p.avail.drop k, true, s.frameType, s.frameRemaining - k, p.unknown⟩ := by
  have hrel := h.advance hin hu hk h₁ h₂ (h₃.trans hu) (.inl (h₄.trans hin)) h₆
  rwa [h₄, h₅, h₂, hin] at hrel

theorem Related.skippedRound (h : Related m s p) (hin : s.inFrame = true) (hu : s.unknown = false)
    (hf : s.frameType = .skipped) : Matches d m s p := by
  obtain ⟨hp, -⟩ := h.known hin hu
  obtain ⟨hpin, hpf, -, hpmin⟩ := h.placed_known hin hu
  by_cases htake : min s.avail.length s.frameRemaining = 0
  · refine .inr ⟨s, .stop, p, ?_, ?_, h⟩
    · rw [round_skipped hin hf]
      unfold RequestStream.skippedRound
      rw [htake]
      rfl
    · rw [round_skipped hpin (hpf.trans hf)]
      unfold RequestStream.skippedRound
      rw [hpmin, htake]
      rfl
  · generalize hk : min s.avail.length s.frameRemaining = take at htake hpmin
    have hs := (round_skipped (d := d) hin hf).trans (skippedRound_take hk htake hin)
    have hs' := (round_skipped (d := d) hpin (hpf.trans hf)).trans (skippedRound_take hpmin htake hpin)
    refine .inr ⟨_, _, _, hs, ?_, h.advance hin hu (k := take) (Nat.le_of_eq hk.symm) rfl rfl hu ?_ rfl⟩
    · rw [hs', hp]
      rfl
    · by_cases hz : s.frameRemaining - take = 0
      · exact .inr hz
      left
      simp only [hz, decide_false, Bool.not_false]

/-- The end of a section, seen by both streams at the same time. -/
theorem Related.endOfSection
    (h : Related m s p) (hend : s.trailers = false → s.atEnd = (s.fin && p.avail.isEmpty)) :
    (if s.trailers then (s.placed p).decodeTrailers d else (s.placed p).beginRequest d) =
        (if s.trailers then s.decodeTrailers d else s.beginRequest d).placed p ∧
      Related m (if s.trailers then s.decodeTrailers d else s.beginRequest d) p := by
  cases ht : s.trailers with
  | true =>
    rw [if_pos rfl, if_pos rfl]
    exact ⟨(local_decodeTrailers d).placed s p, h.op (local_decodeTrailers d)⟩
  | false =>
    rw [if_neg (by simp), if_neg (by simp)]
    unfold RequestStream.beginRequest
    have hatEnd : (s.placed p).atEnd = s.atEnd := (hend ht).symm
    rw [hatEnd]
    exact ⟨(local_beginRequestAt d _).placed s p, h.op (local_beginRequestAt d _)⟩

theorem Related.headersRound (h : Related m s p) (hin : s.inFrame = true) (hu : s.unknown = false)
    (hf : s.frameType = .headers) (hclear : s.Clear) : Matches d m s p := by
  obtain ⟨hp, havail, -⟩ := h.known hin hu
  obtain ⟨hmin, hpay⟩ := sift_inside s.frameRemaining s.avail
  rw [← havail] at hmin hpay
  obtain ⟨hpin, hpf, hprem, hpmin⟩ := h.placed_known hin hu
  unfold Matches
  rw [round_headers hin hf, round_headers hpin (hpf.trans hf)]
  unfold RequestStream.headersRound
  dsimp only
  rw [hpmin, hprem]
  generalize hk : min s.avail.length s.frameRemaining = take at hpay
  obtain ⟨hchunk, hrest⟩ := hpay take le_rfl
  rw [show (s.placed p).avail = p.avail from rfl, hchunk]
  by_cases hstop : take = 0 ∧ s.frameRemaining ≠ 0
  · rw [if_pos hstop, if_pos hstop]
    exact .inr ⟨s, .stop, p, rfl, rfl, h⟩
  rw [if_neg hstop, if_neg hstop]
  by_cases hz : s.frameRemaining - take = 0
  · rw [if_pos hz, if_pos hz]
    -- the section is complete
    have hadv := h.advance hin hu (k := take) (Nat.le_of_eq hk.symm)
      (t := { s.consume take with
        section_ := s.section_ ++ s.avail.take take, payload := s.payload ++ s.avail.take take
        frameRemaining := s.frameRemaining - take, inFrame := false }) rfl rfl hu (.inr hz) rfl
    have hall : take = s.frameRemaining := by omega
    have hend := hadv.endOfSection d (by
      intro ht
      show (s.fin && (s.avail.drop take).isEmpty) = (s.fin && (p.avail.drop take).isEmpty)
      cases hfin : s.fin with
      | false => rfl
      | true =>
        rw [Bool.true_and, Bool.true_and, Bool.eq_iff_iff, List.isEmpty_iff, List.isEmpty_iff, hrest]
        have hn := (sieve.sift_norm (.inside true (s.frameRemaining - take)) (s.avail.drop take)).1
        rw [hz] at hn ⊢
        rw [hn]
        refine ⟨fun hnil => by rw [hnil]; rfl, fun hnil => ?_⟩
        have hc := hclear.2 hin hf ht (by omega) hfin
        rw [← hall] at hc
        exact hc hnil)
    refine .inr ⟨_, .goOn, _, rfl, ?_, hend.2⟩
    refine congrArg (·, Flow.goOn) (Eq.trans ?_ hend.1)
    rw [hp]
    rfl
  · rw [if_neg hz, if_neg hz]
    refine .inr ⟨_, .goOn, _, rfl, ?_, h.advance_inside hin hu (Nat.le_of_eq hk.symm)
      rfl rfl rfl rfl rfl rfl⟩
    rw [hp]
    rfl

/-- The handler's read, and the answer to a body above the limit. -/
theorem Related.dataRound (h : Related m s p) (hin : s.inFrame = true) (hu : s.unknown = false)
    (hf : s.frameType = .data) : Matches d m s p := by
  obtain ⟨hp, havail, -⟩ := h.known hin hu
  obtain ⟨hmin, hpay⟩ := sift_inside s.frameRemaining s.avail
  rw [← havail] at hmin hpay
  obtain ⟨hpin, hpf, hprem, -⟩ := h.placed_known hin hu
  unfold Matches
  rw [round_data hin hf, round_data hpin (hpf.trans hf)]
  unfold RequestStream.dataRound
  rw [hprem]
  by_cases hz : s.frameRemaining = 0
  · -- the frame is left
    rw [if_pos hz, if_pos hz]
    refine .inr ⟨_, .goOn, _, rfl, ?_, h.advance hin hu (k := 0) (Nat.zero_le _) rfl rfl hu
      (.inr (by omega)) rfl⟩
    rw [hp]
    rfl
  rw [if_neg hz, if_neg hz]
  rw [show (s.placed p).pending = s.pending from rfl]
  cases hpend : s.pending with
  | some room =>
    dsimp only
    have htake : min (min (s.placed p).avail.length room) s.frameRemaining =
        min (min s.avail.length room) s.frameRemaining := by
      rw [show (s.placed p).avail = p.avail from rfl]
      omega
    rw [htake]
    generalize hk : min (min s.avail.length room) s.frameRemaining = take
    have hle : take ≤ min s.avail.length s.frameRemaining := by omega
    rw [show (s.placed p).avail = p.avail from rfl, (hpay take hle).1]
    by_cases hzero : take = 0
    · rw [if_pos hzero, if_pos hzero]
      exact .inr ⟨s, .stop, p, rfl, rfl, h⟩
    rw [if_neg hzero, if_neg hzero]
    rw [show (s.placed p).bodyReceived = s.bodyReceived from rfl,
      show (s.placed p).bodyLimit = s.bodyLimit from rfl, show (s.placed p).responded = s.responded from rfl,
      show (s.placed p).delivered = s.delivered from rfl]
    by_cases hlimit : s.bodyReceived + take > s.bodyLimit
    · rw [if_pos hlimit, if_pos hlimit]
      by_cases hresp : (!s.responded) = true
      · rw [if_pos hresp, if_pos hresp]
        have hlocal : Local fun t => { t.failStream 413 with pending := none } := by
          have hdrop : Local fun t => { t with pending := none } := ⟨fun _ _ => rfl, fun _ => rfl⟩
          exact hdrop.comp (local_failStream 413)
        refine .inr ⟨_, .leave, _, rfl, ?_, (h.advance_inside (t := { s.consume take with
          frameRemaining := s.frameRemaining - take, bodyReceived := s.bodyReceived + take })
          hin hu hle rfl rfl rfl rfl rfl rfl).op hlocal⟩
        refine congrArg (·, Flow.leave) (Eq.trans ?_ (hlocal.placed _ _))
        rw [hp]
        rfl
      · rw [if_neg hresp, if_neg hresp]
        refine .inr ⟨_, .leave, _, rfl, ?_, h.advance_inside hin hu hle rfl rfl rfl rfl rfl rfl⟩
        rw [hp]
        rfl
    · rw [if_neg hlimit, if_neg hlimit]
      refine .inr ⟨_, .goOn, _, rfl, ?_, h.advance_inside hin hu hle rfl rfl rfl rfl rfl rfl⟩
      rw [hp]
      rfl
  | none =>
    rw [show (s.placed p).responded = s.responded from rfl]
    by_cases hresp : s.responded = true
    · rw [if_pos hresp, if_pos hresp]
      have htake : min (s.placed p).avail.length s.frameRemaining =
          min s.avail.length s.frameRemaining := hmin
      rw [htake]
      generalize hk : min s.avail.length s.frameRemaining = take
      by_cases hzero : take = 0
      · rw [if_pos hzero, if_pos hzero]
        exact .inr ⟨s, .stop, p, rfl, rfl, h⟩
      rw [if_neg hzero, if_neg hzero]
      rw [show (s.placed p).discarded = s.discarded from rfl,
        show (s.placed p).stopReceived = s.stopReceived from rfl]
      by_cases hmax : (decide (s.discarded + take > kDiscardMax) && !s.stopReceived) = true
      · rw [if_pos hmax, if_pos hmax]
        refine .inr ⟨_, .leave, _, rfl, ?_, (h.advance_inside (t := { s.consume take with
          frameRemaining := s.frameRemaining - take, discarded := s.discarded + take
          finDelivered := true, bodyDone := true }) hin hu (Nat.le_of_eq hk.symm)
          rfl rfl rfl rfl rfl rfl).op local_maybeClose⟩
        refine congrArg (·, Flow.leave) (Eq.trans ?_ (local_maybeClose.placed _ _))
        rw [hp]
        rfl
      · rw [if_neg hmax, if_neg hmax]
        refine .inr ⟨_, .goOn, _, rfl, ?_, h.advance_inside hin hu (Nat.le_of_eq hk.symm)
          rfl rfl rfl rfl rfl rfl⟩
        rw [hp]
        rfl
    · rw [if_neg hresp, if_neg hresp]
      exact .inr ⟨s, .stop, p, rfl, rfl, h⟩

/-- **Round lemma.**  A clear round is nothing, or the same round, for the other stream. -/
theorem Related.round (h : Related m s p) (hclear : s.Clear) : Matches d m s p := by
  cases hin : s.inFrame with
  | false => exact h.headerRound d hin
  | true =>
    cases hu : s.unknown with
    | true => exact h.unknownRound d hin hu hclear
    | false =>
      cases hf : s.frameType with
      | headers => exact h.headersRound d hin hu hf hclear
      | data => exact h.dataRound d hin hu hf
      | skipped => exact h.skippedRound d hin hu hf

/-! ## §4. Why a pump ends. -/

/-- Body bytes are for the handler to ask for: it has not answered and was not given up with the
    client's STOP_SENDING, or it asked for no bytes. -/
def Unread (s : RequestStream) : Prop :=
  s.inFrame = true ∧ s.frameType = .data ∧ s.frameRemaining ≠ 0 ∧
    (s.pending = none ∧ s.responded = false ∧ s.stopReceived = false ∨ s.pending = some 0)

instance (s : RequestStream) : Decidable s.Unread :=
  inferInstanceAs (Decidable (_ ∧ _ ∧ ¬ _ ∧ (_ ∧ _ ∧ _ ∨ _)))

/-- A stream that has nothing to do: it is halted or its receiving side is over (the end was seen, the
    client reset it, the server gave the rest up), or its bytes are an incomplete frame header or are
    for the handler to ask for. -/
def Waits (s : RequestStream) : Prop :=
  s.halted = true ∨ s.finDelivered = true ∨ s.avail = [] ∨
    (s.inFrame = false ∧ readFrameHeader s.avail = none) ∨ s.Unread

instance (s : RequestStream) : Decidable s.Waits :=
  inferInstanceAs (Decidable (_ ∨ _ ∨ _ ∨ _ ∧ _ ∨ s.Unread))

theorem Waits.congr (h : s.Waits) (hp : t.place = s.place)
    (hh : s.halted = true → t.halted = true) (hd : s.finDelivered = true → t.finDelivered = true)
    (hw : t.pending = s.pending ∧ t.responded = s.responded ∧ t.stopReceived = s.stopReceived) : t.Waits := by
  unfold place at hp
  simp only [Place.mk.injEq] at hp
  obtain ⟨h₁, h₂, h₃, h₄, -⟩ := hp
  unfold Waits Unread
  rw [h₁, h₂, h₃, h₄, hw.1, hw.2.1, hw.2.2]
  exact h.imp hh fun h => h.imp hd id

theorem dataRound_stop (h : s.dataRound.2 = .stop) : s.dataRound = (s, .stop) ∧ s.frameRemaining ≠ 0 ∧
      (s.avail = [] ∨ s.pending = none ∧ s.responded = false ∨ s.pending = some 0) := by
  unfold RequestStream.dataRound at h ⊢
  by_cases hz : s.frameRemaining = 0
  · rw [if_pos hz] at h
    simp at h
  rw [if_neg hz] at h ⊢
  cases hp : s.pending with
  | some room =>
    rw [hp] at h
    dsimp only at h ⊢
    split at h
    next hzero =>
      refine ⟨by rw [if_pos hzero], hz, ?_⟩
      by_cases hroom : room = 0
      · exact .inr (.inr (congrArg some hroom))
      · exact .inl (List.length_eq_zero_iff.mp (by omega))
    · split at h <;> simp at h
  | none =>
    rw [hp] at h
    dsimp only at h ⊢
    split at h
    next hresp =>
      rw [if_pos hresp]
      split at h
      next hzero => exact ⟨by rw [if_pos hzero], hz, .inl (List.length_eq_zero_iff.mp (by omega))⟩
      · split at h <;> simp at h
    next hresp =>
      rw [if_neg hresp]
      exact ⟨rfl, hz, .inr (.inl ⟨rfl, by simpa using hresp⟩)⟩

theorem enterFrame_goes (s : RequestStream) (type len : Nat) : (s.enterFrame type len).2 ≠ .stop := by
  unfold enterFrame
  dsimp only
  repeat' split
  all_goals simp

/-- A round that stops changes nothing, and why it stops. -/
theorem round_stop (h : (s.round d).2 = .stop) : s.round d = (s, .stop) ∧
      (s.avail = [] ∨ (s.inFrame = false ∧ readFrameHeader s.avail = none) ∨
        (s.inFrame = true ∧ s.frameType = .data ∧ s.frameRemaining ≠ 0 ∧
          (s.pending = none ∧ s.responded = false ∨ s.pending = some 0)) ∨
        (s.inFrame = true ∧ s.frameType = .skipped ∧ s.frameRemaining = 0)) := by
  cases hin : s.inFrame with
  | false =>
    rw [round_idle hin] at h ⊢
    unfold RequestStream.headerRound at h ⊢
    split
    next hempty => exact ⟨rfl, .inl (List.isEmpty_iff.mp hempty)⟩
    next hne =>
      rw [if_neg hne] at h
      split
      next hread =>
        rw [hread] at h
        split
        next hend =>
          rw [if_pos hend] at h
          simp at h
        · exact ⟨rfl, .inr (.inl ⟨rfl, hread⟩)⟩
      next hread =>
        rw [hread] at h
        exact absurd h (enterFrame_goes _ _ _)
  | true =>
    cases hf : s.frameType with
    | headers =>
      rw [round_headers hin hf] at h ⊢
      unfold RequestStream.headersRound at h ⊢
      dsimp only at h ⊢
      split
      next hstop =>
        refine ⟨rfl, .inl (List.length_eq_zero_iff.mp ?_)⟩
        omega
      next hgo =>
        rw [if_neg hgo] at h
        split at h <;> simp at h
    | data =>
      rw [round_data hin hf] at h ⊢
      obtain ⟨hs, hr, hav | hleft⟩ := dataRound_stop h
      · exact ⟨hs, .inl hav⟩
      · exact ⟨hs, .inr (.inr (.inl ⟨rfl, rfl, hr, hleft⟩))⟩
    | skipped =>
      rw [round_skipped hin hf] at h ⊢
      unfold RequestStream.skippedRound at h ⊢
      dsimp only at h ⊢
      split
      next htake =>
        refine ⟨rfl, ?_⟩
        rcases Nat.eq_zero_or_pos s.frameRemaining with hz | hpos
        · exact .inr (.inr (.inr ⟨rfl, rfl, hz⟩))
        · exact .inl (List.length_eq_zero_iff.mp (by omega))
      next hgo =>
        rw [if_neg hgo] at h
        split at h <;> simp at h

/-- Why a clear round stops. -/
theorem round_stop_cases (h : s.round d = (s, .stop)) (hclear : s.Clear) :
    s.avail = [] ∨ (s.inFrame = false ∧ readFrameHeader s.avail = none) ∨
      (s.inFrame = true ∧ s.frameType = .data ∧ s.frameRemaining ≠ 0 ∧
        (s.pending = none ∧ s.responded = false ∨ s.pending = some 0)) := by
  rcases (round_stop d (by rw [h])).2 with h | h | h | ⟨hin, hf, hz⟩
  · exact .inl h
  · exact .inr (.inl h)
  · exact .inr (.inr h)
  · exact .inl (hclear.1 hin hf hz)

theorem connectionError_halted (s : RequestStream) (code : Nat) : (s.connectionError code).halted = true := by
  unfold RequestStream.connectionError halted
  split
  next h => rw [h, Bool.or_true, Bool.true_or]
  · simp only [Bool.or_true, Bool.true_or]

/-- The condition on what a round leaves behind: an answer of the pump itself (431 for a section over
    the limit, 413 for a body over it) has no bytes behind it, and no body bytes come for a handler that
    the client's STOP_SENDING took away. -/
def Settles (s : RequestStream) : Prop :=
  (s.inFrame = false → s.headersDone = false → ∀ x ∈ readFrameHeader s.avail, x.1 = 0x01 →
    x.2.1 > s.env.maxHeaderSize → s.avail.drop x.2.2 = []) ∧
  (s.inFrame = true → s.frameType = .data → s.frameRemaining ≠ 0 →
    (∀ room ∈ s.pending, min (min s.avail.length room) s.frameRemaining ≠ 0 →
      s.bodyReceived + min (min s.avail.length room) s.frameRemaining > s.bodyLimit →
      s.avail.drop (min (min s.avail.length room) s.frameRemaining) = []) ∧
    (s.pending = none → s.responded = false → s.stopReceived = true → s.avail = []))

instance (s : RequestStream) : Decidable s.Settles :=
  inferInstanceAs (Decidable ((_ → _ → ∀ x ∈ readFrameHeader s.avail, _ → _ → _) ∧
    (_ → _ → ¬ _ → (∀ room ∈ s.pending, ¬ _ → _ → _) ∧ (_ → _ → _ → _))))

/-- What a round leaves the pump with. -/
theorem round_leave (hsettles : s.Settles) (h : (s.round d).2 = .leave) : (s.round d).1.Waits := by
  cases hin : s.inFrame with
  | false =>
    rw [round_idle hin] at h ⊢
    unfold RequestStream.headerRound at h ⊢
    split
    next hempty =>
      rw [if_pos hempty] at h
      simp at h
    next hempty =>
      rw [if_neg hempty] at h
      split
      next hread =>
        rw [hread] at h
        split
        · exact .inl (connectionError_halted _ _)
        next hend =>
          rw [if_neg hend] at h
          simp at h
      next type len n hread =>
        rw [hread] at h
        unfold enterFrame at h ⊢
        dsimp only at h ⊢
        split
        next htype =>
          rw [if_pos htype] at h
          split
          next hbig =>
            rw [if_pos hbig] at h
            split
            next hdone =>
              -- 431: nothing is behind the header
              have hfirst : s.headersDone = false := by
                have h : (!s.headersDone) = true := hdone
                simpa using h
              have hrest : s.avail.drop n = [] := hsettles.1 hin hfirst (type, len, n) hread htype hbig
              exact .inr (.inr (.inl ((congrArg Place.avail ((local_failStream 431).place _)).trans hrest)))
            next hdone =>
              rw [if_neg hdone] at h
              simp at h
          next hbig =>
            rw [if_neg hbig] at h
            simp at h
        next htype =>
          rw [if_neg htype] at h
          split
          next hdata =>
            rw [if_pos hdata] at h
            split
            · exact .inl (connectionError_halted _ _)
            next hdone =>
              rw [if_neg hdone] at h
              simp at h
          next hdata =>
            rw [if_neg hdata] at h
            split
            · exact .inl (connectionError_halted _ _)
            next hknown =>
              rw [if_neg hknown] at h
              simp at h
  | true =>
    cases hf : s.frameType with
    | headers =>
      rw [round_headers hin hf] at h
      unfold RequestStream.headersRound at h
      dsimp only at h
      split at h
      · simp at h
      · split at h <;> simp at h
    | data =>
      rw [round_data hin hf] at h ⊢
      unfold RequestStream.dataRound at h ⊢
      by_cases hz : s.frameRemaining = 0
      · rw [if_pos hz] at h
        simp at h
      rw [if_neg hz] at h ⊢
      cases hp : s.pending with
      | some room =>
        rw [hp] at h
        dsimp only at h ⊢
        split
        next hzero =>
          rw [if_pos hzero] at h
          simp at h
        next hzero =>
          rw [if_neg hzero] at h
          split
          next hover =>
            -- 413, or the handler's answer was there first: the read took all there was
            have hrest := (hsettles.2 hin hf hz).1 room hp hzero hover
            refine .inr (.inr (.inl ?_))
            split
            · exact (congrArg Place.avail ((local_failStream 413).place _)).trans hrest
            · exact hrest
          next hlimit =>
            rw [if_neg hlimit] at h
            simp at h
      | none =>
        rw [hp] at h
        dsimp only at h ⊢
        split
        next hresp =>
          rw [if_pos hresp] at h
          split
          next hzero =>
            rw [if_pos hzero] at h
            simp at h
          next hzero =>
            rw [if_neg hzero] at h
            split
            · -- the rest is given up
              unfold maybeClose
              split
              · exact .inl rfl
              · exact .inr (.inl rfl)
            next hmax =>
              rw [if_neg hmax] at h
              simp at h
        next hresp =>
          rw [if_neg hresp] at h
          simp at h
    | skipped =>
      rw [round_skipped hin hf] at h
      unfold RequestStream.skippedRound at h
      dsimp only at h
      split at h
      · simp at h
      · split at h <;> simp at h

/-! ## §5. A pump. -/

/-- The condition on the rounds of a pump: each is clear and settles, and `n` of them are enough. -/
def PumpClear (d : Decoding) : Nat → RequestStream → Prop
  | 0, s => s.halted = true ∨ ((s.round d).2 = .stop ∧ s.Clear ∧ s.Settles)
  | n + 1, s => s.halted = true ∨
      (s.Clear ∧ s.Settles ∧ ((s.round d).2 = .goOn → PumpClear d n (s.round d).1))

instance PumpClear.decidable (d : Decoding) : (n : Nat) → (s : RequestStream) →
    Decidable (PumpClear d n s)
  | 0, _ => inferInstanceAs (Decidable (_ ∨ _ ∧ _ ∧ _))
  | n + 1, s =>
    have := PumpClear.decidable d n (s.round d).1
    inferInstanceAs (Decidable (_ ∨ _ ∧ _ ∧ (_ → PumpClear d n (s.round d).1)))

/-- The loop of a pump has ended for want of work. -/
def Rest (d : Decoding) (s : RequestStream) : Prop :=
  s.halted = true ∨ (s.round d = (s, .stop) ∧ s.Clear ∧ s.Settles)

theorem Rest.waits {d : Decoding} (h : s.Rest d) : s.Waits := by
  rcases h with h | ⟨h, hclear, hsettles⟩
  · exact .inl h
  rcases round_stop_cases d h hclear with h | h | ⟨hi, hf, hr, ⟨hp, ha⟩ | hp⟩
  · exact .inr (.inr (.inl h))
  · exact .inr (.inr (.inr (.inl h)))
  · cases hs : s.stopReceived with
    | true => exact .inr (.inr (.inl ((hsettles.2 hi hf hr).2 hp ha hs)))
    | false => exact .inr (.inr (.inr (.inr ⟨hi, hf, hr, .inl ⟨hp, ha, hs⟩⟩)))
  · exact .inr (.inr (.inr (.inr ⟨hi, hf, hr, .inr hp⟩)))

/-- The loop is left with something to wait for. -/
theorem pumpLoop_waits (n : Nat) (hc : s.PumpClear d n) :
    (s.pumpLoop d n).1.Waits ∧ ((s.pumpLoop d n).2 ≠ .leave → (s.pumpLoop d n).1.Rest d) := by
  induction n generalizing s with
  | zero =>
    have hrest : s.Rest d := hc.imp id fun h => ⟨(round_stop d h.1).1, h.2⟩
    exact ⟨hrest.waits, fun _ => hrest⟩
  | succ n ih =>
    unfold pumpLoop
    by_cases hh : s.halted = true
    · rw [if_pos hh]
      have hrest : s.Rest d := .inl hh
      exact ⟨hrest.waits, fun _ => hrest⟩
    · rw [if_neg hh]
      obtain ⟨hclear, hsettles, hnext⟩ := hc.resolve_left hh
      generalize hr : s.round d = r at hnext
      obtain ⟨t, flow⟩ := r
      cases flow with
      | goOn => exact ih (hnext rfl)
      | stop =>
        have hstop := (round_stop d (s := s) (by rw [hr])).1
        have hrest : s.Rest d := .inr ⟨hstop, hclear, hsettles⟩
        obtain rfl : t = s := congrArg Prod.fst (hr.symm.trans hstop)
        exact ⟨hrest.waits, fun _ => hrest⟩
      | leave =>
        have hleave := round_leave d hsettles (by rw [hr])
        rw [hr] at hleave
        exact ⟨hleave, fun h => absurd rfl h⟩

/-- **Loop lemma.**  The other stream makes the loop too, in as many rounds or fewer. -/
theorem pumpLoop_round (d : Decoding) (n : Nat) (hh : ¬ s.halted = true) :
    s.pumpLoop d (n + 1) = match s.round d with
      | (s', .goOn) => s'.pumpLoop d n
      | (s', flow) => (s', flow) := if_neg hh

theorem Related.pumpLoop {n : Nat} (hnk : n ≤ k) (h : Related m s p) (hc : s.PumpClear d n) :
    ∃ p', (s.placed p).pumpLoop d k = ((s.pumpLoop d n).1.placed p', (s.pumpLoop d n).2) ∧
      Related m (s.pumpLoop d n).1 p' := by
  induction n generalizing s p k with
  | zero =>
    rcases hc with hh | ⟨hflow, hclear, -⟩
    · refine ⟨p, ?_, h⟩
      cases k with
      | zero => rfl
      | succ k => exact if_pos hh
    · -- no round is left, and none would do anything
      cases k with
      | zero => exact ⟨p, rfl, h⟩
      | succ k =>
        have hstop := (round_stop d hflow).1
        by_cases hh : s.halted = true
        · exact ⟨p, if_pos hh, h⟩
        rcases h.round d hclear with ⟨t, ht, -⟩ | ⟨t, flow, p', ht, hp', hrel⟩
        · cases congrArg Prod.snd (ht.symm.trans hstop)
        obtain ⟨rfl, rfl⟩ := Prod.mk.inj (ht.symm.trans hstop)
        refine ⟨p', ?_, hrel⟩
        show (if (t.placed p).halted then _ else _) = _
        rw [if_neg (show ¬ (t.placed p).halted = true from hh), hp']
        rfl
  | succ n ih =>
    obtain ⟨k, rfl⟩ : ∃ k', k = k' + 1 := ⟨k - 1, by omega⟩
    by_cases hh : s.halted = true
    · refine ⟨p, ?_, ?_⟩
      · unfold RequestStream.pumpLoop
        rw [if_pos hh]
        exact if_pos hh
      · unfold RequestStream.pumpLoop
        rw [if_pos hh]
        exact h
    · obtain ⟨hclear, -, hnext⟩ := hc.resolve_left hh
      have hs := pumpLoop_round d n hh
      have hs' := pumpLoop_round (s := s.placed p) d k hh
      rcases h.round d hclear with ⟨t, ht, hsame, hrel⟩ | ⟨t, flow, p', ht, hp', hrel⟩
      · -- the round is inside an unknown frame
        rw [ht] at hs hnext
        rw [hs, ← hsame]
        exact ih (Nat.le_succ_of_le (by omega)) hrel (hnext rfl)
      · rw [ht] at hs hnext
        rw [hp'] at hs'
        rw [hs, hs']
        cases flow with
        | goOn => exact ih (by omega) hrel (hnext rfl)
        | stop => exact ⟨p', rfl, hrel⟩
        | leave => exact ⟨p', rfl, hrel⟩

/-- At rest behind the end of the stream both have consumed it, or neither has. -/
theorem Related.drained
    (h : Related m s p) (hstop : s.round d = (s, .stop)) (hclear : s.Clear) (hfin : s.fin = true)
    (hp : p.avail = []) : s.avail = [] := by
  rcases round_stop_cases d hstop hclear with hempty | ⟨hin, hread⟩ | ⟨hin, hf, hrem, -⟩
  · exact hempty
  · -- the stream does not end inside a frame header
    have hmode := h.mode
    rw [mode_idle hin, sieve.sift_incomplete (sieve_read_none hread), h.whole hfin] at hmode
    exact (FrameMode.between.inj hmode).symm
  · have hu : s.unknown = false := by
      cases hu : s.unknown with
      | false => rfl
      | true => cases (h.skips hin hu).1.symm.trans hf
    have hmin := (sift_inside s.frameRemaining s.avail).1
    rw [← (h.known hin hu).2.1, hp] at hmin
    rw [← List.length_eq_zero_iff]
    rw [List.length_nil] at hmin
    omega

/-- The stream ends behind a frame. -/
theorem Related.ends (h : Related m s p) (hfin : s.fin = true) (hav : s.avail = []) :
    (s.inFrame && decide (s.frameRemaining ≠ 0)) = false ∧
      (p.inFrame && decide (p.frameRemaining ≠ 0)) = false := by
  have hmode := h.mode
  rw [hav, h.whole hfin] at hmode
  cases hin : s.inFrame with
  | false =>
    refine ⟨rfl, ?_⟩
    rw [(h.same fun ht => absurd (hin.symm.trans ht) (by simp)).1, hin]
    rfl
  | true =>
    rw [mode_inside hin, sieve.sift_nil] at hmode
    have hzero : s.frameRemaining = 0 := by
      cases hr : s.frameRemaining with
      | zero => rfl
      | succ r =>
        rw [hr] at hmode
        simp [FrameMode.norm] at hmode
    refine ⟨by rw [hzero]; rfl, ?_⟩
    cases hu : s.unknown with
    | true =>
      rw [(h.skips hin hu).2]
      rfl
    | false =>
      rw [((h.same fun _ => hu).2 hin).2, hzero, Bool.and_eq_false_iff]
      exact .inr rfl

/-- What the end of the stream does, inside a frame or not. -/
def atEndOfPump (inside : Bool) (s : RequestStream) : RequestStream :=
  if inside then { s with finDelivered := true }.connectionError 0x106
  else if !s.headersDone then { s with finDelivered := true, bodyDone := true }.maybeClose
  else if s.pending.isSome then
    { s with finDelivered := true, bodyDone := true, pending := none, ended := true }.maybeClose
  else { s with finDelivered := true, bodyDone := true }.maybeClose

theorem endOfPump_eq (s : RequestStream) :
    s.endOfPump = if s.halted || !(s.atEnd && !s.finDelivered) then s
      else s.atEndOfPump (s.inFrame && decide (s.frameRemaining ≠ 0)) := by
  unfold RequestStream.endOfPump atEndOfPump
  cases s.halted with
  | true => rfl
  | false =>
    cases s.atEnd && !s.finDelivered with
    | false => rfl
    | true => rfl

theorem local_atEndOfPump (inside : Bool) : Local (atEndOfPump inside) := by
  have hf : Local fun s => { s with finDelivered := true } := ⟨fun _ _ => rfl, fun _ => rfl⟩
  have hb : Local fun s => { s with finDelivered := true, bodyDone := true } :=
    ⟨fun _ _ => rfl, fun _ => rfl⟩
  have hd : Local fun s => { s with finDelivered := true, bodyDone := true, pending := none,
                                    ended := true } := ⟨fun _ _ => rfl, fun _ => rfl⟩
  refine .ite (c := fun _ => inside = true) (fun _ _ => Iff.rfl) ((local_connectionError 0x106).comp hf) ?_
  refine .ite (c := fun s => (!s.headersDone) = true) (fun _ _ => Iff.rfl) (local_maybeClose.comp hb) ?_
  exact .ite (c := fun s => s.pending.isSome = true) (fun _ _ => Iff.rfl) (local_maybeClose.comp hd)
    (local_maybeClose.comp hb)

/-- The end of the stream is seen by both at the same time. -/
theorem Related.endOfPump (h : Related m s p) (hrest : s.Rest d) :
    (s.placed p).endOfPump = s.endOfPump.placed p ∧ Related m s.endOfPump p := by
  rw [endOfPump_eq, endOfPump_eq]
  rcases hrest with hh | ⟨hstop, hclear, -⟩
  · rw [show (s.placed p).halted = true from hh, hh]
    exact ⟨rfl, h⟩
  rw [show (s.placed p).halted = s.halted from rfl, show (s.placed p).finDelivered = s.finDelivered from rfl]
  have hend : (s.placed p).atEnd = s.atEnd := by
    show (s.fin && p.avail.isEmpty) = (s.fin && s.avail.isEmpty)
    cases hfin : s.fin with
    | false => rfl
    | true =>
      rw [Bool.true_and, Bool.true_and, Bool.eq_iff_iff, List.isEmpty_iff, List.isEmpty_iff]
      refine ⟨h.drained d hstop hclear hfin, ?_⟩
      intro hav
      rw [h.avail, hav]
      rfl
  rw [hend]
  split
  · exact ⟨rfl, h⟩
  next hgo =>
    -- the end is there: neither is inside a frame
    simp only [Bool.or_eq_true, Bool.not_eq_true', not_or, Bool.not_eq_false, Bool.and_eq_true,
      atEnd, List.isEmpty_iff] at hgo
    obtain ⟨-, ⟨hfin, hav⟩, -⟩ := hgo
    obtain ⟨hs, hp⟩ := h.ends hfin hav
    rw [hs, show ((s.placed p).inFrame && decide ((s.placed p).frameRemaining ≠ 0)) = false from hp]
    exact ⟨(local_atEndOfPump false).placed s p, h.op (local_atEndOfPump false)⟩

theorem Waits.maybeClose (h : s.Waits) : s.maybeClose.Waits := by
  unfold RequestStream.maybeClose
  split
  · exact .inl rfl
  · exact h

theorem Waits.endOfPump (h : s.Waits) : s.endOfPump.Waits := by
  rw [endOfPump_eq]
  split
  · exact h
  unfold atEndOfPump
  split
  · exact .inl (connectionError_halted _ _)
  split
  · exact Waits.maybeClose (.inr (.inl rfl))
  split
  · exact Waits.maybeClose (.inr (.inl rfl))
  · exact Waits.maybeClose (.inr (.inl rfl))

/-- **Pump lemma.**  A clear pump is a pump of the other stream. -/
theorem Related.pump (h : Related m s p) (hc : s.PumpClear d 1024) :
    ∃ p', (s.placed p).pump d = (s.pump d).placed p' ∧ Related m (s.pump d) p' := by
  obtain ⟨p', hloop, hrel⟩ := h.pumpLoop d (Nat.le_refl 1024) hc
  have hrest := (pumpLoop_waits d 1024 hc).2
  unfold RequestStream.pump
  rw [hloop]
  generalize s.pumpLoop d 1024 = r at hrel hrest
  obtain ⟨t, flow⟩ := r
  cases flow with
  | leave => exact ⟨p', rfl, hrel⟩
  | goOn => exact ⟨p', hrel.endOfPump d (hrest (by simp))⟩
  | stop => exact ⟨p', hrel.endOfPump d (hrest (by simp))⟩

theorem pump_waits (hc : s.PumpClear d 1024) : (s.pump d).Waits := by
  have hwaits := (pumpLoop_waits d 1024 hc).1
  unfold RequestStream.pump
  generalize s.pumpLoop d 1024 = r at hwaits
  obtain ⟨t, flow⟩ := r
  cases flow with
  | leave => exact hwaits
  | goOn => exact hwaits.endOfPump
  | stop => exact hwaits.endOfPump

/-! ## §6. Runs. -/

/-- What reaches a request stream; `posted` is a read whose pump the event loop makes later. -/
inductive Event where
  | arrive (data : Bytes) (fin : Bool)
  | read (room : Nat)
  | posted (room : Nat)
  | pump
  | respond
  | environment (e : Env)
  | sent
  | stopSending
  | cancelled
  deriving DecidableEq

/-- One event; `none` where it cannot happen. -/
def handle (d : Decoding) (s : RequestStream) : Event → Option RequestStream
  | .arrive data fin => some (s.arrive d data fin)
  | .read room => some (s.readBody d room)
  | .posted room => some (s.asks room)
  | .pump => some (s.pump d)
  | .respond => some s.respond
  | .environment e => some (s.environment d e)
  | .sent => some { s with sendOver := true }.maybeClose
  | .stopSending => some { s with stopReceived := true }
  | .cancelled => some { s with pending := none, bodyDone := true, finDelivered := true }.maybeClose

/-- The bytes that are left are of unknown frames only. -/
def OnlyUnknown (s : RequestStream) : Prop := (sieve.sift s.mode s.avail).2 = [] ∧ s.avail ≠ []

instance (s : RequestStream) : Decidable s.OnlyUnknown := inferInstanceAs (Decidable (_ ∧ ¬ _))

def UnblockClear (d : Decoding) (s : RequestStream) : Prop :=
  s.canUnblock = true → (s.trailers = false → s.fin = true → ¬ s.OnlyUnknown) ∧
    (((s.unblock d).closed || (s.unblock d).blocked) = false → (s.unblock d).PumpClear d 1024)

instance (d : Decoding) (s : RequestStream) : Decidable (s.UnblockClear d) :=
  inferInstanceAs (Decidable (s.canUnblock = true →
    (s.trailers = false → s.fin = true → ¬ s.OnlyUnknown) ∧
    (((s.unblock d).closed || (s.unblock d).blocked) = false → (s.unblock d).PumpClear d 1024)))

/-- The condition on an event: its pump is clear, neither the end of the body nor that of the stream is
    looked for with only unknown frames left, and no body bytes lie unread as the answer is built or the
    client's STOP_SENDING takes the handler away. -/
def Passable (d : Decoding) (s : RequestStream) : Event → Prop
  | .arrive data fin => (s.store data fin).PumpClear d 1024
  | .read room => (s.bodyDone = true → ¬ s.OnlyUnknown) ∧
      ((s.bodyDone && s.avail.isEmpty) = false → (s.asks room).PumpClear d 1024)
  | .posted _ => s.bodyDone = true → ¬ s.OnlyUnknown
  | .pump => s.PumpClear d 1024
  | .environment e => { s with env := e }.UnblockClear d
  | .respond | .stopSending => s.halted = false → s.finDelivered = false → s.Unread → s.pending = none →
      s.avail = []
  | .sent | .cancelled => True

instance Passable.decidable (d : Decoding) (s : RequestStream) : (ev : Event) →
    Decidable (s.Passable d ev)
  | .arrive data fin => inferInstanceAs (Decidable ((s.store data fin).PumpClear d 1024))
  | .read room => inferInstanceAs (Decidable ((_ → ¬ _) ∧ (_ → (s.asks room).PumpClear d 1024)))
  | .posted _ => inferInstanceAs (Decidable (_ → ¬ _))
  | .pump => inferInstanceAs (Decidable (s.PumpClear d 1024))
  | .environment e => inferInstanceAs (Decidable ({ s with env := e }.UnblockClear d))
  | .respond => inferInstanceAs (Decidable (_ → _ → s.Unread → _ → _))
  | .stopSending => inferInstanceAs (Decidable (_ → _ → s.Unread → _ → _))
  | .sent => .isTrue trivial
  | .cancelled => .isTrue trivial

/-- A read's pump is still to be made by the event loop. -/
def Event.owes (owed : Bool) : Event → Bool
  | .posted _ => true
  | .arrive .. | .read _ | .pump => false
  | _ => owed

/-- Whether a pump is still to come at the end of a run. -/
def owes : (owed : Bool) → List Event → Bool
  | owed, [] => owed
  | owed, ev :: evs => owes (ev.owes owed) evs

/-- Where the sieve is behind an event. -/
def Event.mode (m : FrameMode UInt8 Bool) : Event → FrameMode UInt8 Bool
  | .arrive data _ => (sieve.sift m data).1
  | _ => m

/-- An event of the stream without its unknown frames. -/
def Event.sifted (m : FrameMode UInt8 Bool) : Event → Event
  | .arrive data fin => .arrive (sieve.sift m data).2 fin
  | ev => ev

/-- The events without the bytes of unknown frames. -/
def withoutUnknown (m : FrameMode UInt8 Bool) : List Event → List Event
  | [] => []
  | ev :: evs => ev.sifted m :: withoutUnknown (ev.mode m) evs

/-- Whether the end of the stream has arrived. -/
def Event.ends (ended : Bool) : Event → Bool
  | .arrive _ fin => ended || fin
  | _ => ended

/-- The stream is a sequence of frames: its end is behind a frame. -/
def WellFormed (ended : Bool) (m : FrameMode UInt8 Bool) : List Event → Prop
  | [] => True
  | ev :: evs => (ev.ends ended = true → (ev.mode m).norm = .between []) ∧
      WellFormed (ev.ends ended) (ev.mode m) evs

instance WellFormed.decidable : (ended : Bool) → (m : FrameMode UInt8 Bool) → (evs : List Event) →
    Decidable (WellFormed ended m evs)
  | _, _, [] => .isTrue trivial
  | ended, m, ev :: evs =>
    have := WellFormed.decidable (ev.ends ended) (ev.mode m) evs
    inferInstanceAs (Decidable ((_ → _) ∧ WellFormed (ev.ends ended) (ev.mode m) evs))

/-- Bytes arrive, without those of unknown frames for the other stream. -/
theorem Related.store (h : Related m s p) (data : Bytes) (fin : Bool)
    (hwhole : (s.fin || fin) = true → (sieve.sift m data).1.norm = .between []) :
    Related (sieve.sift m data).1 (s.store data fin)
      { p with avail := p.avail ++ (sieve.sift m data).2 } := by
  -- what the sieve does with the new bytes depends on where it is, not on how it came there
  have hnorm := sieve.sift_norm m data
  have hnorm' := sieve.sift_norm (sieve.sift s.mode s.avail).1 data
  rw [h.mode] at hnorm
  have hstored : (s.store data fin).mode = s.mode := rfl
  have havail : (s.store data fin).avail = s.avail ++ data := rfl
  refine ⟨?_, ?_, h.skips, h.same, hwhole⟩
  · rw [hstored, havail, sieve.sift_append]
    rw [← h.avail, hnorm.1, hnorm'.1]
  · rw [hstored, havail, sieve.sift_append]
    exact hnorm.2.trans hnorm'.2.symm

/-- With other bytes than those of unknown frames left, both have bytes or neither has. -/
theorem Related.isEmpty (h : Related m s p) (hn : ¬ s.OnlyUnknown) : p.avail.isEmpty = s.avail.isEmpty := by
  rw [Bool.eq_iff_iff, List.isEmpty_iff, List.isEmpty_iff, h.avail]
  refine ⟨?_, ?_⟩
  · intro hnil
    by_contra hne
    exact hn ⟨hnil, hne⟩
  · intro hav
    rw [hav]
    rfl

/-- The handler asks both streams. -/
theorem Related.asks (h : Related m s p) (room : Nat) (hn : s.bodyDone = true → ¬ s.OnlyUnknown) :
    ((s.placed p).bodyDone && (s.placed p).avail.isEmpty) = (s.bodyDone && s.avail.isEmpty) ∧
      (s.placed p).asks room = (s.asks room).placed p ∧ Related m (s.asks room) p := by
  have hdone : ((s.placed p).bodyDone && (s.placed p).avail.isEmpty) =
      (s.bodyDone && s.avail.isEmpty) := by
    show (s.bodyDone && p.avail.isEmpty) = (s.bodyDone && s.avail.isEmpty)
    cases hb : s.bodyDone with
    | false => rfl
    | true => rw [h.isEmpty (hn hb)]
  refine ⟨hdone, ?_, ?_⟩
  · unfold RequestStream.asks
    rw [hdone]
    split <;> rfl
  · unfold RequestStream.asks
    split
    · exact h.congr rfl rfl
    · exact h.congr rfl rfl

/-- A section that waited for inserts is decoded by both. -/
theorem Related.unblock (h : Related m s p) (hn : s.trailers = false → s.fin = true → ¬ s.OnlyUnknown) :
    (s.placed p).unblock d = (s.unblock d).placed p ∧ Related m (s.unblock d) p := by
  have hfree : Related m { s with blocked := false } p := h.congr rfl rfl
  have hend := hfree.endOfSection d (by
    intro ht
    show (s.fin && s.avail.isEmpty) = (s.fin && p.avail.isEmpty)
    cases hfin : s.fin with
    | false => rfl
    | true => rw [h.isEmpty (hn ht hfin)])
  exact hend

/-! ## §7. The end of the stream is the transport's. -/

theorem enterFrame_fin (s : RequestStream) (type len : Nat) : (s.enterFrame type len).1.fin = s.fin := by
  unfold enterFrame
  dsimp only
  split
  · split
    · split
      · exact (local_failStream 431).fin _
      · rfl
    · rfl
  · split
    · split
      · exact (local_connectionError 0x105).fin _
      · rfl
    · split
      · exact (local_connectionError 0x105).fin _
      · rfl

theorem round_fin (s : RequestStream) : (s.round d).1.fin = s.fin := by
  unfold RequestStream.round
  split
  · unfold RequestStream.headerRound
    split
    · rfl
    split
    · split
      · exact (local_connectionError 0x106).fin s
      · rfl
    · exact enterFrame_fin _ _ _
  · split
    · unfold RequestStream.headersRound
      dsimp only
      split
      · rfl
      split
      · split
        · exact (local_decodeTrailers d).fin _
        · exact (local_beginRequestAt d _).fin _
      · rfl
    · unfold RequestStream.dataRound
      split
      · rfl
      split
      · dsimp only
        split
        · rfl
        split
        · split
          · exact (local_failStream 413).fin _
          · rfl
        · rfl
      · split
        · dsimp only
          split
          · rfl
          split
          · exact local_maybeClose.fin _
          · rfl
        · rfl
    · unfold RequestStream.skippedRound
      dsimp only
      split
      · rfl
      split <;> rfl

theorem pumpLoop_fin (n : Nat) (s : RequestStream) : (s.pumpLoop d n).1.fin = s.fin := by
  induction n generalizing s with
  | zero => rfl
  | succ n ih =>
    unfold pumpLoop
    split
    · rfl
    have hr := round_fin d s
    generalize s.round d = r at hr
    obtain ⟨t, flow⟩ := r
    cases flow with
    | goOn => exact (ih t).trans hr
    | stop => exact hr
    | leave => exact hr

theorem pump_fin (s : RequestStream) : (s.pump d).fin = s.fin := by
  have hend : ∀ t : RequestStream, t.endOfPump.fin = t.fin := by
    intro t
    rw [endOfPump_eq]
    split
    · rfl
    · exact (local_atEndOfPump _).fin t
  have hloop := pumpLoop_fin d 1024 s
  unfold RequestStream.pump
  generalize s.pumpLoop d 1024 = r at hloop
  obtain ⟨t, flow⟩ := r
  cases flow with
  | leave => exact hloop
  | goOn => exact (hend t).trans hloop
  | stop => exact (hend t).trans hloop

theorem asks_fin (s : RequestStream) (room : Nat) : (s.asks room).fin = s.fin := by
  unfold RequestStream.asks
  split <;> rfl

theorem unblock_fin (s : RequestStream) : (s.unblock d).fin = s.fin := by
  unfold RequestStream.unblock
  split
  · exact (local_decodeTrailers d).fin _
  · exact (local_beginRequestAt d _).fin _

/-! ## §8. Both runs. -/

/-- A change that only unread body bytes could mind. -/
theorem Waits.answered (h : s.Waits) (hp : t.place = s.place) (hh : s.halted = true → t.halted = true)
    (hd : s.finDelivered = true → t.finDelivered = true) (hpend : t.pending = s.pending)
    (hok : s.halted = false → s.finDelivered = false → s.Unread → s.pending = none → s.avail = []) :
    t.Waits := by
  unfold place at hp
  simp only [Place.mk.injEq] at hp
  obtain ⟨h₁, h₂, h₃, h₄, -⟩ := hp
  cases hhalt : s.halted with
  | true => exact .inl (hh hhalt)
  | false =>
    cases hdone : s.finDelivered with
    | true => exact .inr (.inl (hd hdone))
    | false =>
      unfold Waits
      rcases h with h | h | h | h | hunread
      · cases hhalt.symm.trans h
      · cases hdone.symm.trans h
      · exact .inr (.inr (.inl (h₁.trans h)))
      · rw [h₁, h₂]
        exact .inr (.inr (.inr (.inl h)))
      · obtain ⟨hin, hf, hr, ⟨hp, -⟩ | hp⟩ := id hunread
        · exact .inr (.inr (.inl (h₁.trans (hok hhalt hdone hunread hp))))
        · unfold Unread
          rw [h₂, h₃, h₄, hpend]
          exact .inr (.inr (.inr (.inr ⟨hin, hf, hr, .inr hp⟩)))

/-- `unblock_streams` for this stream. -/
def resume (d : Decoding) (s : RequestStream) : RequestStream :=
  if s.canUnblock then
    if (s.unblock d).closed || (s.unblock d).blocked then s.unblock d else (s.unblock d).pump d
  else s

theorem Related.resume (h : Related m s p) (hok : s.UnblockClear d) :
    ∃ p', (s.placed p).resume d = (s.resume d).placed p' ∧ Related m (s.resume d) p' ∧
      (s.Waits → (s.resume d).Waits) ∧ (s.resume d).fin = s.fin := by
  unfold RequestStream.resume
  rw [show (s.placed p).canUnblock = s.canUnblock from rfl]
  cases hcan : s.canUnblock with
  | false => exact ⟨p, rfl, h, id, rfl⟩
  | true =>
    obtain ⟨hn, hpump⟩ := hok hcan
    obtain ⟨hun, hrel⟩ := h.unblock d hn
    rw [hun, if_pos rfl, if_pos rfl, show ((s.unblock d).placed p).closed = (s.unblock d).closed from rfl,
      show ((s.unblock d).placed p).blocked = (s.unblock d).blocked from rfl]
    cases hover : (s.unblock d).closed || (s.unblock d).blocked with
    | true =>
      rw [if_pos rfl, if_pos rfl]
      refine ⟨p, rfl, hrel, fun _ => .inl ?_, unblock_fin d s⟩
      unfold halted
      rw [Bool.or_assoc, Bool.or_left_comm, hover, Bool.or_true]
    | false =>
      rw [if_neg Bool.false_ne_true, if_neg Bool.false_ne_true]
      obtain ⟨p', hp', hrel'⟩ := hrel.pump d (hpump hover)
      exact ⟨p', hp', hrel', fun _ => pump_waits d (hpump hover),
        (pump_fin d _).trans (unblock_fin d s)⟩

/-- **Event lemma.**  A passable event happens to both streams. -/
theorem Related.handle (h : Related m s p) (ev : Event) (hok : s.Passable d ev)
    (hwhole : ev.ends s.fin = true → (ev.mode m).norm = .between []) {owed : Bool}
    (hwaits : owed = false → s.Waits) :
    ∃ t p', s.handle d ev = some t ∧ (s.placed p).handle d (ev.sifted m) = some (t.placed p') ∧
      Related (ev.mode m) t p' ∧ (ev.owes owed = false → t.Waits) ∧ t.fin = ev.ends s.fin := by
  cases ev with
  | arrive data fin =>
    obtain ⟨p', hp', hrel⟩ := (h.store data fin hwhole).pump d hok
    exact ⟨_, p', rfl, congrArg some hp', hrel, fun _ => pump_waits d hok, pump_fin d _⟩
  | read room =>
    obtain ⟨hn, hpump⟩ := hok
    obtain ⟨hdone, hasks, hrel⟩ := h.asks room hn
    show ∃ t p', some (s.readBody d room) = some t ∧ some ((s.placed p).readBody d room) = _ ∧ _
    unfold RequestStream.readBody
    rw [hdone, hasks]
    cases hb : s.bodyDone && s.avail.isEmpty with
    | true =>
      rw [if_pos rfl, if_pos rfl]
      refine ⟨_, p, rfl, rfl, hrel, fun _ => .inr (.inr (.inl ?_)), asks_fin s room⟩
      unfold RequestStream.asks
      rw [hb, if_pos rfl]
      exact List.isEmpty_iff.mp (Bool.and_eq_true_iff.mp hb).2
    | false =>
      rw [if_neg Bool.false_ne_true, if_neg Bool.false_ne_true]
      obtain ⟨p', hp', hrel'⟩ := hrel.pump d (hpump hb)
      exact ⟨_, p', rfl, congrArg some hp', hrel', fun _ => pump_waits d (hpump hb),
        (pump_fin d _).trans (asks_fin s room)⟩
  | posted room =>
    obtain ⟨-, hasks, hrel⟩ := h.asks room hok
    exact ⟨_, p, rfl, congrArg some hasks, hrel, fun howed => absurd howed (by simp [Event.owes]),
      asks_fin s room⟩
  | pump =>
    obtain ⟨p', hp', hrel⟩ := h.pump d hok
    exact ⟨_, p', rfl, congrArg some hp', hrel, fun _ => pump_waits d hok, pump_fin d _⟩
  | respond =>
    refine ⟨_, p, rfl, congrArg some (local_respond.placed s p), h.op local_respond, fun howed => ?_,
      local_respond.fin s⟩
    have hkeep : s.respond.pending = s.pending ∧ s.respond.halted = s.halted ∧
        s.respond.finDelivered = s.finDelivered := by
      unfold RequestStream.respond
      split <;> exact ⟨rfl, rfl, rfl⟩
    exact (hwaits howed).answered (local_respond.place s) (hkeep.2.1.trans ·) (hkeep.2.2.trans ·)
      hkeep.1 hok
  | environment e =>
    have hrel : Related m { s with env := e } p := h.congr rfl rfl
    obtain ⟨p', hp', hrel', hwaits', hfin⟩ := hrel.resume d hok
    exact ⟨_, p', rfl, congrArg some hp', hrel',
      fun howed => hwaits' ((hwaits howed).congr rfl id id ⟨rfl, rfl, rfl⟩), hfin⟩
  | sent =>
    have hover : Local fun s => { s with sendOver := true } := ⟨fun _ _ => rfl, fun _ => rfl⟩
    have hop := local_maybeClose.comp hover
    refine ⟨_, p, rfl, congrArg some (hop.placed s p), h.op hop, fun howed => ?_, hop.fin s⟩
    apply Waits.maybeClose
    exact (hwaits howed).congr rfl id id ⟨rfl, rfl, rfl⟩
  | stopSending =>
    exact ⟨_, p, rfl, rfl, h.congr rfl rfl,
      fun howed => (hwaits howed).answered rfl id id rfl hok, rfl⟩
  | cancelled =>
    have hcut : Local fun s => { s with pending := none, bodyDone := true, finDelivered := true } :=
      ⟨fun _ _ => rfl, fun _ => rfl⟩
    have hop := local_maybeClose.comp hcut
    refine ⟨_, p, rfl, congrArg some (hop.placed s p), h.op hop, fun _ => ?_, hop.fin s⟩
    exact Waits.maybeClose (.inr (.inl rfl))

/-- **Run lemma.** -/
theorem related_run (evs : List Event) (h : Related m s p) (hrun : Lib.run (handle d) s evs = some t)
    (hwf : WellFormed s.fin m evs) (hok : Meets (handle d) (Passable d) s evs) (owed : Bool)
    (hwaits : owed = false → s.Waits) :
    ∃ p', Lib.run (handle d) (s.placed p) (withoutUnknown m evs) = some (t.placed p') ∧
      (owes owed evs = false → t.Waits) := by
  induction evs generalizing s m p owed with
  | nil =>
    cases hrun
    exact ⟨p, rfl, hwaits⟩
  | cons ev evs ih =>
    obtain ⟨u, p', hu, hu', hrel, hw, hfin⟩ := h.handle d ev hok.1 hwf.1 hwaits
    rw [run_cons_of_step hu] at hrun
    have hnext := ((meets_cons_of_step hu).mp hok).2
    have hwf' := hwf.2
    rw [← hfin] at hwf'
    obtain ⟨p'', hrun', hw'⟩ := ih hrel hrun hwf' hnext (ev.owes owed) hw
    exact ⟨p'', (run_cons_of_step hu').trans hrun', hw'⟩

/-- **Unknown frames are transparent** in every run whose events are passable: the stream without
    them comes to the same request, body, answers and end; and unless a pump is still to come, bytes are
    left only where there is something to wait for. -/
theorem unknown_frames_transparent (d : Decoding) (e : Env) (evs : List Event) (s : RequestStream)
    (hwf : WellFormed false (.between []) evs) (hrun : Lib.run (handle d) { env := e } evs = some s)
    (hok : Meets (handle d) (Passable d) { env := e } evs) :
    (∃ s', Lib.run (handle d) { env := e } (withoutUnknown (.between []) evs) = some s' ∧
      s'.outcome = s.outcome) ∧ (owes false evs = false → s.Waits) := by
  have hstart : Related (.between []) { env := e } {} :=
    ⟨rfl, rfl, nofun, fun _ => ⟨rfl, nofun⟩,
      nofun⟩
  obtain ⟨p', hrun', hw⟩ := related_run d evs hstart hrun hwf hok false
    fun _ => .inr (.inr (.inl rfl))
  exact ⟨⟨_, hrun', rfl⟩, hw⟩

/-- A HEADERS frame: `:method: GET`, `:scheme: https`, `:authority: a`, `:path: /`. -/
def getHeaders : Bytes := [0x01, 0x08, 0x00, 0x00, 0xd1, 0xd7, 0x50, 0x01, 0x61, 0xc1]

/-- A reserved frame between HEADERS and DATA, its payload in the next arrival, another behind DATA;
    the answer follows the body. -/
def reservedBetween : List Event :=
  [.arrive (getHeaders ++ [0x21, 0x01]) false,
    .arrive [0xff, 0x00, 0x03, 0x61, 0x62, 0x63, 0x40, 0x21, 0x02, 0xff, 0xff] true, .posted 10, .pump,
    .read 10, .respond, .sent]

theorem unknown_frames_transparent_between : WellFormed false (.between []) reservedBetween ∧
      Meets (handle .fresh) (Passable .fresh) { env := {} } reservedBetween ∧
      ∃ s, Lib.run (handle .fresh) { env := {} } reservedBetween = some s ∧
        s.delivered = [[0x61, 0x62, 0x63]] ∧ s.ended = true ∧ s.closed = true ∧
        (∃ s', Lib.run (handle .fresh) { env := {} }
            (withoutUnknown (.between []) reservedBetween) = some s' ∧ s'.outcome = s.outcome) ∧
          s.Waits := by
  have hwf : WellFormed false (.between []) reservedBetween := by decide +kernel
  have hok : Meets (handle .fresh) (Passable .fresh) { env := {} } reservedBetween := by
    decide +kernel
  obtain ⟨hsame, hwaits⟩ := unknown_frames_transparent .fresh {} reservedBetween _ hwf rfl hok
  exact ⟨hwf, hok, _, rfl, by decide +kernel, by decide +kernel, by decide +kernel, hsame, hwaits rfl⟩

/-- HEADERS, a reserved frame of length zero, DATA and the end; the handler reads. -/
def reservedEmpty : List Event :=
  [.arrive getHeaders false, .arrive [0x21, 0x00, 0x00, 0x03, 0x61, 0x62, 0x63] true, .read 10]

/-- The stream stalls in an unknown frame without payload: the body is never delivered. -/
theorem empty_unknown_frame_stalls : WellFormed false (.between []) reservedEmpty ∧
      ∃ s s', Lib.run (handle .fresh) { env := {} } reservedEmpty = some s ∧
        Lib.run (handle .fresh) { env := {} }
          (withoutUnknown (.between []) reservedEmpty) = some s' ∧
        s'.delivered = [[0x61, 0x62, 0x63]] ∧ s.delivered = [] ∧ s.connClosed = false ∧
        s'.outcome ≠ s.outcome ∧ ¬ s.Waits := by
  refine ⟨by decide +kernel, _, _, rfl, rfl, ?_⟩
  decide +kernel

end RequestStream

end Agensio.Http3
