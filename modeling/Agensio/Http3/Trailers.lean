/-
  Agensio.Http3.Trailers — what the trailers are decoded from.

  The buffer that trailers are collected in is the one `build_head` uses
  as scratch, and it is left holding the section prefix of the response.
  Trailers that arrive behind the response, and trailers that are being
  collected or wait for the encoder stream while the response is built,
  are decoded from other bytes than the ones received.

  A run here goes round by round; a pump is a number of rounds and the end
  of the pump, so every order of arrivals, pumps, reads and answers is
  such a run.

  Main results:
    * `trailers_decoded_from_payload` — in every run in which the
      response is built neither before nor during a trailer section;
    * `trailers_decoded_after_response` — a run in which it is.
-/
import Agensio.Lib.Runs
import Agensio.Http3.Request

namespace Agensio.Http3

open Agensio.Lib Agensio.Quic

namespace RequestStream

/-! ## §1. The transition system. -/

/-- What may happen to the stream next. -/
inductive Label where
  | arrive (data : Bytes) (fin : Bool)
  | round
  | endOfPump
  | asks (room : Nat)
  | respond
  | environment (e : Env)
  | unblock
  | sent
  | stopSending
  | cancelled

/-- One step; `none` where it cannot happen. -/
def step (d : Decoding) (s : RequestStream) : Label → Option RequestStream
  | .arrive data fin => some (s.store data fin)
  | .round => if s.halted then none else some (s.round d).1
  | .endOfPump => some s.endOfPump
  | .asks room => some (s.asks room)
  | .respond => some s.respond
  | .environment e => some { s with env := e }
  | .unblock => if s.canUnblock then some (s.unblock d) else none
  | .sent => some { s with sendOver := true }.maybeClose
  | .stopSending => some { s with stopReceived := true }
  | .cancelled => some { s with pending := none, bodyDone := true, finDelivered := true }.maybeClose

/-! ## §2. The condition and the invariant. -/

/-- The next round reads the header of a trailer section. -/
def StartsTrailers (s : RequestStream) : Prop :=
  s.inFrame = false ∧ s.headersDone = true ∧
    ∃ x ∈ readFrameHeader s.avail, x.1 = 0x01 ∧ x.2.1 ≤ s.env.maxHeaderSize

instance (s : RequestStream) : Decidable s.StartsTrailers :=
  inferInstanceAs (Decidable (_ ∧ _ ∧ ∃ x ∈ readFrameHeader s.avail, _))

/-- The condition on a step: a trailer section starts in an empty buffer, and no response is built
    while one is collected or blocked. -/
def Undisturbed (s : RequestStream) : Label → Prop
  | .round => s.StartsTrailers → s.section_ = []
  | .respond => s.trailers = true → (s.closed || s.responded || s.connClosed) = true
  | _ => True

instance (s : RequestStream) : ∀ lb, Decidable (s.Undisturbed lb)
  | .round => inferInstanceAs (Decidable (_ → _))
  | .respond => inferInstanceAs (Decidable (_ → _))
  | .arrive .. | .endOfPump | .asks _ | .environment _ | .unblock | .sent | .stopSending
  | .cancelled => isTrue trivial

/-- The buffer of a trailer section is the payload of its frame so far. -/
structure Faithful (s : RequestStream) : Prop where
  collected : s.trailers = true → s.section_ = s.payload
  place : s.trailers = true → s.inFrame = true ∧ s.frameType = .headers ∨ s.blocked = true ∨
    s.connClosed = true
  apart : s.blocked = true → s.inFrame = false
  begun : s.trailers = true → s.headersDone = true
  exact_ : ∀ x ∈ s.decoded, x.1 = x.2

/-! ## §3. What the operations do to a trailer section. -/

/-- The fields that say where a trailer section is. -/
def marks (s : RequestStream) : Bool × Bool × Bool × List (Bytes × Bytes) :=
  (s.trailers, s.inFrame, s.blocked, s.decoded)

theorem connectionError_marks (s : RequestStream) (code : Nat) : (s.connectionError code).marks = s.marks := by
  unfold connectionError
  split <;> rfl

theorem maybeClose_marks (s : RequestStream) : s.maybeClose.marks = s.marks := by
  unfold maybeClose
  split <;> rfl

theorem respond_marks (s : RequestStream) : s.respond.marks = s.marks := by
  unfold respond
  split <;> rfl

theorem failStream_marks (s : RequestStream) (status : Nat) : (s.failStream status).marks = s.marks :=
  respond_marks _

theorem dispatch_marks (d : Decoding) (section_ : Bytes) (hasBody : Bool) (s : RequestStream) :
    (s.dispatch d section_ hasBody).marks = s.marks := by
  unfold dispatch
  dsimp only
  split
  · exact respond_marks _
  · rfl

theorem malformed_marks (s : RequestStream) : s.malformed.marks = s.marks :=
  maybeClose_marks _

variable {s s' : RequestStream}

/-- Outside a trailer section nothing has to be kept but what was decoded. -/
theorem Faithful.of_plain (h : s.Faithful) (ht : s'.trailers = false)
    (hb : s'.blocked = true → s'.inFrame = false) (hd : s'.decoded = s.decoded) : s'.Faithful := by
  have hno : s'.trailers ≠ true := by
    rw [ht]
    simp
  refine ⟨fun h' => absurd h' hno, fun h' => absurd h' hno, hb, fun h' => absurd h' hno, ?_⟩
  rw [hd]
  exact h.exact_

theorem Faithful.of_marks (h : s.Faithful) (ht : s.trailers = false)
    (hb : s.blocked = true → s.inFrame = false) (hm : s'.marks = s.marks) : s'.Faithful := by
  unfold marks at hm
  simp only [Prod.mk.injEq] at hm
  obtain ⟨h₁, h₂, h₃, h₄⟩ := hm
  refine h.of_plain (h₁.trans ht) ?_ h₄
  rw [h₂, h₃]
  exact hb

/-- What leaves the section, its place and what was decoded alone. -/
theorem Faithful.of_same (h : s.Faithful) (hm : s'.marks = s.marks)
    (hs : s'.section_ = s.section_) (hp : s'.payload = s.payload) (hf : s'.frameType = s.frameType)
    (hc : s.connClosed = true → s'.connClosed = true)
    (hh : s.headersDone = true → s'.headersDone = true) : s'.Faithful := by
  unfold marks at hm
  simp only [Prod.mk.injEq] at hm
  obtain ⟨h₁, h₂, h₃, h₄⟩ := hm
  refine ⟨?_, ?_, ?_, ?_, ?_⟩
  · rw [h₁, hs, hp]
    exact h.collected
  · intro ht
    rw [h₂, h₃, hf]
    rcases h.place (h₁.symm.trans ht) with hin | hb | hcc
    · exact .inl hin
    · exact .inr (.inl hb)
    · exact .inr (.inr (hc hcc))
  · rw [h₂, h₃]
    exact h.apart
  · intro ht
    exact hh (h.begun (h₁.symm.trans ht))
  · rw [h₄]
    exact h.exact_

theorem Faithful.connectionError (h : s.Faithful) (code : Nat) : (s.connectionError code).Faithful := by
  unfold RequestStream.connectionError
  split
  · exact h
  · exact h.of_same rfl rfl rfl rfl (fun _ => rfl) id

theorem Faithful.maybeClose (h : s.Faithful) : s.maybeClose.Faithful := by
  unfold RequestStream.maybeClose
  split
  · exact h.of_same rfl rfl rfl rfl id id
  · exact h

variable (d : Decoding)

/-- The request's section: there are no trailers yet. -/
theorem Faithful.beginRequest (h : s.Faithful)
    (ht : s.trailers = false) (hin : s.inFrame = false) : (s.beginRequest d).Faithful := by
  have hb : s.blocked = true → s.inFrame = false := fun _ => hin
  unfold RequestStream.beginRequest beginRequestAt
  split
  · unfold block
    split
    · exact h.connectionError _
    · exact h.of_plain ht (fun _ => hin) rfl
  · split
    · exact h.connectionError _
    · exact h.of_marks ht hb ((failStream_marks _ _).trans rfl)
    · exact h.of_marks ht hb ((failStream_marks _ _).trans rfl)
    · exact h.of_marks ht hb ((malformed_marks _).trans rfl)
    dsimp only
    split
    · split
      · exact h.of_marks ht hb ((malformed_marks _).trans rfl)
      · exact h.of_marks ht hb ((dispatch_marks d ..).trans rfl)
    · split
      · exact h.of_marks ht hb ((failStream_marks _ _).trans rfl)
      · exact h.of_marks ht hb ((dispatch_marks d ..).trans rfl)

/-- The trailers' section, complete: what is decoded is the payload of its frame. -/
theorem Faithful.decodeTrailers
    (hprev : ∀ x ∈ s.decoded, x.1 = x.2) (hs : s.section_ = s.payload) (hin : s.inFrame = false) (hh : s.headersDone = true) :
    (s.decodeTrailers d).Faithful := by
  have hexact : ∀ x ∈ (s.section_, s.payload) :: s.decoded, x.1 = x.2 := by
    intro x hx
    rcases List.mem_cons.mp hx with rfl | hx
    · exact hs
    · exact hprev x hx
  have hplain : ∀ s' : RequestStream, s'.trailers = false →
      (s'.blocked = true → s'.inFrame = false) →
      s'.decoded = (s.section_, s.payload) :: s.decoded → s'.Faithful := by
    intro s' ht hb hd
    have hno : s'.trailers ≠ true := by
      rw [ht]
      simp
    refine ⟨fun h' => absurd h' hno, fun h' => absurd h' hno, hb, fun h' => absurd h' hno, ?_⟩
    rw [hd]
    exact hexact
  unfold RequestStream.decodeTrailers
  dsimp only
  split
  · -- blocked: the section stays until the inserts arrive
    unfold block
    split
    · unfold RequestStream.connectionError
      split
      next hcc => exact ⟨fun _ => hs, fun _ => .inr (.inr hcc), fun _ => hin, fun _ => hh, hexact⟩
      next => exact ⟨fun _ => hs, fun _ => .inr (.inr rfl), fun _ => hin, fun _ => hh, hexact⟩
    · exact ⟨fun _ => hs, fun _ => .inr (.inl rfl), fun _ => hin, fun _ => hh, hexact⟩
  · split
    · have hm := connectionError_marks
        { s with decoded := (s.section_, s.payload) :: s.decoded, section_ := [], trailers := false } 0x200
      unfold marks at hm
      simp only [Prod.mk.injEq] at hm
      apply hplain _ hm.1 _ hm.2.2.2
      intro _
      exact hm.2.1.trans hin
    · exact hplain _ rfl (fun _ => hin) rfl

/-! ## §4. Steps and runs. -/

theorem not_halted (h : s.halted = false) : s.connClosed = false ∧ s.blocked = false := by
  unfold halted at h
  simp only [Bool.or_eq_false_iff] at h
  exact ⟨h.1.2, h.2⟩

theorem Faithful.headerRound (h : s.Faithful) (hlive : s.halted = false)
    (hin : s.inFrame = false) (hok : s.StartsTrailers → s.section_ = []) : s.headerRound.1.Faithful := by
  obtain ⟨hcc, hbl⟩ := not_halted hlive
  have ht : s.trailers = false := by
    rw [← Bool.not_eq_true]
    intro htr
    rcases h.place htr with hi | hb | hc
    · cases hin.symm.trans hi.1
    · cases hbl.symm.trans hb
    · cases hcc.symm.trans hc
  have hplain : ∀ s' : RequestStream, s'.trailers = s.trailers → s'.blocked = s.blocked →
      s'.decoded = s.decoded → s'.Faithful := by
    intro s' h₁ h₂ h₃
    refine h.of_plain (h₁.trans ht) ?_ h₃
    intro hb
    cases (h₂.symm.trans hb).symm.trans hbl
  have hmarks : ∀ s' s'' : RequestStream, s''.marks = s'.marks → s'.trailers = s.trailers →
      s'.blocked = s.blocked → s'.decoded = s.decoded → s''.Faithful := by
    intro s' s'' hm h₁ h₂ h₃
    unfold marks at hm
    simp only [Prod.mk.injEq] at hm
    exact hplain s'' (hm.1.trans h₁) (hm.2.2.1.trans h₂) (hm.2.2.2.trans h₃)
  unfold RequestStream.headerRound
  split
  · exact h
  split
  · split
    · exact h.connectionError _
    · exact h
  next type len n hread =>
    unfold enterFrame
    dsimp only
    split
    next htype =>
      split
      · split
        · exact hmarks _ _ (failStream_marks _ _) rfl rfl rfl
        · exact hplain _ rfl rfl rfl
      next hlen =>
        cases hdone : s.headersDone with
        | false =>
          have hsame : (s.headersDone || s.trailers) = s.trailers := by
            rw [hdone, Bool.false_or]
          exact hplain _ hsame rfl rfl
        | true =>
          -- a trailer section starts, in an empty buffer
          have hempty : s.section_ = [] := by
            apply hok
            refine ⟨hin, hdone, (type, len, n), hread, htype, ?_⟩
            exact Nat.le_of_not_lt hlen
          refine ⟨fun _ => hempty, fun _ => .inl ⟨rfl, rfl⟩, ?_, fun _ => hdone, h.exact_⟩
          intro hb
          cases hbl.symm.trans hb
    next =>
      split
      · split
        · exact hmarks _ _ (connectionError_marks _ _) rfl rfl rfl
        · exact hplain _ rfl rfl rfl
      · split
        · exact hmarks _ _ (connectionError_marks _ _) rfl rfl rfl
        · exact hplain _ rfl rfl rfl

theorem Faithful.headersRound (h : s.Faithful)
    (hin : s.inFrame = true) (hf : s.frameType = .headers) : (s.headersRound d).1.Faithful := by
  have hbl : s.blocked = false := by
    rw [← Bool.not_eq_true]
    intro hb
    cases hin.symm.trans (h.apart hb)
  unfold RequestStream.headersRound
  dsimp only
  split
  · exact h
  -- the buffer and the payload grow by the same bytes
  have hgrow : ∀ chunk, s.trailers = true → s.section_ ++ chunk = s.payload ++ chunk := by
    intro chunk ht
    rw [h.collected ht]
  generalize s.avail.take (min s.avail.length s.frameRemaining) = chunk
  split
  · cases ht : s.trailers with
    | true =>
      rw [if_pos rfl]
      exact Faithful.decodeTrailers d h.exact_ (hgrow chunk ht) rfl (h.begun ht)
    | false =>
      rw [if_neg (by simp)]
      refine Faithful.beginRequest d ?_ ht rfl
      exact h.of_plain ht (fun _ => rfl) rfl
  · refine ⟨hgrow chunk, ?_, ?_, h.begun, h.exact_⟩
    · intro _
      exact .inl ⟨hin, hf⟩
    · intro hb
      cases hbl.symm.trans hb

/-- The rounds inside other frames: no trailer section is being read. -/
theorem Faithful.otherRound (h : s.Faithful) (hlive : s.halted = false)
    (hf : s.frameType ≠ .headers) : s.dataRound.1.Faithful ∧ s.skippedRound.1.Faithful := by
  obtain ⟨hcc, hbl⟩ := not_halted hlive
  have ht : s.trailers = false := by
    rw [← Bool.not_eq_true]
    intro htr
    rcases h.place htr with hi | hb | hc
    · exact hf hi.2
    · cases hbl.symm.trans hb
    · cases hcc.symm.trans hc
  have hplain : ∀ s' : RequestStream, s'.trailers = false → s'.blocked = false →
      s'.decoded = s.decoded → s'.Faithful := by
    intro s' h₁ h₂ h₃
    refine h.of_plain h₁ ?_ h₃
    intro hb
    cases h₂.symm.trans hb
  have hrefused : ∀ s' : RequestStream, s'.trailers = false → s'.blocked = false →
      s'.decoded = s.decoded → Faithful { s'.failStream 413 with pending := none } := by
    intro s' h₁ h₂ h₃
    have hm := failStream_marks s' 413
    unfold marks at hm
    simp only [Prod.mk.injEq] at hm
    exact hplain _ (hm.1.trans h₁) (hm.2.2.1.trans h₂) (hm.2.2.2.trans h₃)
  constructor
  · unfold dataRound
    split
    · exact hplain _ ht hbl rfl
    split
    · dsimp only
      split
      · exact h
      split
      · split
        · -- the answer is built, the body is refused
          exact hrefused _ ht hbl rfl
        · exact hplain _ ht hbl rfl
      · exact hplain _ ht hbl rfl
    · split
      · dsimp only
        split
        · exact h
        split
        · refine Faithful.maybeClose ?_
          exact hplain _ ht hbl rfl
        · exact hplain _ ht hbl rfl
      · exact h
  · unfold skippedRound
    dsimp only
    split
    · exact h
    split <;> exact hplain _ ht hbl rfl

theorem Faithful.round (h : s.Faithful) (hlive : s.halted = false)
    (hok : s.StartsTrailers → s.section_ = []) : (s.round d).1.Faithful := by
  cases hin : s.inFrame with
  | false =>
    rw [round_idle hin]
    exact h.headerRound hlive hin hok
  | true =>
    cases hf : s.frameType with
    | headers =>
      rw [round_headers hin hf]
      exact h.headersRound d hin hf
    | data =>
      rw [round_data hin hf]
      exact (h.otherRound hlive (by rw [hf]; simp)).1
    | skipped =>
      rw [round_skipped hin hf]
      exact (h.otherRound hlive (by rw [hf]; simp)).2

theorem Faithful.endOfPump (h : s.Faithful) : s.endOfPump.Faithful := by
  unfold RequestStream.endOfPump
  split
  · exact h
  split
  · dsimp only
    split
    · refine Faithful.connectionError ?_ _
      exact h.of_same rfl rfl rfl rfl id id
    split
    · refine Faithful.maybeClose ?_
      exact h.of_same rfl rfl rfl rfl id id
    split
    · refine Faithful.maybeClose ?_
      exact h.of_same rfl rfl rfl rfl id id
    refine Faithful.maybeClose ?_
    exact h.of_same rfl rfl rfl rfl id id
  · exact h

theorem step_faithful (lb : Label) (h : s.Faithful)
    (hok : s.Undisturbed lb) (hstep : s.step d lb = some s') : s'.Faithful := by
  cases lb with
  | arrive data fin =>
    cases hstep
    exact h.of_same rfl rfl rfl rfl id id
  | round =>
    unfold RequestStream.step at hstep
    dsimp only at hstep
    split at hstep
    · simp at hstep
    next hlive =>
      cases hstep
      exact h.round d (by simpa using hlive) hok
  | endOfPump =>
    cases hstep
    exact h.endOfPump
  | asks room =>
    cases hstep
    unfold asks
    split <;> exact h.of_same rfl rfl rfl rfl id id
  | respond =>
    cases hstep
    unfold RequestStream.respond
    split
    · exact h
    next hbuild =>
      -- the head is built: no trailer section is under way
      have ht : s.trailers = false := by
        rw [← Bool.not_eq_true]
        intro htr
        exact hbuild (hok htr)
      exact h.of_marks ht h.apart rfl
  | environment e =>
    cases hstep
    exact h.of_same rfl rfl rfl rfl id id
  | unblock =>
    unfold RequestStream.step at hstep
    dsimp only at hstep
    split at hstep
    next hcan =>
      cases hstep
      have hblocked : s.blocked = true := by
        unfold canUnblock at hcan
        simp only [Bool.and_eq_true] at hcan
        exact hcan.1.1.1
      have hin := h.apart hblocked
      unfold RequestStream.unblock
      by_cases ht : s.trailers = true
      · rw [if_pos ht]
        exact Faithful.decodeTrailers d h.exact_ (h.collected ht) hin (h.begun ht)
      rw [if_neg ht]
      rw [Bool.not_eq_true] at ht
      refine Faithful.beginRequest d ?_ ht hin
      exact h.of_plain ht (fun _ => hin) rfl
    next => simp at hstep
  | sent =>
    cases hstep
    refine Faithful.maybeClose ?_
    exact h.of_same rfl rfl rfl rfl id id
  | stopSending =>
    cases hstep
    exact h.of_same rfl rfl rfl rfl id id
  | cancelled =>
    cases hstep
    refine Faithful.maybeClose ?_
    exact h.of_same rfl rfl rfl rfl id id

/-- In every run in which the response is built neither before nor during a trailer section, the
    bytes the trailers are decoded from are the payload of their frame. -/
theorem trailers_decoded_from_payload (d : Decoding) (e : Env) (lbs : List Label) (s : RequestStream)
    (hrun : run (step d) { env := e } lbs = some s)
    (hok : Meets (step d) Undisturbed { env := e } lbs) : ∀ x ∈ s.decoded, x.1 = x.2 := by
  have hinit : ({ env := e } : RequestStream).Faithful := by
    refine ⟨?_, ?_, fun _ => rfl, ?_, ?_⟩
    · intro ht
      simp at ht
    · intro ht
      simp at ht
    · intro ht
      simp at ht
    · intro x hx
      simp at hx
  have hinv : s.Faithful := run_invariant (I := Faithful)
    (fun _ lb _ h hk hs => step_faithful d lb h hk hs) hinit hrun hok
  exact hinv.exact_

/-- A HEADERS frame: `:method: GET`, `:scheme: https`, `:authority: a`, `:path: /`. -/
def getFrame : Bytes := [0x01, 0x08, 0x00, 0x00, 0xd1, 0xd7, 0x50, 0x01, 0x61, 0xc1]

/-- A request, then trailers of three bytes in two arrivals, and the end. -/
def trailersFirst : List Label :=
  [.arrive getFrame false, .round, .round, .arrive [0x01, 0x03, 0x00] false, .round, .round,
    .arrive [0x00, 0xc0] true, .round, .endOfPump, .respond]

theorem trailers_decoded_from_payload_first : Meets (step .fresh) Undisturbed { env := {} } trailersFirst ∧
      ∃ s, run (step .fresh) { env := {} } trailersFirst = some s ∧ s.connClosed = false ∧
        s.responded = true ∧ s.decoded = [([0x00, 0x00, 0xc0], [0x00, 0x00, 0xc0])] ∧
        ∀ x ∈ s.decoded, x.1 = x.2 := by
  have hok : Meets (step .fresh) Undisturbed { env := {} } trailersFirst := by decide +kernel
  refine ⟨hok, _, rfl, by decide +kernel, by decide +kernel, by decide +kernel, ?_⟩
  exact trailers_decoded_from_payload .fresh {} trailersFirst _ rfl hok

/-- The same request answered before its trailers arrive: they are decoded behind the prefix of
    the response. -/
theorem trailers_decoded_after_response : ∃ s, run (step .fresh) { env := {} }
        [.arrive getFrame false, .round, .round, .respond,
          .arrive [0x01, 0x03, 0x00, 0x00, 0xc0] true, .round, .round] = some s ∧
      s.request = some (getFrame.drop 2, true) ∧
      s.decoded = [([0x00, 0x00, 0x00, 0x00, 0xc0], [0x00, 0x00, 0xc0])] ∧
      ¬ ∀ x ∈ s.decoded, x.1 = x.2 := by
  refine ⟨_, rfl, ?_⟩
  decide +kernel

end RequestStream

end Agensio.Http3
