/-
  Agensio.Quic.Walk — what holds across an operation when it holds across its parts.

  Every invariant of the connection is shown of the same operations, and
  the walk through their branches is the same each time.  It is made ONCE
  here, for any relation between the connection before and after that
  composes and allows the changes the operations are made of: `Walk` for
  the receive side of one stream, `Tour` for relations that look at the
  flags of the frames due and at the counters of the stream credit.

  Main results:
    * `Walk.applyReset`, `Walk.applyStreamFrame`, `Walk.streamConsumed`;
    * `Tour.handleFrame`, `Tour.streamTurn`, `Tour.openOwn`.
-/
import Agensio.Quic.Transitions

namespace Agensio.Quic

/-! ## §1. The receive side. -/

/-- Only what was received of the stream differs, and the limit is as before. -/
def QuicStream.Receives (s s' : QuicStream) : Prop :=
  ∃ rbuf roff rpos rranges highest finalSize finSeen window resetReceived resetCode,
    s' = { s with
      rbuf := rbuf, roff := roff, rpos := rpos, rranges := rranges, highest := highest
      finalSize := finalSize, finSeen := finSeen, window := window
      resetReceived := resetReceived, resetCode := resetCode }

namespace Conn

/-- Only how the connection closed, its receive credit and its budgets differ. -/
def Apart (c c' : Conn) : Prop :=
  ∃ state closeApp closeCode closeFrameType closeReason ourMaxData dataReceived dataConsumed maxDataDue
    glitches resetSecond resetsInSecond,
    c' = { c with
      state := state, closeApp := closeApp, closeCode := closeCode, closeFrameType := closeFrameType
      closeReason := closeReason, ourMaxData := ourMaxData, dataReceived := dataReceived
      dataConsumed := dataConsumed, maxDataDue := maxDataDue, glitches := glitches
      resetSecond := resetSecond, resetsInSecond := resetsInSecond }

/-- A relation that composes and allows what the receive side of the stream `p` does. -/
structure Walk (p : Ptr) (R : Conn → Conn → Prop) : Prop where
  refl : ∀ c, R c c
  trans : ∀ {a b c}, R a b → R b c → R a c
  apart : ∀ {c c'}, Apart c c' → R c c'
  receive : ∀ (c : Conn) (f : QuicStream → QuicStream), (c.streams p).Receives (f (c.streams p)) →
    R c (c.modify p f)

theorem apart_addReceived (c : Conn) (n : Nat) : Apart c (c.addReceived n) :=
  ⟨_, _, _, _, _, _, _, _, _, _, _, _, rfl⟩

theorem apart_creditConnection (c : Conn) (n : Nat) : Apart c (c.creditConnection n) := by
  unfold creditConnection
  dsimp only
  split <;> exact ⟨_, _, _, _, _, _, _, _, _, _, _, _, rfl⟩

variable {p : Ptr} {R : Conn → Conn → Prop} {c : Conn}

namespace Walk

theorem fail (w : Walk p R) (code frameType : Nat) (reason : String) :
    R c (c.fail code frameType reason) := by
  unfold Conn.fail
  split
  · exact w.refl c
  · exact w.apart ⟨_, _, _, _, _, _, _, _, _, _, _, _, rfl⟩

theorem close (w : Walk p R) (appError : Bool) (code : Nat) (reason : String) :
    R c (c.close appError code reason) := by
  unfold Conn.close
  split
  · exact w.refl c
  · exact w.apart ⟨_, _, _, _, _, _, _, _, _, _, _, _, rfl⟩

theorem glitch (w : Walk p R) : R c c.glitch := by
  have hcount : R c c.countGlitch := w.apart ⟨_, _, _, _, _, _, _, _, _, _, _, _, rfl⟩
  unfold Conn.glitch
  split
  · exact w.trans hcount (w.fail ..)
  · exact hcount

theorem countReset (w : Walk p R) (sec : Int) : R c (c.countReset sec).1 := by
  have hnote : R c (c.noteReset sec) := w.apart ⟨_, _, _, _, _, _, _, _, _, _, _, _, rfl⟩
  unfold Conn.countReset
  split
  · exact w.trans hnote (w.close ..)
  · exact hnote

/-- A relation that allows a new limit too, allows bytes to be consumed. -/
theorem streamConsumed (w : Walk p R) (hg : ∀ c maxRecv, R c (c.grant p maxRecv)) (n : Nat) :
    R c (c.streamConsumed p n) := by
  have htake : R c ((c.modify p fun s => s.consume n).creditConnection n) := by
    refine w.trans (w.receive c _ ?_) (w.apart (apart_creditConnection _ n))
    unfold QuicStream.consume
    split <;> exact ⟨_, _, _, _, _, _, _, _, _, _, rfl⟩
  unfold Conn.streamConsumed
  dsimp only
  split
  · exact w.trans htake (hg ..)
  · exact htake

theorem streamWindow (w : Walk p R) (hg : ∀ c maxRecv, R c (c.grant p maxRecv)) (window : Nat) :
    R c (c.streamWindow p window) := by
  have hset : R c (c.modify p fun s => { s with window := window }) :=
    w.receive c _ ⟨_, _, _, _, _, _, _, _, _, _, rfl⟩
  unfold Conn.streamWindow
  dsimp only
  split
  · exact w.trans hset (hg ..)
  · exact hset

theorem storeData (w : Walk p R) (offset : Nat) (data : Bytes) : R c (c.storeData p offset data) := by
  unfold Conn.storeData
  split
  · exact w.refl c
  split
  · refine w.receive c _ ?_
    unfold QuicStream.store
    split <;> exact ⟨_, _, _, _, _, _, _, _, _, _, rfl⟩
  · exact w.refl c

theorem applyReset (w : Walk p R) (f : Frame) (code finalSize : Nat) :
    R c (c.applyReset p f code finalSize) := by
  unfold Conn.applyReset
  dsimp only
  split
  · exact w.fail ..
  split
  · exact w.fail ..
  split
  · exact w.fail ..
  have hfinal : R c (if (c.streams p).finSeen then c
      else (c.addReceived (finalSize - (c.streams p).highest)).modify p fun s =>
        { s with highest := finalSize, finSeen := true, finalSize := finalSize }) := by
    split
    · exact w.refl c
    exact w.trans (w.apart (apart_addReceived c _))
      (w.receive _ _ ⟨_, _, _, _, _, _, _, _, _, _, rfl⟩)
  split
  · exact hfinal
  · exact w.trans hfinal (w.receive _ _ ⟨_, _, _, _, _, _, _, _, _, _, rfl⟩)

theorem chargeData (w : Walk p R) (f : Frame) (offset : Nat) (data : Bytes) :
    R c (c.chargeData p f offset data) := by
  unfold Conn.chargeData
  dsimp only
  split
  · have hcharge := w.apart (apart_addReceived c (offset + data.length - (c.streams p).highest))
    split
    · exact w.trans hcharge (w.fail ..)
    · exact w.trans (w.trans hcharge (w.receive _ _ ⟨_, _, _, _, _, _, _, _, _, _, rfl⟩)) (w.storeData ..)
  · exact w.storeData ..

theorem applyStreamFrame (w : Walk p R) (f : Frame) (offset : Nat) (data : Bytes) (fin : Bool) :
    R c (c.applyStreamFrame p f offset data fin) := by
  unfold Conn.applyStreamFrame
  dsimp only
  split
  · exact w.fail ..
  split
  · split
    · exact w.fail ..
    · exact w.chargeData ..
  · split
    · split
      · exact w.fail ..
      · exact w.trans (w.receive _ _ ⟨_, _, _, _, _, _, _, _, _, _, rfl⟩) (w.chargeData ..)
    · exact w.chargeData ..

end Walk

/-- Every stream is woken when each one can be. -/
theorem wakeBlocked_of (hrefl : ∀ c, R c c) (htrans : ∀ {a b c}, R a b → R b c → R a c)
    (hone : ∀ (k : Conn) (q : Ptr), R k (k.wakeOne q)) : R c c.wakeBlocked := by
  have hfold : ∀ (ps : List Ptr) (k : Conn), R k (ps.foldl wakeOne k) := by
    intro ps
    induction ps with
    | nil => exact hrefl
    | cons q ps ih => exact fun k => htrans (hone k q) (ih _)
  exact hfold _ c

/-! ## §2. The flags, the lists and the counters. -/

/-- What the stream credit is counted by. -/
def counters (c : Conn) : Limits × Nat × Nat × Nat × Nat × Nat × Nat :=
  (c.limits, c.advertisedBidi, c.advertisedUni, c.ourMaxStreamsBidi, c.ourMaxStreamsUni, c.closedBidi,
    c.closedUni)

/-- A relation that composes, reads of the streams the flags of the frames due, and allows these to
    be raised with the stream on `control_`. -/
structure Tour (R : Conn → Conn → Prop) : Prop where
  refl : ∀ c, R c c
  trans : ∀ {a b c}, R a b → R b c → R a c
  rest : ∀ {c c'}, c'.streams = c.streams → c'.control = c.control → c'.counters = c.counters → R c c'
  touch : ∀ (c : Conn) (p : Ptr) (f : QuicStream → QuicStream),
    (f (c.streams p)).resetDue = (c.streams p).resetDue →
      (f (c.streams p)).stopDue = (c.streams p).stopDue → R c (c.modify p f)
  blank : ∀ (c : Conn) (p : Ptr), R c (c.modify p fun _ => {})
  push : ∀ (c : Conn) (p : Ptr) (f : QuicStream → QuicStream),
    R c ((c.modify p f).setControl (p :: (c.modify p f).control))
  enqueue : ∀ (c : Conn) (p : Ptr), R c (c.enqueue p)
  dequeue : ∀ (c : Conn) (p : Ptr), R c (c.dequeue p)
  rotate : ∀ c : Conn, R c c.rotate

namespace Tour

theorem walk (t : Tour R) (p : Ptr) : Walk p R where
  refl := t.refl
  trans := t.trans
  apart := by
    rintro c c' ⟨_, _, _, _, _, _, _, _, _, _, _, _, rfl⟩
    exact t.rest rfl rfl rfl
  receive := by
    rintro c f ⟨_, _, _, _, _, _, _, _, _, _, he⟩
    exact t.touch c p f (by rw [he]) (by rw [he])

theorem setCredit (t : Tour R) (c : Conn) (ps : List Ptr) : R c (c.setCredit ps) := t.rest rfl rfl rfl

theorem grant (t : Tour R) (p : Ptr) (maxRecv : Nat) (c : Conn) : R c (c.grant p maxRecv) := by
  have hlimit : R c (c.modify p fun s => { s with maxRecv := maxRecv }) := t.touch c p _ rfl rfl
  unfold Conn.grant
  dsimp only
  split
  · exact hlimit
  · exact t.trans (t.trans hlimit (t.touch _ p _ rfl rfl)) (t.setCredit ..)

theorem streamReset (t : Tour R) (p : Ptr) (code : Nat) : R c (c.streamReset p code) := by
  unfold Conn.streamReset
  split
  · exact t.refl c
  · exact t.push c p _

theorem streamStopSending (t : Tour R) (p : Ptr) (code : Nat) : R c (c.streamStopSending p code) := by
  unfold Conn.streamStopSending
  split
  · exact t.refl c
  · exact t.push c p _

theorem noteOpened (t : Tour R) (bidi : Bool) (index : Nat) : R c (c.noteOpened bidi index) := by
  unfold Conn.noteOpened
  split
  · split
    · exact t.rest rfl rfl rfl
    · exact t.refl c
  · split
    · exact t.rest rfl rfl rfl
    · exact t.refl c

/-- A new stream: one of the pool with the flags it has, or an object without any. -/
theorem openStream (t : Tour R) (id : Nat) : R c (c.openStream id).1 := by
  have htake : R c c.takeStream.1 := by
    unfold takeStream
    split
    · exact t.rest rfl rfl rfl
    have hset : R c ((c.setAllocated (c.allocated + 1)).setActive (c.active ++ [c.allocated])) :=
      t.rest rfl rfl rfl
    exact t.trans hset (t.blank _ c.allocated)
  unfold Conn.openStream
  cases ht : c.takeStream with
  | mk c₁ p =>
    rw [ht] at htake
    dsimp only at htake ⊢
    exact t.trans (t.trans htake (t.noteOpened ..)) (t.touch _ p _ rfl rfl)

theorem incomingStream (t : Tour R) (id : Nat) : R c (c.incomingStream id).1 := by
  unfold Conn.incomingStream
  split
  · exact (t.walk 0).fail ..
  dsimp only
  split
  · exact (t.walk 0).fail ..
  split
  · exact t.refl c
  split
  · exact t.refl c
  · exact t.openStream id

theorem sendStream (t : Tour R) (id : Nat) : R c (c.sendStream id).1 := by
  unfold Conn.sendStream
  split
  · exact t.incomingStream id
  · exact t.refl c

theorem wakeBlocked (t : Tour R) : R c c.wakeBlocked := by
  refine wakeBlocked_of t.refl t.trans fun k q => ?_
  unfold wakeOne
  dsimp only
  split
  · exact t.trans (t.touch k q _ rfl rfl) (t.enqueue ..)
  · exact t.refl k

/-- **The peer's frames.** -/
theorem handleFrame (t : Tour R) (f : Frame) (sec : Int) : R c (c.handleFrame f sec) := by
  have w := t.walk 0
  cases f with
  | resetStream id code finalSize =>
    unfold Conn.handleFrame
    dsimp only
    have hcount : R c (c.countReset sec).1 := w.countReset sec
    cases hr : c.countReset sec with
    | mk c₁ go =>
      rw [hr] at hcount
      cases go with
      | false => exact hcount
      | true =>
        dsimp only
        have hin : R c₁ (c₁.incomingStream id).1 := t.incomingStream id
        cases hi : c₁.incomingStream id with
        | mk c₂ r =>
          rw [hi] at hin
          cases r with
          | none => exact t.trans hcount hin
          | some p => exact t.trans (t.trans hcount hin) ((t.walk p).applyReset ..)
  | stopSending id code =>
    unfold Conn.handleFrame
    dsimp only
    split
    · exact w.fail ..
    have hcount : R c (c.countReset sec).1 := w.countReset sec
    cases hr : c.countReset sec with
    | mk c₁ go =>
      rw [hr] at hcount
      cases go with
      | false => exact hcount
      | true =>
        dsimp only
        have hin : R c₁ (c₁.sendStream id).1 := t.sendStream id
        cases hi : c₁.sendStream id with
        | mk c₂ r =>
          rw [hi] at hin
          cases r with
          | none => exact t.trans hcount hin
          | some p =>
            dsimp only
            split
            · exact t.trans hcount hin
            · exact t.trans (t.trans hcount hin) (t.touch _ p _ rfl rfl)
  | maxData v =>
    unfold Conn.handleFrame
    dsimp only
    split
    · have hset : R c (c.setPeerMaxData v) := t.rest rfl rfl rfl
      exact t.trans hset t.wakeBlocked
    · exact w.glitch
  | maxStreamData id v =>
    unfold Conn.handleFrame
    dsimp only
    split
    · exact w.fail ..
    have hin : R c (c.sendStream id).1 := t.sendStream id
    cases hi : c.sendStream id with
    | mk c₁ r =>
      rw [hi] at hin
      cases r with
      | none => exact hin
      | some p =>
        dsimp only
        have hset : R c (c₁.modify p fun s => { s with maxSend := v, blockedReported := false }) :=
          t.trans hin (t.touch _ p _ rfl rfl)
        split
        · split
          · exact t.trans hset (t.enqueue ..)
          · exact hset
        · exact t.trans hin w.glitch
  | maxStreamsBidi v =>
    unfold Conn.handleFrame
    dsimp only
    split
    · exact w.fail ..
    split
    · exact t.rest rfl rfl rfl
    · exact w.glitch
  | maxStreamsUni v =>
    unfold Conn.handleFrame
    dsimp only
    split
    · exact w.fail ..
    split
    · exact t.rest rfl rfl rfl
    · exact w.glitch
  | stream id offset data fin =>
    unfold Conn.handleFrame
    dsimp only
    have hin : R c (c.incomingStream id).1 := t.incomingStream id
    cases hi : c.incomingStream id with
    | mk c₁ r =>
      rw [hi] at hin
      cases r with
      | none => exact hin
      | some p => exact t.trans hin ((t.walk p).applyStreamFrame ..)
  | connectionClose => exact t.rest rfl rfl rfl

theorem maxDataTurn (t : Tour R) (room : Nat) : R c (c.maxDataTurn room).conn := by
  unfold Conn.maxDataTurn
  dsimp only
  split
  · exact t.rest rfl rfl rfl
  · exact t.refl c

theorem creditTurn (t : Tour R) (room : Nat) : R c (c.creditTurn room).conn := by
  unfold Conn.creditTurn
  split
  · exact t.refl c
  next p rest _ =>
  dsimp only
  split
  · exact t.rest rfl rfl rfl
  split
  · exact t.refl c
  · exact t.trans (t.touch c p _ rfl rfl) (t.setCredit _ rest)

theorem streamTurn (t : Tour R) (room : Nat) (read : ReadAt) : R c (c.streamTurn room read).conn := by
  have hmark : ∀ (k : Conn) (p : Ptr) (b take : Nat) (resend fin : Bool),
      R k (k.noteSent p b take resend fin) := by
    intro k p b take resend fin
    have hsent : R k (k.markSent p b take resend) := by
      unfold markSent
      split
      · exact t.touch k p _ rfl rfl
      split
      · have hadd : R k (k.addSent take) := t.rest rfl rfl rfl
        exact t.trans hadd (t.touch _ p _ rfl rfl)
      · exact t.refl k
    have hfin : R k ((k.markSent p b take resend).markFin p fin) := by
      unfold markFin
      split
      · exact t.trans hsent (t.touch _ p _ rfl rfl)
      · exact hsent
    unfold noteSent
    dsimp only
    split
    · exact t.trans hfin (t.rotate _)
    · exact t.trans hfin (t.dequeue ..)
  unfold Conn.streamTurn
  cases hh : c.readyHead with
  | none => exact t.refl c
  | some p =>
    dsimp only
    split
    · exact t.refl c
    split
    · unfold blockStream
      dsimp only
      split
      · exact t.dequeue c p
      · exact t.trans (t.touch c p _ rfl rfl) (t.dequeue _ p)
    · exact t.dequeue c p
    · split
      · exact t.refl c
      split
      · exact t.trans (t.streamReset p h3InternalError) (t.dequeue _ p)
      next data s' hcopy =>
      obtain ⟨_, _, _, rfl⟩ := QuicStream.copyStreamBytes_chunk hcopy
      exact t.trans (t.touch c p _ rfl rfl) (hmark ..)

theorem openOwn (t : Tour R) (p : Ptr) (head : Bytes) (trim : Bool) : R c (c.openOwn p head trim) := by
  have hbegin : R c (c.beginOwn p head trim) := t.touch c p _ rfl rfl
  unfold Conn.openOwn openUniStream
  by_cases h : (c.beginOwn p head trim).nextUniIndex ≥ (c.beginOwn p head trim).peerMaxStreamsUni
  · rw [if_pos h]
    exact hbegin
  rw [if_neg h]
  dsimp only
  have hindex : R c ((c.beginOwn p head trim).setUniIndex
      ((c.beginOwn p head trim).nextUniIndex + 1)) := t.trans hbegin (t.rest rfl rfl rfl)
  exact t.trans (t.trans hindex (t.touch _ p _ rfl rfl)) (t.touch _ p _ rfl rfl)

theorem applyAcked (t : Tour R) (it : SentItem) : R c (c.applyAcked it) := by
  have hflags : ∀ s : QuicStream, (settleAcked s).resetDue = s.resetDue ∧
      (settleAcked s).stopDue = s.stopDue := by
    intro s
    unfold settleAcked trimAcked
    dsimp only
    split
    · split <;> exact ⟨rfl, rfl⟩
    · split <;> exact ⟨rfl, rfl⟩
  cases it with
  | stream id offset len fin =>
    unfold Conn.applyAcked
    dsimp only
    split
    · exact t.refl c
    next p _ =>
    split
    · exact t.refl c
    · exact t.touch c p _ (hflags _).1 (hflags _).2
  | _ => exact t.refl c

end Tour

end Conn

end Agensio.Quic
