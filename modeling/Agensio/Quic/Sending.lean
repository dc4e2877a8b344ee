/-
  Agensio.Quic.Sending — the send side of a connection's streams.

  What is to be sent, was sent, is lost or acknowledged: `SendSide` is
  the record of these fields of a stream, as `StreamView` is for the
  receive side.  Most of what happens to a connection leaves every send
  side alone (`SameSend`); this module says ONCE what the rest can do to
  it, frames written included (`SendEffect`), and the accounting results
  are derived from that.

  Main results: `call_effect` (the application and the handshake),
  `frame_effect` (the peer's frames), `controlTurn_round` and
  `streamTurn_round` (the rounds that write RESET_STREAM and STREAM).
-/
import Agensio.Quic.Table

namespace Agensio.Quic

/-! ## §1. The send side. -/

structure SendSide where
  isOpen : Bool
  id : Nat
  headBase : Nat
  headEnd : Nat
  trimHead : Bool
  fin : Bool
  total : Nat
  next : Nat
  lost : RangeSet
  acked : RangeSet
  finSent : Bool
  finAcked : Bool
  maxSend : Nat
  resetDue : Bool
  resetSent : Bool
  sendDone : Bool

def QuicStream.sendSide (s : QuicStream) : SendSide where
  isOpen := s.isOpen
  id := s.id
  headBase := s.headBase
  headEnd := s.headEnd
  trimHead := s.trimHead
  fin := s.fin
  total := s.total
  next := s.next
  lost := s.lost
  acked := s.acked
  finSent := s.finSent
  finAcked := s.finAcked
  maxSend := s.maxSend
  resetDue := s.resetDue
  resetSent := s.resetSent
  sendDone := s.sendDone

/-- The frames that disclose an offset of a stream to the peer. -/
def OutFrame.discloses : OutFrame → Bool
  | .stream .. => true
  | .resetStream .. => true
  | _ => false

/-- Nothing to send, nothing sent. -/
structure SendSide.Blank (s : SendSide) : Prop where
  headBase : s.headBase = 0
  fin : s.fin = false
  total : s.total = 0
  next : s.next = 0
  lost : s.lost = []
  acked : s.acked = []
  finSent : s.finSent = false
  finAcked : s.finAcked = false
  resetDue : s.resetDue = false
  resetSent : s.resetSent = false
  sendDone : s.sendDone = false

namespace Conn

/-- The send side of the stream `p`. -/
def side (c : Conn) (p : Ptr) : SendSide := (c.streams p).sendSide

/-- All that sending reads is as before, but for the send side of `p`. -/
structure Touch (p : Ptr) (c c' : Conn) : Prop where
  others : ∀ q, q ≠ p → c'.side q = c.side q
  active : c'.active = c.active
  dataSent : c'.dataSent = c.dataSent
  peerMaxData : c'.peerMaxData = c.peerMaxData
  peerParamsOk : c'.peerParamsOk = c.peerParamsOk
  nextUniIndex : c'.nextUniIndex = c.nextUniIndex
  grows : Grows c c'

/-- All that sending reads is as before. -/
structure SameSend (c c' : Conn) : Prop where
  side : ∀ q, c'.side q = c.side q
  active : c'.active = c.active
  dataSent : c'.dataSent = c.dataSent
  peerMaxData : c'.peerMaxData = c.peerMaxData
  peerParamsOk : c'.peerParamsOk = c.peerParamsOk
  nextUniIndex : c'.nextUniIndex = c.nextUniIndex
  grows : Grows c c'

variable {c c' : Conn} {p : Ptr}

theorem SameSend.refl (c : Conn) : SameSend c c :=
  ⟨fun _ => rfl, rfl, rfl, rfl, rfl, rfl, Grows.refl c⟩

theorem SameSend.trans {a b c : Conn} (h : SameSend a b) (h' : SameSend b c) : SameSend a c where
  side := fun q => (h'.side q).trans (h.side q)
  active := h'.active.trans h.active
  dataSent := h'.dataSent.trans h.dataSent
  peerMaxData := h'.peerMaxData.trans h.peerMaxData
  peerParamsOk := h'.peerParamsOk.trans h.peerParamsOk
  nextUniIndex := h'.nextUniIndex.trans h.nextUniIndex
  grows := h.grows.trans h'.grows

/-- The fields sending reads are as before, and so are the books of the stream ids. -/
theorem SameSend.of_eq (hs : c'.streams = c.streams) (ha : c'.active = c.active)
    (hd : c'.dataSent = c.dataSent) (hm : c'.peerMaxData = c.peerMaxData)
    (hp : c'.peerParamsOk = c.peerParamsOk) (hn : c'.nextUniIndex = c.nextUniIndex)
    (hg : Grows c c') : SameSend c c' :=
  ⟨fun q => congrArg (fun f => (f q).sendSide) hs, ha, hd, hm, hp, hn, hg⟩

theorem SameSend.modify (c : Conn) (p : Ptr) (f : QuicStream → QuicStream)
    (h : (f (c.streams p)).sendSide = (c.streams p).sendSide) : SameSend c (c.modify p f) :=
  ⟨fun q => proj_modify QuicStream.sendSide c p q f h, rfl, rfl, rfl, rfl, rfl, Grows.modify c p f⟩

theorem SameSend.of_linkOnly (h : LinkOnly c c') : SameSend c c' := by
  obtain ⟨_, _, _, _, rfl⟩ := h
  exact ⟨fun _ => rfl, rfl, rfl, rfl, rfl, rfl, Grows.of_eq (fun _ => rfl) fun _ => rfl⟩

theorem SameSend.of_noted (h : Noted c c') : SameSend c c' := by
  obtain ⟨_, _, rfl⟩ := h
  exact ⟨fun _ => rfl, rfl, rfl, rfl, rfl, rfl, Grows.of_eq (fun _ => rfl) fun _ => rfl⟩

theorem Touch.of_same (p : Ptr) (h : SameSend c c') : Touch p c c' :=
  ⟨fun q _ => h.side q, h.active, h.dataSent, h.peerMaxData, h.peerParamsOk, h.nextUniIndex, h.grows⟩

theorem Touch.trans {a b c : Conn} (h : Touch p a b) (h' : Touch p b c) : Touch p a c where
  others := fun q hq => (h'.others q hq).trans (h.others q hq)
  active := h'.active.trans h.active
  dataSent := h'.dataSent.trans h.dataSent
  peerMaxData := h'.peerMaxData.trans h.peerMaxData
  peerParamsOk := h'.peerParamsOk.trans h.peerParamsOk
  nextUniIndex := h'.nextUniIndex.trans h.nextUniIndex
  grows := h.grows.trans h'.grows

theorem Touch.modify (c : Conn) (p : Ptr) (f : QuicStream → QuicStream) : Touch p c (c.modify p f) :=
  ⟨fun _ hq => congrArg QuicStream.sendSide (streams_modify_of_ne c f hq), rfl, rfl, rfl, rfl, rfl,
    Grows.modify c p f⟩

theorem side_modify_self (c : Conn) (p : Ptr) (f : QuicStream → QuicStream) :
    (c.modify p f).side p = (f (c.streams p)).sendSide :=
  congrArg QuicStream.sendSide (streams_modify_self c p f)

/-! ## §2. What leaves every send side alone. -/

theorem same_setState (c : Conn) (st : State) : SameSend c (c.setState st) :=
  SameSend.of_eq rfl rfl rfl rfl rfl rfl (Grows.of_eq (fun _ => rfl) fun _ => rfl)

theorem same_setControl (c : Conn) (ps : List Ptr) : SameSend c (c.setControl ps) :=
  SameSend.of_eq rfl rfl rfl rfl rfl rfl (Grows.of_eq (fun _ => rfl) fun _ => rfl)

theorem same_setCredit (c : Conn) (ps : List Ptr) : SameSend c (c.setCredit ps) :=
  SameSend.of_eq rfl rfl rfl rfl rfl rfl (Grows.of_eq (fun _ => rfl) fun _ => rfl)

theorem same_grant (c : Conn) (p : Ptr) (maxRecv : Nat) : SameSend c (c.grant p maxRecv) := by
  have hlimit : SameSend c (c.modify p fun s => { s with maxRecv := maxRecv }) :=
    SameSend.modify c p _ rfl
  unfold grant
  split
  · exact hlimit
  · exact (hlimit.trans (SameSend.modify _ p _ rfl)).trans (same_setCredit _ _)

/-- The receive side is apart from every send side. -/
theorem same_walk (p : Ptr) : Walk p SameSend where
  refl := SameSend.refl
  trans := SameSend.trans
  apart := by
    rintro c c' ⟨_, _, _, _, _, _, _, _, _, _, _, _, rfl⟩
    exact SameSend.of_eq rfl rfl rfl rfl rfl rfl (Grows.of_eq (fun _ => rfl) fun _ => rfl)
  receive := by
    rintro c f ⟨_, _, _, _, _, _, _, _, _, _, he⟩
    exact SameSend.modify c p f (by rw [he]; rfl)

theorem same_streamStopSending (c : Conn) (p : Ptr) (code : Nat) :
    SameSend c (c.streamStopSending p code) := by
  unfold streamStopSending
  split
  · exact SameSend.refl c
  · exact (SameSend.modify c p _ rfl).trans (same_setControl _ _)

theorem same_wakeBlocked (c : Conn) : SameSend c c.wakeBlocked := by
  refine wakeBlocked_of SameSend.refl SameSend.trans fun k p => ?_
  unfold wakeOne
  dsimp only
  split
  · exact (SameSend.modify k p _ rfl).trans (SameSend.of_linkOnly (enqueue_linkOnly ..))
  · exact SameSend.refl k

theorem same_maxDataTurn (c : Conn) (room : Nat) : SameSend c (c.maxDataTurn room).conn := by
  unfold maxDataTurn
  dsimp only
  split
  · exact SameSend.of_eq rfl rfl rfl rfl rfl rfl (Grows.of_eq (fun _ => rfl) fun _ => rfl)
  · exact SameSend.refl c

theorem same_maxStreamsTurn (c : Conn) (room : Nat) (eliciting : Bool) :
    SameSend c (c.maxStreamsTurn room eliciting).conn := by
  unfold maxStreamsTurn
  dsimp only
  split
  · exact SameSend.of_eq rfl rfl rfl rfl rfl rfl (Grows.of_eq (fun _ => rfl) fun _ => rfl)
  · exact SameSend.refl c

theorem same_creditTurn (c : Conn) (room : Nat) : SameSend c (c.creditTurn room).conn := by
  unfold creditTurn
  split
  · exact SameSend.refl c
  next p rest _ =>
  dsimp only
  split
  · exact same_setCredit c rest
  split
  · exact SameSend.refl c
  · exact (SameSend.modify c p _ rfl).trans (same_setCredit _ rest)

theorem same_putStop (c : Conn) (p : Ptr) (room : Nat) : SameSend c (c.putStop p room).1 := by
  unfold putStop
  dsimp only
  split
  · exact SameSend.refl c
  split
  · exact SameSend.refl c
  dsimp only
  exact SameSend.modify c p _ rfl

/-! ## §3. What changes one. -/

/-- The id belongs to an open stream, or to a stream of the peer known as closed. -/
def Known (c : Conn) (id : Nat) : Prop :=
  (∃ p, (c.side p).isOpen = true ∧ (c.side p).id = id) ∨
    (streamIsClient id = true ∧ c.knownClosed (streamIsBidi id) (id / 4) = true)

/-- What a call of the application, or a frame of the peer, does to the send side of an open
    stream. -/
inductive Change (c : Conn) (p : Ptr) (s : SendSide) : SendSide → Prop where
  | answered (n headEnd : Nat) (ha : p ∈ c.active) (hf : s.fin = false) (hb : s.headBase ≤ headEnd) :
      Change c p s { s with fin := true, total := n, headEnd := headEnd }
  | appended (n : Nat) (ho : p ∈ ownStreams) :
      Change c p s { s with headEnd := s.headEnd + n, total := s.headEnd + n }
  | raised (v : Nat) (hv : s.maxSend ≤ v) : Change c p s { s with maxSend := v }
  | due : Change c p s { s with resetDue := true }
  | done (h : s.resetSent = true) : Change c p s { s with sendDone := true }

/-- What a round of the STREAM loop frames: the first lost range or a part of it, new bytes within
    the credit, or the bare FIN. -/
inductive Framing (c : Conn) (s : SendSide) : Nat → Nat → SendSide → Nat → Prop where
  | resent {b e take : Nat} {rest : RangeSet} (hl : s.lost = (b, e) :: rest) (ht : take ≤ e - b) :
      Framing c s b take { s with lost := s.lost.remove b (b + take) } 0
  | fresh {take : Nat} (hl : s.lost = []) (hn : s.next < s.total)
      (ht : s.next + take ≤ s.total) (hm : s.next + take ≤ s.maxSend)
      (hd : c.dataSent + take ≤ c.peerMaxData) :
      Framing c s s.next take { s with next := s.next + take } take
  | bare (hl : s.lost = []) (hn : s.total ≤ s.next) (hf : s.fin = true) (hs : s.finSent = false) :
      Framing c s s.total 0 s 0

/-- **What can happen to the send sides**, and the frames that disclose an offset to the peer. -/
inductive SendEffect (c : Conn) : Conn → List OutFrame → Prop where
  | same {c' : Conn} (h : SameSend c c') : SendEffect c c' []
  | credit {c' : Conn} {v : Nat} (hv : c.peerMaxData ≤ v) (h : SameSend (c.setPeerMaxData v) c') :
      SendEffect c c' []
  | params {tp : PeerParams} (hp : c.peerParamsOk = false) :
      SendEffect c (c.applyPeerParams tp) []
  | change {c' : Conn} {p : Ptr} (ho : (c.side p).isOpen = true) (h : Touch p c c')
      (hs : Change c p (c.side p) (c'.side p)) : SendEffect c c' []
  | prepared {c' : Conn} {p : Ptr} (ho : (c.side p).isOpen = false) (h : Touch p c c')
      (hs : ∃ headEnd trim, c'.side p = { c.side p with headEnd := headEnd, trimHead := trim }) :
      SendEffect c c' []
  | opened {c' : Conn} {id : Nat} {p : Ptr} (ho : (c.side p).isOpen = false) (hp : p ∉ ownStreams)
      (hc : streamIsClient id = true) (hnew : ¬ Known c id) (h : Touch p (c.setActive (c.active ++ [p])) c')
      (hs : (c'.side p).isOpen = true ∧ (c'.side p).id = id)
      (hb : (c.side p).Blank → (c'.side p).Blank) : SendEffect c c' []
  | own {c' : Conn} {p : Ptr} (ho : (c.side p).isOpen = false) (hp : p ∈ ownStreams)
      (h : Touch p (c.setUniIndex (c.nextUniIndex + 1)) c')
      (hs : ∃ headEnd trim maxSend, (c.side p).headBase = 0 → c'.side p = { c.side p with
        isOpen := true, id := c.nextUniIndex * 4 + 3, headEnd := headEnd, trimHead := trim,
        total := headEnd, fin := false, maxSend := maxSend }) : SendEffect c c' []
  | closed {c' : Conn} {p : Ptr} (hp : p ∈ c.active) (ho : (c'.side p).isOpen = false)
      (hb : (c'.side p).Blank) (hk : Known c' (c.side p).id)
      (hm : ∀ q, q ∈ c'.active ↔ q ∈ c.active ∧ q ≠ p)
      (h : Touch p (c.setActive c'.active) c') : SendEffect c c' []
  | framed {c' : Conn} {p : Ptr} {b take n : Nat} {s : SendSide} {data : Bytes} {fin : Bool}
      (hf : Framing c (c.side p) b take s n) (hd : data.length = take)
      (hfin : fin = ((c.side p).fin && b + take == (c.side p).total))
      (h : Touch p (c.addSent n) c') (hs : c'.side p = { s with finSent := s.finSent || fin }) :
      SendEffect c c' [.stream (c.side p).id b data fin]
  | reset {c' : Conn} {p : Ptr} {code : Nat} (hr : (c.side p).resetDue = true) (h : Touch p c c')
      (hs : c'.side p = { c.side p with resetDue := false, resetSent := true }) :
      SendEffect c c' [.resetStream (c.side p).id code (c.side p).total]

/-- One effect after another. -/
inductive Effects (c : Conn) : Conn → List OutFrame → Prop where
  | none : Effects c c []
  | snoc {k c' : Conn} {fs gs : List OutFrame} (h : Effects c k fs) (h' : SendEffect k c' gs) :
      Effects c c' (fs ++ gs)

variable {fs : List OutFrame} {k : Conn} {id : Nat}

theorem Effects.one (h : SendEffect c c' fs) : Effects c c' fs := .snoc .none h

theorem Effects.same (h : SameSend c c') : Effects c c' [] := .one (.same h)

/-- An effect that writes nothing the peer counts. -/
theorem Effects.andThen (h : Effects c k fs) (h' : SendEffect k c' []) : Effects c c' fs := by
  have hsnoc := h.snoc h'
  rwa [List.append_nil] at hsnoc

theorem Effects.append (h : Effects c k fs) (h' : Effects k c' []) : Effects c c' fs := by
  generalize hn : ([] : List OutFrame) = gs at h'
  induction h' with
  | none => exact h
  | snoc _ he ih =>
    obtain ⟨hn, hg⟩ := List.append_eq_nil_iff.mp hn.symm
    rw [hg] at he
    exact (ih hn.symm).andThen he

/-- **What a round of the packetiser does**: nothing the peer counts; or it frames bytes of the
    stream at the head of the ready list; or it writes the RESET_STREAM due for the stream at the
    back of `control_`. -/
inductive Round (c : Conn) : Op → Conn → List OutFrame → Prop where
  | quiet {op : Op} {c' : Conn} (h : Effects c c' []) : Round c op c' []
  | framed {room : Nat} {read : ReadAt} {k k' c' : Conn} {p : Ptr} {b take n : Nat} {s : SendSide} {data : Bytes} {fin : Bool}
      (hp : c.readyHead = some p) (hk : SameSend c k) (hf : Framing k (k.side p) b take s n)
      (hd : data.length = take) (hfin : fin = ((k.side p).fin && b + take == (k.side p).total))
      (ht : Touch p (k.addSent n) k') (hs : k'.side p = { s with finSent := s.finSent || fin })
      (h : Effects k' c' []) :
      Round c (.streamTurn room read) c' [.stream (k.side p).id b data fin]
  | reset {room : Nat} {k' c' : Conn} {p : Ptr} {rest : List Ptr} (hp : c.control = p :: rest)
      (hr : (c.streams p).resetDue = true)
      (hfits : (OutFrame.resetStream (c.streams p).id (c.streams p).resetSendCode
        (c.streams p).total).size ≤ room)
      (ht : Touch p c k') (hs : k'.side p = { c.side p with resetDue := false, resetSent := true })
      (h : Effects k' c' []) :
      Round c (.controlTurn room) c'
        [.resetStream (c.side p).id (c.streams p).resetSendCode (c.side p).total]

theorem Round.effects {op : Op} (h : Round c op c' fs) : Effects c c' fs := by
  cases h with
  | quiet h => exact h
  | framed _ hk hf hd hfin ht hs h =>
    exact ((Effects.same hk).snoc (.framed hf hd hfin ht hs)).append h
  | reset _ hr _ ht hs h => exact (Effects.one (.reset hr ht hs)).append h

theorem streamReset_send (ho : (c.side p).isOpen = true) (code : Nat) :
    SendEffect c (c.streamReset p code) [] := by
  unfold streamReset
  split
  · exact .same (SameSend.refl c)
  refine .change ho ((Touch.modify c p _).trans (Touch.of_same p (same_setControl _ _))) ?_
  have hside : ∀ f ps, ((c.modify p f).setControl ps).side p = (f (c.streams p)).sendSide :=
    fun f _ => side_modify_self c p f
  rw [hside]
  exact .due

theorem appendHead_send (ho : (c.side p).isOpen = true) (hp : p ∈ ownStreams) (data : Bytes) :
    SendEffect c (c.appendHead p data) [] := by
  refine .change ho (Touch.modify c p _) ?_
  unfold appendHead
  rw [side_modify_self]
  have hend : ∀ s : QuicStream, QuicStream.sendSide { s with
      head := s.head ++ data, total := s.headEnd + data.length } =
      { s.sendSide with headEnd := s.headEnd + data.length, total := s.headEnd + data.length } := by
    intro s
    unfold QuicStream.sendSide QuicStream.headEnd
    simp [Nat.add_assoc]
  rw [hend]
  exact .appended data.length hp

theorem answer_send (ho : (c.side p).isOpen = true) (hp : p ∈ c.active)
    (hf : (c.side p).fin = false) (a : Answer) : SendEffect c (c.answer p a) [] := by
  refine .change ho (Touch.modify c p _) ?_
  unfold answer
  rw [side_modify_self]
  exact .answered (a.head.length + a.bodyLen) ((c.streams p).headBase + a.head.length) hp hf
    (Nat.le_add_right ..)

/-- Opening one of the application's streams, or being refused. -/
theorem openOwn_send (ho : (c.side p).isOpen = false) (hp : p ∈ ownStreams) (head : Bytes)
    (trim : Bool) : SendEffect c (c.openOwn p head trim) [] := by
  have hbegin : Touch p c (c.beginOwn p head trim) := Touch.modify c p _
  unfold openOwn openUniStream
  by_cases h : (c.beginOwn p head trim).nextUniIndex ≥ (c.beginOwn p head trim).peerMaxStreamsUni
  · rw [if_pos h]
    refine .prepared ho hbegin ⟨(c.streams p).headBase + head.length, trim, ?_⟩
    unfold beginOwn
    rw [side_modify_self]
    rfl
  · rw [if_neg h]
    refine .own ho hp ?_ ⟨head.length, trim, (c.beginOwn p head trim).peerTp.initialMaxStreamDataUni,
      fun hbase => ?_⟩
    · refine Touch.trans ?_ (Touch.modify _ p _)
      refine Touch.trans ?_ (Touch.modify _ p _)
      exact ⟨hbegin.others, rfl, rfl, rfl, rfl, rfl, Grows.of_eq (fun _ => rfl) fun _ => rfl⟩
    · have hbase : (c.streams p).headBase = 0 := hbase
      have hself : (c.beginOwn p head trim).streams p =
          { c.streams p with head := head, trimHead := trim } := streams_modify_self c p _
      rw [side_modify_self, streams_modify_self]
      show QuicStream.sendSide { (c.beginOwn p head trim).streams p with
        id := _, isOpen := true, maxSend := _, total := _, fin := false } = _
      rw [hself]
      unfold side QuicStream.sendSide QuicStream.headEnd
      simp only [hbase, Nat.zero_add, SendSide.mk.injEq, true_and, and_true]
      refine ⟨rfl, ?_⟩
      show List.length ((c.beginOwn p head trim).streams p).head = head.length
      rw [hself]

theorem same_countClosed (c : Conn) (id : Nat) : SameSend c (c.countClosed id) := by
  have hgrows := countClosed_grows c id
  unfold countClosed at hgrows ⊢
  split
  · next hb =>
    rw [if_pos hb] at hgrows
    exact SameSend.of_eq rfl rfl rfl rfl rfl rfl hgrows
  · next hb =>
    rw [if_neg hb] at hgrows
    exact SameSend.of_eq rfl rfl rfl rfl rfl rfl hgrows

theorem streamClosed_touch (c : Conn) (p : Ptr) : Touch p c (c.streamClosed p) := by
  have hlists : SameSend c (((c.dequeue p).setControl ((c.dequeue p).control.filter (· ≠ p))).setCredit
      ((c.dequeue p).credit.filter (· ≠ p))) :=
    ((SameSend.of_linkOnly (dequeue_linkOnly c p)).trans (same_setControl _ _)).trans
      (same_setCredit _ _)
  unfold streamClosed
  refine Touch.trans ?_ (Touch.modify _ p _)
  split
  · exact Touch.of_same p (hlists.trans (same_countClosed _ _))
  · exact Touch.of_same p hlists

/-- `release` blanks the stream and takes it off the table. -/
theorem release_send (hp : p ∈ c.active) : (c.release p).side p = (c.streams p).resetQuic.sendSide ∧
      Touch p (c.setActive (c.release p).active) (c.release p) := by
  obtain ⟨ps, -, he⟩ := release_eq hp
  rw [he]
  refine ⟨side_modify_self (c.setActive _) p QuicStream.resetQuic, ?_⟩
  refine (Touch.modify (c.setActive (swapRemove c.active p)) p QuicStream.resetQuic).trans
    (Touch.of_same p ?_)
  exact SameSend.of_eq rfl rfl rfl rfl rfl rfl (Grows.setPool _ ps)

/-- A stream that is closed and released is blank, and its id is known as closed. -/
theorem closeStream_send (hp : p ∈ c.active) (h : TableInv c) : SendEffect c (c.closeStream p) [] := by
  obtain ⟨hc, -, hk⟩ := closeStream_spec hp h
  have hclosed := streamClosed_touch c p
  obtain ⟨hself, hrel⟩ := release_send (show p ∈ (c.streamClosed p).active by
    rw [hclosed.active]
    exact hp)
  have hside : (c.closeStream p).side p = ((c.streamClosed p).streams p).resetQuic.sendSide := hself
  refine .closed hp ?_ ?_ (.inr ⟨h.active_client p hp, hk⟩) ?_ ?_
  · rw [hside]
    rfl
  · rw [hside]
    exact ⟨rfl, rfl, rfl, rfl, rfl, rfl, rfl, rfl, rfl, rfl, rfl⟩
  · intro q
    rw [hc.active.mem_iff, h.active_nodup.mem_erase_iff]
    exact and_comm
  · refine Touch.trans ?_ hrel
    exact ⟨hclosed.others, rfl, hclosed.dataSent, hclosed.peerMaxData, hclosed.peerParamsOk,
      hclosed.nextUniIndex, ⟨hclosed.grows.opened, hclosed.grows.closed⟩⟩

theorem same_noteOpened (c : Conn) (bidi : Bool) (index : Nat) : SameSend c (c.noteOpened bidi index) := by
  have hgrows := noteOpened_grows c bidi index
  unfold noteOpened at hgrows ⊢
  cases bidi with
  | true =>
    rw [if_pos rfl] at hgrows ⊢
    split
    · next h =>
      rw [if_pos h] at hgrows
      exact SameSend.of_eq rfl rfl rfl rfl rfl rfl hgrows
    · exact SameSend.refl c
  | false =>
    rw [if_neg Bool.false_ne_true] at hgrows ⊢
    split
    · next h =>
      rw [if_pos h] at hgrows
      exact SameSend.of_eq rfl rfl rfl rfl rfl rfl hgrows
    · exact SameSend.refl c

/-- The stream object taken, blank when the pool's are, before its id and limits are set. -/
theorem openStream_cases (c : Conn) (id : Nat) :
    ∃ (k : Conn), Touch (c.openStream id).2 (c.setActive (c.active ++ [(c.openStream id).2])) k ∧
      ((c.side (c.openStream id).2).Blank → (k.side (c.openStream id).2).Blank) ∧
      (c.openStream id).1 = k.modify (c.openStream id).2 fun s =>
        { s with
          id := id, isOpen := true
          window := if streamIsBidi id then c.limits.streamWindow else c.limits.uniStreamWindow
          maxRecv := if streamIsBidi id then c.limits.streamWindow else c.limits.uniStreamWindow
          maxSend := if streamIsBidi id then c.peerTp.initialMaxStreamDataBidiLocal else 0 } := by
  cases hpool : c.pool with
  | cons p rest =>
    have hnote := same_noteOpened ((c.setPool rest).setActive (c.active ++ [p])) (streamIsBidi id)
      (id / 4)
    have hset : SameSend (c.setActive (c.active ++ [p])) ((c.setPool rest).setActive (c.active ++ [p])) :=
      SameSend.of_eq rfl rfl rfl rfl rfl rfl (Grows.of_eq (fun _ => rfl) fun _ => rfl)
    unfold openStream
    rw [takeStream_pool hpool]
    refine ⟨_, Touch.of_same p (hset.trans hnote), fun hb => ?_, rfl⟩
    rw [(hset.trans hnote).side p]
    exact hb
  | nil =>
    have hnote := same_noteOpened (((c.setAllocated (c.allocated + 1)).setActive
      (c.active ++ [c.allocated])).modify c.allocated fun _ => {}) (streamIsBidi id) (id / 4)
    have hset : SameSend (c.setActive (c.active ++ [c.allocated]))
        ((c.setAllocated (c.allocated + 1)).setActive (c.active ++ [c.allocated])) :=
      SameSend.of_eq rfl rfl rfl rfl rfl rfl (Grows.of_eq (fun _ => rfl) fun _ => rfl)
    unfold openStream
    rw [takeStream_new hpool]
    refine ⟨_, ((Touch.of_same _ hset).trans (Touch.modify _ c.allocated _)).trans
      (Touch.of_same _ hnote), fun _ => ?_, rfl⟩
    rw [hnote.side, side_modify_self]
    exact ⟨rfl, rfl, rfl, rfl, rfl, rfl, rfl, rfl, rfl, rfl, rfl⟩

/-- A stream of the peer that is opened is new to the connection. -/
theorem openStream_send (h : TableInv c) (hc : streamIsClient id = true)
    (hf : c.findStream id = none) (hk : c.knownClosed (streamIsBidi id) (id / 4) = false) :
    SendEffect c (c.openStream id).1 [] := by
  have hopened := openStream_spec id h
  have hnew : ¬ Known c id := by
    rintro (⟨q, hq, hid⟩ | ⟨-, hk'⟩)
    · rcases h.open_listed q hq with ha | ho
      · exact h.id_ne hf ha hid
      have hserver := h.own_server q ho hq
      have hid : (c.streams q).id = id := hid
      rw [hid, hc] at hserver
      exact Bool.false_ne_true hserver.symm
    · rw [hk] at hk'
      exact Bool.false_ne_true hk'
  obtain ⟨k, hk, hside, he⟩ := openStream_cases c id
  refine .opened hopened.fresh.2.2 hopened.fresh.2.1 hc hnew ?_ ⟨hopened.isOpen, hopened.id_eq⟩ ?_
  · rw [he]
    exact hk.trans (Touch.modify ..)
  · intro hb
    have hb' := hside hb
    rw [he]
    rw [side_modify_self]
    exact ⟨hb'.headBase, hb'.fin, hb'.total, hb'.next, hb'.lost, hb'.acked, hb'.finSent, hb'.finAcked,
      hb'.resetDue, hb'.resetSent, hb'.sendDone⟩

/-! ## §4. The peer's frames. -/

/-- The stream a frame is for, and what finding or opening it did. -/
theorem found_send (hf : Found c id k p) (h : TableInv c) : Effects c k [] ∧ (k.side p).isOpen = true := by
  cases hf with
  | found hn hf => exact ⟨.same (SameSend.of_noted hn), (findStream_some hf).2.1⟩
  | opened hn hc hf _ hk =>
    have ht := table_of_same (SameReceive.of_quiet hn.quiet) h
    refine ⟨(Effects.same (SameSend.of_noted hn)).andThen (openStream_send ht hc hf hk), ?_⟩
    exact (openStream_spec id ht).isOpen

/-- `incoming_stream` gives a stream, or nothing is sent differently. -/
theorem incomingStream_send {k' : Conn} {r : Option Ptr} (hn : Noted c k)
    (h : TableInv c) (hi : k.incomingStream id = (k', r)) :
    Effects c k' [] ∧ ∀ p, r = some p → (k'.side p).isOpen = true := by
  rcases incomingStream_cases k id with
    ⟨code, reason, -, he⟩ | he | ⟨p, hc, hf, he⟩ | ⟨hc, hf, hl, hk, he⟩
  · rw [he] at hi
    cases hi
    exact ⟨.same ((SameSend.of_noted hn).trans ((same_walk 0).fail ..)), fun p hp => absurd hp (by simp)⟩
  · rw [he] at hi
    cases hi
    exact ⟨.same (SameSend.of_noted hn), fun p hp => absurd hp (by simp)⟩
  · rw [he] at hi
    cases hi
    obtain ⟨heff, ho⟩ := found_send (Found.found hn hf) h
    refine ⟨heff, ?_⟩
    rintro q hq
    cases hq
    exact ho
  · rw [he] at hi
    cases hi
    obtain ⟨heff, ho⟩ := found_send (Found.opened hn hc hf hl hk) h
    refine ⟨heff, ?_⟩
    rintro q hq
    cases hq
    exact ho

theorem sendStream_send {k' : Conn} {r : Option Ptr} (hn : Noted c k)
    (h : TableInv c) (hi : k.sendStream id = (k', r)) :
    Effects c k' [] ∧ ∀ p, r = some p → (k'.side p).isOpen = true := by
  unfold sendStream at hi
  split at hi
  · exact incomingStream_send hn h hi
  cases hi
  exact ⟨.same (SameSend.of_noted hn), fun p hp => (findStream_some hp).2.1⟩

/-- **What a frame of the peer does to the send sides.** -/
theorem frame_effect (h : TableInv c) (f : Frame) (sec : Int) : Effects c (c.handleFrame f sec) [] := by
  cases f with
  | resetStream id code finalSize =>
    unfold handleFrame
    have hcount : SameSend c (c.countReset sec).1 := (same_walk 0).countReset sec
    cases hr : c.countReset sec with
    | mk c₁ go =>
      rw [hr] at hcount
      cases go with
      | false => exact .same hcount
      | true =>
        dsimp only
        cases hi : c₁.incomingStream id with
        | mk c₂ r =>
          obtain ⟨heff, -⟩ := incomingStream_send (countReset_noted hr) h hi
          cases r with
          | none => exact heff
          | some p => exact heff.andThen (.same ((same_walk p).applyReset ..))
  | stopSending id code =>
    unfold handleFrame
    dsimp only
    split
    · exact .same ((same_walk 0).fail ..)
    have hcount : SameSend c (c.countReset sec).1 := (same_walk 0).countReset sec
    cases hr : c.countReset sec with
    | mk c₁ go =>
      rw [hr] at hcount
      cases go with
      | false => exact .same hcount
      | true =>
        dsimp only
        cases hi : c₁.sendStream id with
        | mk c₂ r =>
          obtain ⟨heff, -⟩ := sendStream_send (countReset_noted hr) h hi
          cases r with
          | none => exact heff
          | some p =>
            dsimp only
            split
            · exact heff
            · exact heff.andThen (.same (SameSend.modify c₂ p _ rfl))
  | maxData v =>
    unfold handleFrame
    dsimp only
    split
    · next hv => exact .one (.credit (Nat.le_of_lt hv) (same_wakeBlocked _))
    · exact .same (same_walk 0).glitch
  | maxStreamData id v =>
    unfold handleFrame
    dsimp only
    split
    · exact .same ((same_walk 0).fail ..)
    cases hi : c.sendStream id with
    | mk c₂ r =>
      obtain ⟨heff, ho⟩ := sendStream_send (Noted.refl c) h hi
      cases r with
      | none => exact heff
      | some p =>
        dsimp only
        split
        · next hv =>
          have hraise : SendEffect c₂ (c₂.modify p fun s =>
              { s with maxSend := v, blockedReported := false }) [] := by
            refine .change (ho p rfl) (Touch.modify c₂ p _) ?_
            rw [side_modify_self]
            exact .raised v (Nat.le_of_lt hv)
          split
          · exact (heff.andThen hraise).andThen (.same (SameSend.of_linkOnly (enqueue_linkOnly ..)))
          · exact heff.andThen hraise
        · exact heff.andThen (.same (same_walk 0).glitch)
  | maxStreamsBidi v =>
    unfold handleFrame
    dsimp only
    split
    · exact .same ((same_walk 0).fail ..)
    split
    · exact .same (SameSend.of_eq rfl rfl rfl rfl rfl rfl (Grows.of_eq (fun _ => rfl) fun _ => rfl))
    · exact .same (same_walk 0).glitch
  | maxStreamsUni v =>
    unfold handleFrame
    dsimp only
    split
    · exact .same ((same_walk 0).fail ..)
    split
    · exact .same (SameSend.of_eq rfl rfl rfl rfl rfl rfl (Grows.of_eq (fun _ => rfl) fun _ => rfl))
    · exact .same (same_walk 0).glitch
  | stream id offset data fin =>
    unfold handleFrame
    dsimp only
    cases hi : c.incomingStream id with
    | mk c₂ r =>
      obtain ⟨heff, -⟩ := incomingStream_send (Noted.refl c) h hi
      cases r with
      | none => exact heff
      | some p => exact heff.andThen (.same ((same_walk p).applyStreamFrame ..))
  | connectionClose => exact .same (same_setState c .draining)

/-! ## §5. The packetiser's rounds. -/

/-- The RESET_STREAM half of a control round: nothing is due, it does not fit, or it is written. -/
theorem putReset_cases (c : Conn) (p : Ptr) (room : Nat) :
    ((c.streams p).resetDue = false ∧ c.putReset p room = (c, [], true)) ∨
    ((c.streams p).resetDue = true ∧ c.putReset p room = (c, [], false)) ∨ ((c.streams p).resetDue = true ∧
      (OutFrame.resetStream (c.streams p).id (c.streams p).resetSendCode (c.streams p).total).size ≤ room ∧
      c.putReset p room = (c.modify p fun s => { s with resetDue := false, resetSent := true },
        [.resetStream (c.streams p).id (c.streams p).resetSendCode (c.streams p).total], true)) := by
  unfold putReset
  dsimp only
  cases hd : (c.streams p).resetDue with
  | false => exact .inl ⟨rfl, if_pos (by decide)⟩
  | true =>
    rw [if_neg (by decide)]
    split
    · exact .inr (.inl ⟨rfl, rfl⟩)
    · next hfits => exact .inr (.inr ⟨rfl, Nat.le_of_not_lt hfits, rfl⟩)

theorem putStop_frames (c : Conn) (p : Ptr) (room : Nat) :
    (c.putStop p room).2.1.filter OutFrame.discloses = [] := by
  unfold putStop
  dsimp only
  split
  · rfl
  · split <;> rfl

/-- A control round after its RESET_STREAM half. -/
def controlRest (c : Conn) (p : Ptr) (rest : List Ptr) (resetNow : Bool) (fs : List OutFrame)
    (room : Nat) : Turn :=
  match c.putStop p room with
  | (c₂, gs, false) => { conn := c₂, frames := fs ++ gs }
  | (c₂, gs, true) =>
    let c₃ := c₂.setControl rest
    if resetNow && !(c₃.streams p).sendDone then
      let c₄ := c₃.modify p fun s => { s with sendDone := true }
      { conn := c₄.dequeue p, frames := fs ++ gs, more := true }
    else { conn := c₃, frames := fs ++ gs, more := true }

theorem controlTurn_cons {rest : List Ptr} (h : c.control = p :: rest) (room : Nat) :
    c.controlTurn room = match c.putReset p room with
      | (c₁, fs, false) => { conn := c₁, frames := fs }
      | (c₁, fs, true) =>
        c₁.controlRest p rest (c.streams p).resetDue fs (room - (fs.map OutFrame.size).sum) := by
  unfold controlTurn
  rw [h]
  rfl

/-- It writes nothing that discloses an offset. -/
theorem controlRest_send {k : Conn} {b : Bool} (hp : b = true → (k.side p).resetSent = true)
    (ho : b = true → (k.side p).isOpen = true) (fs : List OutFrame) (rest : List Ptr)
    (room : Nat) : Effects k (k.controlRest p rest b fs room).conn [] ∧
      (k.controlRest p rest b fs room).frames.filter OutFrame.discloses = fs.filter OutFrame.discloses := by
  unfold controlRest
  have hstop := same_putStop k p room
  have hnone := putStop_frames k p room
  cases hs : k.putStop p room with
  | mk c₂ r₂ =>
    obtain ⟨gs, ok₂⟩ := r₂
    rw [hs] at hstop hnone
    have hfs : (fs ++ gs).filter OutFrame.discloses = fs.filter OutFrame.discloses := by
      rw [List.filter_append, hnone, List.append_nil]
    cases ok₂ with
    | false => exact ⟨.same hstop, hfs⟩
    | true =>
      dsimp only
      have hpop := (Effects.same hstop).andThen (.same (same_setControl c₂ rest))
      split
      · next hdone =>
        refine ⟨?_, hfs⟩
        have hdue := (Bool.and_eq_true_iff.mp hdone).1
        have hside : (c₂.setControl rest).side p = k.side p := hstop.side p
        have hmark : SendEffect (c₂.setControl rest) ((c₂.setControl rest).modify p fun s =>
            { s with sendDone := true }) [] := by
          refine .change ?_ (Touch.modify _ p _) ?_
          · rw [hside]
            exact ho hdue
          · rw [side_modify_self]
            refine .done ?_
            rw [hside]
            exact hp hdue
        exact (hpop.andThen hmark).andThen (.same (SameSend.of_linkOnly (dequeue_linkOnly ..)))
      · exact ⟨hpop, hfs⟩

/-- **A control round** writes the RESET_STREAM that is due, with the stream's total as its final
    size, and the stream is then done sending. -/
theorem controlTurn_round (hb : ∀ q, (c.side q).isOpen = false → (c.side q).Blank) (room : Nat) :
    Round c (.controlTurn room) (c.controlTurn room).conn
      ((c.controlTurn room).frames.filter OutFrame.discloses) := by
  cases hc : c.control with
  | nil =>
    unfold controlTurn
    rw [hc]
    exact .quiet .none
  | cons p rest =>
    rw [controlTurn_cons hc]
    rcases putReset_cases c p room with ⟨hd, he⟩ | ⟨hd, he⟩ | ⟨hd, hfits, he⟩ <;> rw [he] <;>
      dsimp only
    · have hno : ∀ {P : Prop}, (c.streams p).resetDue = true → P := by
        intro P h
        rw [hd] at h
        cases h
      obtain ⟨heff, hfs⟩ := controlRest_send (k := c) hno hno [] rest room
      rw [List.map_nil, List.sum_nil, Nat.sub_zero, hfs]
      exact .quiet heff
    · exact .quiet .none
    · have ho : (c.side p).isOpen = true := by
        by_contra hne
        have hblank := hb p (by simpa using hne)
        have hdue : (c.side p).resetDue = true := hd
        rw [hblank.resetDue] at hdue
        exact Bool.false_ne_true hdue
      have hside : (c.modify p fun s => { s with resetDue := false, resetSent := true }).side p =
          { c.side p with resetDue := false, resetSent := true } := side_modify_self c p _
      have hsent : ((c.modify p fun s => { s with resetDue := false, resetSent := true }).side
          p).resetSent = true := by rw [hside]
      have hopen : ((c.modify p fun s => { s with resetDue := false, resetSent := true }).side
          p).isOpen = true := by rw [hside]; exact ho
      obtain ⟨heff, hfs⟩ := controlRest_send (b := (c.streams p).resetDue) (fun _ => hsent)
        (fun _ => hopen)
        [.resetStream (c.streams p).id (c.streams p).resetSendCode (c.streams p).total] rest
        (room - (([.resetStream (c.streams p).id (c.streams p).resetSendCode (c.streams p).total] :
          List OutFrame).map OutFrame.size).sum)
      rw [hfs]
      exact .reset hc hd hfits (Touch.modify c p _) hside heff

theorem Framing.not_blank {s s' : SendSide} {b take n : Nat} (h : Framing c s b take s' n) : ¬ s.Blank := by
  intro hb
  cases h with
  | resent hl _ =>
    rw [hb.lost] at hl
    simp at hl
  | fresh _ hn _ _ _ =>
    rw [hb.total] at hn
    cases hn
  | bare _ _ hf _ =>
    rw [hb.fin] at hf
    exact Bool.false_ne_true hf

/-- The bytes the round robin picks, and what marking them as sent does. -/
theorem pick_framing {avail b take : Nat} {resend : Bool}
    (h : c.pick (c.streams p) avail = .send b take resend) :
    ∃ s n, Framing c (c.side p) b take s n ∧ Touch p (c.addSent n) (c.markSent p b take resend) ∧
      (c.markSent p b take resend).side p = s := by
  have hadd : SameSend (c.addSent 0) c :=
    SameSend.of_eq rfl rfl rfl rfl rfl rfl (Grows.of_eq (fun _ => rfl) fun _ => rfl)
  unfold pick at h
  cases hl : (c.streams p).lost with
  | cons x rest =>
    obtain ⟨b₀, e₀⟩ := x
    rw [hl] at h
    obtain ⟨rfl, rfl, rfl⟩ := Pick.send.inj h
    refine ⟨_, 0, .resent hl (Nat.min_le_left ..), ?_, ?_⟩
    · unfold markSent
      rw [if_pos rfl]
      exact (Touch.of_same p hadd).trans (Touch.modify c p _)
    · unfold markSent
      rw [if_pos rfl]
      exact side_modify_self c p _
  | nil =>
    rw [hl] at h
    dsimp only at h
    split at h
    · next hn =>
      split at h
      · simp at h
      next hz =>
      obtain ⟨rfl, rfl, rfl⟩ := Pick.send.inj h
      have hle : min (c.allowed (c.streams p)) avail ≤ c.allowed (c.streams p) := Nat.min_le_left ..
      have hfits : (c.streams p).next + min (c.allowed (c.streams p)) avail ≤ (c.streams p).total ∧
          (c.streams p).next + min (c.allowed (c.streams p)) avail ≤ (c.streams p).maxSend ∧
          c.dataSent + min (c.allowed (c.streams p)) avail ≤ c.peerMaxData := by
        unfold allowed at hle hz ⊢
        omega
      refine ⟨_, _, .fresh hl hn hfits.1 hfits.2.1 hfits.2.2, ?_, ?_⟩
      · unfold markSent
        rw [if_neg Bool.false_ne_true]
        split
        · exact Touch.modify _ p _
        next h0 =>
        have h0 : min (c.allowed (c.streams p)) avail = 0 := Classical.not_not.mp h0
        rw [h0]
        exact Touch.of_same p hadd
      · unfold markSent
        rw [if_neg Bool.false_ne_true]
        split
        · exact side_modify_self _ p _
        next h0 =>
        have h0 : min (c.allowed (c.streams p)) avail = 0 := Classical.not_not.mp h0
        rw [h0]
        rfl
    · next hn =>
      split at h
      · next hf =>
        obtain ⟨rfl, rfl, rfl⟩ := Pick.send.inj h
        have hf : (c.streams p).fin = true ∧ (c.streams p).finSent = false := by simpa using hf
        refine ⟨_, 0, .bare hl (Nat.le_of_not_lt hn) hf.1 hf.2, ?_, ?_⟩
        · exact Touch.of_same p hadd
        · rfl
      · simp at h

/-- Nothing but the chunk read ahead changes when bytes are copied. -/
theorem sendSide_copyStreamBytes {read : ReadAt} {s s' : QuicStream} {offset len : Nat}
    {data : Bytes} (h : s.copyStreamBytes read offset len = some (data, s')) : s'.sendSide = s.sendSide := by
  obtain ⟨_, _, _, rfl⟩ := QuicStream.copyStreamBytes_chunk h
  rfl

theorem markFin_send (c : Conn) (p : Ptr) (fin : Bool) : Touch p c (c.markFin p fin) ∧
    (c.markFin p fin).side p = { c.side p with finSent := (c.side p).finSent || fin } := by
  unfold markFin
  cases fin with
  | true =>
    rw [if_pos rfl]
    refine ⟨Touch.modify c p _, ?_⟩
    rw [side_modify_self, Bool.or_true]
    rfl
  | false =>
    rw [if_neg Bool.false_ne_true, Bool.or_false]
    exact ⟨Touch.of_same p (SameSend.refl c), rfl⟩

theorem noteSent_same (c : Conn) (p : Ptr) (b take : Nat) (resend fin : Bool) :
    SameSend ((c.markSent p b take resend).markFin p fin) (c.noteSent p b take resend fin) := by
  unfold noteSent
  dsimp only
  split
  · exact SameSend.of_linkOnly (rotate_linkOnly _)
  · exact SameSend.of_linkOnly (dequeue_linkOnly ..)

/-- **A STREAM round** frames bytes of the stream at the head of the list, or takes it off. -/
theorem streamTurn_round (hb : ∀ q, (c.side q).isOpen = false → (c.side q).Blank) (room : Nat)
    (read : ReadAt) : Round c (.streamTurn room read) (c.streamTurn room read).conn
      ((c.streamTurn room read).frames.filter OutFrame.discloses) := by
  have hdrop : ∀ k q, SameSend k (Conn.dequeue k q) := fun k q =>
    SameSend.of_linkOnly (dequeue_linkOnly k q)
  unfold streamTurn
  cases hh : c.readyHead with
  | none => exact .quiet .none
  | some p =>
    dsimp only
    split
    · exact .quiet .none
    cases hp : c.pick (c.streams p)
        (room - streamHeaderSize (c.streams p).id (c.streams p).total 65535) with
    | blocked =>
      unfold blockStream
      dsimp only
      split
      · exact .quiet (.same (hdrop c p))
      have hmark : SameSend c (c.modify p fun s => { s with blockedReported := true }) :=
        SameSend.modify c p _ rfl
      -- the frame that reports it discloses nothing
      split <;> split <;> exact .quiet (.same (hmark.trans (hdrop _ p)))
    | idle => exact .quiet (.same (hdrop c p))
    | send b take resend =>
      obtain ⟨s, n, hframing, -, -⟩ := pick_framing hp
      dsimp only
      split
      · exact .quiet .none
      cases hcopy : (c.streams p).copyStreamBytes read b take with
      | none =>
        have ho : (c.side p).isOpen = true := by
          by_contra hne
          exact hframing.not_blank (hb p (by simpa using hne))
        exact .quiet
          ((Effects.one (streamReset_send ho h3InternalError)).andThen (.same (hdrop _ p)))
      | some r =>
        obtain ⟨data, s'⟩ := r
        have hside := sendSide_copyStreamBytes hcopy
        have hread : SameSend c (c.modify p fun _ => s') := SameSend.modify c p _ hside
        have hpick : (c.modify p fun _ => s').pick ((c.modify p fun _ => s').streams p)
            (room - streamHeaderSize (c.streams p).id (c.streams p).total 65535) =
            .send b take resend := by
          rw [streams_modify_self]
          obtain ⟨_, _, _, rfl⟩ := QuicStream.copyStreamBytes_chunk hcopy
          exact hp
        obtain ⟨s₁, n₁, hf₁, htouch, hmark⟩ := pick_framing hpick
        obtain ⟨hfin, hfinside⟩ := markFin_send ((c.modify p fun _ => s').markSent p b take resend)
          p ((c.streams p).fin && b + take == (c.streams p).total)
        have hnote := noteSent_same (c.modify p fun _ => s') p b take resend
          ((c.streams p).fin && b + take == (c.streams p).total)
        have heq : (c.modify p fun _ => s').side p = c.side p := hread.side p
        have hid : (c.streams p).id = ((c.modify p fun _ => s').side p).id := by
          rw [heq]
          rfl
        rw [hid]
        refine .framed hh hread hf₁ (QuicStream.copyStreamBytes_length hcopy) ?_
          ((htouch.trans hfin).trans (Touch.of_same p hnote)) ?_ .none
        · rw [heq]
          rfl
        · rw [hnote.side p, hfinside, hmark]

end Conn

end Agensio.Quic
