/-
  Agensio.Quic.Repair — RESET_STREAM and STOP_SENDING after a loss.

  The two frames are regenerated from the stream: `reset_due` and
  `stop_due` say that one is to be written, and the stream then stands in
  `control_` (`Listed`).  When the packet that carried the frame is
  declared lost, `apply_lost` looks the stream up BY ITS ID and sets the
  flag again.

  The application closes a stream as soon as its RESET_STREAM is in a
  packet, and the id leads nowhere from then on: the frame is due again
  exactly when the stream is still open.

  Main results: `lost_frame_due_iff_open`, `closed_stream_not_repaired`.
-/
import Agensio.Quic.Accounting

namespace Agensio.Quic

open Agensio.Lib

namespace Conn

variable {c c' : Conn} {p : Ptr}

/-! ## §1. The frames that are due. -/

/-- A RESET_STREAM or a STOP_SENDING of the stream is to be written. -/
def flagged (c : Conn) (p : Ptr) : Bool := (c.streams p).resetDue || (c.streams p).stopDue

/-- A stream with such a frame due stands in `control_`. -/
def Listed (c : Conn) : Prop := ∀ p, c.flagged p = true → p ∈ c.control

/-- What keeps it. -/
structure KeepsListed (c c' : Conn) : Prop where
  listed : c.Listed → c'.Listed

theorem KeepsListed.refl (c : Conn) : KeepsListed c c := ⟨fun h => h⟩

theorem KeepsListed.trans {a b c : Conn} (h : KeepsListed a b) (h' : KeepsListed b c) :
    KeepsListed a c := ⟨fun ha => h'.listed (h.listed ha)⟩

/-- No flag is set and nothing leaves the list. -/
theorem KeepsListed.of_le (hf : ∀ q, c'.flagged q = true → c.flagged q = true)
    (hc : ∀ q ∈ c.control, q ∈ c'.control) : KeepsListed c c' :=
  ⟨fun h q hq => hc q (h q (hf q hq))⟩

theorem KeepsListed.of_eq (hs : c'.streams = c.streams) (hc : c'.control = c.control) : KeepsListed c c' := by
  refine .of_le (fun q hq => ?_) fun q hq => hc ▸ hq
  unfold flagged at hq ⊢
  rwa [hs] at hq

theorem flagged_modify_of_ne (c : Conn) (f : QuicStream → QuicStream) {q : Ptr} (h : q ≠ p) :
    (c.modify p f).flagged q = c.flagged q := by
  unfold flagged
  rw [streams_modify_of_ne c f h]

theorem flagged_modify_self (c : Conn) (f : QuicStream → QuicStream) :
    (c.modify p f).flagged p = ((f (c.streams p)).resetDue || (f (c.streams p)).stopDue) := by
  unfold flagged
  rw [streams_modify_self]

/-- A stream changes and gets no flag by it. -/
theorem KeepsListed.modify (c : Conn) (p : Ptr) (f : QuicStream → QuicStream)
    (hr : (f (c.streams p)).resetDue = (c.streams p).resetDue)
    (hs : (f (c.streams p)).stopDue = (c.streams p).stopDue) : KeepsListed c (c.modify p f) := by
  refine .of_le (fun q hq => ?_) fun q hq => hq
  by_cases hqp : q = p
  · rw [hqp, flagged_modify_self, hr, hs] at hq
    rw [hqp]
    exact hq
  · rwa [flagged_modify_of_ne c f hqp] at hq

/-- A stream loses its flags. -/
theorem KeepsListed.clear (c : Conn) (p : Ptr) (f : QuicStream → QuicStream)
    (hr : (f (c.streams p)).resetDue = false) (hs : (f (c.streams p)).stopDue = false) :
    KeepsListed c (c.modify p f) := by
  refine .of_le (fun q hq => ?_) fun q hq => hq
  by_cases hqp : q = p
  · rw [hqp, flagged_modify_self, hr, hs] at hq
    cases hq
  · rwa [flagged_modify_of_ne c f hqp] at hq

theorem KeepsListed.of_linkOnly (h : LinkOnly c c') : KeepsListed c c' := by
  obtain ⟨_, _, _, _, rfl⟩ := h
  exact .of_le (fun _ hq => hq) fun _ hq => hq

/-- A stream is flagged and goes on the list. -/
theorem KeepsListed.push (c : Conn) (p : Ptr) (f : QuicStream → QuicStream) :
    KeepsListed c ((c.modify p f).setControl (p :: (c.modify p f).control)) := by
  refine ⟨fun h q hq => ?_⟩
  by_cases hqp : q = p
  · rw [hqp]
    exact .head _
  have hq : (c.modify p f).flagged q = true := hq
  rw [flagged_modify_of_ne c f hqp] at hq
  exact List.mem_cons_of_mem p (h q hq)

/-! ## §2. What the operations do to the list. -/

/-- **The operations keep it**, but for those that take a stream off the list. -/
theorem listed_tour : Tour KeepsListed where
  refl := .refl
  trans := .trans
  rest := fun hs hc _ => .of_eq hs hc
  touch := .modify
  blank := fun c p => .clear c p _ rfl rfl
  push := .push
  enqueue := fun c p => .of_linkOnly (enqueue_linkOnly c p)
  dequeue := fun c p => .of_linkOnly (dequeue_linkOnly c p)
  rotate := fun c => .of_linkOnly (rotate_linkOnly c)

/-- One flag of a stream is cleared. -/
theorem KeepsListed.lower (c : Conn) (p : Ptr) (f : QuicStream → QuicStream)
    (h : c.flagged p = true) : KeepsListed c (c.modify p f) := by
  refine .of_le (fun q hq => ?_) fun q hq => hq
  by_cases hqp : q = p
  · rw [hqp]
    exact h
  · rwa [flagged_modify_of_ne c f hqp] at hq

/-- The RESET_STREAM half of a control round, in the flags. -/
theorem putReset_flags (c : Conn) (p : Ptr) (room : Nat) :
    KeepsListed c (c.putReset p room).1 ∧ (c.putReset p room).1.control = c.control ∧
      ((c.putReset p room).2.2 = true → ((c.putReset p room).1.streams p).resetDue = false) ∧
      ∀ q, q ≠ p → (c.putReset p room).1.flagged q = c.flagged q := by
  rcases putReset_cases c p room with ⟨hd, he⟩ | ⟨hd, he⟩ | ⟨hd, -, he⟩ <;> rw [he] <;>
    dsimp only
  · exact ⟨.refl c, rfl, fun _ => hd, fun _ _ => rfl⟩
  · exact ⟨.refl c, rfl, nofun, fun _ _ => rfl⟩
  · refine ⟨.lower c p _ ?_, rfl, fun _ => ?_, fun q hq => ?_⟩
    · unfold flagged
      rw [hd, Bool.true_or]
    · rw [streams_modify_self]
    · exact flagged_modify_of_ne c (fun s => { s with resetDue := false, resetSent := true }) hq

/-- The STOP_SENDING half. -/
theorem putStop_flags (c : Conn) (p : Ptr) (room : Nat) :
    KeepsListed c (c.putStop p room).1 ∧ (c.putStop p room).1.control = c.control ∧
      ((c.putStop p room).2.2 = true → ((c.putStop p room).1.streams p).stopDue = false) ∧
      ((c.putStop p room).1.streams p).resetDue = (c.streams p).resetDue ∧
      ∀ q, q ≠ p → (c.putStop p room).1.flagged q = c.flagged q := by
  unfold putStop
  dsimp only
  split
  · next hd => exact ⟨.refl c, rfl, fun _ => by simpa using hd, rfl, fun _ _ => rfl⟩
  next hd =>
  have hd : (c.streams p).stopDue = true := by simpa using hd
  split
  · exact ⟨.refl c, rfl, nofun, rfl, fun _ _ => rfl⟩
  dsimp only
  refine ⟨.lower c p _ ?_, rfl, fun _ => ?_, ?_, fun q hq => ?_⟩
  · unfold flagged
    rw [hd, Bool.or_true]
  · rw [streams_modify_self]
  · rw [streams_modify_self]
  · exact flagged_modify_of_ne c (fun s => { s with stopDue := false }) hq

/-- **A control round**: the stream leaves the list when neither frame is due any more. -/
theorem listed_controlTurn (c : Conn) (room : Nat) : KeepsListed c (c.controlTurn room).conn := by
  cases hc : c.control with
  | nil =>
    unfold controlTurn
    rw [hc]
    exact .refl c
  | cons p rest =>
    rw [controlTurn_cons hc]
    obtain ⟨hk₁, hc₁, hf₁, ho₁⟩ := putReset_flags c p room
    cases hr : c.putReset p room with
    | mk c₁ r =>
      obtain ⟨fs, ok⟩ := r
      rw [hr] at hk₁ hc₁ hf₁ ho₁
      cases ok with
      | false => exact hk₁
      | true =>
        dsimp only
        unfold controlRest
        obtain ⟨hk₂, hc₂, hf₂, hr₂, ho₂⟩ := putStop_flags c₁ p (room - (fs.map OutFrame.size).sum)
        cases hs : c₁.putStop p (room - (fs.map OutFrame.size).sum) with
        | mk c₂ r₂ =>
          obtain ⟨gs, ok₂⟩ := r₂
          rw [hs] at hk₂ hc₂ hf₂ hr₂ ho₂
          cases ok₂ with
          | false => exact hk₁.trans hk₂
          | true =>
            dsimp only
            -- `p` has no frame due; the others keep their place
            have hpop : KeepsListed c (c₂.setControl rest) := by
              refine ⟨fun h q hq => ?_⟩
              have hq : c₂.flagged q = true := hq
              by_cases hqp : q = p
              · rw [hqp] at hq
                unfold flagged at hq
                rw [hr₂, hf₁ rfl, hf₂ rfl] at hq
                cases hq
              · rw [ho₂ q hqp, ho₁ q hqp] at hq
                have hm := h q hq
                rw [hc] at hm
                exact (List.mem_cons.mp hm).resolve_left hqp
            split
            · exact (hpop.trans (.modify _ p _ rfl rfl)).trans (.of_linkOnly (dequeue_linkOnly ..))
            · exact hpop

theorem listed_turn {op : Op} {r : Turn} (hr : c.turn op = some r) : KeepsListed c r.conn := by
  cases op with
  | maxDataTurn room =>
    cases hr
    exact listed_tour.maxDataTurn room
  | creditTurn room =>
    cases hr
    exact listed_tour.creditTurn room
  | controlTurn room =>
    cases hr
    exact listed_controlTurn c room
  | streamTurn room read =>
    cases hr
    exact listed_tour.streamTurn room read
  | maxStreamsTurn room eliciting =>
    cases hr
    unfold maxStreamsTurn
    dsimp only
    split
    · exact .of_eq rfl rfl
    · exact .refl c
  | _ => simp [turn] at hr

/-- A stream that is closed is taken off the list and loses its flags. -/
theorem listed_closeStream (hp : p ∈ c.active) : KeepsListed c (c.closeStream p) := by
  have htouch := streamClosed_touch c p
  obtain ⟨ps, -, he⟩ := release_eq (show p ∈ (c.streamClosed p).active by
    rw [htouch.active]
    exact hp)
  -- the flags and the list as `stream_closed` leaves them
  have hlists : ∀ q, q ≠ p → (c.streamClosed p).flagged q = (c.dequeue p).flagged q ∧
      (c.streamClosed p).control = (c.dequeue p).control.filter (· ≠ p) := by
    intro q hq
    have hcount : ∀ (k : Conn) (id : Nat), (k.countClosed id).flagged q = k.flagged q ∧
        (k.countClosed id).control = k.control := by
      intro k id
      unfold countClosed
      split <;> exact ⟨rfl, rfl⟩
    unfold streamClosed
    dsimp only
    rw [flagged_modify_of_ne _ _ hq]
    split
    · exact hcount _ _
    · exact ⟨rfl, rfl⟩
  have hflags : ∀ (k : Conn) (as ps : List Ptr) (q : Ptr),
      (((k.setActive as).modify p QuicStream.resetQuic).setPool ps).flagged q =
        ((k.setActive as).modify p QuicStream.resetQuic).flagged q := fun _ _ _ _ => rfl
  have hcontrol : ∀ (k : Conn) (as ps : List Ptr),
      (((k.setActive as).modify p QuicStream.resetQuic).setPool ps).control = k.control :=
    fun _ _ _ => rfl
  have hactive : ∀ (k : Conn) (as : List Ptr) (q : Ptr), (k.setActive as).flagged q = k.flagged q :=
    fun _ _ _ => rfl
  refine ⟨fun h q hq => ?_⟩
  unfold closeStream at hq ⊢
  rw [he, hflags] at hq
  rw [he, hcontrol]
  by_cases hqp : q = p
  · rw [hqp, flagged_modify_self] at hq
    cases hq
  rw [flagged_modify_of_ne _ _ hqp, hactive, (hlists q hqp).1] at hq
  rw [(hlists q hqp).2]
  refine List.mem_filter.mpr ⟨?_, by simpa using hqp⟩
  exact (KeepsListed.of_linkOnly (dequeue_linkOnly c p)).listed h q hq

/-- **The application's calls.** -/
theorem listed_call {op : Op} (hs : c.call op = some c') : KeepsListed c c' := by
  unfold call at hs
  split at hs
  · next hcall =>
    cases op with
    | streamReady p =>
      cases hs
      exact .of_linkOnly (enqueue_linkOnly c p)
    | close appError code reason =>
      cases hs
      exact (listed_tour.walk 0).close appError code reason
    | frame => cases hcall
    | acked => cases hcall
    | lost => cases hcall
    | maxDataTurn => cases hcall
    | creditTurn => cases hcall
    | controlTurn => cases hcall
    | streamTurn => cases hcall
    | maxStreamsTurn => cases hcall
    | _ =>
      simp only [step, Option.ite_none_right_eq_some, Option.some.injEq] at hs
      obtain ⟨hg, rfl⟩ := hs
      first
        | exact listed_tour.openOwn ..
        | exact (listed_tour.walk _).streamConsumed (fun c m => listed_tour.grant _ m c) _
        | exact (listed_tour.walk _).streamWindow (fun c m => listed_tour.grant _ m c) _
        | exact listed_tour.streamReset ..
        | exact listed_tour.streamStopSending ..
        | exact listed_closeStream hg.1
        | exact .of_eq rfl rfl
        | exact .modify c _ _ rfl rfl
  · simp at hs

/-! ## §3. Acknowledged and lost items. -/

/-- What a loss leaves of the frames that are due: all of them, with the streams found as before. -/
structure DueKept (c c' : Conn) : Prop where
  keeps : KeepsListed c c'
  find : ∀ id, c'.findStream id = c.findStream id
  reset : ∀ q, (c.streams q).resetDue = true → (c'.streams q).resetDue = true
  stop : ∀ q, (c.streams q).stopDue = true → (c'.streams q).stopDue = true

theorem DueKept.refl (c : Conn) : DueKept c c :=
  ⟨.refl c, fun _ => rfl, fun _ h => h, fun _ h => h⟩

theorem DueKept.trans {a b c : Conn} (h : DueKept a b) (h' : DueKept b c) : DueKept a c :=
  ⟨h.keeps.trans h'.keeps, fun id => (h'.find id).trans (h.find id),
    fun q hq => h'.reset q (h.reset q hq), fun q hq => h'.stop q (h.stop q hq)⟩

/-- The streams are found as before when none changes its id or is opened or closed. -/
theorem findStream_congr {k : Conn} (ha : k.active = c.active)
    (hs : ∀ q, (k.streams q).isOpen = (c.streams q).isOpen ∧ (k.streams q).id = (c.streams q).id)
    (id : Nat) : k.findStream id = c.findStream id := by
  unfold findStream
  rw [ha]
  congr 1
  funext q
  rw [(hs q).1, (hs q).2]

theorem DueKept.modify (c : Conn) (p : Ptr) (f : QuicStream → QuicStream)
    (hk : KeepsListed c (c.modify p f)) (ho : (f (c.streams p)).isOpen = (c.streams p).isOpen)
    (hid : (f (c.streams p)).id = (c.streams p).id)
    (hr : (c.streams p).resetDue = true → (f (c.streams p)).resetDue = true)
    (hs : (c.streams p).stopDue = true → (f (c.streams p)).stopDue = true) : DueKept c (c.modify p f) := by
  refine ⟨hk, fun id => findStream_congr (c := c) (k := c.modify p f) rfl (fun q => ?_) id, fun q hq => ?_,
    fun q hq => ?_⟩
  · exact ⟨proj_modify QuicStream.isOpen c p q f ho, proj_modify QuicStream.id c p q f hid⟩
  · by_cases hqp : q = p
    · rw [hqp] at hq ⊢
      rw [streams_modify_self]
      exact hr hq
    · rwa [streams_modify_of_ne c f hqp]
  · by_cases hqp : q = p
    · rw [hqp] at hq ⊢
      rw [streams_modify_self]
      exact hs hq
    · rwa [streams_modify_of_ne c f hqp]

theorem DueKept.of_linkOnly (h : LinkOnly c c') : DueKept c c' := by
  have hk := KeepsListed.of_linkOnly h
  obtain ⟨_, _, _, _, rfl⟩ := h
  exact ⟨hk, fun _ => rfl, fun _ h => h, fun _ h => h⟩

theorem DueKept.grant (c : Conn) (p : Ptr) (maxRecv : Nat) : DueKept c (c.grant p maxRecv) := by
  obtain ⟨ps, -, he⟩ := grant_eq c p maxRecv
  have hlimit : DueKept c (c.modify p (granted maxRecv)) :=
    .modify c p _ (.modify c p _ rfl rfl) rfl rfl (fun h => h) fun h => h
  have hcredit : DueKept (c.modify p (granted maxRecv)) ((c.modify p (granted maxRecv)).setCredit ps) :=
    ⟨listed_tour.setCredit _ ps, fun _ => rfl, fun _ h => h, fun _ h => h⟩
  rw [he]
  exact hlimit.trans hcredit

/-- A stream is flagged and goes on the list; it is found as before. -/
theorem DueKept.push (c : Conn) (p : Ptr) (f : QuicStream → QuicStream)
    (ho : (f (c.streams p)).isOpen = (c.streams p).isOpen) (hid : (f (c.streams p)).id = (c.streams p).id)
    (hr : (c.streams p).resetDue = true → (f (c.streams p)).resetDue = true)
    (hs : (c.streams p).stopDue = true → (f (c.streams p)).stopDue = true) :
    DueKept c ((c.modify p f).setControl (p :: (c.modify p f).control)) := by
  refine ⟨.push c p f, fun id => ?_, fun q hq => ?_, fun q hq => ?_⟩
  · refine findStream_congr (c := c)
      (k := (c.modify p f).setControl (p :: (c.modify p f).control)) rfl (fun q => ?_) id
    exact ⟨proj_modify QuicStream.isOpen c p q f ho, proj_modify QuicStream.id c p q f hid⟩
  · show ((c.modify p f).streams q).resetDue = true
    by_cases hqp : q = p
    · rw [hqp] at hq ⊢
      rw [streams_modify_self]
      exact hr hq
    · rwa [streams_modify_of_ne c f hqp]
  · show ((c.modify p f).streams q).stopDue = true
    by_cases hqp : q = p
    · rw [hqp] at hq ⊢
      rw [streams_modify_self]
      exact hs hq
    · rwa [streams_modify_of_ne c f hqp]

/-- **One round of `apply_lost`** takes no frame off what is due. -/
theorem dueKept_applyLost (c : Conn) (it : SentItem) : DueKept c (c.applyLost it) := by
  cases it with
  | stream id offset len fin =>
    unfold applyLost
    dsimp only
    split
    · exact .refl c
    next p _ =>
    split
    · exact .refl c
    have hmark : DueKept c (c.modify p fun s => noteLost s offset len fin) :=
      .modify c p _ (.modify c p _ rfl rfl) rfl rfl (fun h => h) fun h => h
    split
    · exact hmark.trans (.of_linkOnly (enqueue_linkOnly ..))
    · exact hmark
  | maxData => exact ⟨.of_eq rfl rfl, fun _ => rfl, fun _ h => h, fun _ h => h⟩
  | maxStreams => exact ⟨.of_eq rfl rfl, fun _ => rfl, fun _ h => h, fun _ h => h⟩
  | maxStreamData id =>
    unfold applyLost
    dsimp only
    split
    · exact .refl c
    next p _ =>
    split
    · exact .grant c p _
    · exact .refl c
  | resetStream id =>
    unfold applyLost
    dsimp only
    split
    · exact .refl c
    next p _ =>
    split
    · exact .push c p _ rfl rfl (fun _ => rfl) fun h => h
    · exact .refl c
  | stopSending id =>
    unfold applyLost
    dsimp only
    split
    · exact .refl c
    next p _ =>
    split
    · exact .push c p _ rfl rfl (fun h => h) fun _ => rfl
    · exact .refl c

/-! ## §4. A frame that is due again. -/

/-- The stream of a RESET_STREAM or STOP_SENDING item. -/
def SentItem.controlId : SentItem → Option Nat
  | .resetStream id => some id
  | .stopSending id => some id
  | _ => none

/-- The frame of the item is to be written: its stream is found, has the flag and is listed. -/
def DueAgain (c : Conn) : SentItem → Prop
  | .resetStream id => ∃ p, c.findStream id = some p ∧ (c.streams p).resetDue = true ∧ p ∈ c.control
  | .stopSending id => ∃ p, c.findStream id = some p ∧ (c.streams p).stopDue = true ∧ p ∈ c.control
  | _ => False

variable {it : SentItem}

theorem DueAgain.kept (h : c.DueAgain it) (hl : c.Listed) (hk : DueKept c c') : c'.DueAgain it := by
  have hlisted := hk.keeps.listed hl
  cases it with
  | resetStream id =>
    obtain ⟨p, hf, hd, -⟩ := h
    have hd' := hk.reset p hd
    refine ⟨p, (hk.find id).trans hf, hd', hlisted p ?_⟩
    unfold flagged
    rw [hd', Bool.true_or]
  | stopSending id =>
    obtain ⟨p, hf, hd, -⟩ := h
    have hd' := hk.stop p hd
    refine ⟨p, (hk.find id).trans hf, hd', hlisted p ?_⟩
    unfold flagged
    rw [hd', Bool.or_true]
  | _ => exact h

/-- A frame due again names a stream that is open. -/
theorem DueAgain.isOpen {id : Nat} (h : c.DueAgain it) (hid : it.controlId = some id) :
    (c.findStream id).isSome = true := by
  cases it with
  | resetStream id' =>
    cases hid
    obtain ⟨p, hf, -⟩ := h
    rw [hf]
    rfl
  | stopSending id' =>
    cases hid
    obtain ⟨p, hf, -⟩ := h
    rw [hf]
    rfl
  | _ => exact absurd h fun hf => hf

/-- The lost frame of an open stream is due again. -/
theorem dueAgain_of_lost {id : Nat} (hl : c.Listed) (hid : it.controlId = some id)
    (ho : (c.findStream id).isSome = true) : (c.applyLost it).DueAgain it := by
  obtain ⟨p, hf⟩ := Option.isSome_iff_exists.mp ho
  obtain ⟨-, hopen, -⟩ := findStream_some hf
  have hkept := dueKept_applyLost c it
  have hlisted := hkept.keeps.listed hl
  have hfind : (c.applyLost it).findStream id = some p := (hkept.find id).trans hf
  cases it with
  | resetStream id' =>
    obtain rfl := Option.some.inj hid
    have hdue : ((c.applyLost (.resetStream id')).streams p).resetDue = true := by
      cases hd : (c.streams p).resetDue with
      | true => exact hkept.reset p hd
      | false =>
        unfold applyLost
        dsimp only
        rw [hf]
        dsimp only
        rw [hopen, hd, if_pos (by decide)]
        show ((c.modify p fun s => { s with resetDue := true }).streams p).resetDue = true
        rw [streams_modify_self]
    refine ⟨p, hfind, hdue, hlisted p ?_⟩
    unfold flagged
    rw [hdue, Bool.true_or]
  | stopSending id' =>
    obtain rfl := Option.some.inj hid
    have hdue : ((c.applyLost (.stopSending id')).streams p).stopDue = true := by
      cases hd : (c.streams p).stopDue with
      | true => exact hkept.stop p hd
      | false =>
        unfold applyLost
        dsimp only
        rw [hf]
        dsimp only
        rw [hopen, hd, if_pos (by decide)]
        show ((c.modify p fun s => { s with stopDue := true }).streams p).stopDue = true
        rw [streams_modify_self]
    refine ⟨p, hfind, hdue, hlisted p ?_⟩
    unfold flagged
    rw [hdue, Bool.or_true]
  | _ => simp [SentItem.controlId] at hid

end Conn

namespace Transport

open Conn (KeepsListed DueKept)

variable {t t' : Transport}

/-! ## §5. Every step. -/

theorem listed_applyAckedAll {acked : List Item} {calls : List (List Op)}
    (ha : t.applyAckedAll acked calls = some t') : KeepsListed t.conn t'.conn := by
  have hcalls : ∀ (ops : List Op) (c c' : Conn), run Conn.call c ops = some c' → KeepsListed c c' := by
    intro ops
    induction ops with
    | nil =>
      intro c c' hrun
      cases hrun
      exact .refl c
    | cons op ops ih =>
      intro c c' hrun
      obtain ⟨m, hm, hrest⟩ := step_of_run_cons hrun
      exact (Conn.listed_call hm).trans (ih m c' hrest)
  have hone : ∀ (t : Transport) (it : Item), KeepsListed t.conn (t.applyAcked it).conn := by
    intro t it
    cases it with
    | conn it => exact Conn.listed_tour.applyAcked it
    | _ => exact .refl _
  induction acked generalizing t calls with
  | nil =>
    cases ha
    exact .refl _
  | cons it acked ih =>
    obtain ⟨c, hrun, ha⟩ := applyAckedAll_cons ha
    have hrest : KeepsListed c t'.conn := ih ha
    exact ((hone t it).trans (hcalls _ _ c hrun)).trans hrest

theorem dueKept_applyLostItem (t : Transport) (it : Item) : DueKept t.conn (t.applyLost it).conn := by
  cases it with
  | conn it => exact Conn.dueKept_applyLost t.conn it
  | crypto sp o l =>
    unfold applyLost
    dsimp only
    split <;> exact .refl _
  | _ => exact .refl _

theorem dueKept_applyLostAll (t : Transport) (lost : List Item) :
    DueKept t.conn (t.applyLostAll lost).conn := by
  induction lost generalizing t with
  | nil => exact .refl _
  | cons it lost ih => exact (dueKept_applyLostItem t it).trans (ih (t.applyLost it))

variable {l : Label} {lost : List Item}

/-- **The step lemma**: every stream with a frame due stands in `control_`. -/
theorem step_listed (h : t.conn.Listed) (hs : t.step l = some t') : t'.conn.Listed := by
  cases stepped hs with
  | call hc => exact (Conn.listed_call hc).listed h
  | @frame f sec => exact (Conn.listed_tour.handleFrame f sec).listed h
  | ack hi ha =>
    rcases onAck_cases ha with rfl | ⟨ps, acked, lost, t₁, -, haa, rfl⟩
    · exact ((Conn.listed_tour.walk 0).fail ..).listed h
    · exact (dueKept_applyLostAll t₁ lost).keeps.listed ((listed_applyAckedAll haa).listed h)
  | @timer detect probed hi =>
    rw [onTimer_eq]
    refine (dueKept_applyLostAll _ _).keeps.listed ?_
    rw [(t.detected_kept detect).1]
    exact h
  | turn hb hr => exact (Conn.listed_turn hr).listed h
  | cryptoTurn hb => rwa [conn_cryptoTurn]
  -- the other labels leave the connection alone
  | _ => exact h

theorem start_listed (limits : Limits) : (start limits).conn.Listed :=
  fun _ h => absurd h Bool.false_ne_true

/-! ## §6. Every loss of every run. -/

/-- The state in which a step runs `apply_lost`, and the items it runs over. -/
def losing (t : Transport) : Label → Option (Transport × List Item)
  | .ack sp ranges largestAck lostSendTime calls =>
    if t.idle then
      match (t.space sp).onAckReceived ranges largestAck lostSendTime with
      | none => none
      | some (ps, acked, lost) =>
        ((t.setSpace sp ps).applyAckedAll acked calls).map fun t₁ => (t₁, lost)
    else none
  | .timer (some (sp, lostSendTime)) probed =>
    if t.idle then
      let d := (t.space sp).detectLost lostSendTime
      let t₁ := t.setSpace sp d.1
      some (t₁, d.2 ++ probed.flatMap fun sp => (t₁.space sp).probeItems)
    else none
  | _ => none

/-- `apply_lost` is the last thing such a step does. -/
theorem step_losing {mid : Transport}
    (h : t.losing l = some (mid, lost)) : t.step l = some (mid.applyLostAll lost) := by
  cases l with
  | ack sp ranges largestAck lostSendTime calls =>
    simp only [losing, Option.ite_none_right_eq_some] at h
    obtain ⟨hidle, h⟩ := h
    unfold step onAck
    dsimp only
    rw [if_pos hidle]
    cases hr : (t.space sp).onAckReceived ranges largestAck lostSendTime with
    | none => simp [hr] at h
    | some r =>
      rw [hr] at h
      obtain ⟨t₁, ht, he⟩ := Option.map_eq_some_iff.mp h
      cases he
      dsimp only
      rw [ht]
  | timer detect probed =>
    cases detect with
    | none => simp [losing] at h
    | some d =>
      obtain ⟨sp, lostSendTime⟩ := d
      simp only [losing, Option.ite_none_right_eq_some, Option.some.injEq] at h
      obtain ⟨hidle, he⟩ := h
      cases he
      unfold step onTimer
      dsimp only
      rw [if_pos hidle]
  | _ => simp [losing] at h

/-- The application's part of such a step keeps the list too. -/
theorem losing_listed {mid : Transport} (h : t.conn.Listed)
    (hl : t.losing l = some (mid, lost)) : mid.conn.Listed := by
  cases l with
  | ack sp ranges largestAck lostSendTime calls =>
    simp only [losing, Option.ite_none_right_eq_some] at hl
    obtain ⟨-, hl⟩ := hl
    split at hl
    · simp at hl
    obtain ⟨t₁, ht, he⟩ := Option.map_eq_some_iff.mp hl
    obtain ⟨rfl, -⟩ := Prod.mk.inj he
    exact (listed_applyAckedAll ht).listed h
  | timer detect probed =>
    cases detect with
    | none => simp [losing] at hl
    | some d =>
      obtain ⟨sp, lostSendTime⟩ := d
      simp only [losing, Option.ite_none_right_eq_some, Option.some.injEq] at hl
      obtain ⟨-, he⟩ := hl
      obtain ⟨rfl, -⟩ := Prod.mk.inj he
      exact h
  | _ => simp [losing] at hl

/-- The whole of `apply_lost`: a frame among the items is due afterwards when its stream is open. -/
theorem dueAgain_applyLostAll {it : Conn.SentItem} {id : Nat}
    (h : t.conn.Listed) (hm : Item.conn it ∈ lost) (hid : it.controlId = some id)
    (ho : (t.conn.findStream id).isSome = true) : (t.applyLostAll lost).conn.DueAgain it := by
  induction lost generalizing t with
  | nil => cases hm
  | cons x lost ih =>
    have hkept := dueKept_applyLostItem t x
    have hlisted := hkept.keeps.listed h
    rcases List.mem_cons.mp hm with he | hm
    · -- the frame itself; the rest of the loop leaves it due
      subst he
      have hdue : (t.applyLost (.conn it)).conn.DueAgain it := Conn.dueAgain_of_lost h hid ho
      exact hdue.kept hlisted (dueKept_applyLostAll (t.applyLost (.conn it)) lost)
    · refine ih hlisted hm ?_
      rw [hkept.find]
      exact ho

end Transport

/-- **A lost RESET_STREAM or STOP_SENDING is due again exactly when its stream is still open.**
    In every run, for every step that declares packets lost and every such item among theirs. -/
theorem lost_frame_due_iff_open (limits : Limits) (ls : List Label) (t : Transport)
    (hrun : run Transport.step (Transport.start limits) ls = some t) (l : Label) (mid : Transport)
    (lost : List Item) (hl : t.losing l = some (mid, lost)) (it : Conn.SentItem) (id : Nat)
    (hm : Item.conn it ∈ lost) (hid : it.controlId = some id) : t.step l = some (mid.applyLostAll lost) ∧
      ((mid.applyLostAll lost).conn.DueAgain it ↔ (mid.conn.findStream id).isSome = true) := by
  have hlisted : t.conn.Listed :=
    run_preserves (I := fun t : Transport => t.conn.Listed) (fun _ _ _ h hs => Transport.step_listed h hs)
      (Transport.start_listed limits) hrun
  refine ⟨Transport.step_losing hl, fun hdue => ?_, fun ho => ?_⟩
  · have ho := hdue.isOpen hid
    rwa [(Transport.dueKept_applyLostAll mid lost).find] at ho
  · exact Transport.dueAgain_applyLostAll (Transport.losing_listed hlisted hl) hm hid ho

/-- A request on stream 0 is cancelled with STOP_SENDING before its answer; the RESET_STREAM goes
    out in packet 0, and three packets follow. -/
def cancelledRun (closes : List Label) : List Label :=
  [.call (.peerParams { initialMaxData := 100, initialMaxStreamDataBidiLocal := 100 }),
    .call .handshakeComplete, .install .application,
    .frame (.stream 0 0 (bytes "request") true) 0, .call (.streamConsumed 3 7),
    .frame (.stopSending 0 0x10c) 0, .call (.streamReset 3 0x10c),
    .beginPacket .application, .turn (.controlTurn 1200)] ++ closes ++
  [.sendPacket 0 true true, .beginPacket .application, .note .other, .sendPacket 1 true true,
    .beginPacket .application, .note .other, .sendPacket 2 true true,
    .beginPacket .application, .note .other, .sendPacket 3 true true]

/-- The peer acknowledges the last of them only. -/
def lastAcked : Label := .ack .application [(3, 4)] 3 (-1) []

theorem lost_frame_due_iff_open_cancelledRun :
    ∃ t mid, run Transport.step (Transport.start {}) (cancelledRun []) = some t ∧
      t.losing lastAcked = some (mid, [.conn (.resetStream 0)]) ∧
      (mid.applyLostAll [.conn (.resetStream 0)]).conn.DueAgain (.resetStream 0) := by
  have hsome : ((run Transport.step (Transport.start {}) (cancelledRun [])).bind
      (fun t => t.losing lastAcked)).map (fun r => (r.2, (r.1.conn.findStream 0).isSome)) =
        some ([.conn (.resetStream 0)], true) := by decide
  obtain ⟨⟨mid, lost⟩, hr, he⟩ := Option.map_eq_some_iff.mp hsome
  obtain ⟨t, ht, hl⟩ := Option.bind_eq_some_iff.mp hr
  obtain ⟨hlost, ho⟩ := Prod.mk.inj he
  subst hlost
  refine ⟨t, mid, ht, hl, ?_⟩
  exact (lost_frame_due_iff_open {} _ t ht lastAcked mid _ hl (.resetStream 0) 0
    (List.mem_singleton.mpr rfl) rfl).2.mpr ho

/-- The application closes the stream when it is told that the RESET_STREAM is in a packet
    (`on_stream_sent`): the loss of the packet then leaves nothing due. -/
theorem closed_stream_not_repaired :
    ∃ t mid, run Transport.step (Transport.start {}) (cancelledRun [.call (.closeStream 3)]) = some t ∧
      t.losing lastAcked = some (mid, [.conn (.resetStream 0)]) ∧
      ¬ (mid.applyLostAll [.conn (.resetStream 0)]).conn.DueAgain (.resetStream 0) := by
  have hsome : ((run Transport.step (Transport.start {}) (cancelledRun [.call (.closeStream 3)])).bind
      (fun t => t.losing lastAcked)).map (fun r => (r.2, r.1.conn.findStream 0,
        (r.1.applyLostAll r.2).conn.findStream 0)) =
        some ([.conn (.resetStream 0)], none, none) := by decide
  obtain ⟨⟨mid, lost⟩, hr, he⟩ := Option.map_eq_some_iff.mp hsome
  obtain ⟨t, ht, hl⟩ := Option.bind_eq_some_iff.mp hr
  obtain ⟨hlost, he⟩ := Prod.mk.inj he
  subst hlost
  refine ⟨t, mid, ht, hl, ?_⟩
  rintro ⟨p, hf, -⟩
  rw [(Prod.mk.inj he).2] at hf
  simp at hf

end Agensio.Quic
