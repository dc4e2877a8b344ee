/-
  Agensio.Quic.Window — the offset a peer may send up to.

  Seen from outside a stream id is fresh, then open with a limit, then
  retired; the limit of an open one should only move forward.  This
  module says so once for every step (`step_phase`), EXCEPT where
  `stream_consumed` refills a window that was made smaller: there the
  unsigned difference wraps and the limit is granted backwards.

  `Told` adds what the peer has been told — the initial limit of the
  transport parameters, and the largest MAX_STREAM_DATA written.

  Main results:
    * `max_recv_never_moves_back` — in every run in which each refill
      moves forward, limits never move back, and a STREAM frame within
      what the peer was told never fails as beyond the window;
    * `refill_moves_back` — a body limit below the first window, one
      byte consumed, and a frame the peer was allowed to send fails.
-/
import Agensio.Quic.Table

namespace Agensio.Quic

open Agensio.Lib

/-! ## §1. The life of a stream id. -/

/-- A stream id as the peer sees it. -/
inductive Phase where
  | fresh
  | active (limit : Nat)
  | retired
  deriving DecidableEq

namespace Phase

/-- `b` can come after `a`, where a stream opens with at least the limit `init`. -/
def Before (init : Nat) : Phase → Phase → Prop
  | .fresh, .active v => init ≤ v
  | .fresh, _ => True
  | .active v, .active w => v ≤ w
  | .active _, .retired => True
  | .retired, .retired => True
  | _, _ => False

theorem Before.refl (init : Nat) (a : Phase) : Before init a a := by
  cases a with
  | fresh => trivial
  | active v => exact Nat.le_refl v
  | retired => trivial

theorem Before.trans {init : Nat} {a b c : Phase} (h : Before init a b) (h' : Before init b c) :
    Before init a c := by
  cases a with
  | fresh =>
    cases b with
    | fresh => exact h'
    | active v =>
      cases c with
      | fresh => trivial
      | active w => exact Nat.le_trans (show init ≤ v from h) (show v ≤ w from h')
      | retired => trivial
    | retired =>
      cases c with
      | retired => trivial
      | fresh => trivial
      | active w => exact absurd h' (fun hf => hf)
  | active v =>
    cases b with
    | fresh => exact absurd h (fun hf => hf)
    | active w =>
      cases c with
      | fresh => exact absurd h' (fun hf => hf)
      | active u => exact Nat.le_trans (show v ≤ w from h) (show w ≤ u from h')
      | retired => trivial
    | retired =>
      cases c with
      | retired => trivial
      | fresh => exact absurd h' (fun hf => hf)
      | active u => exact absurd h' (fun hf => hf)
  | retired =>
    cases b with
    | retired => exact h'
    | fresh => exact absurd h (fun hf => hf)
    | active w => exact absurd h (fun hf => hf)

/-- A peer that may send up to `n` stays within the limit of now. -/
def Covers (init : Nat) (n : Nat) : Phase → Prop
  | .fresh => n ≤ init
  | .active v => n ≤ v
  | .retired => True

/-- What was covered stays covered. -/
theorem Covers.mono {init n : Nat} {a b : Phase} (hb : Before init a b) (h : Covers init n a) :
    Covers init n b := by
  cases a with
  | fresh =>
    cases b with
    | fresh => exact h
    | active v => exact Nat.le_trans (show n ≤ init from h) (show init ≤ v from hb)
    | retired => trivial
  | active v =>
    cases b with
    | fresh => exact absurd hb (fun hf => hf)
    | active w => exact Nat.le_trans (show n ≤ v from h) (show v ≤ w from hb)
    | retired => trivial
  | retired =>
    cases b with
    | retired => trivial
    | fresh => exact absurd hb (fun hf => hf)
    | active w => exact absurd hb (fun hf => hf)

end Phase

namespace Conn

/-- The limit of the open stream with this id. -/
def recvLimit (c : Conn) (id : Nat) : Option Nat :=
  (c.findStream id).map fun p => (c.streams p).maxRecv

def phase (c : Conn) (id : Nat) : Phase :=
  match c.recvLimit id with
  | some v => .active v
  | none => if c.knownClosed (streamIsBidi id) (id / 4) then .retired else .fresh

variable {c c' : Conn} {p : Ptr}

variable {id : Nat}

theorem TableInv.findStream_of_active (h : TableInv c) (hp : p ∈ c.active)
    (hid : (c.streams p).id = id) : c.findStream id = some p := by
  cases hf : c.findStream id with
  | none => exact absurd hid (h.id_ne hf hp)
  | some q =>
    have hc : streamIsClient id = true := hid ▸ h.active_client p hp
    have hq := h.found_active hc hf
    rw [h.active_ids q hq p hp ((findStream_some hf).2.2.trans hid.symm)]

theorem TableInv.recvLimit_of_active (h : TableInv c) (hp : p ∈ c.active) :
    c.recvLimit (c.streams p).id = some (c.streams p).maxRecv := by
  unfold recvLimit
  rw [h.findStream_of_active hp rfl]
  rfl

/-- An id with a limit is the id of an active stream. -/
theorem TableInv.active_of_recvLimit {v : Nat} (h : TableInv c) (hc : streamIsClient id = true)
    (hv : c.recvLimit id = some v) : ∃ q ∈ c.active, (c.streams q).id = id ∧ (c.streams q).maxRecv = v := by
  unfold recvLimit at hv
  obtain ⟨q, hf, hq⟩ := Option.map_eq_some_iff.mp hv
  exact ⟨q, h.found_active hc hf, (findStream_some hf).2.2, hq⟩

/-- What has to be said about a step: where its active streams went, and whence they came. -/
structure Moves (c c' : Conn) : Prop where
  limits : c'.limits = c.limits
  grows : Grows c c'
  forward : ∀ q ∈ c.active,
    (q ∈ c'.active ∧ (c'.streams q).id = (c.streams q).id ∧
      (c.streams q).maxRecv ≤ (c'.streams q).maxRecv) ∨
    (c'.knownClosed (streamIsBidi (c.streams q).id) ((c.streams q).id / 4) = true ∧
      ∀ r ∈ c'.active, (c'.streams r).id ≠ (c.streams q).id)
  back : ∀ q ∈ c'.active,
    (q ∈ c.active ∧ (c'.streams q).id = (c.streams q).id) ∨
    (c.knownClosed (streamIsBidi (c'.streams q).id) ((c'.streams q).id / 4) = false ∧
      initialMaxRecv c.limits (c'.streams q).id ≤ (c'.streams q).maxRecv)

theorem phase_of_moves (h : TableInv c) (h' : TableInv c') (hm : Moves c c') (hc : streamIsClient id = true) :
    Phase.Before (initialMaxRecv c.limits id) (c.phase id) (c'.phase id) := by
  unfold phase
  cases hv : c.recvLimit id with
  | some v =>
    obtain ⟨q, hq, rfl, rfl⟩ := h.active_of_recvLimit hc hv
    rcases hm.forward q hq with ⟨hq', hid, hle⟩ | ⟨hk, hgone⟩
    · have hlim := h'.recvLimit_of_active hq'
      rw [hid] at hlim
      rw [hlim]
      exact hle
    · cases hv' : c'.recvLimit (c.streams q).id with
      | some w =>
        obtain ⟨r, hr, hid, -⟩ := h'.active_of_recvLimit hc hv'
        exact absurd hid (hgone r hr)
      | none =>
        rw [if_pos hk]
        trivial
  | none =>
    cases hv' : c'.recvLimit id with
    | some w =>
      obtain ⟨r, hr, rfl, rfl⟩ := h'.active_of_recvLimit hc hv'
      rcases hm.back r hr with ⟨hr', hid⟩ | ⟨hk, hinit⟩
      · have hlim := h.recvLimit_of_active hr'
        rw [← hid, hv] at hlim
        simp at hlim
      · rw [if_neg (by rw [hk]; exact Bool.false_ne_true)]
        exact hinit
    | none =>
      dsimp only
      by_cases hk : c.knownClosed (streamIsBidi id) (id / 4) = true
      · rw [if_pos hk, if_pos (hm.grows.closed _ _ hk)]
        trivial
      rw [if_neg hk]
      split <;> trivial

/-! ## §2. Where the streams of a step went. -/

theorem moves_of_same (hs : SameReceive c c') : Moves c c' where
  limits := hs.limits
  grows := hs.grows
  forward := fun q hq =>
    .inl ⟨hs.active.symm ▸ hq, hs.id q, Nat.le_of_eq (hs.maxRecv q).symm⟩
  back := fun q hq => .inl ⟨hs.active ▸ hq, hs.id q⟩

theorem moves_of_setState (c : Conn) (st : State) : Moves c (c.setState st) where
  limits := rfl
  grows := Grows.of_eq (fun _ => rfl) fun _ => rfl
  forward := fun _ hq => .inl ⟨hq, rfl, Nat.le_refl _⟩
  back := fun _ hq => .inl ⟨hq, rfl⟩

theorem moves_of_receive (hr : ReceiveOp p c c')
    (hle : (c.streams p).maxRecv ≤ (c'.streams p).maxRecv) : Moves c c' where
  limits := hr.limits
  grows := hr.grows
  forward := by
    intro q hq
    refine .inl ⟨hr.active.symm ▸ hq, hr.id q, ?_⟩
    by_cases hqp : q = p
    · rw [hqp]
      exact hle
    · exact Nat.le_of_eq (congrArg StreamView.maxRecv (hr.others q hqp)).symm
  back := fun q hq => .inl ⟨hr.active ▸ hq, hr.id q⟩

theorem moves_of_opened (hk : c.knownClosed (streamIsBidi id) (id / 4) = false)
    (ho : Opened id p c c') : Moves c c' where
  limits := ho.books.limits
  grows := ho.grows
  forward := by
    intro q hq
    have hqp : q ≠ p := by
      intro he
      exact ho.fresh.1 (he ▸ hq)
    refine .inl ⟨?_, congrArg StreamView.id (ho.others q hqp),
      Nat.le_of_eq (congrArg StreamView.maxRecv (ho.others q hqp)).symm⟩
    rw [ho.active]
    exact List.mem_append_left _ hq
  back := by
    intro q hq
    rw [ho.active] at hq
    rcases List.mem_append.mp hq with hq | hq
    · have hqp : q ≠ p := by
        intro he
        exact ho.fresh.1 (he ▸ hq)
      exact .inl ⟨hq, congrArg StreamView.id (ho.others q hqp)⟩
    · rw [List.mem_singleton.mp hq, ho.id_eq, ho.maxRecv]
      exact .inr ⟨hk, Nat.le_refl _⟩

theorem moves_of_closeStream (hp : p ∈ c.active) (h : TableInv c) : Moves c (c.closeStream p) := by
  obtain ⟨hc, -, hk⟩ := closeStream_spec hp h
  have hmem : ∀ q, q ∈ (c.closeStream p).active ↔ q ∈ c.active ∧ q ≠ p := by
    intro q
    rw [hc.active.mem_iff, h.active_nodup.mem_erase_iff]
    exact and_comm
  refine ⟨hc.books.limits, hc.grows, ?_, ?_⟩
  · intro q hq
    by_cases hqp : q = p
    · rw [hqp]
      refine .inr ⟨hk, fun r hr he => ?_⟩
      obtain ⟨hr, hrp⟩ := (hmem r).mp hr
      rw [hc.id_others r hrp] at he
      exact hrp (h.active_ids r hr p hp he)
    · exact .inl ⟨(hmem q).mpr ⟨hq, hqp⟩, hc.id_others q hqp,
        Nat.le_of_eq (hc.maxRecv_others q hqp).symm⟩
  · intro q hq
    obtain ⟨hq, hqp⟩ := (hmem q).mp hq
    exact .inl ⟨hq, hc.id_others q hqp⟩

theorem moves_of_openOwn {head : Bytes} {trim : Bool} (hp : p ∈ ownStreams) (h : TableInv c) :
    Moves c (c.openOwn p head trim) := by
  rcases openOwn_cases c p head trim with hq | ⟨k, id, maxSend, hk, -, hq⟩
  · exact moves_of_same (SameReceive.of_quiet hq)
  have hck := SameReceive.of_quiet hk
  have hkc := SameReceive.of_quiet hq
  have hactive : (c.openOwn p head trim).active = c.active := hkc.active.trans hck.active
  have hother : ∀ q ∈ c.active, ((k.modify p fun s =>
      { s with id := id, isOpen := true, maxSend := maxSend }).streams q) = k.streams q := by
    intro q hm
    refine streams_modify_of_ne k _ ?_
    intro he
    exact h.active_not_own (he ▸ hm) hp
  have hid : ∀ q ∈ c.active, ((c.openOwn p head trim).streams q).id = (c.streams q).id := by
    intro q hm
    rw [hkc.id, hother q hm]
    exact hck.id q
  refine ⟨hkc.limits.trans hck.limits, (hck.grows.trans (Grows.modify ..)).trans hkc.grows, ?_, ?_⟩
  · intro q hm
    refine .inl ⟨hactive ▸ hm, hid q hm, ?_⟩
    rw [hkc.maxRecv, hother q hm]
    exact Nat.le_of_eq (hck.maxRecv q).symm
  · intro q hm
    rw [hactive] at hm
    exact .inl ⟨hm, hid q hm⟩

/-! ## §3. Which operations move a limit. -/

/-- No stream's limit changes. -/
def SameLimits (c c' : Conn) : Prop := ∀ q, (c'.streams q).maxRecv = (c.streams q).maxRecv

theorem SameLimits.trans {a b c : Conn} (h : SameLimits a b) (h' : SameLimits b c) :
    SameLimits a c := fun q => (h' q).trans (h q)

theorem sameLimits_walk (p : Ptr) : Walk p SameLimits where
  refl := fun _ _ => rfl
  trans := SameLimits.trans
  apart := by
    rintro c c' ⟨_, _, _, _, _, _, _, _, _, _, _, _, rfl⟩
    exact fun _ => rfl
  receive := by
    rintro c f ⟨_, _, _, _, _, _, _, _, _, _, he⟩
    exact fun q => proj_modify QuicStream.maxRecv c p q f (by rw [he])

/-- `stream_window` grants only what lies ahead. -/
theorem streamWindow_maxRecv (c : Conn) (p : Ptr) (window : Nat) :
    (c.streams p).maxRecv ≤ ((c.streamWindow p window).streams p).maxRecv := by
  unfold streamWindow
  dsimp only
  split
  · next h =>
    rw [streams_grant]
    exact Nat.le_of_lt h
  · have hsame := streams_modify_self c p fun s => { s with window := window }
    exact Nat.le_of_eq (congrArg QuicStream.maxRecv hsame).symm

/-- A refill after `n` more bytes moves the limit forward, or none is made. -/
def RefillForward (s : QuicStream) (n : Nat) : Prop :=
  s.finSeen = true ∨ s.maxRecv ≤ add64 (s.consumed + n) s.window

instance (s : QuicStream) (n : Nat) : Decidable (RefillForward s n) :=
  inferInstanceAs (Decidable (_ ∨ _))

theorem consume_fields (s : QuicStream) (n : Nat) :
    (s.consume n).finSeen = s.finSeen ∧ (s.consume n).maxRecv = s.maxRecv ∧
      (s.consume n).window = s.window := by
  unfold QuicStream.consume
  split <;> exact ⟨rfl, rfl, rfl⟩

theorem streams_creditConnection (c : Conn) (n : Nat) : (c.creditConnection n).streams = c.streams := by
  unfold creditConnection
  dsimp only
  split <;> rfl

theorem streamConsumed_maxRecv (c : Conn) (p : Ptr) (n : Nat) (h : RefillForward (c.streams p) n) :
    (c.streams p).maxRecv ≤ ((c.streamConsumed p n).streams p).maxRecv := by
  obtain ⟨hfin, hmax, hwin⟩ := consume_fields (c.streams p) n
  have hself : ((c.modify p fun s => s.consume n).creditConnection n).streams p =
      (c.streams p).consume n := by
    rw [streams_creditConnection]
    exact streams_modify_self c p _
  unfold streamConsumed
  dsimp only
  rw [hself]
  split
  · next hdue =>
    rw [streams_grant]
    rw [QuicStream.consumed_consume, hwin]
    refine h.resolve_left ?_
    intro hseen
    unfold refillDue at hdue
    rw [hfin, hseen] at hdue
    exact Bool.false_ne_true hdue
  · exact Nat.le_of_eq (hmax.symm.trans (congrArg QuicStream.maxRecv hself).symm)

/-! ## §4. Every step. -/

/-- **The condition.**  A refill of `stream_consumed` moves the limit forward. -/
def refillsForward (c : Conn) : Op → Prop
  | .streamConsumed p n => RefillForward (c.streams p) n
  | _ => True

instance (c : Conn) (op : Op) : Decidable (c.refillsForward op) := by
  apply @Op.casesOn (fun op => Decidable (c.refillsForward op)) op
  case streamConsumed => exact fun _ _ => inferInstanceAs (Decidable (RefillForward _ _))
  all_goals
    intros
    exact inferInstanceAs (Decidable True)

theorem Moves.trans {a b c : Conn} (h : Moves a b) (h' : Moves b c) : Moves a c := by
  refine ⟨h'.limits.trans h.limits, h.grows.trans h'.grows, ?_, ?_⟩
  · intro q hq
    rcases h.forward q hq with ⟨hq', hid, hle⟩ | ⟨hk, hgone⟩
    · rcases h'.forward q hq' with ⟨hq'', hid', hle'⟩ | ⟨hk, hgone⟩
      · exact .inl ⟨hq'', hid'.trans hid, Nat.le_trans hle hle'⟩
      rw [hid] at hk hgone
      exact .inr ⟨hk, hgone⟩
    · refine .inr ⟨h'.grows.closed _ _ hk, fun r hr he => ?_⟩
      rcases h'.back r hr with ⟨hr', hid⟩ | ⟨hfresh, -⟩
      · exact hgone r hr' (hid.symm.trans he)
      rw [he, hk] at hfresh
      exact Bool.false_ne_true hfresh.symm
  · intro q hq
    rcases h'.back q hq with ⟨hq', hid⟩ | ⟨hfresh, hinit⟩
    · rcases h.back q hq' with ⟨hq'', hid'⟩ | ⟨hfresh, hinit⟩
      · exact .inl ⟨hq'', hid.trans hid'⟩
      refine .inr ⟨hid ▸ hfresh, ?_⟩
      rcases h'.forward q hq' with ⟨-, -, hle⟩ | ⟨-, hgone⟩
      · rw [hid]
        exact Nat.le_trans hinit hle
      · exact absurd hid (hgone q hq)
    · rw [h.limits] at hinit
      refine .inr ⟨?_, hinit⟩
      by_contra hk
      have := h.grows.closed _ _ (Bool.not_eq_false _ ▸ hk)
      rw [hfresh] at this
      exact Bool.false_ne_true this

theorem moves_of_found {k : Conn} (hf : Found c id k p) (h : TableInv c) : Moves c k := by
  cases hf with
  | found hn _ => exact moves_of_same (SameReceive.of_quiet hn.quiet)
  | opened hn _ _ _ hk =>
    have hs := SameReceive.of_quiet hn.quiet
    have hb := table_of_same hs h
    exact (moves_of_same hs).trans (moves_of_opened hk (openStream_spec id hb))

theorem moves_of_frame {f : Frame} (he : FrameEffect c f c') (h : TableInv c) : Moves c c' := by
  cases he with
  | quiet hq => exact moves_of_same (SameReceive.of_quiet hq)
  | wake hq =>
    exact moves_of_same ((SameReceive.of_quiet hq).trans (wakeBlocked_sameReceive _))
  | drain => exact moves_of_setState c .draining
  | touch hf hq =>
    exact (moves_of_found hf h).trans
      (moves_of_same (SameReceive.of_quiet hq))
  | queue hf hq =>
    exact (moves_of_found hf h).trans
      (moves_of_same ((SameReceive.of_quiet hq).trans
        (SameReceive.of_linkOnly (enqueue_linkOnly ..))))
  | reset _ hf =>
    exact (moves_of_found hf h).trans
      (moves_of_receive ((receive_walk _).applyReset ..)
        (Nat.le_of_eq ((sameLimits_walk _).applyReset _ _ _ _).symm))
  | data _ hf =>
    exact (moves_of_found hf h).trans
      (moves_of_receive ((receive_walk _).applyStreamFrame ..)
        (Nat.le_of_eq ((sameLimits_walk _).applyStreamFrame _ _ _ _ _).symm))

theorem moves_of_loss (he : LossEffect c c') : Moves c c' := by
  cases he with
  | quiet hq => exact moves_of_same (SameReceive.of_quiet hq)
  | queue hq =>
    exact moves_of_same ((SameReceive.of_quiet hq).trans
      (SameReceive.of_linkOnly (enqueue_linkOnly ..)))
  | grant _ =>
    refine moves_of_receive (grant_receive ..) ?_
    rw [streams_grant]
    exact Nat.le_refl _

theorem step_moves {op : Op} (h : TableInv c) (hok : c.refillsForward op)
    (hs : c.step op = some c') : Moves c c' := by
  cases step_effect hs with
  | quiet hq => exact moves_of_same (SameReceive.of_quiet hq)
  | establish _ => exact moves_of_setState c .established
  | finish _ => exact moves_of_setState c .closed
  | openOwn hp _ => exact moves_of_openOwn hp h
  | ready => exact moves_of_same (SameReceive.of_linkOnly (enqueue_linkOnly ..))
  | consumed _ _ _ =>
    exact moves_of_receive (streamConsumed_receive ..) (streamConsumed_maxRecv c _ _ hok)
  | window _ => exact moves_of_receive (streamWindow_receive ..) (streamWindow_maxRecv ..)
  | reset _ => exact moves_of_same (streamReset_sameReceive ..)
  | closeStream hp _ => exact moves_of_closeStream hp h
  | frame _ he => exact moves_of_frame he h
  | lost _ he => exact moves_of_loss he
  | unqueue hq =>
    exact moves_of_same ((SameReceive.of_quiet hq).trans
      (SameReceive.of_linkOnly (dequeue_linkOnly ..)))
  | turn he => exact moves_of_same (streamEffect_sameReceive he)

/-! ## §5. What the peer was told. -/

/-- The frame fails with "stream data beyond the window". -/
def beyondWindow (c : Conn) (f : Frame) (sec : Int) : Prop :=
  (c.handleFrame f sec).ended = true ∧
    (c.handleFrame f sec).closeReason = "stream data beyond the window"

/-- A failure gives its own reason. -/
theorem fail_reason (k : Conn) {code type : Nat} {reason : String} (ha : k.ended = false) :
    (k.fail code type reason).closeReason = reason := by
  unfold fail
  rw [ha]
  rfl

theorem ended_storeData (c : Conn) (p : Ptr) (offset : Nat) (data : Bytes) :
    (c.storeData p offset data).ended = c.ended := by
  unfold storeData
  split
  · rfl
  · split <;> rfl

theorem chargeData_reason (c : Conn) (p : Ptr) (f : Frame) (offset : Nat) (data : Bytes)
    (ha : c.ended = false) : (c.chargeData p f offset data).ended = false ∨
      (c.chargeData p f offset data).closeReason = "connection data beyond the window" := by
  unfold chargeData
  dsimp only
  split
  · split
    · exact .inr (fail_reason _ ha)
    rw [ended_storeData]
    exact .inl ha
  · rw [ended_storeData]
    exact .inl ha

/-- A frame within the stream's limit is refused, if at all, for another reason. -/
theorem applyStreamFrame_reason (c : Conn) (p : Ptr) (f : Frame) (offset : Nat) (data : Bytes)
    (fin : Bool) (ha : c.ended = false) (hw : offset + data.length ≤ (c.streams p).maxRecv) :
    (c.applyStreamFrame p f offset data fin).ended = false ∨
      (c.applyStreamFrame p f offset data fin).closeReason ≠ "stream data beyond the window" := by
  have hcharge : ∀ k : Conn, k.ended = false → (k.chargeData p f offset data).ended = false ∨
      (k.chargeData p f offset data).closeReason ≠ "stream data beyond the window" := by
    intro k hk
    refine (chargeData_reason k p f offset data hk).imp (fun h => h) fun h => ?_
    rw [h]
    decide
  unfold applyStreamFrame
  rw [if_neg (Nat.not_lt.mpr hw)]
  split
  · split
    · rw [fail_reason _ ha]
      exact .inr (by decide)
    · exact hcharge c ha
  · split
    · split
      · rw [fail_reason _ ha]
        exact .inr (by decide)
      · exact hcharge _ ha
    · exact hcharge c ha

theorem beyondWindow_of_covered {offset : Nat} {data : Bytes} {fin : Bool} {sec : Int}
    (h : TableInv c) (ha : c.ended = false) (hcov : streamIsClient id = true →
      Phase.Covers (initialMaxRecv c.limits id) (offset + data.length) (c.phase id)) :
    ¬ c.beyondWindow (.stream id offset data fin) sec := by
  have hnot : ∀ k : Conn, k.ended = false ∨ k.closeReason ≠ "stream data beyond the window" →
      ¬ (k.ended = true ∧ k.closeReason = "stream data beyond the window") := by
    rintro k hk ⟨ho, hr⟩
    rcases hk with hk | hk
    · rw [hk] at ho
      exact Bool.false_ne_true ho
    · exact hk hr
  unfold beyondWindow handleFrame
  refine hnot _ ?_
  dsimp only
  rcases incomingStream_cases c id with
    ⟨code, reason, hr, he⟩ | he | ⟨p, hc, hf, he⟩ | ⟨hc, hf, -, hk, he⟩
  · rw [he]
    rw [fail_reason _ ha]
    rcases hr with rfl | rfl <;> exact .inr (by decide)
  · rw [he]
    exact .inl ha
  · rw [he]
    have hcov := hcov hc
    unfold phase recvLimit at hcov
    rw [hf] at hcov
    exact applyStreamFrame_reason c p _ offset data fin ha hcov
  · rw [he]
    have hspec := openStream_spec id h
    have hcov := hcov hc
    unfold phase recvLimit at hcov
    rw [hf, hk] at hcov
    refine applyStreamFrame_reason _ _ _ offset data fin ?_ ?_
    · rw [ended_of_closeInfo hspec.books.closeInfo]
      exact ha
    · rw [hspec.maxRecv]
      exact hcov

end Conn

/-- A connection and, per stream id, the largest limit its peer was told. -/
structure Told where
  conn : Conn
  limit : Nat → Nat

namespace Told

/-- The transport parameters tell the initial limits. -/
def create (limits : Limits) : Told where
  conn := Conn.create limits
  limit := Conn.initialMaxRecv limits

/-- A MAX_STREAM_DATA that was written. -/
def announce (told : Nat → Nat) : OutFrame → Nat → Nat
  | .maxStreamData id v => fun i => if i = id then max (told i) v else told i
  | _ => told

/-- The connection's step; what a credit round writes is told, and nothing else writes a
    MAX_STREAM_DATA. -/
def step (s : Told) (op : Op) : Option Told :=
  match s.conn.step op with
  | none => none
  | some c => some {
      conn := c
      limit := match op with
        | .creditTurn room => (s.conn.creditTurn room).frames.foldl announce s.limit
        | _ => s.limit }

def refillsForward (s : Told) (op : Op) : Prop := s.conn.refillsForward op

instance (s : Told) (op : Op) : Decidable (s.refillsForward op) :=
  inferInstanceAs (Decidable (s.conn.refillsForward op))

/-- What the peer was told is covered by the limits of now. -/
structure Inv (s : Told) : Prop where
  table : s.conn.TableInv
  covered : ∀ id, streamIsClient id = true →
    Phase.Covers (Conn.initialMaxRecv s.conn.limits id) (s.limit id) (s.conn.phase id)

/-- A credit round writes the limit of a stream that is open. -/
theorem creditTurn_frames (c : Conn) (room : Nat) : (c.creditTurn room).frames = [] ∨
    ∃ p ∈ c.credit, (c.creditTurn room).frames = [.maxStreamData (c.streams p).id (c.streams p).maxRecv] := by
  unfold Conn.creditTurn
  split
  · exact .inl rfl
  next p rest hc =>
  dsimp only
  split
  · exact .inl rfl
  split
  · exact .inl rfl
  refine .inr ⟨p, ?_, rfl⟩
  rw [hc]
  exact .head _

variable {s s' : Told} {id : Nat} {op : Op}

/-- What a credit round tells is covered before the round. -/
theorem creditTurn_covered (h : Inv s) (room : Nat) (hc : streamIsClient id = true) :
    Phase.Covers (Conn.initialMaxRecv s.conn.limits id)
      ((s.conn.creditTurn room).frames.foldl announce s.limit id) (s.conn.phase id) := by
  have hold := h.covered id hc
  rcases creditTurn_frames s.conn room with hf | ⟨p, hp, hf⟩
  · rw [hf]
    exact hold
  rw [hf]
  show Phase.Covers _ (if id = (s.conn.streams p).id then
    max (s.limit id) (s.conn.streams p).maxRecv else s.limit id) _
  by_cases hid : id = (s.conn.streams p).id
  · rw [if_pos hid]
    -- the stream is open and the client's, so it is the active one with this id
    have hact : p ∈ s.conn.active := by
      rcases h.table.open_listed p (h.table.credit_open p hp) with ha | ho
      · exact ha
      have := h.table.own_server p ho (h.table.credit_open p hp)
      rw [← hid, hc] at this
      exact absurd this.symm Bool.false_ne_true
    have hlim := h.table.recvLimit_of_active hact
    rw [← hid] at hlim
    unfold Conn.phase at hold ⊢
    rw [hlim] at hold ⊢
    exact Nat.max_le.mpr ⟨hold, Nat.le_refl _⟩
  · rw [if_neg hid]
    exact hold

/-- The connection's step inside a step of the pair. -/
theorem step_conn (hs : s.step op = some s') : s.conn.step op = some s'.conn := by
  unfold step at hs
  cases hc : s.conn.step op with
  | none =>
    rw [hc] at hs
    simp at hs
  | some c =>
    rw [hc] at hs
    cases hs
    rfl

/-- What is told after a step was covered before it. -/
theorem step_limit (h : Inv s) (hs : s.step op = some s') (hc : streamIsClient id = true) :
    Phase.Covers (Conn.initialMaxRecv s.conn.limits id) (s'.limit id) (s.conn.phase id) := by
  unfold step at hs
  cases hc' : s.conn.step op with
  | none =>
    rw [hc'] at hs
    simp at hs
  | some c =>
    rw [hc'] at hs
    cases hs
    cases op with
    | creditTurn room => exact creditTurn_covered h room hc
    | _ => exact h.covered id hc

theorem step_inv (h : Inv s) (hok : s.refillsForward op) (hs : s.step op = some s') : Inv s' := by
  have hc := step_conn hs
  have ht := Conn.step_table h.table hc
  have hm := Conn.step_moves h.table hok hc
  refine ⟨ht, fun id hid => ?_⟩
  rw [hm.limits]
  exact Phase.Covers.mono (Conn.phase_of_moves h.table ht hm hid) (step_limit h hs hid)

theorem create_inv (limits : Limits) : Inv (create limits) := by
  refine ⟨Conn.create_table limits, fun id _ => ?_⟩
  have hfresh : (create limits).conn.phase id = .fresh := by
    unfold Conn.phase
    have hnone : (create limits).conn.recvLimit id = none := rfl
    rw [hnone]
    rw [if_neg]
    rw [Conn.knownClosed_iff]
    intro h
    refine absurd h.1 ?_
    show ¬ id / 4 < (if streamIsBidi id then 0 else 0)
    split <;> omega
  rw [hfresh]
  exact Nat.le_refl _

/-- Along a run every id goes through its phases in order. -/
theorem run_phase {ops : List Op} (h : Inv s) (hrun : run step s ops = some s')
    (hok : Meets step refillsForward s ops) (hid : streamIsClient id = true) :
    Phase.Before (Conn.initialMaxRecv s.conn.limits id) (s.conn.phase id) (s'.conn.phase id) := by
  have hrel : s'.conn.limits = s.conn.limits ∧
      Phase.Before (Conn.initialMaxRecv s.conn.limits id) (s.conn.phase id) (s'.conn.phase id) := by
    refine run_rel (I := Inv) (R := fun s s' => s'.conn.limits = s.conn.limits ∧
      Phase.Before (Conn.initialMaxRecv s.conn.limits id) (s.conn.phase id) (s'.conn.phase id))
      (fun s => ⟨rfl, Phase.Before.refl _ _⟩) ?_ (fun _ _ _ h ho hs => step_inv h ho hs) ?_ h hrun
      hok
    · intro a b c hab hbc
      refine ⟨hbc.1.trans hab.1, hab.2.trans ?_⟩
      rw [← hab.1]
      exact hbc.2
    · intro a op b ha ho hs
      have hc := step_conn hs
      have hm := Conn.step_moves ha.table ho hc
      exact ⟨hm.limits, Conn.phase_of_moves ha.table (Conn.step_table ha.table hc) hm hid⟩
  exact hrel.2

end Told

/-- **A limit never moves back.**  In every run in which each refill moves forward: the limit of a
    stream of the peer is at no moment below what it was before, and a STREAM frame within the
    largest limit the peer was told never fails as beyond the window. -/
theorem max_recv_never_moves_back (limits : Limits) (before after : List Op) (s s' : Told)
    (hbefore : run Told.step (Told.create limits) before = some s) (hafter : run Told.step s after = some s')
    (hok : Meets Told.step Told.refillsForward (Told.create limits) before)
    (hok' : Meets Told.step Told.refillsForward s after) :
    (∀ id v v', streamIsClient id = true → s.conn.recvLimit id = some v →
      s'.conn.recvLimit id = some v' → v ≤ v') ∧
    ∀ id offset data fin sec, s'.conn.ended = false → offset + data.length ≤ s'.limit id →
      ¬ s'.conn.beyondWindow (.stream id offset data fin) sec := by
  have hinv : Told.Inv s := run_invariant (I := Told.Inv)
    (fun _ _ _ h ho hs => Told.step_inv h ho hs) (Told.create_inv limits) hbefore hok
  have hinv' : Told.Inv s' := run_invariant (I := Told.Inv)
    (fun _ _ _ h ho hs => Told.step_inv h ho hs) hinv hafter hok'
  refine ⟨fun id v v' hid hv hv' => ?_, fun id offset data fin sec ha hle => ?_⟩
  · have hphase := Told.run_phase hinv hafter hok' hid
    unfold Conn.phase at hphase
    rw [hv, hv'] at hphase
    exact hphase
  · refine Conn.beyondWindow_of_covered hinv'.table ha fun hid => ?_
    have hcov := hinv'.covered id hid
    generalize s'.conn.phase id = ph at hcov ⊢
    cases ph with
    | fresh => exact Nat.le_trans hle hcov
    | active v => exact Nat.le_trans hle hcov
    | retired => trivial

/-- An upload: the body limit 65536 becomes the stream's window, the headers are consumed, and the
    new limit is written. -/
def uploadRun : List Op :=
  [.handshakeComplete, .frame (.stream 0 0 (bytes "headers") false) 0, .streamWindow 3 65536,
    .streamConsumed 3 7, .creditTurn 1200]

theorem max_recv_never_moves_back_uploadRun :
    ∃ s s', run Told.step (Told.create {}) (uploadRun.take 2) = some s ∧
      run Told.step s (uploadRun.drop 2) = some s' ∧
      s.conn.recvLimit 0 = some 16384 ∧ s'.conn.recvLimit 0 = some 65536 ∧
      ¬ s'.conn.beyondWindow (.stream 0 60000 [0, 1] false) 0 := by
  have hsome : (run Told.step (Told.create {}) (uploadRun.take 2)).isSome = true := by decide
  obtain ⟨s, hs⟩ := Option.isSome_iff_exists.mp hsome
  have hrest : (run Told.step (Told.create {}) (uploadRun.take 2)).bind
      (fun s => (run Told.step s (uploadRun.drop 2)).map fun s' =>
        (s.conn.recvLimit 0, s'.conn.recvLimit 0, s'.limit 0, s'.conn.ended)) =
      some (some 16384, some 65536, 65536, false) := by decide
  have hmeets : ∀ s, run Told.step (Told.create {}) (uploadRun.take 2) = some s →
      Meets Told.step Told.refillsForward s (uploadRun.drop 2) := by
    have hall : Meets Told.step Told.refillsForward (Told.create {}) uploadRun := by decide
    exact fun s hs => meets_of_append hs hall
  rw [hs, Option.bind_some] at hrest
  obtain ⟨s', hs', hfacts⟩ := Option.map_eq_some_iff.mp hrest
  rw [Prod.mk.injEq, Prod.mk.injEq, Prod.mk.injEq] at hfacts
  obtain ⟨h₁, h₂, h₃, h₄⟩ := hfacts
  refine ⟨s, s', hs, hs', h₁, h₂, ?_⟩
  refine (max_recv_never_moves_back {} _ _ s s' hs hs' (by decide) (hmeets s hs)).2 0 60000 [0, 1]
    false 0 h₄ ?_
  rw [h₃]
  decide

/-- A site whose body limit is 1024: the window of an upload shrinks to it, and one byte is
    consumed. -/
def smallBodyRun : List Op :=
  [.handshakeComplete, .frame (.stream 0 0 (bytes "headers") false) 0, .streamWindow 3 1024,
    .streamConsumed 3 1]

/-- The limit moves back from 16384 to 1025, and a frame of the peer within the first window
    fails the connection. -/
theorem refill_moves_back : ∃ s s', run Told.step (Told.create {}) (smallBodyRun.take 2) = some s ∧
      run Told.step s (smallBodyRun.drop 2) = some s' ∧
      s.conn.recvLimit 0 = some 16384 ∧ s'.conn.recvLimit 0 = some 1025 ∧
      s'.conn.ended = false ∧ 2000 + [0, 1].length ≤ s'.limit 0 ∧
      s'.conn.beyondWindow (.stream 0 2000 [0, 1] false) 0 := by
  have hfacts : (run Told.step (Told.create {}) (smallBodyRun.take 2)).bind
      (fun s => (run Told.step s (smallBodyRun.drop 2)).map fun s' =>
        (s.conn.recvLimit 0, s'.conn.recvLimit 0, s'.conn.ended, s'.limit 0,
          (s'.conn.handleFrame (.stream 0 2000 [0, 1] false) 0).ended,
          (s'.conn.handleFrame (.stream 0 2000 [0, 1] false) 0).closeReason)) =
      some (some 16384, some 1025, false, 16384, true, "stream data beyond the window") := by decide
  obtain ⟨s, hs, hrest⟩ := Option.bind_eq_some_iff.mp hfacts
  obtain ⟨s', hs', hall⟩ := Option.map_eq_some_iff.mp hrest
  simp only [Prod.mk.injEq] at hall
  obtain ⟨h₁, h₂, h₃, h₄, h₅, h₆⟩ := hall
  refine ⟨s, s', hs, hs', h₁, h₂, h₃, ?_, h₅, h₆⟩
  rw [h₄]
  decide

end Agensio.Quic
