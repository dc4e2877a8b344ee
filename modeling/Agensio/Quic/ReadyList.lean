/-
  Agensio.Quic.ReadyList — the connection's ready list is a queue.

  The list from `ready_head_` through `next_ready` is an intrusive queue
  (`Lib.LinkedQueue`), edited by `enqueue`, `dequeue` and `rotate` — and
  by `stream_reset`, which clears the flag of a stream and leaves its
  links: the one operation that breaks the agreement.

  Main results:
    * `ready_list_wellFormed` — in every run in which no reset meets a
      stream that is still linked, the list is finite, ends at the tail,
      holds exactly the streams whose flag is set, each once, all open,
      and the packetiser's round robin reaches every one of them;
    * `reset_breaks_ready_list` — a run of three steps after which the
      list holds a stream whose flag is clear.
-/
import Agensio.Lib.LinkedQueue
import Mathlib.Data.List.Perm.Subperm
import Agensio.Quic.Table

namespace Agensio.Quic

open Agensio.Lib

/-! ## §1. The invariant. -/

/-- The ready list as an intrusive queue. -/
def View.queue (v : View) : LinkedQueue Ptr where
  head := v.readyHead
  tail := v.readyTail
  next := fun p => (v.streams p).nextReady
  queued := fun p => (v.streams p).ready

/-- The list stores `l`, and every stream of `l` is open. -/
structure ReadyList (v : View) (l : List Ptr) : Prop where
  represents : v.queue.Represents l
  all_open : ∀ p ∈ l, (v.streams p).isOpen = true

theorem ReadyList.length_le {c : Conn} {l : List Ptr} (ht : c.TableInv) (h : ReadyList c.view l) :
    l.length ≤ c.allocated := by
  have hsub : l ⊆ List.range c.allocated := by
    intro p hp
    exact List.mem_range.mpr (ht.open_lt (h.all_open p hp))
  have hle := (List.subperm_of_subset h.represents.nodup hsub).length_le
  rwa [List.length_range] at hle

/-- The list reads the two ends, its own streams, and the flags of the others. -/
theorem ReadyList.congr {v v' : View} {l : List Ptr} (h : ReadyList v l)
    (hhead : v'.readyHead = v.readyHead) (htail : v'.readyTail = v.readyTail)
    (hin : ∀ p ∈ l, v'.streams p = v.streams p) (hout : ∀ p, p ∉ l → (v'.streams p).ready = false) :
    ReadyList v' l := by
  refine ⟨⟨?_, h.represents.nodup, ?_, ?_⟩, ?_⟩
  · show LinkedQueue.Chain (fun p => (v'.streams p).nextReady) v'.readyHead l
    rw [hhead]
    refine LinkedQueue.chain_congr ?_ h.represents.chain
    intro p hp
    show (v'.streams p).nextReady = (v.streams p).nextReady
    rw [hin p hp]
  · show v'.readyTail = l.getLast?
    rw [htail]
    exact h.represents.tail_eq
  · intro p
    show (v'.streams p).ready = true ↔ p ∈ l
    by_cases hp : p ∈ l
    · rw [hin p hp]
      exact h.represents.queued_iff p
    rw [hout p hp]
    simp [hp]
  · intro p hp
    rw [hin p hp]
    exact h.all_open p hp

namespace Conn

/-- The ready list stores some list of open streams. -/
def HasList (c : Conn) : Prop := ∃ l, ReadyList c.view l

/-- What every operation keeps of the ready list. -/
structure ReadyInv (c : Conn) : Prop where
  table : TableInv c
  list : HasList c

/-! ## §2. The three operations of the list. -/

variable {c c' : Conn} {p h : Ptr} {l : List Ptr}

theorem isOpen_of_linkOnly (h : LinkOnly c c') (p : Ptr) : (c'.streams p).isOpen = (c.streams p).isOpen := by
  obtain ⟨_, _, _, _, rfl⟩ := h
  rfl

theorem queue_setNext (c : Conn) (p : Ptr) (n : Option Ptr) : (c.setNext p n).view.queue =
      { c.view.queue with next := Function.update c.view.queue.next p n } := by
  have hnext : (fun q => ((c.setNext p n).streams q).nextReady) =
      Function.update (fun q => (c.streams q).nextReady) p n := by
    funext q
    by_cases hq : q = p
    · subst hq
      simp [setNext]
    rw [Function.update_of_ne hq]
    unfold setNext
    rw [streams_modify_of_ne c _ hq]
  have hflag : (fun q => ((c.setNext p n).streams q).ready) = fun q => (c.streams q).ready := by
    funext q
    exact proj_modify QuicStream.ready c p q _ rfl
  show LinkedQueue.mk _ _ (fun q => ((c.setNext p n).streams q).nextReady)
    (fun q => ((c.setNext p n).streams q).ready) = _
  rw [hnext, hflag]
  rfl

theorem queue_setFlag (c : Conn) (p : Ptr) (r : Bool) : (c.setFlag p r).view.queue =
      { c.view.queue with
        next := Function.update c.view.queue.next p none
        queued := Function.update c.view.queue.queued p r } := by
  have hnext : (fun q => ((c.setFlag p r).streams q).nextReady) =
      Function.update (fun q => (c.streams q).nextReady) p none := by
    funext q
    by_cases hq : q = p
    · subst hq
      simp [setFlag]
    rw [Function.update_of_ne hq]
    unfold setFlag
    rw [streams_modify_of_ne c _ hq]
  have hflag : (fun q => ((c.setFlag p r).streams q).ready) =
      Function.update (fun q => (c.streams q).ready) p r := by
    funext q
    by_cases hq : q = p
    · subst hq
      simp [setFlag]
    rw [Function.update_of_ne hq]
    unfold setFlag
    rw [streams_modify_of_ne c _ hq]
  show LinkedQueue.mk _ _ (fun q => ((c.setFlag p r).streams q).nextReady)
    (fun q => ((c.setFlag p r).streams q).ready) = _
  rw [hnext, hflag]
  rfl

@[simp] theorem queue_setReadyHead (c : Conn) (h : Option Ptr) :
    (c.setReadyHead h).view.queue = { c.view.queue with head := h } := rfl

@[simp] theorem queue_setReadyTail (c : Conn) (t : Option Ptr) :
    (c.setReadyTail t).view.queue = { c.view.queue with tail := t } := rfl

theorem queue_enqueue (c : Conn) (p : Ptr) (hr : (c.streams p).ready = false)
    (ho : (c.streams p).isOpen = true) : (c.enqueue p).view.queue = c.view.queue.push p := by
  unfold enqueue
  rw [hr, ho]
  cases ht : c.readyTail with
  | none =>
    have htail : c.view.queue.tail = none := ht
    simp [queue_setFlag, LinkedQueue.push, htail]
  | some t =>
    have htail : c.view.queue.tail = some t := ht
    simp [queue_setFlag, queue_setNext, LinkedQueue.push, htail]

theorem walkTo_eq (streams : Ptr → QuicStream) (p : Ptr) (n : Nat) (prev cur : Option Ptr) :
    walkTo streams p n prev cur = LinkedQueue.findPrev (fun q => (streams q).nextReady) p n prev cur := by
  induction n generalizing prev cur with
  | zero => rfl
  | succ n ih =>
    cases cur with
    | none => rfl
    | some q =>
      unfold walkTo LinkedQueue.findPrev
      rw [ih]

theorem queue_linkPast (c : Conn) (prev after : Option Ptr) :
    (c.linkPast prev after).view.queue = match prev with
      | some r => { c.view.queue with next := Function.update c.view.queue.next r after }
      | none => { c.view.queue with head := after } := by
  cases prev with
  | some r => exact queue_setNext c r after
  | none => rfl

theorem queue_dequeue (c : Conn) (p : Ptr) (hr : (c.streams p).ready = true) :
    (c.dequeue p).view.queue = c.view.queue.remove c.allocated p := by
  unfold dequeue
  rw [hr, walkTo_eq]
  have hfind : LinkedQueue.findPrev (fun q => (c.streams q).nextReady) p c.allocated none
      c.readyHead = LinkedQueue.findPrev c.view.queue.next p c.allocated none c.view.queue.head :=
    rfl
  rw [hfind]
  unfold LinkedQueue.remove
  cases hf : LinkedQueue.findPrev c.view.queue.next p c.allocated none c.view.queue.head with
  | none => simp [queue_setFlag]
  | some prev =>
    -- the tail of the queue the links were closed in is still the old one
    have htail : (c.linkPast prev (c.streams p).nextReady).readyTail = c.view.queue.tail := by
      cases prev <;> rfl
    have hnext : (c.streams p).nextReady = c.view.queue.next p := rfl
    simp only [Bool.not_true, Bool.false_eq_true, if_false, queue_setFlag]
    unfold unlink
    dsimp only
    rw [htail]
    split
    · rw [queue_setReadyTail, queue_linkPast, hnext]
      cases prev <;> simp
    rw [queue_linkPast, hnext]
    cases prev <;> simp

theorem queue_rotate (c : Conn) : c.rotate.view.queue = c.view.queue.rotate := by
  unfold rotate LinkedQueue.rotate
  have hh : c.view.queue.head = c.readyHead := rfl
  have ht : c.view.queue.tail = c.readyTail := rfl
  rw [hh, ht]
  cases c.readyHead with
  | none => rfl
  | some h =>
    cases c.readyTail with
    | none => rfl
    | some t =>
      dsimp only
      split
      · rfl
      simp [queue_setNext]
      rfl

/-- Appending keeps the invariant, and puts `p` last. -/
theorem enqueue_list (h : ReadyList c.view l)
    (hr : (c.streams p).ready = false) (ho : (c.streams p).isOpen = true) :
    ReadyList (c.enqueue p).view (l ++ [p]) := by
  refine ⟨?_, ?_⟩
  · rw [queue_enqueue c p hr ho]
    exact LinkedQueue.push_represents h.represents hr
  · intro q hq
    show ((c.enqueue p).streams q).isOpen = true
    rw [isOpen_of_linkOnly (enqueue_linkOnly c p)]
    rcases List.mem_append.mp hq with hq | hq
    · exact h.all_open q hq
    rw [List.mem_singleton.mp hq]
    exact ho

theorem dequeue_list (p : Ptr) (ht : TableInv c)
    (h : ReadyList c.view l) : ReadyList (c.dequeue p).view (l.erase p) := by
  cases hr : (c.streams p).ready with
  | false =>
    have hskip : c.dequeue p = c := by
      unfold dequeue
      rw [hr]
      rfl
    rw [hskip, List.erase_of_not_mem (h.represents.notMem hr)]
    exact h
  | true =>
    refine ⟨?_, ?_⟩
    · rw [queue_dequeue c p hr]
      exact LinkedQueue.remove_represents h.represents ((h.represents.queued_iff p).mp hr)
        (h.length_le ht)
    · intro q hq
      show ((c.dequeue p).streams q).isOpen = true
      rw [isOpen_of_linkOnly (dequeue_linkOnly c p)]
      exact h.all_open q (List.mem_of_mem_erase hq)

theorem rotate_list {t : List Ptr} (hl : ReadyList c.view (h :: t)) : ReadyList c.rotate.view (t ++ [h]) := by
  refine ⟨?_, ?_⟩
  · rw [queue_rotate]
    exact LinkedQueue.rotate_represents hl.represents
  · intro q hq
    show (c.rotate.streams q).isOpen = true
    rw [isOpen_of_linkOnly (rotate_linkOnly c)]
    refine hl.all_open q ?_
    rcases List.mem_append.mp hq with hq | hq
    · exact .tail _ hq
    rw [List.mem_singleton.mp hq]
    exact .head _

theorem enqueue_hasList (p : Ptr) (h : HasList c) : HasList (c.enqueue p) := by
  obtain ⟨l, hl⟩ := h
  by_cases hskip : ((c.streams p).ready || !(c.streams p).isOpen) = true
  · have he : c.enqueue p = c := by
      unfold enqueue
      rw [if_pos hskip]
    rw [he]
    exact ⟨l, hl⟩
  · simp only [Bool.or_eq_true, Bool.not_eq_true', not_or, Bool.not_eq_true,
      Bool.not_eq_false] at hskip
    exact ⟨l ++ [p], enqueue_list hl hskip.1 hskip.2⟩

theorem dequeue_hasList (p : Ptr) (ht : TableInv c) (h : HasList c) : HasList (c.dequeue p) := by
  obtain ⟨l, hl⟩ := h
  exact ⟨l.erase p, dequeue_list p ht hl⟩

theorem rotate_hasList (h : HasList c) : HasList c.rotate := by
  obtain ⟨l, hl⟩ := h
  cases l with
  | nil =>
    have hh : c.readyHead = none := hl.represents.chain
    have he : c.rotate = c := by
      unfold rotate
      rw [hh]
    rw [he]
    exact ⟨[], hl⟩
  | cons p t => exact ⟨t ++ [p], rotate_list hl⟩

/-! ## §3. Closing and opening streams. -/

/-- The flag of a stream that is not linked can be cleared. -/
def resetUnlinked (c : Conn) (p : Ptr) : Prop :=
  (c.streams p).ready = false ∨ (c.streams p).resetSent = true ∨ (c.streams p).resetDue = true

instance (c : Conn) (p : Ptr) : Decidable (c.resetUnlinked p) :=
  inferInstanceAs (Decidable (_ ∨ _ ∨ _))

/-- A reset of a stream outside the list changes nothing the list is made of. -/
theorem quiet_streamReset (code : Nat) (h : c.resetUnlinked p) : Quiet c (c.streamReset p code) := by
  unfold streamReset
  split
  · exact Quiet.refl c
  next hn =>
  have hr : (c.streams p).ready = false := by
    rcases h with h | h | h
    · exact h
    · simp [h] at hn
    · simp [h] at hn
  have hq : Quiet c (c.modify p fun s =>
      { s with resetDue := true, resetSendCode := code, ready := false }) := by
    refine Quiet.modify c p _ ?_
    unfold QuicStream.view
    rw [hr]
    rfl
  exact hq.trans (quiet_setControl _ _)

theorem ready_of_notMem (h : ReadyList c.view l) (hp : p ∉ l) : (c.streams p).ready = false := by
  exact Bool.eq_false_iff.mpr ((h.represents.queued_iff p).not.mpr hp)

/-- A stream outside the list may change in any way that keeps its flag clear. -/
theorem modify_list {f : QuicStream → QuicStream}
    (h : ReadyList c.view l) (hp : p ∉ l) (hf : (f (c.streams p)).ready = false) :
    ReadyList (c.modify p f).view l := by
  refine h.congr rfl rfl ?_ ?_
  · intro q hq
    have hne : q ≠ p := fun he => hp (he ▸ hq)
    show ((c.modify p f).streams q).view = (c.streams q).view
    rw [streams_modify_of_ne c f hne]
  · intro q hq
    show ((c.modify p f).streams q).ready = false
    by_cases hqp : q = p
    · rw [hqp, streams_modify_self]
      exact hf
    rw [streams_modify_of_ne c f hqp]
    exact ready_of_notMem h hq

theorem notMem_of_closed (h : ReadyList c.view l) (hp : (c.streams p).isOpen = false) : p ∉ l := by
  intro hm
  have : (c.streams p).isOpen = true := h.all_open p hm
  rw [hp] at this
  exact Bool.noConfusion this

/-- A stream opens with its flag clear: it was in no list. -/
theorem opened_hasList {id : Nat} (ho : Opened id p c c') (h : HasList c) : HasList c' := by
  obtain ⟨l, hl⟩ := h
  have hp : p ∉ l := notMem_of_closed hl ho.fresh.2.2
  refine ⟨l, hl.congr ho.readyHead ho.readyTail ?_ ?_⟩
  · intro q hq
    have hne : q ≠ p := fun he => hp (he ▸ hq)
    exact ho.others q hne
  · intro q hq
    by_cases hqp : q = p
    · rw [hqp]
      exact ho.unqueued (ready_of_notMem hl hp)
    have hv := congrArg StreamView.ready (ho.others q hqp)
    exact hv.trans (ready_of_notMem hl hq)

theorem openOwn_hasList (head : Bytes) (trim : Bool) (h : HasList c)
    (ho : (c.streams p).isOpen = false) : HasList (c.openOwn p head trim) := by
  obtain ⟨l, hl⟩ := h
  rcases openOwn_cases c p head trim with hq | ⟨k, id, maxSend, hk, -, hq⟩
  · exact ⟨l, hq.view ▸ hl⟩
  have hlk : ReadyList k.view l := hk.view ▸ hl
  have hp : p ∉ l := notMem_of_closed hl ho
  refine ⟨l, ?_⟩
  rw [hq.view]
  exact modify_list hlk hp (ready_of_notMem hlk hp)

/-- A stream is closed after it left the list. -/
theorem closeStream_hasList (hp : p ∈ c.active) (ht : TableInv c)
    (h : HasList c) : HasList (c.closeStream p) := by
  obtain ⟨l, hl⟩ := h
  obtain ⟨k, hq, -, -, -, he⟩ := streamClosed_effect c p
  have hact : p ∈ (c.streamClosed p).active := by
    have hsame := (SameReceive.of_linkOnly (dequeue_linkOnly c p)).trans (SameReceive.of_quiet hq)
    rw [he]
    show p ∈ k.active
    rw [hsame.active]
    exact hp
  have hgone : p ∉ l.erase p := hl.represents.nodup.not_mem_erase
  have hlk : ReadyList k.view (l.erase p) := hq.view ▸ dequeue_list p ht hl
  have hclosed : ReadyList (c.streamClosed p).view (l.erase p) := by
    rw [he]
    exact modify_list hlk hgone (ready_of_notMem hlk hgone)
  obtain ⟨ps, -, hrel⟩ := release_eq hact
  refine ⟨l.erase p, ?_⟩
  unfold closeStream
  rw [hrel]
  have hset : ReadyList ((c.streamClosed p).setActive
      (swapRemove (c.streamClosed p).active p)).view (l.erase p) :=
    ⟨hclosed.represents, hclosed.all_open⟩
  have hreset := modify_list (f := QuicStream.resetQuic) hset hgone rfl
  exact ⟨hreset.represents, hreset.all_open⟩

/-! ## §4. The steps. -/

theorem hasList_of_receive (hk : ReceiveOp p c c') (h : HasList c) : HasList c' := by
  obtain ⟨l, hl⟩ := h
  have hqueue : c'.view.queue = c.view.queue := by
    have hn : (fun p => (c'.streams p).nextReady) = fun p => (c.streams p).nextReady :=
      funext hk.nextReady
    have hr : (fun p => (c'.streams p).ready) = fun p => (c.streams p).ready := funext hk.ready
    show LinkedQueue.mk c'.readyHead c'.readyTail (fun p => (c'.streams p).nextReady)
      (fun p => (c'.streams p).ready) = _
    rw [hn, hr, hk.readyHead, hk.readyTail]
    rfl
  refine ⟨l, ?_, ?_⟩
  · rw [hqueue]
    exact hl.represents
  · intro p hp
    exact (hk.isOpen p).trans (hl.all_open p hp)

theorem hasList_of_quiet (hq : Quiet c c') (h : HasList c) : HasList c' := by
  unfold HasList
  rw [hq.view]
  exact h

theorem found_hasList {k : Conn} {id : Nat} (hf : Found c id k p) (ht : TableInv c)
    (h : HasList c) : HasList k := by
  cases hf with
  | found hn _ => exact hasList_of_quiet hn.quiet h
  | opened hn _ _ _ _ =>
    have htk := table_of_same (SameReceive.of_quiet hn.quiet) ht
    exact opened_hasList (openStream_spec id htk) (hasList_of_quiet hn.quiet h)

theorem wakeBlocked_hasList (h : HasList c) : HasList c.wakeBlocked := by
  have hfold : ∀ (ps : List Ptr) (k : Conn), HasList k → HasList (ps.foldl wakeOne k) := by
    intro ps
    induction ps with
    | nil => exact fun k hk => hk
    | cons p ps ih =>
      intro k hk
      refine ih _ ?_
      unfold wakeOne
      dsimp only
      split
      · exact enqueue_hasList p (hasList_of_quiet (Quiet.modify k p _ rfl) hk)
      · exact hk
  exact hfold _ c h

theorem frame_hasList {f : Frame} (he : FrameEffect c f c') (ht : TableInv c)
    (h : HasList c) : HasList c' := by
  cases he with
  | quiet hq => exact hasList_of_quiet hq h
  | wake hq => exact wakeBlocked_hasList (hasList_of_quiet hq h)
  | drain => exact h
  | touch hf hq => exact hasList_of_quiet hq (found_hasList hf ht h)
  | queue hf hq => exact enqueue_hasList _ (hasList_of_quiet hq (found_hasList hf ht h))
  | reset _ hf => exact hasList_of_receive ((receive_walk _).applyReset ..) (found_hasList hf ht h)
  | data _ hf => exact hasList_of_receive ((receive_walk _).applyStreamFrame ..) (found_hasList hf ht h)

theorem loss_hasList (he : LossEffect c c') (h : HasList c) : HasList c' := by
  cases he with
  | quiet hq => exact hasList_of_quiet hq h
  | queue hq => exact enqueue_hasList _ (hasList_of_quiet hq h)
  | grant _ => exact hasList_of_receive (grant_receive ..) h

/-- The stream at the head is not reset by a failed read while it is linked. -/
def turnOk (c : Conn) (t : Nat × ReadAt) : Prop :=
  match c.readyHead with
  | none => True
  | some p => c.sourceFails p t.1 t.2 = true → c.resetUnlinked p

instance (c : Conn) (t : Nat × ReadAt) : Decidable (c.turnOk t) := by
  unfold turnOk
  cases c.readyHead with
  | none => exact inferInstanceAs (Decidable True)
  | some p => exact inferInstanceAs (Decidable (_ → _))

/-- **The condition.**  A reset (the application's, or the packetiser's after a failed read)
    meets a stream that is not linked, or one already reset. -/
def resetsUnlinked (c : Conn) : Op → Prop
  | .streamReset p _ => c.resetUnlinked p
  | .streamTurn room read => c.turnOk (room, read)
  | _ => True

instance (c : Conn) (op : Op) : Decidable (c.resetsUnlinked op) := by
  apply @Op.casesOn (fun op => Decidable (c.resetsUnlinked op)) op
  case streamReset => exact fun p _ => inferInstanceAs (Decidable (c.resetUnlinked p))
  case streamTurn => exact fun room read => inferInstanceAs (Decidable (c.turnOk (room, read)))
  all_goals
    intros
    exact inferInstanceAs (Decidable True)

theorem turnOk_head {t : Nat × ReadAt} (h : c.turnOk t)
    (hh : c.readyHead = some p) (hf : c.sourceFails p t.1 t.2 = true) : c.resetUnlinked p := by
  unfold turnOk at h
  rw [hh] at h
  exact h hf

/-- A round of the STREAM loop keeps the list, unless it resets the head while it is linked. -/
theorem stream_hasList {room : Nat} {read : ReadAt} {t : Turn}
    (he : StreamEffect c room read t) (ht : TableInv c) (h : HasList c)
    (hok : c.turnOk (room, read)) : HasList t.conn := by
  have hquiet : ∀ {k : Conn} (p : Ptr), Quiet c k → HasList (k.dequeue p) := fun p hq =>
    dequeue_hasList p (table_of_same (SameReceive.of_quiet hq) ht) (hasList_of_quiet hq h)
  cases he with
  | stop hc _ =>
    rw [hc]
    exact h
  | drop _ hq hc =>
    rw [hc]
    exact hquiet _ hq
  | turn _ hq hc =>
    rw [hc]
    exact rotate_hasList (hasList_of_quiet hq h)
  | failed hh hf hc =>
    rw [hc]
    exact hquiet _ (quiet_streamReset _ (turnOk_head hok hh hf))

theorem step_readyInv {op : Op} (h : ReadyInv c) (hok : c.resetsUnlinked op)
    (hs : c.step op = some c') : ReadyInv c' := by
  obtain ⟨ht, hl⟩ := h
  refine ⟨step_table ht hs, ?_⟩
  cases step_effect hs with
  | quiet hq => exact hasList_of_quiet hq hl
  | establish _ => exact hl
  | finish _ => exact hl
  | openOwn _ ho => exact openOwn_hasList _ _ hl ho
  | ready => exact enqueue_hasList _ hl
  | consumed _ _ _ => exact hasList_of_receive (streamConsumed_receive ..) hl
  | window _ => exact hasList_of_receive (streamWindow_receive ..) hl
  | reset _ => exact hasList_of_quiet (quiet_streamReset _ hok) hl
  | closeStream hp _ => exact closeStream_hasList hp ht hl
  | frame _ he => exact frame_hasList he ht hl
  | lost _ he => exact loss_hasList he hl
  | unqueue hq =>
    exact dequeue_hasList _ (table_of_same (SameReceive.of_quiet hq) ht) (hasList_of_quiet hq hl)
  | turn he => exact stream_hasList he ht hl hok

theorem create_readyInv (limits : Limits) : ReadyInv (create limits) := by
  refine ⟨create_table limits, [], ⟨rfl, List.nodup_nil, rfl, ?_⟩, ?_⟩
  · intro p
    exact ⟨nofun, nofun⟩
  · intro p hp
    cases hp

/-! ## §5. The round robin. -/

/-- A round of the STREAM loop that does not end it: one frame of the head, or the head leaves. -/
def turnStep (c : Conn) (t : Nat × ReadAt) : Option Conn :=
  if (c.streamTurn t.1 t.2).more then some (c.streamTurn t.1 t.2).conn else none

theorem head_of_list (hl : ReadyList c.view (h :: l)) : c.readyHead = some h := hl.represents.chain.1

/-- One round: the streams behind the head move up by one. -/
theorem turn_list {t : Nat × ReadAt}
    (ht : TableInv c) (hl : ReadyList c.view (h :: l)) (hs : c.turnStep t = some c')
    (hok : c.turnOk t) : TableInv c' ∧ (ReadyList c'.view l ∨ ReadyList c'.view (l ++ [h])) := by
  have hhead := head_of_list hl
  unfold turnStep at hs
  split at hs
  · next hmore =>
    cases hs
    refine ⟨table_of_same (streamEffect_sameReceive (streamTurn_effect c t.1 t.2)) ht, ?_⟩
    have hleave : ∀ {k : Conn}, Quiet c k → ReadyList (k.dequeue h).view l := by
      intro k hq
      have hd := dequeue_list h (table_of_same (SameReceive.of_quiet hq) ht) (hq.view ▸ hl)
      rwa [List.erase_cons_head] at hd
    cases streamTurn_effect c t.1 t.2 with
    | stop _ hm => exact absurd hmore (by rw [hm]; exact Bool.false_ne_true)
    | drop hh hq hc =>
      cases hhead.symm.trans hh
      rw [hc]
      exact .inl (hleave hq)
    | turn hh hq hc =>
      rw [hc]
      exact .inr (rotate_list (hq.view ▸ hl))
    | failed hh hf hc =>
      cases hhead.symm.trans hh
      rw [hc]
      exact .inl (hleave (quiet_streamReset h3InternalError (turnOk_head hok hh hf)))
  · simp at hs

/-- The stream at position `k` stands at the head after `k` rounds. -/
theorem round_robin {ts : List (Nat × ReadAt)}
    (ht : TableInv c) (hl : ReadyList c.view l) (hp : l[ts.length]? = some p)
    (hrun : run turnStep c ts = some c') (hok : Meets turnStep turnOk c ts) : c'.readyHead = some p := by
  induction ts generalizing c l with
  | nil =>
    simp only [run_nil, Option.some.injEq] at hrun
    subst hrun
    cases l with
    | nil => simp at hp
    | cons h l =>
      simp only [List.length_nil, List.getElem?_cons_zero, Option.some.injEq] at hp
      subst hp
      exact head_of_list hl
  | cons t ts ih =>
    cases l with
    | nil => simp at hp
    | cons h l =>
      simp only [List.length_cons, List.getElem?_cons_succ] at hp
      obtain ⟨m, hm, hrest⟩ := step_of_run_cons hrun
      obtain ⟨hokt, hokts⟩ := (meets_cons_of_step hm).mp hok
      obtain ⟨htm, hlm | hlm⟩ := turn_list ht hl hm hokt
      · exact ih htm hlm hp hrest hokts
      have hlt : ts.length < l.length := (List.getElem?_eq_some_iff.mp hp).1
      refine ih htm hlm ?_ hrest hokts
      rw [List.getElem?_append_left hlt]
      exact hp

end Conn

/-! ## §6. The ready list over whole runs. -/

/-- **The ready list is well formed.**  In every run in which no reset meets a linked stream, the
    list from the head is finite, each stream once, ends at the tail, and holds exactly the
    streams whose flag is set, all of them open; and a stream at position `k` is at the head
    after `k` rounds of the packetiser. -/
theorem ready_list_wellFormed (limits : Limits) (ops : List Op) (c : Conn)
    (hrun : run Conn.step (Conn.create limits) ops = some c)
    (hok : Meets Conn.step Conn.resetsUnlinked (Conn.create limits) ops) : ∃ l : List Ptr,
      LinkedQueue.Chain (fun p => (c.streams p).nextReady) c.readyHead l ∧ l.Nodup ∧
      c.readyTail = l.getLast? ∧ (∀ p, (c.streams p).ready = true ↔ p ∈ l) ∧
      (∀ p ∈ l, (c.streams p).isOpen = true) ∧
      ∀ (ts : List (Nat × ReadAt)) (p : Ptr) (c' : Conn), l[ts.length]? = some p →
        run Conn.turnStep c ts = some c' → Meets Conn.turnStep Conn.turnOk c ts → c'.readyHead = some p := by
  have hinv : Conn.ReadyInv c :=
    run_invariant (I := Conn.ReadyInv) (fun _ _ _ h ho hs => Conn.step_readyInv h ho hs)
      (Conn.create_readyInv limits) hrun hok
  obtain ⟨ht, l, hl⟩ := hinv
  exact ⟨l, hl.represents.chain, hl.represents.nodup, hl.represents.tail_eq,
    hl.represents.queued_iff, hl.all_open,
    fun ts p c' hp hr ho => Conn.round_robin ht hl hp hr ho⟩

/-- A request on stream 0, read, answered and queued. -/
def answerRun : List Op :=
  [.handshakeComplete, .frame (.stream 0 0 (bytes "request") true) 0, .streamConsumed 3 7,
    .answer 3 { head := bytes "answer" }, .streamReady 3]

theorem ready_list_wellFormed_answerRun :
    ∃ c, run Conn.step (Conn.create {}) answerRun = some c ∧ ∃ l : List Ptr,
      LinkedQueue.Chain (fun p => (c.streams p).nextReady) c.readyHead l ∧
      c.readyTail = l.getLast? ∧ ∀ p, (c.streams p).ready = true ↔ p ∈ l := by
  have hsome : (run Conn.step (Conn.create {}) answerRun).isSome = true := by decide
  obtain ⟨c, hc⟩ := Option.isSome_iff_exists.mp hsome
  obtain ⟨l, hchain, -, htail, hflags, -⟩ :=
    ready_list_wellFormed {} answerRun c hc (by decide)
  exact ⟨c, hc, l, hchain, htail, hflags⟩

/-- The peer's STOP_SENDING arrives in the packet of the request: the application resets the
    stream (`on_stop_sending`) before a packet was built. -/
def stopSendingRun : List Op :=
  answerRun ++ [.frame (.stopSending 0 0x10c) 0, .streamReset 3 0x10c]

/-- After it the list still leads to the stream, whose flag is clear. -/
theorem reset_breaks_ready_list : ∃ c, run Conn.step (Conn.create {}) stopSendingRun = some c ∧
      ¬ ∃ l : List Ptr, LinkedQueue.Chain (fun p => (c.streams p).nextReady) c.readyHead l ∧
        ∀ p, (c.streams p).ready = true ↔ p ∈ l := by
  have hlinks : (run Conn.step (Conn.create {}) stopSendingRun).map (fun c =>
      (c.readyHead, (c.streams 3).ready)) = some (some 3, false) := by decide
  obtain ⟨c, hc, hlinks⟩ := Option.map_eq_some_iff.mp hlinks
  obtain ⟨hhead, hflag⟩ := Prod.mk.inj hlinks
  refine ⟨c, hc, ?_⟩
  rintro ⟨l, hchain, hflags⟩
  cases l with
  | nil =>
    have hnone : c.readyHead = none := hchain
    rw [hhead] at hnone
    exact Option.some_ne_none _ hnone
  | cons p l =>
    obtain ⟨hp, -⟩ := hchain
    rw [hhead] at hp
    cases hp
    have := (hflags 3).mpr (.head _)
    rw [hflag] at this
    exact Bool.false_ne_true this

end Agensio.Quic
