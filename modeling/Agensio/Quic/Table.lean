/-
  Agensio.Quic.Table — the stream table of a connection.

  Stream objects are taken from a pool and go back to it.  `TableInv`
  says what every run keeps, whatever the peer and the application do:
  the active streams are distinct, open and the client's, each with an id
  of its own; a pooled one is not active and blank; whatever is open is
  active or one of the application's own three, which are the server's;
  only an open stream has a limit due.

  Main results: `openStream_spec` and `closeStream_spec` (the two
  operations that change the table), `step_table` (every step keeps it).
-/
import Agensio.Quic.View
import Mathlib.Data.List.Nodup

namespace Agensio.Quic

namespace Conn

/-! ## §1. The invariant. -/

/-- What every operation keeps of the table of streams. -/
structure TableInv (c : Conn) : Prop where
  allocated_ge : 3 ≤ c.allocated
  active_nodup : c.active.Nodup
  active_range : ∀ p ∈ c.active, 3 ≤ p ∧ p < c.allocated
  active_open : ∀ p ∈ c.active, (c.streams p).isOpen = true
  active_client : ∀ p ∈ c.active, streamIsClient (c.streams p).id = true
  pool_nodup : c.pool.Nodup
  pool_range : ∀ p ∈ c.pool, 3 ≤ p ∧ p < c.allocated
  pool_idle : ∀ p ∈ c.pool, p ∉ c.active
  pool_blank : ∀ p ∈ c.pool, (c.streams p).highest = 0 ∧ (c.streams p).consumed = 0
  open_listed : ∀ p, (c.streams p).isOpen = true → p ∈ c.active ∨ p ∈ ownStreams
  own_server : ∀ p ∈ ownStreams, (c.streams p).isOpen = true → streamIsClient (c.streams p).id = false
  active_ids : ∀ p ∈ c.active, ∀ q ∈ c.active, (c.streams p).id = (c.streams q).id → p = q
  active_seen : ∀ p ∈ c.active,
    (c.streams p).id / 4 < c.openedCount (streamIsBidi (c.streams p).id)
  credit_open : ∀ p ∈ c.credit, (c.streams p).isOpen = true

theorem own_lt {p : Ptr} (h : p ∈ ownStreams) : p < 3 := by
  have : ∀ q ∈ ownStreams, q < 3 := by decide
  exact this p h

variable {c c' : Conn} {p : Ptr}

theorem TableInv.open_lt (h : TableInv c) (ho : (c.streams p).isOpen = true) : p < c.allocated := by
  rcases h.open_listed p ho with hp | hp
  · exact (h.active_range p hp).2
  · exact Nat.lt_of_lt_of_le (own_lt hp) h.allocated_ge

theorem TableInv.pool_not_own (h : TableInv c) (hp : p ∈ c.pool) : p ∉ ownStreams := by
  intro ho
  exact absurd (own_lt ho) (Nat.not_lt.mpr (h.pool_range p hp).1)

theorem TableInv.active_not_own (h : TableInv c) (hp : p ∈ c.active) : p ∉ ownStreams := by
  intro ho
  exact absurd (own_lt ho) (Nat.not_lt.mpr (h.active_range p hp).1)

theorem TableInv.pool_closed (h : TableInv c) (hp : p ∈ c.pool) : (c.streams p).isOpen = false := by
  by_contra hne
  rcases h.open_listed p (Bool.not_eq_false _ ▸ hne) with ha | ho
  · exact h.pool_idle p hp ha
  · exact h.pool_not_own hp ho

variable {id : Nat}

/-- A client stream that is found is an active one. -/
theorem TableInv.found_active (h : TableInv c) (hc : streamIsClient id = true)
    (hf : c.findStream id = some p) : p ∈ c.active := by
  obtain ⟨hm, ho, hid⟩ := findStream_some hf
  rcases List.mem_append.mp hm with hp | hp
  · exact hp
  have := h.own_server p hp ho
  rw [hid, hc] at this
  simp at this

theorem create_table (limits : Limits) : TableInv (create limits) where
  allocated_ge := Nat.le_refl 3
  active_nodup := List.nodup_nil
  active_range := fun _ hp => absurd hp List.not_mem_nil
  active_open := fun _ hp => absurd hp List.not_mem_nil
  active_client := fun _ hp => absurd hp List.not_mem_nil
  pool_nodup := List.nodup_nil
  pool_range := fun _ hp => absurd hp List.not_mem_nil
  pool_idle := fun _ hp => absurd hp List.not_mem_nil
  pool_blank := fun _ hp => absurd hp List.not_mem_nil
  open_listed := fun _ hp => absurd hp Bool.false_ne_true
  own_server := fun _ _ hp => absurd hp Bool.false_ne_true
  active_ids := fun _ hp => absurd hp List.not_mem_nil
  active_seen := fun _ hp => absurd hp List.not_mem_nil
  credit_open := fun _ hp => absurd hp List.not_mem_nil

/-! ## §2. Operations that leave the table alone. -/

theorem table_of_same (hs : SameReceive c c') (h : TableInv c) : TableInv c' where
  allocated_ge := hs.allocated ▸ h.allocated_ge
  active_nodup := hs.active ▸ h.active_nodup
  active_range := by
    rw [hs.active, hs.allocated]
    exact h.active_range
  active_open := by
    intro q hq
    rw [hs.isOpen]
    exact h.active_open q (hs.active ▸ hq)
  active_client := by
    intro q hq
    rw [hs.id]
    exact h.active_client q (hs.active ▸ hq)
  pool_nodup := hs.pool ▸ h.pool_nodup
  pool_range := by
    rw [hs.pool, hs.allocated]
    exact h.pool_range
  pool_idle := by
    rw [hs.pool, hs.active]
    exact h.pool_idle
  pool_blank := by
    intro q hq
    rw [hs.highest, hs.consumed]
    exact h.pool_blank q (hs.pool ▸ hq)
  open_listed := by
    intro q hq
    rw [hs.isOpen] at hq
    rw [hs.active]
    exact h.open_listed q hq
  own_server := by
    intro q hq ho
    rw [hs.isOpen] at ho
    rw [hs.id]
    exact h.own_server q hq ho
  active_ids := by
    intro q hq r hr he
    rw [hs.active] at hq hr
    rw [hs.id, hs.id] at he
    exact h.active_ids q hq r hr he
  active_seen := by
    intro q hq
    rw [hs.active] at hq
    rw [hs.id]
    exact Nat.lt_of_lt_of_le (h.active_seen q hq) (hs.grows.opened _)
  credit_open := by
    intro q hq
    rw [hs.isOpen]
    exact h.credit_open q (hs.credit hq)

/-- A receive operation works on an open stream, so the pooled ones stay blank. -/
theorem table_of_receive (hr : ReceiveOp p c c') (ho : (c.streams p).isOpen = true)
    (h : TableInv c) : TableInv c' where
  allocated_ge := hr.allocated ▸ h.allocated_ge
  active_nodup := hr.active ▸ h.active_nodup
  active_range := by
    rw [hr.active, hr.allocated]
    exact h.active_range
  active_open := by
    intro q hq
    rw [hr.isOpen]
    exact h.active_open q (hr.active ▸ hq)
  active_client := by
    intro q hq
    rw [hr.id]
    exact h.active_client q (hr.active ▸ hq)
  pool_nodup := hr.pool ▸ h.pool_nodup
  pool_range := by
    rw [hr.pool, hr.allocated]
    exact h.pool_range
  pool_idle := by
    rw [hr.pool, hr.active]
    exact h.pool_idle
  pool_blank := by
    intro q hq
    rw [hr.pool] at hq
    have hne : q ≠ p := by
      rintro rfl
      rw [h.pool_closed hq] at ho
      exact Bool.false_ne_true ho
    have hv := hr.others q hne
    have hh : (c'.streams q).highest = (c.streams q).highest := congrArg StreamView.highest hv
    have hc : (c'.streams q).consumed = (c.streams q).consumed := congrArg StreamView.consumed hv
    rw [hh, hc]
    exact h.pool_blank q hq
  open_listed := by
    intro q hq
    rw [hr.isOpen] at hq
    rw [hr.active]
    exact h.open_listed q hq
  own_server := by
    intro q hq ho
    rw [hr.isOpen] at ho
    rw [hr.id]
    exact h.own_server q hq ho
  active_ids := by
    intro q hq r hm he
    rw [hr.active] at hq hm
    rw [hr.id, hr.id] at he
    exact h.active_ids q hq r hm he
  active_seen := by
    intro q hq
    rw [hr.active] at hq
    rw [hr.id]
    exact Nat.lt_of_lt_of_le (h.active_seen q hq) (hr.grows.opened _)
  credit_open := by
    intro q hq
    rw [hr.isOpen]
    rcases List.mem_cons.mp (hr.credit hq) with rfl | hm
    · exact ho
    · exact h.credit_open q hm

/-- The table does not read the connection's state. -/
theorem table_of_setState (st : State) (h : TableInv c) : TableInv (c.setState st) :=
  ⟨h.allocated_ge, h.active_nodup, h.active_range, h.active_open, h.active_client, h.pool_nodup,
    h.pool_range, h.pool_idle, h.pool_blank, h.open_listed, h.own_server, h.active_ids,
    h.active_seen, h.credit_open⟩

/-- The connection's counters and its closing state are as before. -/
structure SameBooks (c c' : Conn) : Prop where
  closeInfo : c'.closeInfo = c.closeInfo
  limits : c'.limits = c.limits
  dataReceived : c'.dataReceived = c.dataReceived
  dataConsumed : c'.dataConsumed = c.dataConsumed
  ourMaxData : c'.ourMaxData = c.ourMaxData

theorem SameBooks.trans {a b c : Conn} (h : SameBooks a b) (h' : SameBooks b c) : SameBooks a c :=
  ⟨h'.1.trans h.1, h'.2.trans h.2, h'.3.trans h.3, h'.4.trans h.4, h'.5.trans h.5⟩

theorem SameBooks.modify (c : Conn) (p : Ptr) (f : QuicStream → QuicStream) :
    SameBooks c (c.modify p f) := ⟨rfl, rfl, rfl, rfl, rfl⟩

theorem SameBooks.setActive (c : Conn) (ps : List Ptr) : SameBooks c (c.setActive ps) :=
  ⟨rfl, rfl, rfl, rfl, rfl⟩

theorem SameBooks.setPool (c : Conn) (ps : List Ptr) : SameBooks c (c.setPool ps) :=
  ⟨rfl, rfl, rfl, rfl, rfl⟩

theorem SameBooks.of_view (hv : c'.view = c.view) (hi : c'.closeInfo = c.closeInfo) : SameBooks c c' :=
  ⟨hi, congrArg View.limits hv, congrArg View.dataReceived hv, congrArg View.dataConsumed hv,
    congrArg View.ourMaxData hv⟩

/-! ## §3. Opening a stream. -/

/-- The limit the transport parameters announce for a stream of the peer. -/
def initialMaxRecv (limits : Limits) (id : Nat) : Nat :=
  if streamIsBidi id then limits.streamWindow else limits.uniStreamWindow

/-- The stream `p` was taken and opened for `id`: new in the table, blank, all else as before. -/
structure Opened (id : Nat) (p : Ptr) (c c' : Conn) : Prop where
  fresh : p ∉ c.active ∧ p ∉ ownStreams ∧ (c.streams p).isOpen = false
  active : c'.active = c.active ++ [p]
  origin : (c.pool = p :: c'.pool ∧ c'.allocated = c.allocated) ∨
    (c'.pool = c.pool ∧ p = c.allocated ∧ c'.allocated = c.allocated + 1)
  readyHead : c'.readyHead = c.readyHead
  readyTail : c'.readyTail = c.readyTail
  books : SameBooks c c'
  others : ∀ q, q ≠ p → (c'.streams q).view = (c.streams q).view
  isOpen : (c'.streams p).isOpen = true
  id_eq : (c'.streams p).id = id
  blank : (c'.streams p).highest = 0 ∧ (c'.streams p).consumed = 0
  unqueued : (c.streams p).ready = false → (c'.streams p).ready = false
  maxRecv : (c'.streams p).maxRecv = initialMaxRecv c.limits id
  credit : c'.credit ⊆ c.credit
  grows : Grows c c'
  seen : id / 4 < c'.openedCount (streamIsBidi id)

theorem takeStream_pool {rest : List Ptr} (h : c.pool = p :: rest) :
    c.takeStream = ((c.setPool rest).setActive (c.active ++ [p]), p) := by
  unfold takeStream
  rw [h]

theorem takeStream_new (h : c.pool = []) :
    c.takeStream = (((c.setAllocated (c.allocated + 1)).setActive (c.active ++ [c.allocated])).modify
      c.allocated fun _ => {}, c.allocated) := by
  unfold takeStream
  rw [h]

theorem noteOpened_closeInfo (c : Conn) (bidi : Bool) (index : Nat) :
    (c.noteOpened bidi index).closeInfo = c.closeInfo := by
  unfold noteOpened
  cases bidi with
  | true =>
    rw [if_pos rfl]
    split <;> rfl
  | false =>
    rw [if_neg Bool.false_ne_true]
    split <;> rfl

theorem openStream_spec (id : Nat) (h : TableInv c) :
    Opened id (c.openStream id).2 c (c.openStream id).1 := by
  cases hpool : c.pool with
  | cons p rest =>
    have hp : p ∈ c.pool := by rw [hpool]; exact .head _
    have hquiet := quiet_noteOpened ((c.setPool rest).setActive (c.active ++ [p]))
      (streamIsBidi id) (id / 4)
    have hview := hquiet.view
    have hblank := h.pool_blank p hp
    unfold openStream
    rw [takeStream_pool hpool]
    dsimp only
    refine ⟨⟨h.pool_idle p hp, h.pool_not_own hp, h.pool_closed hp⟩, congrArg View.active hview,
      .inl ⟨?_, congrArg View.allocated hview⟩,
      congrArg View.readyHead hview, congrArg View.readyTail hview, ?_, ?_, ?_, ?_, ?_, ?_, ?_, ?_, ?_, ?_⟩
    · rw [hpool]
      exact congrArg (fun v : View => p :: v.pool) hview.symm
    · exact (((SameBooks.setPool c rest).trans (SameBooks.setActive _ _)).trans
        (SameBooks.of_view hview (noteOpened_closeInfo ..))).trans (SameBooks.modify ..)
    · intro q hq
      rw [streams_modify_of_ne _ _ hq]
      exact stream_of_view hview q
    · rw [streams_modify_self]
    · rw [streams_modify_self]
    · rw [streams_modify_self]
      have hh := congrArg StreamView.highest (stream_of_view hview p)
      have hc := congrArg StreamView.consumed (stream_of_view hview p)
      exact ⟨hh.trans hblank.1, hc.trans hblank.2⟩
    · intro hr
      rw [streams_modify_self]
      exact (congrArg StreamView.ready (stream_of_view hview p)).trans hr
    · rw [streams_modify_self]
      rfl
    · have hcredit := hquiet.credit
      rw [credit_setActive, credit_setPool] at hcredit
      rw [credit_modify]
      exact hcredit
    · exact (((Grows.setPool c rest).trans (Grows.setActive ..)).trans hquiet.grows).trans
        (Grows.modify ..)
    · exact Nat.lt_of_lt_of_le (noteOpened_opened ..) ((Grows.modify ..).opened _)
  | nil =>
    have hclosed : (c.streams c.allocated).isOpen = false := by
      by_contra hne
      exact absurd (h.open_lt (Bool.not_eq_false _ ▸ hne)) (Nat.lt_irrefl _)
    have hactive : c.allocated ∉ c.active := fun hm =>
      absurd (h.active_range _ hm).2 (Nat.lt_irrefl _)
    have hown : c.allocated ∉ ownStreams := fun hm =>
      absurd (own_lt hm) (Nat.not_lt.mpr h.allocated_ge)
    have hquiet := quiet_noteOpened (((c.setAllocated (c.allocated + 1)).setActive
      (c.active ++ [c.allocated])).modify c.allocated fun _ => {}) (streamIsBidi id) (id / 4)
    have hview := hquiet.view
    unfold openStream
    rw [takeStream_new hpool]
    dsimp only
    refine ⟨⟨hactive, hown, hclosed⟩, congrArg View.active hview,
      .inr ⟨congrArg View.pool hview, rfl, congrArg View.allocated hview⟩,
      congrArg View.readyHead hview, congrArg View.readyTail hview, ?_, ?_, ?_, ?_, ?_, ?_, ?_, ?_, ?_, ?_⟩
    · have hset : SameBooks c ((c.setAllocated (c.allocated + 1)).setActive
          (c.active ++ [c.allocated])) := ⟨rfl, rfl, rfl, rfl, rfl⟩
      exact ((hset.trans (SameBooks.modify ..)).trans
        (SameBooks.of_view hview (noteOpened_closeInfo ..))).trans (SameBooks.modify ..)
    · intro q hq
      rw [streams_modify_of_ne _ _ hq]
      refine (stream_of_view hview q).trans ?_
      rw [streams_modify_of_ne _ _ hq]
      rfl
    · rw [streams_modify_self]
    · rw [streams_modify_self]
    · have hv := stream_of_view hview c.allocated
      rw [streams_modify_self] at hv
      rw [streams_modify_self]
      exact ⟨congrArg StreamView.highest hv, congrArg StreamView.consumed hv⟩
    · intro _
      have hv := stream_of_view hview c.allocated
      rw [streams_modify_self] at hv
      rw [streams_modify_self]
      exact congrArg StreamView.ready hv
    · rw [streams_modify_self]
      rfl
    · have hcredit := hquiet.credit
      rw [credit_modify, credit_setActive, credit_setAllocated] at hcredit
      rw [credit_modify]
      exact hcredit
    · have htake := ((Grows.setAllocated c (c.allocated + 1)).trans
        (Grows.setActive _ (c.active ++ [c.allocated]))).trans (Grows.modify _ c.allocated fun _ => {})
      exact (htake.trans hquiet.grows).trans (Grows.modify ..)
    · exact Nat.lt_of_lt_of_le (noteOpened_opened ..) ((Grows.modify ..).opened _)

/-- An id that is not found is the id of no active stream. -/
theorem TableInv.id_ne (h : TableInv c) (hf : c.findStream id = none) {q : Ptr}
    (hq : q ∈ c.active) : (c.streams q).id ≠ id := by
  intro he
  unfold findStream at hf
  have := List.find?_eq_none.mp hf q (List.mem_append_left _ hq)
  rw [h.active_open q hq, he] at this
  simp at this

theorem table_of_opened (hc : streamIsClient id = true) (hf : c.findStream id = none)
    (ho : Opened id p c c') (h : TableInv c) : TableInv c' := by
  have hne : ∀ q, q ∈ c.active ∨ q ∈ ownStreams → q ≠ p := by
    rintro q hq rfl
    exact hq.elim ho.fresh.1 ho.fresh.2.1
  have hopen : ∀ q, q ≠ p → (c'.streams q).isOpen = (c.streams q).isOpen := fun q hq =>
    congrArg StreamView.isOpen (ho.others q hq)
  have hid : ∀ q, q ≠ p → (c'.streams q).id = (c.streams q).id := fun q hq =>
    congrArg StreamView.id (ho.others q hq)
  -- the two origins agree on what the rest needs
  have hle : c.allocated ≤ c'.allocated := by
    rcases ho.origin with ⟨-, ha⟩ | ⟨-, -, ha⟩ <;> omega
  have hlt : 3 ≤ p ∧ p < c'.allocated := by
    rcases ho.origin with ⟨hp, ha⟩ | ⟨-, hp, ha⟩
    · rw [ha]
      exact h.pool_range p (by rw [hp]; exact .head _)
    rw [hp, ha]
    exact ⟨h.allocated_ge, Nat.lt_succ_self _⟩
  have hpool : ∀ q ∈ c'.pool, q ∈ c.pool ∧ q ≠ p := by
    intro q hq
    rcases ho.origin with ⟨hp, -⟩ | ⟨hp, he, -⟩
    · have hnd := h.pool_nodup
      rw [hp] at hnd
      refine ⟨by rw [hp]; exact .tail _ hq, ?_⟩
      rintro rfl
      exact (List.nodup_cons.mp hnd).1 hq
    · rw [hp] at hq
      refine ⟨hq, ?_⟩
      rw [he]
      exact Nat.ne_of_lt (h.pool_range q hq).2
  have hmem : ∀ q ∈ c'.active, (q ∈ c.active ∧ q ≠ p) ∨ q = p := by
    intro q hq
    rw [ho.active] at hq
    rcases List.mem_append.mp hq with hq | hq
    · exact .inl ⟨hq, hne q (.inl hq)⟩
    · exact .inr (List.mem_singleton.mp hq)
  refine ⟨Nat.le_trans h.allocated_ge hle, ?_, ?_, ?_, ?_, ?_, ?_, ?_, ?_, ?_, ?_, ?_, ?_, ?_⟩
  · rw [ho.active]
    rw [List.nodup_append]
    refine ⟨h.active_nodup, List.nodup_singleton p, ?_⟩
    rintro q hq _ hm rfl
    exact hne q (.inl hq) (List.mem_singleton.mp hm)
  · intro q hq
    rw [ho.active] at hq
    rcases List.mem_append.mp hq with hq | hq
    · exact ⟨(h.active_range q hq).1, Nat.lt_of_lt_of_le (h.active_range q hq).2 hle⟩
    rw [List.mem_singleton.mp hq]
    exact hlt
  · intro q hq
    rw [ho.active] at hq
    rcases List.mem_append.mp hq with hq | hq
    · rw [hopen q (hne q (.inl hq))]
      exact h.active_open q hq
    rw [List.mem_singleton.mp hq]
    exact ho.isOpen
  · intro q hq
    rw [ho.active] at hq
    rcases List.mem_append.mp hq with hq | hq
    · rw [hid q (hne q (.inl hq))]
      exact h.active_client q hq
    rw [List.mem_singleton.mp hq, ho.id_eq]
    exact hc
  · rcases ho.origin with ⟨hp, -⟩ | ⟨hp, -, -⟩
    · have hnd := h.pool_nodup
      rw [hp] at hnd
      exact (List.nodup_cons.mp hnd).2
    · rw [hp]
      exact h.pool_nodup
  · intro q hq
    have hr := h.pool_range q (hpool q hq).1
    exact ⟨hr.1, Nat.lt_of_lt_of_le hr.2 hle⟩
  · intro q hq hm
    rw [ho.active] at hm
    rcases List.mem_append.mp hm with hm | hm
    · exact h.pool_idle q (hpool q hq).1 hm
    · exact (hpool q hq).2 (List.mem_singleton.mp hm)
  · intro q hq
    have hv := ho.others q (hpool q hq).2
    have hb := h.pool_blank q (hpool q hq).1
    exact ⟨(congrArg StreamView.highest hv).trans hb.1, (congrArg StreamView.consumed hv).trans hb.2⟩
  · intro q hq
    rw [ho.active]
    by_cases hqp : q = p
    · exact .inl (by simp [hqp])
    rw [hopen q hqp] at hq
    exact (h.open_listed q hq).imp (fun hm => List.mem_append_left _ hm) (fun hm => hm)
  · intro q hq hqo
    have hqp := hne q (.inr hq)
    rw [hopen q hqp] at hqo
    rw [hid q hqp]
    exact h.own_server q hq hqo
  · intro q hq r hr he
    rcases hmem q hq with ⟨hq, hqp⟩ | rfl
    · rcases hmem r hr with ⟨hr, hrp⟩ | rfl
      · rw [hid q hqp, hid r hrp] at he
        exact h.active_ids q hq r hr he
      rw [hid q hqp, ho.id_eq] at he
      exact absurd he (h.id_ne hf hq)
    · rcases hmem r hr with ⟨hr, hrp⟩ | rfl
      · rw [hid r hrp, ho.id_eq] at he
        exact absurd he.symm (h.id_ne hf hr)
      · rfl
  · intro q hq
    rcases hmem q hq with ⟨hq, hqp⟩ | rfl
    · rw [hid q hqp]
      exact Nat.lt_of_lt_of_le (h.active_seen q hq) (ho.grows.opened _)
    rw [ho.id_eq]
    exact ho.seen
  · intro q hq
    have hqo := h.credit_open q (ho.credit hq)
    have hqp : q ≠ p := by
      rintro rfl
      rw [ho.fresh.2.2] at hqo
      exact Bool.false_ne_true hqo
    rw [hopen q hqp]
    exact hqo

/-- One of the application's own streams opens with a server id. -/
theorem table_of_openOwn {head : Bytes} {trim : Bool} (hp : p ∈ ownStreams) (h : TableInv c) :
    TableInv (c.openOwn p head trim) := by
  rcases openOwn_cases c p head trim with hq | ⟨k, id, maxSend, hk, hid, hq⟩
  · exact table_of_same (SameReceive.of_quiet hq) h
  have hkt : TableInv k := table_of_same (SameReceive.of_quiet hk) h
  refine table_of_same (SameReceive.of_quiet hq) ?_
  have hother : ∀ q, q ≠ p → ((k.modify p fun s =>
      { s with id := id, isOpen := true, maxSend := maxSend }).streams q) = k.streams q :=
    fun q hqp => streams_modify_of_ne k _ hqp
  have hact : ∀ q ∈ k.active, q ≠ p := by
    rintro q hm rfl
    exact hkt.active_not_own hm hp
  have hpl : ∀ q ∈ k.pool, q ≠ p := by
    rintro q hm rfl
    exact hkt.pool_not_own hm hp
  refine ⟨hkt.allocated_ge, hkt.active_nodup, hkt.active_range, ?_, ?_, hkt.pool_nodup,
    hkt.pool_range, hkt.pool_idle, ?_, ?_, ?_, ?_, ?_, ?_⟩
  · intro q hm
    rw [hother q (hact q hm)]
    exact hkt.active_open q hm
  · intro q hm
    rw [hother q (hact q hm)]
    exact hkt.active_client q hm
  · intro q hm
    rw [hother q (hpl q hm)]
    exact hkt.pool_blank q hm
  · intro q ho
    by_cases hqp : q = p
    · exact .inr (hqp ▸ hp)
    rw [hother q hqp] at ho
    exact hkt.open_listed q ho
  · intro q hm ho
    by_cases hqp : q = p
    · rw [hqp, streams_modify_self]
      exact hid
    rw [hother q hqp] at ho ⊢
    exact hkt.own_server q hm ho
  · intro q hm r hr he
    rw [hother q (hact q hm), hother r (hact r hr)] at he
    exact hkt.active_ids q hm r hr he
  · intro q hm
    rw [hother q (hact q hm)]
    exact hkt.active_seen q hm
  · intro q hm
    by_cases hqp : q = p
    · rw [hqp, streams_modify_self]
    rw [hother q hqp]
    exact hkt.credit_open q hm

/-! ## §4. Closing a stream. -/

theorem swapRemove_perm {active : List Ptr} (hp : p ∈ active) (hnd : active.Nodup) :
    (swapRemove active p).Perm (active.erase p) := by
  obtain ⟨l₁, l₂, rfl⟩ := List.append_of_mem hp
  have hp₁ : p ∉ l₁ := fun hm =>
    (List.nodup_append.mp hnd).2.2 p hm p (List.mem_cons_self ..) rfl
  have hidx : (l₁ ++ p :: l₂).idxOf p = l₁.length := by
    rw [List.idxOf_append_of_notMem hp₁]
    simp
  have herase : (l₁ ++ p :: l₂).erase p = l₁ ++ l₂ := by
    rw [List.erase_append_right _ hp₁]
    simp
  unfold swapRemove
  rw [hidx, herase, List.set_append_right _ _ (Nat.le_refl _), Nat.sub_self]
  rcases List.eq_nil_or_concat' l₂ with rfl | ⟨l₂', e, rfl⟩
  · simp
  have hlast : (l₁ ++ p :: (l₂' ++ [e])).getLast?.getD p = e := by
    simp [List.getLast?_append, List.getLast?_cons]
  rw [hlast, List.set_cons_zero, ← List.cons_append, ← List.append_assoc, List.dropLast_concat]
  exact (List.perm_middle.trans (List.perm_append_singleton e (l₁ ++ l₂')).symm).trans
    (List.Perm.of_eq (by simp))

/-- The stream `p` was closed and released: out of the table and blank, all else as before but
    for the links. -/
structure Closed (p : Ptr) (c c' : Conn) : Prop where
  active : c'.active.Perm (c.active.erase p)
  pool : c'.pool = c.pool ∨ c'.pool = p :: c.pool
  allocated : c'.allocated = c.allocated
  books : SameBooks c c'
  isOpen_others : ∀ q, q ≠ p → (c'.streams q).isOpen = (c.streams q).isOpen
  id_others : ∀ q, q ≠ p → (c'.streams q).id = (c.streams q).id
  highest_others : ∀ q, q ≠ p → (c'.streams q).highest = (c.streams q).highest
  consumed_others : ∀ q, q ≠ p → (c'.streams q).consumed = (c.streams q).consumed
  maxRecv_others : ∀ q, q ≠ p → (c'.streams q).maxRecv = (c.streams q).maxRecv
  isOpen : (c'.streams p).isOpen = false
  blank : (c'.streams p).highest = 0 ∧ (c'.streams p).consumed = 0
  credit : c'.credit ⊆ c.credit
  grows : Grows c c'

/-- `release`, for a stream of the table. -/
theorem release_eq (hp : p ∈ c.active) : ∃ ps, (ps = c.pool ∨ ps = p :: c.pool) ∧ c.release p =
      ((c.setActive (swapRemove c.active p)).modify p QuicStream.resetQuic).setPool ps := by
  unfold release
  rw [if_pos hp]
  split
  · exact ⟨p :: c.pool, .inr rfl, rfl⟩
  · exact ⟨c.pool, .inl rfl, rfl⟩

theorem release_spec (hp : p ∈ c.active) (hnd : c.active.Nodup) : Closed p c (c.release p) := by
  obtain ⟨ps, hps, he⟩ := release_eq hp
  have hother : ∀ q, q ≠ p → (c.release p).streams q = c.streams q := by
    intro q hq
    rw [he]
    exact streams_modify_of_ne (c.setActive _) QuicStream.resetQuic hq
  have hself : (c.release p).streams p = (c.streams p).resetQuic := by
    rw [he]
    exact streams_modify_self (c.setActive _) p QuicStream.resetQuic
  refine ⟨?_, ?_, ?_, ?_, ?_, ?_, ?_, ?_, ?_, ?_, ?_, ?_, ?_⟩
  · rw [he]
    exact swapRemove_perm hp hnd
  · rw [he]
    exact hps
  · rw [he]
    rfl
  · rw [he]
    exact ((SameBooks.setActive c _).trans (SameBooks.modify ..)).trans (SameBooks.setPool ..)
  · exact fun q hq => congrArg QuicStream.isOpen (hother q hq)
  · exact fun q hq => congrArg QuicStream.id (hother q hq)
  · exact fun q hq => congrArg QuicStream.highest (hother q hq)
  · exact fun q hq => congrArg QuicStream.consumed (hother q hq)
  · exact fun q hq => congrArg QuicStream.maxRecv (hother q hq)
  · rw [hself]
    rfl
  · rw [hself]
    exact ⟨rfl, rfl⟩
  · rw [he, credit_setPool, credit_modify, credit_setActive]
    exact fun _ hm => hm
  · rw [he]
    exact ((Grows.setActive c _).trans (Grows.modify ..)).trans (Grows.setPool ..)

theorem closeStream_spec (hp : p ∈ c.active) (h : TableInv c) : Closed p c (c.closeStream p) ∧
    p ∉ (c.closeStream p).credit ∧
    (c.closeStream p).knownClosed (streamIsBidi (c.streams p).id) ((c.streams p).id / 4) = true := by
  obtain ⟨k, hq, hinfo, hgone, hknown, he⟩ := streamClosed_effect c p
  have hlink := dequeue_linkOnly c p
  have hsame : SameReceive c k := (SameReceive.of_linkOnly hlink).trans (SameReceive.of_quiet hq)
  have hinfo' : k.closeInfo = c.closeInfo := by
    rw [hinfo]
    obtain ⟨_, _, _, _, hd⟩ := hlink
    rw [hd]
    rfl
  have hbooks : SameBooks c k :=
    ⟨hinfo', hsame.limits, hsame.dataReceived, hsame.dataConsumed, hsame.ourMaxData⟩
  -- the stream is marked closed first; only `p` changes
  have hother : ∀ q, q ≠ p → (c.streamClosed p).streams q = k.streams q := by
    intro q hqp
    rw [he]
    exact streams_modify_of_ne k _ hqp
  have hact : (c.streamClosed p).active = c.active := by
    rw [he]
    exact hsame.active
  have hpool : (c.streamClosed p).pool = c.pool := by
    rw [he]
    exact hsame.pool
  have halloc : (c.streamClosed p).allocated = c.allocated := by
    rw [he]
    exact hsame.allocated
  have hbooks' : SameBooks c (c.streamClosed p) := by
    rw [he]
    exact hbooks.trans (SameBooks.modify ..)
  have hrel : Closed p (c.streamClosed p) ((c.streamClosed p).release p) := by
    refine release_spec ?_ ?_
    · rw [hact]
      exact hp
    · rw [hact]
      exact h.active_nodup
  have hgrows : Grows k (c.streamClosed p) := by
    rw [he]
    exact Grows.modify ..
  have hcredit : (c.streamClosed p).credit = k.credit := by
    rw [he]
    rfl
  have hknown' : k.knownClosed (streamIsBidi (c.streams p).id) ((c.streams p).id / 4) = true :=
    hknown _ rfl (h.active_client p hp) (Nat.lt_of_lt_of_le (h.active_seen p hp)
      ((SameReceive.of_linkOnly hlink).grows.opened _))
  unfold closeStream
  refine ⟨⟨?_, ?_, hrel.allocated.trans halloc, hbooks'.trans hrel.books, ?_, ?_, ?_, ?_, ?_,
    hrel.isOpen, hrel.blank, ?_, (hsame.grows.trans hgrows).trans hrel.grows⟩,
    fun hm => hgone (hcredit ▸ hrel.credit hm),
    hrel.grows.closed _ _ (hgrows.closed _ _ hknown')⟩
  · have := hrel.active
    rwa [hact] at this
  · have := hrel.pool
    rwa [hpool] at this
  · intro q hqp
    rw [hrel.isOpen_others q hqp, hother q hqp]
    exact hsame.isOpen q
  · intro q hqp
    rw [hrel.id_others q hqp, hother q hqp]
    exact hsame.id q
  · intro q hqp
    rw [hrel.highest_others q hqp, hother q hqp]
    exact hsame.highest q
  · intro q hqp
    rw [hrel.consumed_others q hqp, hother q hqp]
    exact hsame.consumed q
  · intro q hqp
    rw [hrel.maxRecv_others q hqp, hother q hqp]
    exact hsame.maxRecv q
  · exact fun _ hm => hsame.credit (hcredit ▸ hrel.credit hm)

theorem table_of_closed (hp : p ∈ c.active) (hc : Closed p c c') (hcr : p ∉ c'.credit)
    (h : TableInv c) : TableInv c' := by
  have hmem : ∀ q, q ∈ c'.active ↔ q ∈ c.active ∧ q ≠ p := by
    intro q
    rw [hc.active.mem_iff, h.active_nodup.mem_erase_iff]
    exact and_comm
  have hpool : ∀ q ∈ c'.pool, q = p ∨ q ∈ c.pool := by
    intro q hq
    rcases hc.pool with he | he
    · exact .inr (he ▸ hq)
    rw [he] at hq
    exact List.mem_cons.mp hq
  have hnotin : p ∉ c.pool := fun hm => h.pool_idle p hm hp
  refine ⟨hc.allocated ▸ h.allocated_ge, ?_, ?_, ?_, ?_, ?_, ?_, ?_, ?_, ?_, ?_, ?_, ?_, ?_⟩
  · exact (hc.active.nodup_iff).mpr (h.active_nodup.erase p)
  · intro q hq
    rw [hc.allocated]
    exact h.active_range q ((hmem q).mp hq).1
  · intro q hq
    obtain ⟨hq, hqp⟩ := (hmem q).mp hq
    rw [hc.isOpen_others q hqp]
    exact h.active_open q hq
  · intro q hq
    obtain ⟨hq, hqp⟩ := (hmem q).mp hq
    rw [hc.id_others q hqp]
    exact h.active_client q hq
  · rcases hc.pool with he | he
    · rw [he]
      exact h.pool_nodup
    rw [he]
    exact List.nodup_cons.mpr ⟨hnotin, h.pool_nodup⟩
  · intro q hq
    rw [hc.allocated]
    rcases hpool q hq with rfl | hq
    · exact h.active_range q hp
    · exact h.pool_range q hq
  · intro q hq hm
    obtain ⟨hm, hqp⟩ := (hmem q).mp hm
    exact (hpool q hq).elim hqp fun hq => h.pool_idle q hq hm
  · intro q hq
    by_cases hqp : q = p
    · rw [hqp]
      exact hc.blank
    rw [hc.highest_others q hqp, hc.consumed_others q hqp]
    exact h.pool_blank q ((hpool q hq).resolve_left hqp)
  · intro q ho
    by_cases hqp : q = p
    · rw [hqp, hc.isOpen] at ho
      cases ho
    rw [hc.isOpen_others q hqp] at ho
    exact (h.open_listed q ho).imp (fun hm => (hmem q).mpr ⟨hm, hqp⟩) (fun hm => hm)
  · intro q hq ho
    have hqp : q ≠ p := by
      rintro rfl
      exact h.active_not_own hp hq
    rw [hc.isOpen_others q hqp] at ho
    rw [hc.id_others q hqp]
    exact h.own_server q hq ho
  · intro q hq r hr he
    obtain ⟨hq, hqp⟩ := (hmem q).mp hq
    obtain ⟨hr, hrp⟩ := (hmem r).mp hr
    rw [hc.id_others q hqp, hc.id_others r hrp] at he
    exact h.active_ids q hq r hr he
  · intro q hq
    obtain ⟨hq, hqp⟩ := (hmem q).mp hq
    rw [hc.id_others q hqp]
    exact Nat.lt_of_lt_of_le (h.active_seen q hq) (hc.grows.opened _)
  · intro q hq
    have hqp : q ≠ p := by
      rintro rfl
      exact hcr hq
    rw [hc.isOpen_others q hqp]
    exact h.credit_open q (hc.credit hq)

theorem table_of_closeStream (hp : p ∈ c.active) (h : TableInv c) : TableInv (c.closeStream p) := by
  obtain ⟨hc, hcr, -⟩ := closeStream_spec hp h
  exact table_of_closed hp hc hcr h

/-! ## §5. Every step. -/

/-- The stream a frame is for is open, and active when its id is the client's. -/
theorem table_of_found {k : Conn} (hf : Found c id k p) (h : TableInv c) :
    TableInv k ∧ (k.streams p).isOpen = true ∧ (streamIsClient id = true → p ∈ k.active) := by
  cases hf with
  | found hn hf =>
    have hk := table_of_same (SameReceive.of_quiet hn.quiet) h
    exact ⟨hk, (findStream_some hf).2.1, fun hc => hk.found_active hc hf⟩
  | opened hn hc hf _ _ =>
    have hk := table_of_same (SameReceive.of_quiet hn.quiet) h
    have hspec := openStream_spec id hk
    refine ⟨table_of_opened hc hf hspec hk, hspec.isOpen, fun _ => ?_⟩
    rw [hspec.active]
    exact List.mem_append_right _ (List.mem_singleton.mpr rfl)

theorem table_of_frame {f : Frame} (he : FrameEffect c f c') (h : TableInv c) : TableInv c' := by
  cases he with
  | quiet hq => exact table_of_same (SameReceive.of_quiet hq) h
  | wake hq =>
    exact table_of_same ((SameReceive.of_quiet hq).trans (wakeBlocked_sameReceive _)) h
  | drain => exact table_of_setState .draining h
  | touch hf hq => exact table_of_same (SameReceive.of_quiet hq) (table_of_found hf h).1
  | queue hf hq =>
    exact table_of_same ((SameReceive.of_quiet hq).trans
      (SameReceive.of_linkOnly (enqueue_linkOnly ..))) (table_of_found hf h).1
  | reset _ hf =>
    obtain ⟨hk, ho, -⟩ := table_of_found hf h
    exact table_of_receive ((receive_walk _).applyReset ..) ho hk
  | data _ hf =>
    obtain ⟨hk, ho, -⟩ := table_of_found hf h
    exact table_of_receive ((receive_walk _).applyStreamFrame ..) ho hk

theorem table_of_loss (he : LossEffect c c') (h : TableInv c) : TableInv c' := by
  cases he with
  | quiet hq => exact table_of_same (SameReceive.of_quiet hq) h
  | queue hq =>
    exact table_of_same ((SameReceive.of_quiet hq).trans
      (SameReceive.of_linkOnly (enqueue_linkOnly ..))) h
  | grant ho => exact table_of_receive (grant_receive ..) ho h

theorem step_table {op : Op} (h : TableInv c) (hs : c.step op = some c') : TableInv c' := by
  cases step_effect hs with
  | quiet hq => exact table_of_same (SameReceive.of_quiet hq) h
  | establish _ => exact table_of_setState .established h
  | finish _ => exact table_of_setState .closed h
  | openOwn hp _ => exact table_of_openOwn hp h
  | ready => exact table_of_same (SameReceive.of_linkOnly (enqueue_linkOnly ..)) h
  | consumed _ ho _ => exact table_of_receive (streamConsumed_receive ..) ho h
  | window ho => exact table_of_receive (streamWindow_receive ..) ho h
  | reset _ => exact table_of_same (streamReset_sameReceive ..) h
  | closeStream hp _ => exact table_of_closeStream hp h
  | frame _ he => exact table_of_frame he h
  | lost _ he => exact table_of_loss he h
  | unqueue hq =>
    exact table_of_same ((SameReceive.of_quiet hq).trans
      (SameReceive.of_linkOnly (dequeue_linkOnly ..))) h
  | turn he => exact table_of_same (streamEffect_sameReceive he) h

end Conn

end Agensio.Quic
