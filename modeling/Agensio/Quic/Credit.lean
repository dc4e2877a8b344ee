/-
  Agensio.Quic.Credit — the connection's receive window.

  `data_received_` is charged by STREAM frames and by the final size of a
  RESET_STREAM; `data_consumed_` is credited by `stream_consumed` ALONE.
  So a stream that is closed with bytes nobody consumed takes them along,
  and a RESET_STREAM, which is not checked against the connection's
  window, can be charged beyond it.

  Main results:
    * `credit_conserved` — in every run in which each stream is closed
      with all its bytes consumed, charged minus credited is what the
      open client streams hold;
    * `window_respected` — in every run in which each final size of a
      RESET_STREAM fits in the window, what was received stays within it
      or the connection failed with FLOW_CONTROL_ERROR;
    * `reset_leaks_credit`, `reset_exceeds_window` — a run each that
      breaks the condition and the property.
-/
import Agensio.Quic.Table
import Mathlib.Algebra.BigOperators.Group.List.Basic
import Mathlib.Algebra.Order.Ring.Int
import Mathlib.Tactic.Ring

namespace Agensio.Quic

open Agensio.Lib

namespace Conn

/-! ## §1. What the books say. -/

/-- The streams the peer opened that are open now, as `for_each_stream` meets them. -/
def openClientStreams (c : Conn) : List Ptr :=
  (c.active ++ ownStreams).filter fun p => (c.streams p).isOpen && streamIsClient (c.streams p).id

/-- What a stream received and the application did not consume. -/
def holding (c : Conn) (p : Ptr) : ℤ := ((c.streams p).highest : ℤ) - (c.streams p).consumed

/-- What the open client streams hold together. -/
def heldBytes (c : Conn) : ℤ := (c.openClientStreams.map c.holding).sum

/-- The connection is closing, or has closed. -/
def closingOrClosed (c : Conn) : Bool := c.state == .closing || c.state == .closed

/-- The connection was failed with FLOW_CONTROL_ERROR. -/
def flowFailed (c : Conn) : Prop :=
  c.closingOrClosed = true ∧ c.closeApp = false ∧ c.closeCode = errFlowControl

variable {c c' : Conn} {p : Ptr}

theorem TableInv.openClientStreams_eq (h : TableInv c) : c.openClientStreams = c.active := by
  have hact : c.active.filter (fun p => (c.streams p).isOpen && streamIsClient (c.streams p).id) =
      c.active := by
    rw [List.filter_eq_self]
    intro q hq
    rw [h.active_open q hq, h.active_client q hq]
    rfl
  have hown : ownStreams.filter (fun p => (c.streams p).isOpen && streamIsClient (c.streams p).id) =
      [] := by
    rw [List.filter_eq_nil_iff]
    intro q hq hc
    rw [Bool.and_eq_true] at hc
    rw [h.own_server q hq hc.1] at hc
    exact Bool.false_ne_true hc.2
  unfold openClientStreams
  rw [List.filter_append, hact, hown, List.append_nil]

theorem TableInv.heldBytes_eq (h : TableInv c) : c.heldBytes = (c.active.map c.holding).sum := by
  unfold heldBytes
  rw [h.openClientStreams_eq]

theorem holding_congr {q : Ptr} (hh : (c'.streams q).highest = (c.streams q).highest)
    (hc : (c'.streams q).consumed = (c.streams q).consumed) : c'.holding q = c.holding q := by
  unfold holding
  rw [hh, hc]

/-- One stream of the table holds more or less, the others hold what they held. -/
theorem sum_holding_change {l : List Ptr} {d : ℤ} (hp : p ∈ l) (hnd : l.Nodup)
    (hself : c'.holding p = c.holding p + d) (hothers : ∀ q, q ≠ p → c'.holding q = c.holding q) :
    (l.map c'.holding).sum = (l.map c.holding).sum + d := by
  have hrest : (l.erase p).map c'.holding = (l.erase p).map c.holding := by
    refine List.map_congr_left fun q hq => hothers q ?_
    rintro rfl
    exact hnd.not_mem_erase hq
  have h' := List.sum_map_erase c'.holding hp
  have h := List.sum_map_erase c.holding hp
  rw [hrest, hself] at h'
  rw [← h', ← h]
  ring

/-! ## §2. What the receive operations do to the books. -/

/-- `n` bytes are charged to the stream and to the connection. -/
structure Charged (p : Ptr) (n : Nat) (c c' : Conn) : Prop where
  op : ReceiveOp p c c'
  closeInfo : c'.closeInfo = c.closeInfo
  dataReceived : c'.dataReceived = c.dataReceived + n
  dataConsumed : c'.dataConsumed = c.dataConsumed
  ourMaxData : c'.ourMaxData = c.ourMaxData
  highest : (c'.streams p).highest = (c.streams p).highest + n
  consumed : (c'.streams p).consumed = (c.streams p).consumed

/-- `n` bytes are consumed and credited; the window may move with them. -/
structure Credited (p : Ptr) (n : Nat) (c c' : Conn) : Prop where
  op : ReceiveOp p c c'
  closeInfo : c'.closeInfo = c.closeInfo
  dataReceived : c'.dataReceived = c.dataReceived
  dataConsumed : c'.dataConsumed = c.dataConsumed + n
  ourMaxData : c'.ourMaxData = c.ourMaxData ∨ c'.ourMaxData = c.dataConsumed + n + c.limits.maxData
  highest : (c'.streams p).highest = (c.streams p).highest
  consumed : (c'.streams p).consumed = (c.streams p).consumed + n

theorem Charged.of_quiet (hq : Quiet c c') (hi : c'.closeInfo = c.closeInfo) :
    Charged p 0 c c' where
  op := ReceiveOp.of_quiet p hq
  closeInfo := hi
  dataReceived := congrArg View.dataReceived hq.view
  dataConsumed := congrArg View.dataConsumed hq.view
  ourMaxData := congrArg View.ourMaxData hq.view
  highest := congrArg StreamView.highest (stream_of_view hq.view p)
  consumed := congrArg StreamView.consumed (stream_of_view hq.view p)

variable {n id : Nat} {k : Conn}

theorem Charged.trans {m : Nat} {a b c : Conn} (h : Charged p m a b) (h' : Charged p n b c) :
    Charged p (m + n) a c where
  op := h.op.trans h'.op
  closeInfo := h'.closeInfo.trans h.closeInfo
  dataReceived := by
    rw [h'.dataReceived, h.dataReceived]
    omega
  dataConsumed := h'.dataConsumed.trans h.dataConsumed
  ourMaxData := h'.ourMaxData.trans h.ourMaxData
  highest := by
    rw [h'.highest, h.highest]
    omega
  consumed := h'.consumed.trans h.consumed

theorem Credited.charged {a b c : Conn} (h : Credited p n a b) (h' : Charged p 0 b c) :
    Credited p n a c where
  op := h.op.trans h'.op
  closeInfo := h'.closeInfo.trans h.closeInfo
  dataReceived := h'.dataReceived.trans h.dataReceived
  dataConsumed := h'.dataConsumed.trans h.dataConsumed
  ourMaxData := by
    rw [h'.ourMaxData]
    exact h.ourMaxData
  highest := h'.highest.trans h.highest
  consumed := h'.consumed.trans h.consumed

theorem grant_charged (c : Conn) (p : Ptr) (maxRecv : Nat) : Charged p 0 c (c.grant p maxRecv) := by
  have hop := grant_receive c p maxRecv
  obtain ⟨ps, -, he⟩ := grant_eq c p maxRecv
  refine ⟨hop, ?_, ?_, ?_, ?_, ?_, ?_⟩
  · rw [he]
    rfl
  · rw [he]
    rfl
  · rw [he]
    rfl
  · rw [he]
    rfl
  · rw [streams_grant]
    rfl
  · rw [streams_grant]
    rfl

theorem streamWindow_charged (c : Conn) (p : Ptr) (window : Nat) :
    Charged p 0 c (c.streamWindow p window) := by
  have hset : Charged p 0 c (c.modify p fun s => { s with window := window }) :=
    Charged.of_quiet (Quiet.modify c p _ rfl) rfl
  unfold streamWindow
  dsimp only
  split
  · exact hset.trans (grant_charged _ p _)
  · exact hset

theorem creditConnection_books (c : Conn) (n : Nat) : (c.creditConnection n).streams = c.streams ∧
    (c.creditConnection n).closeInfo = c.closeInfo ∧ (c.creditConnection n).dataReceived = c.dataReceived ∧
    (c.creditConnection n).dataConsumed = c.dataConsumed + n ∧
    ((c.creditConnection n).ourMaxData = c.ourMaxData ∨
      (c.creditConnection n).ourMaxData = c.dataConsumed + n + c.limits.maxData) := by
  unfold creditConnection
  dsimp only
  split
  · exact ⟨rfl, rfl, rfl, rfl, .inr rfl⟩
  · exact ⟨rfl, rfl, rfl, rfl, .inl rfl⟩

theorem highest_consume (s : QuicStream) (n : Nat) : (s.consume n).highest = s.highest := by
  unfold QuicStream.consume
  split <;> rfl

theorem streamConsumed_credited (c : Conn) (p : Ptr) (n : Nat) : Credited p n c (c.streamConsumed p n) := by
  have hop := (consume_receive c p n).trans
    ((receive_walk p).apart (apart_creditConnection (c.modify p fun s => s.consume n) n))
  obtain ⟨hstreams, hinfo, hrecv, hcons, hmax⟩ :=
    creditConnection_books (c.modify p fun s => s.consume n) n
  have hbase : Credited p n c ((c.modify p fun s => s.consume n).creditConnection n) := by
    refine ⟨hop, hinfo, hrecv, hcons, hmax, ?_, ?_⟩
    · rw [hstreams, streams_modify_self]
      exact highest_consume _ n
    · rw [hstreams, streams_modify_self]
      exact QuicStream.consumed_consume _ n
  unfold streamConsumed
  dsimp only
  split
  · exact hbase.charged (grant_charged _ p _)
  · exact hbase

/-- What a frame that carries bytes can do to the books: it is refused, it is charged, or it was
    charged beyond the window and the connection failed. -/
inductive ChargeEffect (p : Ptr) (fits : Nat → Prop) (c : Conn) : Conn → Prop where
  | refused {c' : Conn} (hq : Quiet c c') : ChargeEffect p fits c c'
  | charged {c' : Conn} {n : Nat} (hn : fits n) (hc : Charged p n c c') : ChargeEffect p fits c c'
  | overrun {c' : Conn} (hr : ReceiveOp p c c') (hf : c'.flowFailed)
      (hm : c'.ourMaxData = c.ourMaxData) (hc : c'.dataConsumed = c.dataConsumed) :
      ChargeEffect p fits c c'

theorem storeData_charged (c : Conn) (p : Ptr) (offset : Nat) (data : Bytes) :
    Charged p 0 c (c.storeData p offset data) := by
  refine Charged.of_quiet (quiet_storeData c p offset data) ?_
  unfold storeData
  split
  · rfl
  · split <;> rfl

/-- Raising `highest` charges the difference. -/
theorem raise_charged (c : Conn) (p : Ptr) (f : QuicStream → QuicStream) {top : Nat}
    (hle : (c.streams p).highest ≤ top) (ht : (f (c.streams p)).highest = top)
    (hc : (f (c.streams p)).consumed = (c.streams p).consumed)
    (hop : ReceiveOp p (c.addReceived (top - (c.streams p).highest))
      ((c.addReceived (top - (c.streams p).highest)).modify p f)) : Charged p (top - (c.streams p).highest) c
      ((c.addReceived (top - (c.streams p).highest)).modify p f) := by
  refine ⟨((receive_walk p).apart (apart_addReceived c _)).trans hop, rfl, rfl, rfl, rfl, ?_, ?_⟩
  · rw [streams_modify_self]
    show (f (c.streams p)).highest = _
    rw [ht]
    omega
  · rw [streams_modify_self]
    exact hc

theorem chargeData_effect (c : Conn) (p : Ptr) (f : Frame) (offset : Nat) (data : Bytes)
    (ha : c.ended = false) : ChargeEffect p (fun n => n = 0 ∨ c.dataReceived + n ≤ c.ourMaxData) c
      (c.chargeData p f offset data) := by
  have hop : ReceiveOp p c (c.chargeData p f offset data) := (receive_walk p).chargeData f offset data
  unfold chargeData at hop ⊢
  by_cases hgt : offset + data.length > (c.streams p).highest
  · rw [if_pos hgt] at hop ⊢
    by_cases hwin : (c.addReceived (offset + data.length - (c.streams p).highest)).dataReceived >
        (c.addReceived (offset + data.length - (c.streams p).highest)).ourMaxData
    · rw [if_pos hwin] at hop ⊢
      have hover : (c.addReceived (offset + data.length - (c.streams p).highest)).ended = false := ha
      have hfail : ∀ k : Conn, k.ended = false →
          (k.fail errFlowControl f.type "connection data beyond the window").flowFailed ∧
          (k.fail errFlowControl f.type "connection data beyond the window").ourMaxData =
            k.ourMaxData ∧
          (k.fail errFlowControl f.type "connection data beyond the window").dataConsumed =
            k.dataConsumed := by
        intro k hk
        unfold fail
        rw [hk]
        exact ⟨⟨rfl, rfl, rfl⟩, rfl, rfl⟩
      obtain ⟨h₁, h₂, h₃⟩ := hfail _ hover
      exact .overrun hop h₁ h₂ h₃
    · rw [if_neg hwin] at hop ⊢
      have hfit : c.dataReceived + (offset + data.length - (c.streams p).highest) ≤ c.ourMaxData :=
        Nat.le_of_not_lt hwin
      have hraise := raise_charged c p (fun s => { s with highest := offset + data.length })
        hgt.le rfl rfl (ReceiveOp.modify _ p _ rfl rfl rfl rfl)
      exact .charged (.inr hfit) (hraise.trans (storeData_charged _ p offset data))
  · rw [if_neg hgt]
    exact .charged (.inl rfl) (storeData_charged c p offset data)

theorem applyStreamFrame_effect (c : Conn) (p : Ptr) (f : Frame) (offset : Nat) (data : Bytes)
    (fin : Bool) (ha : c.ended = false) :
    ChargeEffect p (fun n => n = 0 ∨ c.dataReceived + n ≤ c.ourMaxData) c
      (c.applyStreamFrame p f offset data fin) := by
  unfold applyStreamFrame
  dsimp only
  split
  · exact .refused (quiet_fail ..)
  split
  · split
    · exact .refused (quiet_fail ..)
    · exact chargeData_effect c p f offset data ha
  · split
    · split
      · exact .refused (quiet_fail ..)
      -- the final size is noted before the bytes are charged
      have hnote : Charged p 0 c (c.modify p fun s =>
          { s with finSeen := true, finalSize := offset + data.length }) :=
        Charged.of_quiet (Quiet.modify c p _ rfl) rfl
      cases chargeData_effect (c.modify p fun s =>
        { s with finSeen := true, finalSize := offset + data.length }) p f offset data ha with
      | refused hq => exact .refused ((Quiet.modify c p _ rfl).trans hq)
      | charged hn hc =>
        refine .charged ?_ (hnote.trans hc)
        rw [Nat.zero_add]
        exact hn
      | overrun hr hf hm hc => exact .overrun (hnote.op.trans hr) hf hm hc
    · exact chargeData_effect c p f offset data ha

/-- The bytes a RESET_STREAM charges to a stream. -/
def finalCharge (s : QuicStream) (finalSize : Nat) : Nat :=
  if s.finSeen || decide (s.maxRecv < finalSize) then 0 else finalSize - s.highest

theorem applyReset_effect (c : Conn) (p : Ptr) (f : Frame) (code finalSize : Nat) :
    ChargeEffect p (fun n => n = finalCharge (c.streams p) finalSize) c
      (c.applyReset p f code finalSize) := by
  unfold applyReset
  dsimp only
  split
  · exact .refused (quiet_fail ..)
  split
  · exact .refused (quiet_fail ..)
  next hlow =>
  split
  · exact .refused (quiet_fail ..)
  next hwin =>
  have hmark : ∀ k : Conn, Charged p 0 k (if (c.streams p).resetReceived then k
      else k.modify p fun s => { s with resetReceived := true, resetCode := code }) := by
    intro k
    split
    · exact Charged.of_quiet (Quiet.refl k) rfl
    · exact Charged.of_quiet (Quiet.modify k p _ rfl) rfl
  cases hfin : (c.streams p).finSeen with
  | true =>
    have hzero : 0 = finalCharge (c.streams p) finalSize := by
      unfold finalCharge
      rw [hfin]
      rfl
    exact .charged hzero (hmark c)
  | false =>
    have hcharge : finalSize - (c.streams p).highest = finalCharge (c.streams p) finalSize := by
      rw [hfin] at hwin
      unfold finalCharge
      rw [hfin, if_neg]
      simpa using hwin
    have hraise := raise_charged c p (fun s =>
        { s with highest := finalSize, finSeen := true, finalSize := finalSize })
      (Nat.le_of_not_lt hlow) rfl rfl (ReceiveOp.modify _ p _ rfl rfl rfl rfl)
    rw [if_neg Bool.false_ne_true]
    exact .charged hcharge (hraise.trans (hmark _))

/-! ## §3. Credit is conserved. -/

/-- Unless the connection is closing, what was charged and not credited is held. -/
structure Balanced (c : Conn) : Prop where
  table : TableInv c
  balance : c.closingOrClosed = false → (c.dataReceived : ℤ) - c.dataConsumed = c.heldBytes

theorem closingOrClosed_of_closeInfo (h : c'.closeInfo = c.closeInfo) :
    c'.closingOrClosed = c.closingOrClosed := by
  have hs : c'.state = c.state := congrArg Prod.fst h
  unfold closingOrClosed
  rw [hs]

/-- A connection that goes on after a step was going on before it. -/
theorem closeInfo_of_ending (h : c'.closeInfo = c.closeInfo ∨ (c.ended = false ∧ c'.state = .closing))
    (hc : c'.closingOrClosed = false) : c'.closeInfo = c.closeInfo := by
  rcases h with h | ⟨-, h⟩
  · exact h
  unfold closingOrClosed at hc
  rw [h] at hc
  cases hc

/-- Same books, same table, same holdings. -/
theorem balanced_congr (h : Balanced c) (ht : TableInv c')
    (hc : c'.closingOrClosed = false → c.closingOrClosed = false)
    (hr : c'.dataReceived = c.dataReceived) (hd : c'.dataConsumed = c.dataConsumed)
    (ha : c'.active = c.active) (hh : ∀ q ∈ c.active, c'.holding q = c.holding q) : Balanced c' := by
  refine ⟨ht, fun hn => ?_⟩
  rw [hr, hd, h.balance (hc hn), ht.heldBytes_eq, h.table.heldBytes_eq, ha]
  rw [List.map_congr_left hh]

theorem balanced_of_same (hs : SameReceive c c') (h : Balanced c) : Balanced c' := by
  refine balanced_congr h (table_of_same hs h.table) ?_ hs.dataReceived hs.dataConsumed hs.active ?_
  · intro hn
    rw [← closingOrClosed_of_closeInfo (closeInfo_of_ending hs.ending hn)]
    exact hn
  · exact fun q _ => holding_congr (hs.highest q) (hs.consumed q)

theorem balanced_of_quiet (hq : Quiet c c') (h : Balanced c) : Balanced c' :=
  balanced_of_same (SameReceive.of_quiet hq) h

theorem ReceiveOp.holding_others (hr : ReceiveOp p c c') (q : Ptr) (hq : q ≠ p) :
    c'.holding q = c.holding q :=
  holding_congr (congrArg StreamView.highest (hr.others q hq))
    (congrArg StreamView.consumed (hr.others q hq))

/-- A change of the books that one stream's holding goes along with. -/
theorem balanced_of_change {d : ℤ} (hr : ReceiveOp p c c') (hi : c'.closeInfo = c.closeInfo)
    (hp : p ∈ c.active) (hself : c'.holding p = c.holding p + d)
    (hbooks : (c'.dataReceived : ℤ) - c'.dataConsumed = c.dataReceived - c.dataConsumed + d)
    (h : Balanced c) : Balanced c' := by
  have ht : TableInv c' := table_of_receive hr (h.table.active_open p hp) h.table
  refine ⟨ht, fun hn => ?_⟩
  rw [closingOrClosed_of_closeInfo hi] at hn
  rw [hbooks, h.balance hn, h.table.heldBytes_eq, ht.heldBytes_eq, hr.active]
  exact (sum_holding_change hp h.table.active_nodup hself hr.holding_others).symm

theorem balanced_of_charged (hc : Charged p n c c') (hp : p ∈ c.active) (h : Balanced c) : Balanced c' := by
  refine balanced_of_change (d := n) hc.op hc.closeInfo hp ?_ ?_ h
  · unfold holding
    rw [hc.highest, hc.consumed]
    omega
  · rw [hc.dataReceived, hc.dataConsumed]
    omega

theorem balanced_of_credited (hc : Credited p n c c') (hp : p ∈ c.active) (h : Balanced c) : Balanced c' := by
  refine balanced_of_change (d := -n) hc.op hc.closeInfo hp ?_ ?_ h
  · unfold holding
    rw [hc.highest, hc.consumed]
    omega
  · rw [hc.dataReceived, hc.dataConsumed]
    omega

/-- A window or a grant, on a stream of the peer or of our own. -/
theorem balanced_of_uncharged (hc : Charged p 0 c c') (ho : (c.streams p).isOpen = true)
    (h : Balanced c) : Balanced c' := by
  refine balanced_congr h (table_of_receive hc.op ho h.table) ?_ hc.dataReceived hc.dataConsumed
    hc.op.active ?_
  · intro hn
    rwa [closingOrClosed_of_closeInfo hc.closeInfo] at hn
  · intro q _
    by_cases hq : q = p
    · rw [hq]
      exact holding_congr hc.highest hc.consumed
    · exact hc.op.holding_others q hq

theorem balanced_of_effect {fits : Nat → Prop} (he : ChargeEffect p fits c c') (hp : p ∈ c.active)
    (h : Balanced c) : Balanced c' := by
  cases he with
  | refused hq => exact balanced_of_quiet hq h
  | charged _ hc => exact balanced_of_charged hc hp h
  | overrun hr hf _ _ =>
    refine ⟨table_of_receive hr (h.table.active_open p hp) h.table, fun hn => ?_⟩
    rw [hf.1] at hn
    exact absurd hn.symm Bool.false_ne_true

/-- A stream opens blank: it holds nothing. -/
theorem balanced_of_opened (hcl : streamIsClient id = true)
    (hf : c.findStream id = none) (ho : Opened id p c c') (h : Balanced c) : Balanced c' := by
  have ht : TableInv c' := table_of_opened hcl hf ho h.table
  refine ⟨ht, fun hn => ?_⟩
  rw [closingOrClosed_of_closeInfo ho.books.closeInfo] at hn
  have hsame : c.active.map c'.holding = c.active.map c.holding := by
    refine List.map_congr_left fun q hq => ?_
    have hqp : q ≠ p := by
      rintro rfl
      exact ho.fresh.1 hq
    exact holding_congr (congrArg StreamView.highest (ho.others q hqp))
      (congrArg StreamView.consumed (ho.others q hqp))
  have hnew : c'.holding p = 0 := by
    unfold holding
    rw [ho.blank.1, ho.blank.2]
    rfl
  rw [ho.books.dataReceived, ho.books.dataConsumed, h.balance hn, h.table.heldBytes_eq,
    ht.heldBytes_eq, ho.active, List.map_append, List.sum_append, hsame, List.map_singleton,
    List.sum_singleton, hnew, add_zero]

/-- A stream that leaves takes along what it holds. -/
theorem heldBytes_closed (hp : p ∈ c.active) (hc : Closed p c c') (h : TableInv c)
    (ht : TableInv c') : c'.heldBytes + c.holding p = c.heldBytes := by
  have hsame : (c.active.erase p).map c'.holding = (c.active.erase p).map c.holding := by
    refine List.map_congr_left fun q hq => ?_
    have hqp : q ≠ p := by
      rintro rfl
      exact h.active_nodup.not_mem_erase hq
    exact holding_congr (hc.highest_others q hqp) (hc.consumed_others q hqp)
  rw [ht.heldBytes_eq, h.heldBytes_eq, (hc.active.map c'.holding).sum_eq, hsame, add_comm]
  exact List.sum_map_erase c.holding hp

theorem balanced_of_closed (hp : p ∈ c.active) (hc : Closed p c c') (ht : TableInv c')
    (hz : c.closingOrClosed = false → (c.streams p).highest = (c.streams p).consumed)
    (h : Balanced c) : Balanced c' := by
  refine ⟨ht, fun hn => ?_⟩
  rw [closingOrClosed_of_closeInfo hc.books.closeInfo] at hn
  have hzero : c.holding p = 0 := by
    unfold holding
    rw [hz hn]
    omega
  rw [hc.books.dataReceived, hc.books.dataConsumed, h.balance hn,
    ← heldBytes_closed hp hc h.table ht, hzero, add_zero]

theorem balanced_of_openOwn {head : Bytes} {trim : Bool} (hp : p ∈ ownStreams) (h : Balanced c) :
    Balanced (c.openOwn p head trim) := by
  rcases openOwn_cases c p head trim with hq | ⟨k, id, maxSend, hk, -, hq⟩
  · exact balanced_of_quiet hq h
  have hkb : Balanced k := balanced_of_quiet hk h
  have ht : TableInv (c.openOwn p head trim) := table_of_openOwn hp h.table
  have hs := SameReceive.of_quiet hq
  refine balanced_congr hkb ht ?_ hs.dataReceived hs.dataConsumed hs.active ?_
  · intro hn
    have := closingOrClosed_of_closeInfo (closeInfo_of_ending hs.ending hn)
    rw [hn] at this
    exact this.symm
  · intro q hm
    have hqp : q ≠ p := by
      rintro rfl
      exact hkb.table.active_not_own hm hp
    have hstream : (k.modify p fun s =>
        { s with id := id, isOpen := true, maxSend := maxSend }).streams q = k.streams q :=
      streams_modify_of_ne k _ hqp
    refine holding_congr ((hs.highest q).trans ?_) ((hs.consumed q).trans ?_) <;> rw [hstream]

theorem balanced_of_found (hf : Found c id k p) (h : Balanced c) : Balanced k := by
  cases hf with
  | found hn _ => exact balanced_of_quiet hn.quiet h
  | opened hn hc hf _ _ =>
    have hk := balanced_of_quiet hn.quiet h
    exact balanced_of_opened hc hf (openStream_spec id hk.table) hk

theorem found_ended (hf : Found c id k p) (h : TableInv c) (ha : c.ended = false) : k.ended = false := by
  cases hf with
  | found hn _ => rw [ended_of_closeInfo hn.closeInfo]; exact ha
  | opened hn _ _ _ _ =>
    have hk := table_of_same (SameReceive.of_quiet hn.quiet) h
    rw [ended_of_closeInfo (openStream_spec id hk).books.closeInfo, ended_of_closeInfo hn.closeInfo]
    exact ha

theorem balanced_of_frame {f : Frame} (ha : c.ended = false) (he : FrameEffect c f c')
    (h : Balanced c) : Balanced c' := by
  cases he with
  | quiet hq => exact balanced_of_quiet hq h
  | wake hq => exact balanced_of_same (wakeBlocked_sameReceive _) (balanced_of_quiet hq h)
  | drain =>
    refine balanced_congr h (table_of_setState .draining h.table) ?_ rfl rfl rfl fun _ _ => rfl
    intro _
    rcases ended_eq_false.mp ha with hs | hs <;> unfold closingOrClosed <;> rw [hs] <;> rfl
  | touch hf hq => exact balanced_of_quiet hq (balanced_of_found hf h)
  | queue hf hq =>
    exact balanced_of_same (SameReceive.of_linkOnly (enqueue_linkOnly ..))
      (balanced_of_quiet hq (balanced_of_found hf h))
  | reset hc hf =>
    obtain ⟨-, -, hact⟩ := table_of_found hf h.table
    exact balanced_of_effect (applyReset_effect ..) (hact hc) (balanced_of_found hf h)
  | data hc hf =>
    obtain ⟨-, -, hact⟩ := table_of_found hf h.table
    exact balanced_of_effect (applyStreamFrame_effect _ _ _ _ _ _ (found_ended hf h.table ha))
      (hact hc) (balanced_of_found hf h)

theorem balanced_of_loss (he : LossEffect c c') (h : Balanced c) : Balanced c' := by
  cases he with
  | quiet hq => exact balanced_of_quiet hq h
  | queue hq =>
    exact balanced_of_same (SameReceive.of_linkOnly (enqueue_linkOnly ..)) (balanced_of_quiet hq h)
  | grant ho => exact balanced_of_uncharged (grant_charged ..) ho h

/-- **The condition.**  A stream is closed only when all the bytes it was charged are consumed;
    what happens to the streams of a connection that is closing does not matter. -/
def closesConsumed (c : Conn) : Op → Prop
  | .closeStream p => c.closingOrClosed = false → (c.streams p).highest = (c.streams p).consumed
  | _ => True

instance (c : Conn) (op : Op) : Decidable (c.closesConsumed op) := by
  cases op with
  | closeStream p => exact inferInstanceAs (Decidable (_ → _))
  | _ => exact inferInstanceAs (Decidable True)

theorem step_balanced {op : Op} (h : Balanced c) (hok : c.closesConsumed op)
    (hs : c.step op = some c') : Balanced c' := by
  have ht := step_table h.table hs
  cases step_effect hs with
  | quiet hq => exact balanced_of_quiet hq h
  | establish hh =>
    refine balanced_congr h ht ?_ rfl rfl rfl fun _ _ => rfl
    intro _
    unfold closingOrClosed
    rw [hh]
    rfl
  | finish _ => exact ⟨ht, fun hn => absurd hn (show ¬ true = false by decide)⟩
  | openOwn hp _ => exact balanced_of_openOwn hp h
  | ready => exact balanced_of_same (SameReceive.of_linkOnly (enqueue_linkOnly ..)) h
  | consumed hp _ _ => exact balanced_of_credited (streamConsumed_credited ..) hp h
  | window ho => exact balanced_of_uncharged (streamWindow_charged ..) ho h
  | reset _ => exact balanced_of_same (streamReset_sameReceive ..) h
  | closeStream hp _ => exact balanced_of_closed hp (closeStream_spec hp h.table).1 ht hok h
  | frame ha he => exact balanced_of_frame ha he h
  | lost _ he => exact balanced_of_loss he h
  | unqueue hq =>
    exact balanced_of_same (SameReceive.of_linkOnly (dequeue_linkOnly ..)) (balanced_of_quiet hq h)
  | turn he => exact balanced_of_same (streamEffect_sameReceive he) h

theorem create_balanced (limits : Limits) : Balanced (create limits) :=
  ⟨create_table limits, fun _ => by
    rw [(create_table limits).heldBytes_eq]
    rfl⟩

/-! ## §4. The window is respected. -/

/-- The window is at most one refill ahead of what was consumed, and what was received lies within
    it or the connection failed. -/
structure WindowInv (c : Conn) : Prop where
  table : TableInv c
  ahead : c.ourMaxData ≤ c.dataConsumed + c.limits.maxData
  window : c.dataReceived ≤ c.ourMaxData ∨ c.flowFailed

theorem flowFailed_ended (h : c.flowFailed) : c.ended = true := by
  have hs := h.1
  unfold closingOrClosed at hs
  unfold ended
  cases hst : c.state <;> rw [hst] at hs <;> simp_all

theorem flowFailed_of_closeInfo (hi : c'.closeInfo = c.closeInfo) (h : c.flowFailed) : c'.flowFailed := by
  have happ : c'.closeApp = c.closeApp := congrArg (fun i => i.2.1) hi
  have hcode : c'.closeCode = c.closeCode := congrArg (fun i => i.2.2.1) hi
  refine ⟨?_, happ.trans h.2.1, hcode.trans h.2.2⟩
  rw [closingOrClosed_of_closeInfo hi]
  exact h.1

/-- A connection that failed stays failed. -/
theorem flowFailed_of_ending (he : c'.closeInfo = c.closeInfo ∨ (c.ended = false ∧ c'.state = .closing))
    (h : c.flowFailed) : c'.flowFailed := by
  rcases he with hi | ⟨ho, -⟩
  · exact flowFailed_of_closeInfo hi h
  rw [flowFailed_ended h] at ho
  exact absurd ho.symm Bool.false_ne_true

theorem WindowInv.within (h : WindowInv c) (ha : c.ended = false) : c.dataReceived ≤ c.ourMaxData := by
  rcases h.window with hw | hf
  · exact hw
  rw [flowFailed_ended hf] at ha
  exact absurd ha.symm Bool.false_ne_true

theorem window_of_same (hs : SameReceive c c') (h : WindowInv c) : WindowInv c' := by
  refine ⟨table_of_same hs h.table, ?_, ?_⟩
  · rw [hs.ourMaxData, hs.dataConsumed, hs.limits]
    exact h.ahead
  · rw [hs.dataReceived, hs.ourMaxData]
    exact h.window.imp (fun hw => hw) (flowFailed_of_ending hs.ending)

theorem window_of_quiet (hq : Quiet c c') (h : WindowInv c) : WindowInv c' :=
  window_of_same (SameReceive.of_quiet hq) h

theorem window_of_books (hb : SameBooks c c') (ht : TableInv c') (h : WindowInv c) : WindowInv c' := by
  refine ⟨ht, ?_, ?_⟩
  · rw [hb.ourMaxData, hb.dataConsumed, hb.limits]
    exact h.ahead
  · rw [hb.dataReceived, hb.ourMaxData]
    exact h.window.imp (fun hw => hw) (flowFailed_of_closeInfo hb.closeInfo)

theorem Charged.books (hc : Charged p 0 c c') : SameBooks c c' :=
  ⟨hc.closeInfo, hc.op.limits, hc.dataReceived, hc.dataConsumed, hc.ourMaxData⟩

/-- Consuming never lowers the window. -/
theorem window_of_credited (hc : Credited p n c c') (ht : TableInv c') (h : WindowInv c) : WindowInv c' := by
  have hahead := h.ahead
  have hup : c.ourMaxData ≤ c'.ourMaxData := by
    rcases hc.ourMaxData with he | he
    · exact Nat.le_of_eq he.symm
    · omega
  refine ⟨ht, ?_, ?_⟩
  · rw [hc.dataConsumed, hc.op.limits]
    rcases hc.ourMaxData with he | he
    · omega
    · exact he.le
  · rw [hc.dataReceived]
    exact h.window.imp (fun hw => hw.trans hup) (flowFailed_of_closeInfo hc.closeInfo)

theorem window_of_effect {fits : Nat → Prop} (he : ChargeEffect p fits c c')
    (hfit : ∀ n, fits n → c.dataReceived + n ≤ c.ourMaxData) (ht : TableInv c')
    (h : WindowInv c) : WindowInv c' := by
  cases he with
  | refused hq => exact window_of_quiet hq h
  | charged hn hc =>
    refine ⟨ht, ?_, .inl ?_⟩
    · rw [hc.ourMaxData, hc.dataConsumed, hc.op.limits]
      exact h.ahead
    · rw [hc.dataReceived, hc.ourMaxData]
      exact hfit _ hn
  | overrun hr hf hm hd =>
    refine ⟨ht, ?_, .inr hf⟩
    rw [hm, hd, hr.limits]
    exact h.ahead

theorem window_of_openOwn {head : Bytes} {trim : Bool} (hp : p ∈ ownStreams) (h : WindowInv c) :
    WindowInv (c.openOwn p head trim) := by
  rcases openOwn_cases c p head trim with hq | ⟨k, id, maxSend, hk, -, hq⟩
  · exact window_of_quiet hq h
  have hkw : WindowInv k := window_of_quiet hk h
  have hs := SameReceive.of_quiet hq
  refine ⟨table_of_openOwn hp h.table, ?_, ?_⟩
  · rw [hs.ourMaxData, hs.dataConsumed, hs.limits]
    exact hkw.ahead
  · rw [hs.dataReceived, hs.ourMaxData]
    refine hkw.window.imp (fun hw => hw) fun hf => flowFailed_of_ending hs.ending ?_
    exact flowFailed_of_closeInfo rfl hf

theorem window_of_found (hf : Found c id k p) (h : WindowInv c) : WindowInv k := by
  cases hf with
  | found hn _ => exact window_of_quiet hn.quiet h
  | opened hn hc hf _ _ =>
    have hk := window_of_quiet hn.quiet h
    have hspec := openStream_spec id hk.table
    exact window_of_books hspec.books (table_of_opened hc hf hspec hk.table) hk

/-- The bytes a RESET_STREAM charges to the connection: those of the stream it is for, or of the
    stream it opens. -/
def resetCharge (c : Conn) (id finalSize : Nat) : Nat :=
  match c.findStream id with
  | some p => finalCharge (c.streams p) finalSize
  | none =>
    if c.advertised (streamIsBidi id) ≤ id / 4 ∨ c.knownClosed (streamIsBidi id) (id / 4) ∨
        initialMaxRecv c.limits id < finalSize then 0
    else finalSize

/-- **The condition.**  The bytes a RESET_STREAM charges fit in the connection's window. -/
def resetsFit (c : Conn) : Op → Prop
  | .frame (.resetStream id _ finalSize) _ =>
    c.dataReceived + c.resetCharge id finalSize ≤ c.ourMaxData
  | _ => True

instance (c : Conn) (op : Op) : Decidable (c.resetsFit op) := by
  cases op with
  | frame f sec =>
    cases f with
    | resetStream id code finalSize => exact inferInstanceAs (Decidable (_ ≤ _))
    | _ => exact inferInstanceAs (Decidable True)
  | _ => exact inferInstanceAs (Decidable True)

/-- What a RESET_STREAM charges is known before its stream is found or opened. -/
theorem finalCharge_found {finalSize : Nat} (hf : Found c id k p) (h : TableInv c) :
    finalCharge (k.streams p) finalSize ≤ c.resetCharge id finalSize ∧
      k.dataReceived = c.dataReceived ∧ k.ourMaxData = c.ourMaxData := by
  cases hf with
  | @found k p hn hf =>
    have hs := SameReceive.of_quiet hn.quiet
    rw [hn.findStream] at hf
    refine ⟨?_, hs.dataReceived, hs.ourMaxData⟩
    unfold resetCharge
    rw [hf]
    obtain ⟨_, _, rfl⟩ := hn
    exact le_rfl
  | opened hn _ hf hl hk =>
    have hs := SameReceive.of_quiet hn.quiet
    have hspec := openStream_spec id (table_of_same hs h)
    rw [hn.findStream] at hf
    rw [hn.advertised] at hl
    rw [hn.knownClosed] at hk
    refine ⟨?_, hspec.books.dataReceived.trans hs.dataReceived, hspec.books.ourMaxData.trans hs.ourMaxData⟩
    unfold resetCharge finalCharge
    rw [hf, hspec.maxRecv, hspec.blank.1, hk, hs.limits]
    by_cases hwin : initialMaxRecv c.limits id < finalSize
    · rw [decide_eq_true hwin, Bool.or_true, if_pos rfl]
      exact Nat.zero_le _
    have hopen : ¬ (c.advertised (streamIsBidi id) ≤ id / 4 ∨ false = true ∨
        initialMaxRecv c.limits id < finalSize) := by
      rintro (hle | hc | hlt)
      · exact absurd hl (Nat.not_lt.mpr hle)
      · exact Bool.false_ne_true hc
      · exact hwin hlt
    rw [if_neg hopen]
    split
    · exact Nat.zero_le _
    · exact Nat.sub_le _ _

theorem window_of_frame {f : Frame} {sec : Int} (ha : c.ended = false) (he : FrameEffect c f c')
    (hok : c.resetsFit (.frame f sec)) (h : WindowInv c) : WindowInv c' := by
  have ht := table_of_frame he h.table
  cases he with
  | quiet hq => exact window_of_quiet hq h
  | wake hq => exact window_of_same (wakeBlocked_sameReceive _) (window_of_quiet hq h)
  | drain => exact ⟨ht, h.ahead, .inl (h.within ha)⟩
  | touch hf hq => exact window_of_quiet hq (window_of_found hf h)
  | queue hf hq =>
    exact window_of_same (SameReceive.of_linkOnly (enqueue_linkOnly ..))
      (window_of_quiet hq (window_of_found hf h))
  | @reset id code finalSize k p _ hf =>
    obtain ⟨hle, hr, hm⟩ : finalCharge (k.streams p) finalSize ≤ c.resetCharge id finalSize ∧ _ :=
      finalCharge_found hf h.table
    have hfit : c.dataReceived + c.resetCharge id finalSize ≤ c.ourMaxData := hok
    refine window_of_effect (applyReset_effect ..) ?_ ht (window_of_found hf h)
    rintro n rfl
    rw [hr, hm]
    omega
  | data _ hf =>
    have hk := window_of_found hf h
    have hko := found_ended hf h.table ha
    refine window_of_effect (applyStreamFrame_effect _ _ _ _ _ _ hko) ?_ ht hk
    rintro n (rfl | hn)
    · exact hk.within hko
    · exact hn

theorem window_of_loss (he : LossEffect c c') (h : WindowInv c) : WindowInv c' := by
  cases he with
  | quiet hq => exact window_of_quiet hq h
  | queue hq =>
    exact window_of_same (SameReceive.of_linkOnly (enqueue_linkOnly ..)) (window_of_quiet hq h)
  | grant ho =>
    exact window_of_books (grant_charged ..).books
      (table_of_receive (grant_receive ..) ho h.table) h

theorem step_window {op : Op} (h : WindowInv c) (hok : c.resetsFit op)
    (hs : c.step op = some c') : WindowInv c' := by
  have ht := step_table h.table hs
  cases step_effect hs with
  | quiet hq => exact window_of_quiet hq h
  | establish hh => exact ⟨ht, h.ahead, .inl (h.within (ended_eq_false.mpr (.inl hh)))⟩
  | finish _ => exact ⟨ht, h.ahead, h.window.imp (fun hw => hw) fun hf => ⟨rfl, hf.2⟩⟩
  | openOwn hp _ => exact window_of_openOwn hp h
  | ready => exact window_of_same (SameReceive.of_linkOnly (enqueue_linkOnly ..)) h
  | consumed _ _ _ => exact window_of_credited (streamConsumed_credited ..) ht h
  | window _ => exact window_of_books (streamWindow_charged ..).books ht h
  | reset _ => exact window_of_same (streamReset_sameReceive ..) h
  | closeStream hp _ => exact window_of_books (closeStream_spec hp h.table).1.books ht h
  | frame ha he => exact window_of_frame ha he hok h
  | lost _ he => exact window_of_loss he h
  | unqueue hq =>
    exact window_of_same (SameReceive.of_linkOnly (dequeue_linkOnly ..)) (window_of_quiet hq h)
  | turn he => exact window_of_same (streamEffect_sameReceive he) h

theorem create_window (limits : Limits) : WindowInv (create limits) :=
  ⟨create_table limits, Nat.le_of_eq (Nat.zero_add _).symm, .inl (Nat.zero_le _)⟩

end Conn

/-! ## §5. Whole runs. -/

/-- **Credit is conserved.**  In every run in which each stream is closed with its bytes consumed,
    the bytes charged and not credited are those the open client streams hold. -/
theorem credit_conserved (limits : Limits) (ops : List Op) (c : Conn)
    (hrun : run Conn.step (Conn.create limits) ops = some c)
    (hok : Meets Conn.step Conn.closesConsumed (Conn.create limits) ops)
    (hc : c.closingOrClosed = false) : (c.dataReceived : ℤ) - c.dataConsumed = c.heldBytes :=
  (run_invariant (I := Conn.Balanced) (fun _ _ _ h ho hs => Conn.step_balanced h ho hs)
    (Conn.create_balanced limits) hrun hok).balance hc

/-- Two requests: one read in part, the other read to its end, answered and closed. -/
def twoRequests : List Op :=
  [.handshakeComplete, .frame (.stream 0 0 (bytes "first request") false) 0, .streamConsumed 3 5,
    .frame (.stream 4 0 (bytes "second") true) 0, .streamConsumed 4 6, .closeStream 4]

theorem credit_conserved_twoRequests : ∃ c, run Conn.step (Conn.create {}) twoRequests = some c ∧
      (c.dataReceived : ℤ) - c.dataConsumed = c.heldBytes ∧ c.dataReceived = 19 := by
  have hfacts : (run Conn.step (Conn.create {}) twoRequests).map (fun c =>
      (c.closingOrClosed, c.dataReceived)) = some (false, 19) := by decide
  obtain ⟨c, hc, hfacts⟩ := Option.map_eq_some_iff.mp hfacts
  obtain ⟨hopen, hrecv⟩ := Prod.mk.inj hfacts
  exact ⟨c, hc, credit_conserved {} twoRequests c hc (by decide) hopen, hrecv⟩

/-- A RESET_STREAM with final size 100 on a new stream; the application resets its side and
    closes the stream (`on_stream_reset`), and nobody consumes the 100 bytes. -/
def resetLeakRun : List Op :=
  [.handshakeComplete, .frame (.resetStream 0 0x10c 100) 0, .streamReset 3 0x10c, .closeStream 3]

/-- After it 100 bytes are charged and no stream holds them. -/
theorem reset_leaks_credit :
    ∃ c, run Conn.step (Conn.create {}) resetLeakRun = some c ∧ c.closingOrClosed = false ∧
      c.openClientStreams = [] ∧ ¬ (c.dataReceived : ℤ) - c.dataConsumed = c.heldBytes := by
  have hfacts : (run Conn.step (Conn.create {}) resetLeakRun).map (fun c =>
      (c.closingOrClosed, c.openClientStreams, c.dataReceived, c.dataConsumed)) =
      some (false, [], 100, 0) := by decide
  obtain ⟨c, hc, hfacts⟩ := Option.map_eq_some_iff.mp hfacts
  simp only [Prod.mk.injEq] at hfacts
  obtain ⟨hopen, hstreams, hrecv, hcons⟩ := hfacts
  refine ⟨c, hc, hopen, hstreams, ?_⟩
  unfold Conn.heldBytes
  rw [hstreams, hrecv, hcons, List.map_nil, List.sum_nil]
  decide

/-- **The window is respected.**  In every run in which each RESET_STREAM fits, what was received
    lies within the window, or the connection was failed with FLOW_CONTROL_ERROR. -/
theorem window_respected (limits : Limits) (ops : List Op) (c : Conn)
    (hrun : run Conn.step (Conn.create limits) ops = some c)
    (hok : Meets Conn.step Conn.resetsFit (Conn.create limits) ops) :
    c.dataReceived ≤ c.ourMaxData ∨ c.flowFailed :=
  (run_invariant (I := Conn.WindowInv) (fun _ _ _ h ho hs => Conn.step_window h ho hs)
    (Conn.create_window limits) hrun hok).window

/-- A peer that sends data and one reset within a window of 64 bytes. -/
def smallWindowRun : List Op :=
  [.handshakeComplete, .frame (.stream 0 0 (bytes "request") true) 0, .frame (.resetStream 4 0x10c 20) 0]

theorem window_respected_smallWindowRun :
    ∃ c, run Conn.step (Conn.create { maxData := 64, streamWindow := 32 }) smallWindowRun = some c ∧
      (c.dataReceived ≤ c.ourMaxData ∨ c.flowFailed) := by
  have hsome : (run Conn.step (Conn.create { maxData := 64, streamWindow := 32 })
      smallWindowRun).isSome = true := by decide
  obtain ⟨c, hc⟩ := Option.isSome_iff_exists.mp hsome
  exact ⟨c, hc, window_respected _ smallWindowRun c hc (by decide)⟩

/-- Two streams are opened and reset at once, the first with the whole window as final size. -/
def resetPairRun : List Op :=
  [.handshakeComplete, .frame (.resetStream 0 0x10c (2 ^ 20)) 0, .frame (.resetStream 4 0x10c 1) 0]

/-- After it the connection is established and one byte beyond its window was received. -/
theorem reset_exceeds_window :
    ∃ c, run Conn.step (Conn.create { streamWindow := 2 ^ 20 }) resetPairRun = some c ∧
      c.state = .established ∧ ¬ (c.dataReceived ≤ c.ourMaxData ∨ c.flowFailed) := by
  have hfacts : (run Conn.step (Conn.create { streamWindow := 2 ^ 20 }) resetPairRun).map
      (fun c => (c.state, c.dataReceived, c.ourMaxData)) =
      some (.established, 2 ^ 20 + 1, 2 ^ 20) := by decide
  obtain ⟨c, hc, hfacts⟩ := Option.map_eq_some_iff.mp hfacts
  simp only [Prod.mk.injEq] at hfacts
  obtain ⟨hstate, hrecv, hmax⟩ := hfacts
  refine ⟨c, hc, hstate, ?_⟩
  rintro (hle | hf)
  · rw [hrecv, hmax] at hle
    exact absurd hle (by decide)
  · have hclosed := hf.1
    unfold Conn.closingOrClosed at hclosed
    rw [hstate] at hclosed
    exact absurd hclosed (by decide)

end Agensio.Quic
