/-
  Agensio.Quic.Reassembly — bytes that arrive in any order.

  Model of `on_crypto` (`quic/connection.hpp`), and what the receive side
  of a stream (`on_stream_frame`, `QuicStream`) and of a CRYPTO stream do
  with the pieces of one byte sequence: offsets, overlaps and repetitions
  as the peer likes.  `Run.got` and `Intake.got` are HISTORY VARIABLES: the
  pieces that arrived; so are `finished`, that one of them carried FIN, and
  `handed`, the bytes given out.

  Main results:
    * `reassembly` — what is given out is a prefix, up to the first missing
      byte it is all there, and what contradicts the final size fails.
-/
import Agensio.Quic.Link
import Agensio.Quic.View
import Agensio.Quic.Window

namespace Agensio.Quic

/-! ## §1. A buffer and its ranges. -/

variable {buf src a data : Bytes} {i offset id limit : Nat} {got : List (Nat × Nat)}
  {finished fin : Bool} {s : QuicStream} {p : Ptr} {r : Run} {ci : CryptoIn}

/-- The bytes written. -/
theorem getElem?_writeAt_in {at_ : Nat} (hi : i < src.length) :
    (writeAt buf at_ src)[at_ + i]? = src[i]? := by
  unfold writeAt
  rw [List.append_assoc, List.getElem?_append_right (by rw [List.length_take]; omega), List.length_take,
    List.length_append, List.length_replicate, List.getElem?_append_left (by omega)]
  congr 1
  omega

/-- The bytes beside what is written stay. -/
theorem getElem?_writeAt_out {at_ : Nat} {x : UInt8} (hx : buf[i]? = some x)
    (hi : i < at_ ∨ at_ + src.length ≤ i) : (writeAt buf at_ src)[i]? = some x := by
  have hlt : i < buf.length := by
    by_contra hge
    rw [List.getElem?_eq_none (by omega)] at hx
    cases hx
  have hgrown : (buf ++ List.replicate (at_ + src.length - buf.length) 0)[i]? = some x := by
    rw [List.getElem?_append_left hlt, hx]
  unfold writeAt
  rcases hi with hi | hi
  · rw [List.append_assoc, List.getElem?_append_left (by simp; omega), List.getElem?_take_of_lt hi, hgrown]
  rw [List.getElem?_append_right (by simp; omega), List.getElem?_drop]
  rw [← hgrown]
  congr 1
  simp
  omega

/-- The buffer grows to hold what is written. -/
theorem length_writeAt (buf src : Bytes) (at_ : Nat) :
    (writeAt buf at_ src).length = max buf.length (at_ + src.length) := by
  unfold writeAt
  simp
  omega

namespace RangeSet

variable {lo : Nat}

/-- Ranges between two bounds are at most as many as the values. -/
theorem Above.length_le {r : RangeSet} {hi : Nat} (h : Above lo r) (hh : ∀ v, Holds r v → v < hi) :
    r.length ≤ hi - lo := by
  induction r generalizing lo with
  | nil => exact Nat.zero_le _
  | cons x xs ih =>
    obtain ⟨hlo, hx, hxs⟩ := h
    have hlast := hh (x.2 - 1) ⟨x, List.mem_cons_self, by omega⟩
    have := ih hxs fun v hv => hh v ((holds_cons x xs v).mpr (.inr hv))
    rw [List.length_cons]
    omega

end RangeSet

/-- The bytes of `a` at `offset`. -/
def Piece (a : Bytes) (offset : Nat) (data : Bytes) : Prop :=
  offset + data.length ≤ a.length ∧ data = (a.drop offset).take data.length

theorem Piece.getElem? (h : Piece a offset data) (hi : i < data.length) : data[i]? = a[offset + i]? := by
  conv_lhs => rw [h.2]
  rw [List.getElem?_take_of_lt hi, List.getElem?_drop]

/-- The end of a piece is a piece. -/
theorem Piece.drop (h : Piece a offset data) {n : Nat}
    (hn : n ≤ data.length) : Piece a (offset + n) (data.drop n) := by
  have hle := h.1
  refine ⟨by rw [List.length_drop]; omega, List.ext_getElem? fun i => ?_⟩
  by_cases hi : i < (data.drop n).length
  · rw [List.length_drop] at hi
    rw [List.getElem?_drop, h.getElem? (by omega), List.getElem?_take_of_lt (by rw [List.length_drop]; omega),
      List.getElem?_drop]
    congr 1
    omega
  · rw [List.getElem?_eq_none (by omega), List.getElem?_eq_none (by rw [List.length_take]; omega)]

/-- The buffer from offset `base` on holds the bytes of `a` at the offsets in the ranges. -/
structure Held (a buf : Bytes) (base : Nat) (r : RangeSet) : Prop where
  order : RangeSet.Above 0 r
  bytes : ∀ v, base ≤ v → r.Holds v → v < a.length ∧ buf[v - base]? = a[v]?

/-- A piece written to its place. -/
theorem Held.write {base : Nat} {r : RangeSet} (h : Held a buf base r) {start : Nat}
    (hb : base ≤ start) (hp : Piece a start src) :
    Held a (writeAt buf (start - base) src) base (r.add start (start + src.length)) := by
  obtain ⟨horder, hset⟩ := RangeSet.add_len_spec h.order start src.length
  refine ⟨horder, ?_⟩
  intro v hv hheld
  by_cases hin : start ≤ v ∧ v < start + src.length
  · have hle := hp.1
    have hplace : v - base = start - base + (v - start) := by omega
    refine ⟨by omega, ?_⟩
    rw [hplace, getElem?_writeAt_in (by omega), hp.getElem? (by omega)]
    congr 1
    omega
  · obtain ⟨hlt, hbyte⟩ := h.bytes v hv (((hset v).mp hheld).resolve_right hin)
    refine ⟨hlt, ?_⟩
    rw [List.getElem?_eq_getElem hlt] at hbyte ⊢
    exact getElem?_writeAt_out hbyte (by omega)

/-- Reading where no value is missing. -/
theorem Held.read {a buf : Bytes} {base : Nat} {r : RangeSet} (h : Held a buf base r) {x n : Nat}
    (hx : base ≤ x) (hall : ∀ v, x ≤ v → v < x + n → r.Holds v) :
    (buf.drop (x - base)).take n = (a.drop x).take n := by
  refine List.ext_getElem? fun i => ?_
  by_cases hi : i < n
  · have hbyte := (h.bytes (x + i) (by omega) (hall (x + i) (by omega) (by omega))).2
    rw [List.getElem?_take_of_lt hi, List.getElem?_take_of_lt hi, List.getElem?_drop, List.getElem?_drop,
      ← hbyte]
    congr 1
    omega
  · rw [List.getElem?_eq_none (by rw [List.length_take]; omega),
      List.getElem?_eq_none (by rw [List.length_take]; omega)]

/-- The front of the buffer goes, and the ranges below with it. -/
theorem Held.shift {base : Nat} {r r' : RangeSet} (h : Held a buf base r) {n : Nat}
    (ho : RangeSet.Above 0 r') (hs : ∀ v, base + n ≤ v → r'.Holds v → r.Holds v) :
    Held a (buf.drop n) (base + n) r' := by
  refine ⟨ho, fun v hv hheld => ?_⟩
  obtain ⟨hlt, hbyte⟩ := h.bytes v (by omega) (hs v hv hheld)
  refine ⟨hlt, ?_⟩
  rw [List.getElem?_drop, ← hbyte]
  congr 1
  omega

/-! ## §2. Frames on one stream. -/

/-- The receive side of a stream, as a STREAM frame changes it. -/
def QuicStream.accept (s : QuicStream) (offset : Nat) (data : Bytes) (fin : Bool) : QuicStream :=
  let end_ := offset + data.length
  let s₁ := if !s.finSeen && fin then { s with finSeen := true, finalSize := end_ } else s
  let s₂ := { s₁ with highest := max s.highest end_ }
  if data ≠ [] then s₂.store offset data else s₂

/-- A stream nothing arrived on. -/
structure QuicStream.Fresh (s : QuicStream) : Prop where
  rbuf : s.rbuf = []
  consumed : s.roff = 0 ∧ s.rpos = 0
  rranges : s.rranges = []
  highest : s.highest = 0
  finSeen : s.finSeen = false
  resetReceived : s.resetReceived = false

/-- The receive side of one stream is the same, but for its limits. -/
structure SameInbound (s s' : QuicStream) : Prop where
  rbuf : s'.rbuf = s.rbuf
  roff : s'.roff = s.roff
  rpos : s'.rpos = s.rpos
  rranges : s'.rranges = s.rranges
  highest : s'.highest = s.highest
  finSeen : s'.finSeen = s.finSeen
  finalSize : s'.finalSize = s.finalSize
  resetReceived : s'.resetReceived = s.resetReceived

namespace Conn

/-- The stream that frames with this id are for. -/
structure Knows (c : Conn) (id : Nat) (p : Ptr) : Prop where
  client : streamIsClient id = true
  advertised : id / 4 < c.advertised (streamIsBidi id)
  found : c.findStream id = some p

variable {c : Conn} {f : Frame}

theorem Knows.incomingStream {id : Nat} {p : Ptr} (h : c.Knows id p) : c.incomingStream id = (c, some p) := by
  unfold Conn.incomingStream
  have := h.advertised
  rw [h.client, if_neg (by simp), if_neg (by omega), h.found]

/-- A change of one stream that is still open under its id. -/
theorem Knows.of_modify {c' : Conn} {id : Nat} {p q : Ptr} {f : QuicStream → QuicStream}
    (h : c.Knows id p) (hb : c'.advertisedBidi = c.advertisedBidi) (hu : c'.advertisedUni = c.advertisedUni)
    (ha : c'.active = c.active) (hs : c'.streams = (c.modify q f).streams)
    (ho : (f (c.streams q)).isOpen = (c.streams q).isOpen) (hi : (f (c.streams q)).id = (c.streams q).id) :
    c'.Knows id p where
  client := h.client
  advertised := by
    unfold Conn.advertised
    rw [hb, hu]
    exact h.advertised
  found := by
    rw [← h.found]
    unfold findStream
    have hopen (x : Ptr) : ((c.modify q f).streams x).isOpen = (c.streams x).isOpen :=
      proj_modify QuicStream.isOpen c q x f ho
    have hid (x : Ptr) : ((c.modify q f).streams x).id = (c.streams x).id :=
      proj_modify QuicStream.id c q x f hi
    simp only [ha, hs, hopen, hid]

/-- A frame within the limits the connection advertised. -/
structure Within (c : Conn) (p : Ptr) (offset : Nat) (data : Bytes) : Prop where
  stream : offset + data.length ≤ (c.streams p).maxRecv
  connection : c.dataReceived + (offset + data.length - (c.streams p).highest) ≤ c.ourMaxData

/-- A frame that contradicts what is known of the final size. -/
def Contradicts (s : QuicStream) (offset : Nat) (data : Bytes) (fin : Bool) : Prop :=
  let end_ := offset + data.length
  if s.finSeen then end_ > s.finalSize ∨ (fin = true ∧ end_ ≠ s.finalSize) else fin = true ∧ end_ < s.highest

/-- The charge and the bytes of a frame within the limits. -/
theorem chargeData_within {p : Ptr} {offset : Nat} {data : Bytes}
    (h : c.Within p offset data) (hr : (c.streams p).resetReceived = false) : c.chargeData p f offset data
      = (c.addReceived (offset + data.length - (c.streams p).highest)).modify p fun s =>
          if data ≠ [] then
            QuicStream.store { s with highest := max s.highest (offset + data.length) } offset data
          else { s with highest := max s.highest (offset + data.length) } := by
  have hconn := h.connection
  unfold chargeData
  by_cases hgt : offset + data.length > (c.streams p).highest
  · have hfits : ¬(c.addReceived (offset + data.length - (c.streams p).highest)).dataReceived >
        (c.addReceived (offset + data.length - (c.streams p).highest)).ourMaxData := by
      show ¬c.dataReceived + _ > c.ourMaxData
      omega
    have hmax : max (c.streams p).highest (offset + data.length) = offset + data.length := by omega
    rw [if_pos hgt, if_neg hfits]
    unfold storeData
    have hr' : (((c.addReceived (offset + data.length - (c.streams p).highest)).modify p fun s =>
        { s with highest := offset + data.length }).streams p).resetReceived = false := by
      rw [streams_modify_self]
      exact hr
    rw [if_neg (by rw [hr']; simp)]
    split
    · rw [modify_modify]
      unfold modify
      simp only [addReceived, hmax]
    · unfold modify
      simp only [addReceived, hmax]
  · have hsame : c.addReceived (offset + data.length - (c.streams p).highest) = c := by
      have hzero : offset + data.length - (c.streams p).highest = 0 := by omega
      rw [hzero]
      rfl
    have hmax : max (c.streams p).highest (offset + data.length) = (c.streams p).highest := by omega
    rw [if_neg hgt, hsame]
    unfold storeData
    rw [if_neg (by rw [hr]; simp)]
    split
    · unfold modify
      simp only [hmax]
    unfold modify
    simp only [hmax, Function.update_eq_self]

/-- A frame within the limits that contradicts nothing. -/
theorem applyStreamFrame_within {p : Ptr} {offset : Nat} {data : Bytes} {fin : Bool}
    (h : c.Within p offset data) (hr : (c.streams p).resetReceived = false)
    (hc : ¬Contradicts (c.streams p) offset data fin) : c.applyStreamFrame p f offset data fin
      = (c.addReceived (offset + data.length - (c.streams p).highest)).modify p fun s =>
          s.accept offset data fin := by
  have hstream := h.stream
  unfold Contradicts at hc
  unfold applyStreamFrame
  rw [if_neg (by omega)]
  cases hf : (c.streams p).finSeen with
  | true =>
    rw [hf, if_pos rfl] at hc
    push Not at hc
    have hno : ¬(decide (offset + data.length > (c.streams p).finalSize) ||
        (fin && offset + data.length != (c.streams p).finalSize)) = true := by
      have h2 := hc.2
      simp
      refine ⟨by omega, fun hfin => h2 hfin⟩
    rw [if_pos rfl, if_neg hno, chargeData_within h hr]
    unfold modify QuicStream.accept
    simp only [addReceived, hf, Bool.not_true, Bool.false_and, Bool.false_eq_true, if_false]
  | false =>
    rw [hf] at hc
    simp only [Bool.false_eq_true, if_false] at hc
    rw [if_neg (by simp)]
    cases fin with
    | true =>
      have hlow : ¬offset + data.length < (c.streams p).highest := fun hlt => hc ⟨rfl, hlt⟩
      rw [if_pos rfl, if_neg hlow]
      have h' : (c.modify p fun s =>
          { s with finSeen := true, finalSize := offset + data.length }).Within p offset data :=
        ⟨by rw [streams_modify_self]; exact h.stream, by rw [streams_modify_self]; exact h.connection⟩
      rw [chargeData_within h' (by rw [streams_modify_self]; exact hr), streams_modify_self]
      unfold modify QuicStream.accept
      simp only [addReceived, hf, Bool.not_false, Bool.true_and, if_true, Function.update_self,
        Function.update_idem]
    | false =>
      rw [if_neg (by simp), chargeData_within h hr]
      unfold modify QuicStream.accept
      simp only [addReceived, hf, Bool.not_false, Bool.true_and, Bool.false_eq_true, if_false]

/-- A frame that contradicts the final size fails the connection. -/
theorem applyStreamFrame_contradicts {p : Ptr} {offset : Nat} {data : Bytes}
    {fin : Bool} (h : offset + data.length ≤ (c.streams p).maxRecv)
    (hc : Contradicts (c.streams p) offset data fin) :
    ∃ reason, c.applyStreamFrame p f offset data fin = c.fail errFinalSize f.type reason := by
  unfold Contradicts at hc
  unfold applyStreamFrame
  rw [if_neg (by omega)]
  cases hf : (c.streams p).finSeen with
  | true =>
    rw [hf, if_pos rfl] at hc
    have hyes : (decide (offset + data.length > (c.streams p).finalSize) ||
        (fin && offset + data.length != (c.streams p).finalSize)) = true := by
      rcases hc with hgt | ⟨hfin, hne⟩
      · simp [hgt]
      · simp [hfin, hne]
    rw [if_pos rfl, if_pos hyes]
    exact ⟨_, rfl⟩
  | false =>
    rw [hf] at hc
    simp only [Bool.false_eq_true, if_false] at hc
    rw [if_neg (by simp), if_pos hc.1, if_pos hc.2]
    exact ⟨_, rfl⟩

end Conn

/-! ## §3. Runs of one stream. -/

/-- A connection, and what came and went on one of its streams. -/
structure Run where
  c : Conn
  handed : Bytes := []
  got : List (Nat × Nat) := []
  finished : Bool := false

/-- A byte of one of the pieces. -/
def Arrived (got : List (Nat × Nat)) (v : Nat) : Prop := ∃ g ∈ got, g.1 ≤ v ∧ v < g.1 + g.2

/-- A frame that carries bytes of `a`; FIN stands at its end. -/
structure Consistent (a : Bytes) (offset : Nat) (data : Bytes) (fin : Bool) : Prop where
  piece : Piece a offset data
  fin : fin = true → offset + data.length = a.length

/-- The runs of the stream `id` whose peer sends `a`: frames within the limits, reads of bytes that
are available, and anything the connection does elsewhere meanwhile. -/
inductive StreamRun (a : Bytes) (id : Nat) (p : Ptr) : Run → Prop
  | start {c : Conn} (hk : c.Knows id p) (hf : (c.streams p).Fresh) (he : c.ended = false) :
    StreamRun a id p { c }
  | frame {r : Run} {offset : Nat} {data : Bytes} {fin : Bool} (h : StreamRun a id p r)
      (hc : Consistent a offset data fin) (hw : r.c.Within p offset data) (sec : Int) :
    StreamRun a id p { r with
      c := r.c.handleFrame (.stream id offset data fin) sec
      got := r.got ++ [(offset, data.length)], finished := r.finished || fin }
  | consume {r : Run} {n : Nat} (h : StreamRun a id p r) (hn : n ≤ (r.c.streams p).available) :
    StreamRun a id p { r with
      c := r.c.streamConsumed p n
      handed := r.handed ++ ((r.c.streams p).rbuf.drop (r.c.streams p).rpos).take n }
  | elsewhere {r : Run} {c' : Conn} (h : StreamRun a id p r)
      (hs : SameInbound (r.c.streams p) (c'.streams p)) (hk : c'.Knows id p) (he : c'.ended = false) :
    StreamRun a id p { r with c := c' }

/-- The receive side of a stream after the pieces `got` of `a`. -/
structure Assembled (a : Bytes) (got : List (Nat × Nat)) (finished : Bool) (s : QuicStream) : Prop where
  held : Held a s.rbuf s.roff s.rranges
  arrived : ∀ v, s.rranges.Holds v ↔ Arrived got v
  consumed : ∀ v, v < s.consumed → s.rranges.Holds v
  short : s.consumed ≤ a.length
  below : ∀ g ∈ got, g.1 + g.2 ≤ s.highest
  highest : s.highest ≤ a.length
  finSeen : s.finSeen = finished
  finalSize : finished = true → s.finalSize = a.length
  resetReceived : s.resetReceived = false

theorem arrived_append (got : List (Nat × Nat)) (offset len v : Nat) :
    Arrived (got ++ [(offset, len)]) v ↔ Arrived got v ∨ (offset ≤ v ∧ v < offset + len) := by
  unfold Arrived
  simp only [List.mem_append, List.mem_singleton]
  constructor
  · rintro ⟨g, hg | rfl, hv⟩
    · exact .inl ⟨g, hg, hv⟩
    · exact .inr hv
  · rintro (⟨g, hg, hv⟩ | hv)
    · exact ⟨g, .inl hg, hv⟩
    · exact ⟨_, .inr rfl, hv⟩

theorem Assembled.fresh {a : Bytes} {s : QuicStream} (h : s.Fresh) : Assembled a [] false s where
  held := by
    rw [h.rranges]
    exact ⟨trivial, fun v _ hv => absurd hv (RangeSet.holds_nil v)⟩
  arrived := by
    intro v
    rw [h.rranges]
    exact ⟨fun hv => absurd hv (RangeSet.holds_nil v), by rintro ⟨g, hg, -⟩; cases hg⟩
  consumed := by
    intro v hv
    unfold QuicStream.consumed at hv
    have := h.consumed
    omega
  short := by
    unfold QuicStream.consumed
    have := h.consumed
    omega
  below := by intro g hg; cases hg
  highest := by rw [h.highest]; exact Nat.zero_le _
  finSeen := h.finSeen
  finalSize := by intro h; cases h
  resetReceived := h.resetReceived

theorem Assembled.same {s' : QuicStream}
    (h : Assembled a got finished s) (hs : SameInbound s s') : Assembled a got finished s' := by
  have hcons : s'.consumed = s.consumed := by
    unfold QuicStream.consumed
    rw [hs.roff, hs.rpos]
  exact
    { held := by rw [hs.rbuf, hs.roff, hs.rranges]; exact h.held
      arrived := by rw [hs.rranges]; exact h.arrived
      consumed := by rw [hcons, hs.rranges]; exact h.consumed
      short := by rw [hcons]; exact h.short
      below := by rw [hs.highest]; exact h.below
      highest := by rw [hs.highest]; exact h.highest
      finSeen := by rw [hs.finSeen]; exact h.finSeen
      finalSize := by rw [hs.finalSize]; exact h.finalSize
      resetReceived := by rw [hs.resetReceived]; exact h.resetReceived }

/-- A consistent frame contradicts nothing. -/
theorem Assembled.not_contradicts (h : Assembled a got finished s)
    (hc : Consistent a offset data fin) : ¬Conn.Contradicts s offset data fin := by
  have hle := hc.piece.1
  have hhigh := h.highest
  unfold Conn.Contradicts
  split
  · next hf =>
    have hsize := h.finalSize (h.finSeen.symm.trans hf)
    rintro (hgt | ⟨hfin, hne⟩)
    · omega
    · exact hne (by rw [hsize]; exact hc.fin hfin)
  · rintro ⟨hfin, hlt⟩
    have := hc.fin hfin
    omega

/-- The values up to what is available have arrived. -/
theorem Assembled.available (h : Assembled a got finished s) :
    (∀ v, s.consumed ≤ v → v < s.consumed + s.available → s.rranges.Holds v) ∧
      ¬s.rranges.Holds (s.consumed + s.available) := by
  obtain ⟨hle, hmiss⟩ := RangeSet.contiguousFrom_spec h.held.order s.consumed
  have hsum : s.consumed + s.available = s.rranges.contiguousFrom s.consumed := by
    unfold QuicStream.available
    omega
  rw [hsum]
  exact ⟨fun v hlo hhi => RangeSet.holds_of_contiguousFrom ⟨hlo, hhi⟩, hmiss⟩

/-- The application takes `n` of the bytes that are available. -/
theorem Assembled.consume {a : Bytes} {got : List (Nat × Nat)} {finished : Bool} {s : QuicStream}
    (h : Assembled a got finished s) {n : Nat} (hn : n ≤ s.available) :
    Assembled a got finished (s.consume n) := by
  have hcons := QuicStream.consumed_consume s n
  have hall := h.available.1
  have hbelow : ∀ v, v < s.consumed + n → s.rranges.Holds v := by
    intro v hv
    by_cases hlo : v < s.consumed
    · exact h.consumed v hlo
    · exact hall v (by omega) (by omega)
  have hshort : s.consumed + n ≤ a.length := by
    have hroff : s.roff ≤ s.consumed := Nat.le_add_right _ _
    by_cases h0 : n = 0
    · have := h.short
      omega
    have := (h.held.bytes (s.consumed + n - 1) (by omega) (hbelow _ (by omega))).1
    omega
  unfold QuicStream.consume at hcons ⊢
  split
  next hempty =>
    rw [if_pos hempty] at hcons
    -- the buffer is dropped: nothing that arrived lies behind it
    have hnone : Held a (s.rbuf.drop (s.rpos + n)) (s.roff + (s.rpos + n)) s.rranges :=
      h.held.shift h.held.order fun v _ hv => hv
    rw [hempty, List.drop_eq_nil_of_le (Nat.le_refl _), ← hempty] at hnone
    exact ⟨hnone, h.arrived, (by rw [hcons]; exact hbelow), (by rw [hcons]; exact hshort), h.below, h.highest,
      h.finSeen, h.finalSize, h.resetReceived⟩
  next hrest =>
    rw [if_neg hrest] at hcons
    exact ⟨h.held, h.arrived, (by rw [hcons]; exact hbelow), (by rw [hcons]; exact hshort), h.below, h.highest,
      h.finSeen, h.finalSize, h.resetReceived⟩

/-- A piece is stored; what of it was consumed already is cut off. -/
theorem Assembled.store (h : Assembled a got finished s) (hp : Piece a offset data)
    (hh : offset + data.length ≤ s.highest) :
    Assembled a (got ++ [(offset, data.length)]) finished (s.store offset data) := by
  have hcons := QuicStream.consumed_store s offset data
  have hbelow : ∀ g ∈ got ++ [(offset, data.length)], g.1 + g.2 ≤ s.highest := by
    intro g hg
    rcases List.mem_append.mp hg with hg | hg
    · exact h.below g hg
    rw [List.mem_singleton.mp hg]
    exact hh
  unfold QuicStream.store at hcons ⊢
  split
  next hgt =>
    rw [if_pos hgt] at hcons
    have hroff : s.roff ≤ s.consumed := Nat.le_add_right _ _
    have hpiece := hp.drop (show s.consumed - offset ≤ data.length by omega)
    have hwrite := h.held.write (show s.roff ≤ offset + (s.consumed - offset) by omega) hpiece
    obtain ⟨-, hset⟩ := RangeSet.add_len_spec h.held.order (offset + (s.consumed - offset))
      (data.drop (s.consumed - offset)).length
    have hset' : ∀ v, (s.rranges.add (offset + (s.consumed - offset))
        (offset + (s.consumed - offset) + (data.drop (s.consumed - offset)).length)).Holds v
          ↔ Arrived (got ++ [(offset, data.length)]) v := by
      intro v
      rw [hset, arrived_append, ← h.arrived, List.length_drop]
      constructor
      · rintro (hv | hv)
        · exact .inl hv
        · exact .inr (by omega)
      · rintro (hv | hv)
        · exact .inl hv
        · -- below the consumed position everything arrived before
          by_cases hlow : v < s.consumed
          · exact .inl (h.consumed v hlow)
          · exact .inr (by omega)
    exact ⟨hwrite, hset', fun v hv => (hset v).mpr (.inl (h.consumed v (by rwa [hcons] at hv))),
      (by rw [hcons]; exact h.short), hbelow, h.highest, h.finSeen, h.finalSize, h.resetReceived⟩
  next hle =>
    refine ⟨h.held, ?_, h.consumed, h.short, hbelow, h.highest, h.finSeen, h.finalSize, h.resetReceived⟩
    intro v
    rw [arrived_append, h.arrived]
    constructor
    · exact .inl
    · rintro (hv | hv)
      · exact hv
      · exact (h.arrived v).mp (h.consumed v (by omega))

/-- A frame of no bytes. -/
theorem Assembled.empty (h : Assembled a got finished s) (hh : offset ≤ s.highest) :
    Assembled a (got ++ [(offset, 0)]) finished s := by
  refine ⟨h.held, ?_, h.consumed, h.short, ?_, h.highest, h.finSeen, h.finalSize, h.resetReceived⟩
  · intro v
    rw [arrived_append, h.arrived]
    exact ⟨.inl, fun hv => hv.resolve_right (by omega)⟩
  · intro g hg
    rcases List.mem_append.mp hg with hg | hg
    · exact h.below g hg
    rw [List.mem_singleton.mp hg]
    exact hh

/-- A frame of the peer. -/
theorem Assembled.accept (h : Assembled a got finished s) (hc : Consistent a offset data fin) :
    Assembled a (got ++ [(offset, data.length)]) (finished || fin) (s.accept offset data fin) := by
  have hle := hc.piece.1
  have hhigh := h.highest
  -- the final size and the highest offset are noted first
  have hnoted : ∀ s₁ : QuicStream,
      s₁ = (if !s.finSeen && fin then { s with finSeen := true, finalSize := offset + data.length } else s) →
      Assembled a got (finished || fin) { s₁ with highest := max s.highest (offset + data.length) } := by
    rintro s₁ rfl
    have hb : ∀ g ∈ got, g.1 + g.2 ≤ max s.highest (offset + data.length) := fun g hg =>
      Nat.le_trans (h.below g hg) (Nat.le_max_left ..)
    split
    next hnew =>
      simp only [Bool.and_eq_true, Bool.not_eq_eq_eq_not, Bool.not_true] at hnew
      refine ⟨h.held, h.arrived, h.consumed, h.short, hb, ?_, ?_, fun _ => hc.fin hnew.2, h.resetReceived⟩
      · show max s.highest (offset + data.length) ≤ a.length
        omega
      · rw [hnew.2, Bool.or_true]
    next hold =>
      have hsame : (finished || fin) = finished := by
        have := h.finSeen
        cases finished <;> cases fin <;> simp_all
      rw [hsame]
      exact ⟨h.held, h.arrived, h.consumed, h.short, hb, (by show max s.highest (offset + data.length) ≤ a.length; omega),
        h.finSeen, h.finalSize, h.resetReceived⟩
  have hh : offset + data.length ≤ max s.highest (offset + data.length) := Nat.le_max_right ..
  unfold QuicStream.accept
  dsimp only
  split
  · exact (hnoted _ rfl).store hc.piece hh
  next hnil =>
  have hnil : data = [] := not_not.mp hnil
  subst hnil
  exact (hnoted _ rfl).empty hh

/-- The stream after `stream_consumed`: the bytes taken, the limits perhaps moved. -/
theorem streamConsumed_inbound (c : Conn) (p : Ptr) (n : Nat) :
    SameInbound ((c.streams p).consume n) ((c.streamConsumed p n).streams p) := by
  have hbase : ((c.modify p fun s => s.consume n).creditConnection n).streams p = (c.streams p).consume n := by
    have hstreams : ((c.modify p fun s => s.consume n).creditConnection n).streams
        = (c.modify p fun s => s.consume n).streams := by
      unfold Conn.creditConnection
      dsimp only
      split <;> rfl
    rw [hstreams, Conn.streams_modify_self]
  unfold Conn.streamConsumed
  dsimp only
  split
  · rw [Conn.streams_grant, hbase]
    exact ⟨rfl, rfl, rfl, rfl, rfl, rfl, rfl, rfl⟩
  rw [hbase]
  exact ⟨rfl, rfl, rfl, rfl, rfl, rfl, rfl, rfl⟩

theorem grant_knows {c : Conn} {q : Ptr} (h : c.Knows id p) (maxRecv : Nat) :
    (c.grant q maxRecv).Knows id p := by
  obtain ⟨ps, -, he⟩ := Conn.grant_eq c q maxRecv
  rw [he]
  exact h.of_modify (f := Conn.granted maxRecv) rfl rfl rfl rfl rfl rfl

theorem streamConsumed_knows {c : Conn} (h : c.Knows id p) (n : Nat) : (c.streamConsumed p n).Knows id p := by
  have hbase : ((c.modify p fun s => s.consume n).creditConnection n).Knows id p := by
    have ho : ((c.streams p).consume n).isOpen = (c.streams p).isOpen := by
      unfold QuicStream.consume
      split <;> rfl
    have hi : ((c.streams p).consume n).id = (c.streams p).id := by
      unfold QuicStream.consume
      split <;> rfl
    unfold Conn.creditConnection
    dsimp only
    split
    · exact h.of_modify (q := p) (f := fun s => s.consume n) rfl rfl rfl rfl ho hi
    · exact h.of_modify (q := p) (f := fun s => s.consume n) rfl rfl rfl rfl ho hi
  unfold Conn.streamConsumed
  dsimp only
  split
  · exact grant_knows hbase _
  · exact hbase

theorem streamConsumed_ended (c : Conn) (p : Ptr) (n : Nat) : (c.streamConsumed p n).ended = c.ended := by
  have hbase : ((c.modify p fun s => s.consume n).creditConnection n).ended = c.ended := by
    unfold Conn.creditConnection
    dsimp only
    split <;> rfl
  unfold Conn.streamConsumed
  dsimp only
  split
  · obtain ⟨ps, -, he⟩ := Conn.grant_eq ((c.modify p fun s => s.consume n).creditConnection n) p
      (add64 (((c.modify p fun s => s.consume n).creditConnection n).streams p).consumed
        (((c.modify p fun s => s.consume n).creditConnection n).streams p).window)
    rw [he]
    exact hbase
  · exact hbase

theorem accept_isOpen (s : QuicStream) (offset : Nat) (data : Bytes) (fin : Bool) :
    (s.accept offset data fin).isOpen = s.isOpen ∧ (s.accept offset data fin).id = s.id := by
  unfold QuicStream.accept QuicStream.store
  dsimp only
  repeat' split
  all_goals exact ⟨rfl, rfl⟩

/-- What holds in every run of a stream. -/
structure RunInv (a : Bytes) (id : Nat) (p : Ptr) (r : Run) : Prop where
  knows : r.c.Knows id p
  alive : r.c.ended = false
  assembled : Assembled a r.got r.finished (r.c.streams p)
  handed : r.handed = a.take (r.c.streams p).consumed

/-- The bytes an application reads are the next ones. -/
theorem Assembled.read {a : Bytes} {got : List (Nat × Nat)} {finished : Bool} {s : QuicStream}
    (h : Assembled a got finished s) {n : Nat} (hn : n ≤ s.available) :
    (s.rbuf.drop s.rpos).take n = (a.drop s.consumed).take n := by
  have hpos : s.rpos = s.consumed - s.roff := by
    unfold QuicStream.consumed
    omega
  rw [hpos]
  exact h.held.read (Nat.le_add_right _ _) fun v hlo hhi => h.available.1 v hlo (by omega)

theorem streamRun_inv (h : StreamRun a id p r) : RunInv a id p r := by
  induction h with
  | start hk hf he =>
    refine ⟨hk, he, Assembled.fresh hf, ?_⟩
    unfold QuicStream.consumed
    rw [hf.consumed.1, hf.consumed.2]
    rfl
  | @frame r offset data fin _ hc hw sec ih =>
    have happ : r.c.handleFrame (.stream id offset data fin) sec
        = (r.c.addReceived (offset + data.length - (r.c.streams p).highest)).modify p fun s =>
            s.accept offset data fin := by
      unfold Conn.handleFrame
      dsimp only
      rw [ih.knows.incomingStream]
      exact Conn.applyStreamFrame_within hw ih.assembled.resetReceived (ih.assembled.not_contradicts hc)
    have hopen := accept_isOpen (r.c.streams p) offset data fin
    refine ⟨?_, ?_, ?_, ?_⟩
    · rw [happ]
      exact ih.knows.of_modify (q := p) (f := fun s => s.accept offset data fin) rfl rfl rfl rfl hopen.1 hopen.2
    · rw [happ]
      exact ih.alive
    · rw [happ, Conn.streams_modify_self]
      exact ih.assembled.accept hc
    · have hcons : ((r.c.streams p).accept offset data fin).consumed = (r.c.streams p).consumed := by
        unfold QuicStream.accept
        dsimp only
        split
        · rw [QuicStream.consumed_store]
          split <;> rfl
        · split <;> rfl
      rw [happ, Conn.streams_modify_self]
      show r.handed = a.take ((r.c.streams p).accept offset data fin).consumed
      rw [hcons]
      exact ih.handed
  | @consume r n _ hn ih =>
    have hsame := streamConsumed_inbound r.c p n
    have hcons : ((r.c.streamConsumed p n).streams p).consumed = (r.c.streams p).consumed + n := by
      unfold QuicStream.consumed
      rw [hsame.roff, hsame.rpos]
      exact QuicStream.consumed_consume _ n
    refine ⟨streamConsumed_knows ih.knows n, (streamConsumed_ended ..).trans ih.alive,
      (ih.assembled.consume hn).same hsame, ?_⟩
    rw [hcons, ih.handed, ih.assembled.read hn, List.take_add]
  | elsewhere _ hs hk he ih =>
    refine ⟨hk, he, ih.assembled.same hs, ?_⟩
    unfold QuicStream.consumed
    rw [hs.roff, hs.rpos]
    exact ih.handed

/-! ## §4. CRYPTO streams. -/

/-- `CryptoIn`. -/
structure CryptoIn where
  buf : Bytes := []
  ranges : RangeSet := []
  delivered : Nat := 0

/-- `on_crypto` on the stream of one space: the stream after, and the bytes handed to TLS; nothing
when the frame lies too far ahead and the connection fails with CRYPTO_BUFFER_EXCEEDED. -/
def CryptoIn.onCrypto (limit : Nat) (ci : CryptoIn) (offset : Nat) (data : Bytes) : Option (CryptoIn × Bytes) :=
  let end_ := offset + data.length
  if end_ ≤ ci.delivered then some (ci, [])
  else if end_ > ci.delivered + limit then none
  else
    let cut := ci.delivered - offset
    let data := data.drop cut
    let offset := offset + cut
    if offset = ci.delivered ∧ ci.ranges = [] then some ({ ci with delivered := end_ }, data)
    else
      let buf := writeAt ci.buf (offset - ci.delivered) data
      let ranges := ci.ranges.add offset end_
      let avail := ranges.contiguousFrom ci.delivered
      if avail > ci.delivered then
        let n := avail - ci.delivered
        some ({ buf := buf.drop n, ranges := ranges.removeBelow avail, delivered := avail }, buf.take n)
      else some ({ ci with buf, ranges }, [])

/-- The CRYPTO streams of the spaces, and what came and went on each. -/
structure Intake where
  crypto : Space → CryptoIn := fun _ => {}
  handed : Space → Bytes := fun _ => []
  got : Space → List (Nat × Nat) := fun _ => []

/-- A CRYPTO frame taken in. -/
def Intake.take (k : Intake) (space : Space) (offset len : Nat) (r : CryptoIn × Bytes) : Intake where
  crypto := Function.update k.crypto space r.1
  handed := Function.update k.handed space (k.handed space ++ r.2)
  got := Function.update k.got space (k.got space ++ [(offset, len)])

/-- The runs of the CRYPTO streams on frames that are `ok`. -/
inductive CryptoRun (limit : Nat) (ok : Space → Nat → Bytes → Prop) : Intake → Prop
  | start : CryptoRun limit ok {}
  | frame {k : Intake} {space : Space} {offset : Nat} {data : Bytes} {r : CryptoIn × Bytes}
      (h : CryptoRun limit ok k) (hok : ok space offset data)
      (hr : (k.crypto space).onCrypto limit offset data = some r) :
    CryptoRun limit ok (k.take space offset data.length r)

/-- The memory of a CRYPTO stream: the ranges lie in the buffer, the buffer within the limit. -/
structure Bounded (limit : Nat) (ci : CryptoIn) : Prop where
  order : RangeSet.Above 0 ci.ranges
  inside : ∀ v, ci.ranges.Holds v → ci.delivered ≤ v ∧ v < ci.delivered + ci.buf.length
  buf : ci.buf.length ≤ limit

/-- A CRYPTO stream after the pieces `got` of `a`. -/
structure Collected (a : Bytes) (got : List (Nat × Nat)) (ci : CryptoIn) : Prop where
  held : Held a ci.buf ci.delivered ci.ranges
  arrived : ∀ v, Arrived got v ↔ v < ci.delivered ∨ ci.ranges.Holds v
  missing : ¬ci.ranges.Holds ci.delivered
  short : ci.delivered ≤ a.length

/-- The three outcomes of a frame that is taken in. -/
theorem CryptoIn.onCrypto_cases {r : CryptoIn × Bytes} (h : ci.onCrypto limit offset data = some r) :
    (offset + data.length ≤ ci.delivered ∧ r = (ci, [])) ∨
      ∃ start src, start = max offset ci.delivered ∧ src = data.drop (ci.delivered - offset) ∧
        start + src.length = offset + data.length ∧ ci.delivered < offset + data.length ∧
        offset + data.length ≤ ci.delivered + limit ∧
        ((start = ci.delivered ∧ ci.ranges = [] ∧ r = ({ ci with delivered := offset + data.length }, src)) ∨
          ∃ buf ranges avail, buf = writeAt ci.buf (start - ci.delivered) src ∧
            ranges = ci.ranges.add start (start + src.length) ∧ avail = ranges.contiguousFrom ci.delivered ∧
            ((ci.delivered < avail ∧
              r = ({ buf := buf.drop (avail - ci.delivered), ranges := ranges.removeBelow avail,
                     delivered := avail }, buf.take (avail - ci.delivered))) ∨
              (avail ≤ ci.delivered ∧ r = ({ ci with buf, ranges }, [])))) := by
  unfold onCrypto at h
  dsimp only at h
  split at h
  · next hold =>
    exact .inl ⟨hold, (Option.some.inj h).symm⟩
  next hnew =>
  split at h
  · cases h
  next hfits =>
  have hlen : max offset ci.delivered + (data.drop (ci.delivered - offset)).length = offset + data.length := by
    rw [List.length_drop]
    omega
  have hstart : offset + (ci.delivered - offset) = max offset ci.delivered := by omega
  rw [hstart] at h
  refine .inr ⟨_, _, rfl, rfl, hlen, by omega, by omega, ?_⟩
  split at h
  · next hdirect =>
    exact .inl ⟨hdirect.1, hdirect.2, (Option.some.inj h).symm⟩
  next hbuffered =>
  refine .inr ⟨_, _, _, rfl, rfl, rfl, ?_⟩
  rw [hlen]
  split at h
  · next hready => exact .inl ⟨hready, (Option.some.inj h).symm⟩
  · next hwait => exact .inr ⟨by omega, (Option.some.inj h).symm⟩

/-- The memory stays within the limit, whatever the frame carries. -/
theorem Bounded.onCrypto (h : Bounded limit ci)
    {r : CryptoIn × Bytes} (hr : ci.onCrypto limit offset data = some r) : Bounded limit r.1 := by
  rcases CryptoIn.onCrypto_cases hr with ⟨-, rfl⟩ | ⟨start, src, hstart, -, hlen, hnew, hfits, hrest⟩
  · exact h
  rcases hrest with ⟨-, hnil, rfl⟩ | ⟨buf, ranges, avail, rfl, rfl, havail, hrest⟩
  · refine ⟨h.order, ?_, h.buf⟩
    intro v hv
    rw [hnil] at hv
    exact absurd hv (RangeSet.holds_nil v)
  obtain ⟨horder, hset⟩ := RangeSet.add_len_spec h.order start src.length
  have hbuf := length_writeAt ci.buf src (start - ci.delivered)
  have hlimit := h.buf
  have hin : ∀ v, (ci.ranges.add start (start + src.length)).Holds v → ci.delivered ≤ v ∧
      v < ci.delivered + (writeAt ci.buf (start - ci.delivered) src).length := by
    intro v hv
    rcases (hset v).mp hv with hv | hv
    · have := h.inside v hv
      omega
    · omega
  rcases hrest with ⟨hready, rfl⟩ | ⟨-, rfl⟩
  · obtain ⟨hcut, hcutset⟩ := @RangeSet.removeBelow_spec 0 avail _ horder
    -- the last byte handed out lies in the buffer
    have hspan : ci.delivered ≤ avail - 1 ∧
        avail - 1 < (ci.ranges.add start (start + src.length)).contiguousFrom ci.delivered := by omega
    refine ⟨hcut, ?_, ?_⟩
    · intro v hv
      obtain ⟨hv, hge⟩ := (hcutset v).mp hv
      have := hin v hv
      show avail ≤ v ∧ v < avail + ((writeAt ci.buf (start - ci.delivered) src).drop (avail - ci.delivered)).length
      rw [List.length_drop]
      omega
    · rw [List.length_drop]
      omega
  · refine ⟨horder, hin, ?_⟩
    show (writeAt ci.buf (start - ci.delivered) src).length ≤ limit
    omega

/-- The bytes a CRYPTO stream hands out are the next ones of the sequence. -/
structure Handed (a : Bytes) (ci : CryptoIn) (r : CryptoIn × Bytes) : Prop where
  delivered : r.1.delivered = ci.delivered + r.2.length
  bytes : r.2 = (a.drop ci.delivered).take r.2.length

/-- A piece of the sequence is taken in. -/
theorem Collected.onCrypto (h : Collected a got ci) (hp : Piece a offset data)
    {r : CryptoIn × Bytes} (hr : ci.onCrypto limit offset data = some r) :
    Collected a (got ++ [(offset, data.length)]) r.1 ∧ Handed a ci r := by
  rcases CryptoIn.onCrypto_cases hr with ⟨hold, rfl⟩ | ⟨start, src, hstart, hsrc, hlen, hnew, -, hrest⟩
  · -- a retransmission
    refine ⟨⟨h.held, ?_, h.missing, h.short⟩, rfl, rfl⟩
    intro v
    show _ ↔ v < ci.delivered ∨ ci.ranges.Holds v
    rw [arrived_append, h.arrived]
    constructor
    · rintro (hv | hv)
      · exact hv
      · exact .inl (by omega)
    · exact .inl
  have hpiece : Piece a start src := by
    clear hrest
    have hd := hp.drop (show ci.delivered - offset ≤ data.length by omega)
    rw [← hsrc] at hd
    have hs : offset + (ci.delivered - offset) = start := by omega
    rwa [hs] at hd
  have hends := hpiece.1
  rcases hrest with ⟨hhere, hnil, rfl⟩ | ⟨buf, ranges, avail, rfl, rfl, havail, hrest⟩
  · -- in order, nothing waits
    refine ⟨⟨?_, ?_, ?_, ?_⟩, ?_, ?_⟩
    · rw [hnil]
      exact ⟨trivial, fun v _ hv => absurd hv (RangeSet.holds_nil v)⟩
    · intro v
      show _ ↔ v < offset + data.length ∨ ci.ranges.Holds v
      rw [arrived_append, h.arrived]
      constructor
      · rintro ((hv | hv) | hv)
        · exact .inl (by omega)
        · exact .inr hv
        · exact .inl hv.2
      · rintro (hv | hv)
        · by_cases hlow : v < ci.delivered
          · exact .inl (.inl hlow)
          · exact .inr (by omega)
        · exact .inl (.inr hv)
    · rw [hnil]
      exact RangeSet.holds_nil _
    · show offset + data.length ≤ a.length
      omega
    · show offset + data.length = ci.delivered + src.length
      omega
    · rw [← hhere]
      exact hpiece.2
  obtain ⟨horder, hset⟩ := RangeSet.add_len_spec h.held.order start src.length
  have hwrite := h.held.write (show ci.delivered ≤ start by omega) hpiece
  obtain ⟨hge, hmiss⟩ := RangeSet.contiguousFrom_spec horder ci.delivered
  rw [← havail] at hge hmiss
  -- what has arrived, by the ranges after the frame
  have harr : ∀ v, Arrived (got ++ [(offset, data.length)]) v ↔
      v < ci.delivered ∨ (ci.ranges.add start (start + src.length)).Holds v := by
    intro v
    rw [arrived_append, h.arrived, hset]
    constructor
    · rintro ((hv | hv) | hv)
      · exact .inl hv
      · exact .inr (.inl hv)
      · by_cases hlow : v < ci.delivered
        · exact .inl hlow
        · exact .inr (.inr (by omega))
    · rintro (hv | hv | hv)
      · exact .inl (.inl hv)
      · exact .inl (.inr hv)
      · exact .inr (by omega)
  have hfill : ∀ v, ci.delivered ≤ v → v < avail → (ci.ranges.add start (start + src.length)).Holds v :=
    fun v hlo hhi => RangeSet.holds_of_contiguousFrom ⟨hlo, by omega⟩
  rcases hrest with ⟨hready, rfl⟩ | ⟨hwait, rfl⟩
  · -- the gap is closed: everything up to the next one goes
    obtain ⟨hcut, hcutset⟩ := @RangeSet.removeBelow_spec 0 avail _ horder
    have hbase : ci.delivered + (avail - ci.delivered) = avail := by omega
    have hread := hwrite.read (Nat.le_refl _) (n := avail - ci.delivered) fun v hlo hhi =>
      hfill v hlo (by omega)
    rw [Nat.sub_self, List.drop_zero] at hread
    have hlast := (hwrite.bytes (avail - 1) (by omega) (hfill _ (by omega) (by omega))).1
    have hcount : ((writeAt ci.buf (start - ci.delivered) src).take (avail - ci.delivered)).length
        = avail - ci.delivered := by
      rw [hread, List.length_take, List.length_drop]
      omega
    refine ⟨⟨?_, ?_, ?_, ?_⟩, ?_, ?_⟩
    · have hshift := hwrite.shift (n := avail - ci.delivered) hcut fun v _ hv => ((hcutset v).mp hv).1
      rwa [hbase] at hshift
    · intro v
      show _ ↔ v < avail ∨ _
      rw [harr, hcutset]
      constructor
      · rintro (hv | hv)
        · exact .inl (by omega)
        · by_cases hlow : v < avail
          · exact .inl hlow
          · exact .inr ⟨hv, by omega⟩
      · rintro (hv | hv)
        · by_cases hlow : v < ci.delivered
          · exact .inl hlow
          · exact .inr (hfill v (by omega) hv)
        · exact .inr hv.1
    · intro hv
      exact hmiss ((hcutset avail).mp hv).1
    · show avail ≤ a.length
      omega
    · rw [hcount, hbase]
    · rw [hcount]
      exact hread
  · have hsame : avail = ci.delivered := by omega
    refine ⟨⟨hwrite, harr, ?_, h.short⟩, rfl, rfl⟩
    rw [hsame] at hmiss
    exact hmiss

/-- In every run the memory of every CRYPTO stream is bounded. -/
theorem cryptoRun_bounded {ok : Space → Nat → Bytes → Prop} {k : Intake}
    (h : CryptoRun limit ok k) (space : Space) : Bounded limit (k.crypto space) := by
  induction h with
  | start => exact ⟨trivial, fun v hv => absurd hv (RangeSet.holds_nil v), Nat.zero_le _⟩
  | @frame k sp offset data r _ _ hr ih =>
    show Bounded limit (Function.update k.crypto sp r.1 space)
    by_cases hs : space = sp
    · subst hs
      rw [Function.update_self]
      exact ih.onCrypto hr
    · rw [Function.update_of_ne hs]
      exact ih

/-- In every run on pieces of the sequences, what was handed out is what lies before the first
missing byte. -/
theorem cryptoRun_collected {a : Space → Bytes} {k : Intake}
    (h : CryptoRun limit (fun sp => Piece (a sp)) k) (space : Space) :
    Collected (a space) (k.got space) (k.crypto space) ∧
      k.handed space = (a space).take (k.crypto space).delivered := by
  induction h with
  | start =>
    have hnone : ∀ v, Arrived [] v → False := by rintro v ⟨g, hg, -⟩; cases hg
    refine ⟨⟨⟨trivial, fun v _ hv => absurd hv (RangeSet.holds_nil v)⟩, ?_, RangeSet.holds_nil _, Nat.zero_le _⟩,
      rfl⟩
    intro v
    exact ⟨fun hv => (hnone v hv).elim, by
      rintro (hv | hv)
      · cases hv
      · exact absurd hv (RangeSet.holds_nil v)⟩
  | @frame k sp offset data r _ hok hr ih =>
    show Collected (a space) (Function.update k.got sp _ space) (Function.update k.crypto sp r.1 space) ∧
      Function.update k.handed sp _ space = (a space).take (Function.update k.crypto sp r.1 space).delivered
    by_cases hs : space = sp
    · subst hs
      obtain ⟨hcol, hhand⟩ := ih.1.onCrypto hok hr
      rw [Function.update_self, Function.update_self, Function.update_self]
      refine ⟨hcol, ?_⟩
      rw [ih.2, hhand.delivered, List.take_add, ← hhand.bytes]
    · rw [Function.update_of_ne hs, Function.update_of_ne hs, Function.update_of_ne hs]
      exact ih

/-! ## §5. Reassembly. -/

/-- A stream gives out its sequence: what it handed out, what it has ready, where it ends. -/
structure Exact (a : Bytes) (r : Run) (s : QuicStream) : Prop where
  handed : r.handed = a.take s.consumed
  inside : s.consumed + s.available ≤ a.length
  available : ∀ v, s.consumed ≤ v → v < s.consumed + s.available → Arrived r.got v
  missing : ¬Arrived r.got (s.consumed + s.available)
  readable : (s.rbuf.drop s.rpos).take s.available = (a.drop s.consumed).take s.available
  atEnd : s.atEnd = true ↔ r.finished = true ∧ s.consumed = a.length
  alive : r.c.ended = false

/-- A frame that contradicts the final size `size`, or sets one below what arrived. -/
def BadEnd (size : Nat) (r : Run) (end_ : Nat) (fin : Bool) : Prop :=
  (r.finished = true ∧ (size < end_ ∨ (fin = true ∧ end_ ≠ size))) ∨
    (r.finished = false ∧ fin = true ∧ ∃ g ∈ r.got, end_ < g.1 + g.2)

theorem RunInv.exact (h : RunInv a id p r) : Exact a r (r.c.streams p) where
  handed := h.handed
  inside := by
    have hs := h.assembled
    by_cases h0 : (r.c.streams p).available = 0
    · have := hs.short
      omega
    have hroff : (r.c.streams p).roff ≤ (r.c.streams p).consumed := Nat.le_add_right _ _
    have hlast := hs.available.1 ((r.c.streams p).consumed + (r.c.streams p).available - 1) (by omega) (by omega)
    have := (hs.held.bytes _ (by omega) hlast).1
    omega
  available := fun v hlo hhi => (h.assembled.arrived v).mp (h.assembled.available.1 v hlo hhi)
  missing := fun hv => h.assembled.available.2 ((h.assembled.arrived _).mpr hv)
  readable := h.assembled.read (Nat.le_refl _)
  atEnd := by
    unfold QuicStream.atEnd
    rw [h.assembled.finSeen]
    cases hf : r.finished with
    | false => simp
    | true =>
      rw [h.assembled.finalSize hf]
      simp
  alive := h.alive

theorem RunInv.bad_end (h : RunInv a id p r) (hw : offset + data.length ≤ (r.c.streams p).maxRecv)
    (hb : BadEnd a.length r (offset + data.length) fin) (sec : Int) :
    (r.c.handleFrame (.stream id offset data fin) sec).state = .closing ∧
      (r.c.handleFrame (.stream id offset data fin) sec).closeApp = false ∧
      (r.c.handleFrame (.stream id offset data fin) sec).closeCode = errFinalSize := by
  have hbad : Conn.Contradicts (r.c.streams p) offset data fin := by
    unfold Conn.Contradicts
    rw [h.assembled.finSeen]
    rcases hb with ⟨hf, hsize⟩ | ⟨hf, hfin, g, hg, hlt⟩
    · rw [hf, if_pos rfl, h.assembled.finalSize hf]
      exact hsize
    have := h.assembled.below g hg
    rw [hf, if_neg (by simp)]
    exact ⟨hfin, by omega⟩
  obtain ⟨reason, hfail⟩ := Conn.applyStreamFrame_contradicts
    (f := .stream id offset data fin) hw hbad
  have happ : r.c.handleFrame (.stream id offset data fin) sec
      = r.c.fail errFinalSize (Conn.Frame.type (.stream id offset data fin)) reason := by
    unfold Conn.handleFrame
    dsimp only
    rw [h.knows.incomingStream]
    exact hfail
  rw [happ]
  unfold Conn.fail
  rw [if_neg (by rw [h.alive]; simp)]
  exact ⟨rfl, rfl, rfl⟩

/-- Streams and CRYPTO streams give out the sequence the peer sends. -/
theorem reassembly : (∀ (a : Bytes) (id : Nat) (p : Ptr) (r : Run), StreamRun a id p r →
      Exact a r (r.c.streams p) ∧ ∀ (offset : Nat) (data : Bytes) (fin : Bool) (sec : Int),
        offset + data.length ≤ (r.c.streams p).maxRecv → BadEnd a.length r (offset + data.length) fin →
        (r.c.handleFrame (.stream id offset data fin) sec).state = .closing ∧
          (r.c.handleFrame (.stream id offset data fin) sec).closeApp = false ∧
          (r.c.handleFrame (.stream id offset data fin) sec).closeCode = errFinalSize) ∧
    (∀ (limit : Nat) (a : Space → Bytes) (k : Intake), CryptoRun limit (fun sp => Piece (a sp)) k →
      ∀ space : Space, k.handed space = (a space).take (k.crypto space).delivered ∧
        (∀ v, v < (k.crypto space).delivered → Arrived (k.got space) v) ∧
        ¬Arrived (k.got space) (k.crypto space).delivered) ∧
    (∀ (limit : Nat) (ok : Space → Nat → Bytes → Prop) (k : Intake), CryptoRun limit ok k → ∀ space : Space,
        (k.crypto space).buf.length ≤ limit ∧ (k.crypto space).ranges.length ≤ limit ∧
        ∀ (offset : Nat) (data : Bytes), offset + data.length ≤ (k.crypto space).delivered + limit →
          ((k.crypto space).onCrypto limit offset data).isSome = true) := by
  refine ⟨?_, ?_, ?_⟩
  · intro a id p r h
    have hinv := streamRun_inv h
    exact ⟨hinv.exact, fun offset data fin sec hw hb => hinv.bad_end hw hb sec⟩
  · intro limit a k h space
    obtain ⟨hcol, hhand⟩ := cryptoRun_collected h space
    refine ⟨hhand, fun v hv => (hcol.arrived v).mpr (.inl hv), fun hv => ?_⟩
    rcases (hcol.arrived _).mp hv with hv | hv
    · omega
    · exact hcol.missing hv
  · intro limit ok k h space
    have hb := cryptoRun_bounded h space
    refine ⟨hb.buf, ?_, ?_⟩
    · -- the ranges lie in a window of the buffer's length
      have hlow : RangeSet.Above (k.crypto space).delivered (k.crypto space).ranges := by
        cases hr : (k.crypto space).ranges with
        | nil => trivial
        | cons x xs =>
          have horder := hb.order
          rw [hr] at horder
          have := (hb.inside x.1 (by rw [hr]; exact ⟨x, List.mem_cons_self, Nat.le_refl _, horder.2.1⟩)).1
          exact ⟨this, horder.2⟩
      have := hlow.length_le fun v hv => (hb.inside v hv).2
      have := hb.buf
      omega
    · intro offset data hle
      unfold CryptoIn.onCrypto
      dsimp only
      split
      · rfl
      rw [if_neg (by omega)]
      repeat' split
      all_goals rfl

/-- A stream opened by its first frame. -/
def oneByteConn : Conn := ((Conn.create {}).openStream 0).1

/-- A gap, an overlap, a repeat and an empty frame with FIN, with three bytes read in between; and a
    CRYPTO stream that keeps a frame until the one before it comes. -/
theorem reassembly_outOfOrder :
    (∃ r : Run, r.got = [(2, 2), (0, 1), (0, 3), (2, 2), (4, 0)] ∧ r.handed = [1, 2, 3] ∧
      (r.c.streams 3).available = 1 ∧ r.finished = true ∧ Exact [1, 2, 3, 4] r (r.c.streams 3)) ∧
    ∃ k : Intake, (k.got .initial = [(2, 2), (0, 2)] ∧ (k.crypto .initial).delivered = 4) ∧
      k.handed .initial = [1, 2, 3, 4] := by
  have h₀ : StreamRun [1, 2, 3, 4] 0 3 { c := oneByteConn } :=
    .start ⟨by decide, by decide, by decide⟩ ⟨rfl, ⟨rfl, rfl⟩, rfl, rfl, rfl, rfl⟩ rfl
  have piece : ∀ offset n, offset + n ≤ 4 →
      Consistent [1, 2, 3, 4] offset (([1, 2, 3, 4].drop offset).take n) false := by
    intro offset n hle
    have hlen : (([1, 2, 3, 4] : Bytes).drop offset |>.take n).length = n := by simp; omega
    exact ⟨⟨by rw [hlen]; exact hle, by rw [hlen]⟩, nofun⟩
  have h₁ := h₀.frame (piece 2 2 (by decide)) ⟨by decide, by decide⟩ 0
  have h₂ := h₁.frame (piece 0 1 (by decide)) ⟨by decide, by decide⟩ 0
  have h₃ := h₂.frame (piece 0 3 (by decide)) ⟨by decide, by decide⟩ 0
  have h₄ := h₃.consume (n := 3) (by decide)
  have h₅ := h₄.frame (piece 2 2 (by decide)) ⟨by decide, by decide⟩ 0
  have hend : Consistent [1, 2, 3, 4] 4 [] true := ⟨⟨by decide, rfl⟩, fun _ => rfl⟩
  have h₆ := h₅.frame hend ⟨by decide, by decide⟩ 0
  refine ⟨⟨_, rfl, by decide, by decide, rfl, (reassembly.1 _ _ _ _ h₆).1⟩, ?_⟩
  have k₀ : CryptoRun 4096 (fun _ => Piece [1, 2, 3, 4]) {} := .start
  have hgap : Piece [1, 2, 3, 4] 2 [3, 4] := ⟨by decide, rfl⟩
  have hfront : Piece [1, 2, 3, 4] 0 [1, 2] := ⟨by decide, rfl⟩
  have k₁ := @CryptoRun.frame _ _ _ .initial _ _ _ k₀ hgap (Option.some_get (by decide)).symm
  have k₂ := @CryptoRun.frame _ _ _ .initial _ _ _ k₁ hfront (Option.some_get (by decide)).symm
  refine ⟨_, ⟨rfl, by decide⟩, (reassembly.2.1 4096 (fun _ => [1, 2, 3, 4]) _ k₂ .initial).1⟩

/-- All bytes up to the final size are consumed, but no FIN came yet: not at the end. -/
theorem no_fin_yet : ¬∀ (a : Bytes) (id : Nat) (p : Ptr) (r : Run), StreamRun a id p r →
      ((r.c.streams p).atEnd = true ↔ (r.c.streams p).consumed = a.length) := by
  intro hall
  have hstart : StreamRun [1] 0 3 { c := oneByteConn } :=
    .start ⟨by decide, by decide, by decide⟩ ⟨rfl, ⟨rfl, rfl⟩, rfl, rfl, rfl, rfl⟩ rfl
  have hpiece : Consistent [1] 0 [1] false := ⟨⟨by decide, rfl⟩, by simp⟩
  have hwithin : oneByteConn.Within 3 0 [1] := ⟨by decide, by decide⟩
  have hframe := hstart.frame hpiece hwithin 0
  have hread := hframe.consume (n := 1) (by decide)
  cases (hall _ _ _ _ hread).mpr rfl

end Agensio.Quic
