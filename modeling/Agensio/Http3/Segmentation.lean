/-
  Agensio.Http3.Segmentation — the control stream in pieces.

  The parser is compared with one that reads byte by byte
  (`Lib/FrameStream`), whose result cannot depend on how the bytes were
  split.  The two agree unless the parser reads a length past the bytes
  that arrived, stops behind an empty frame with bytes left, or runs out
  of its 256 rounds.

  Main results:
    * `control_stream_split` — where none of the three happens, a stream
      in pieces and in one come to the same, and no byte is consumed
      before it arrived;
    * `length_read_past_arrival` — SETTINGS cut between type and length.
-/
import Agensio.Http3.Control

namespace Agensio.Http3

open Agensio.Lib Agensio.Quic

/-! ## §1. The stream read byte by byte. -/

/-- What one event of the byte-wise reader does; after an error nothing. -/
def Progress.act (p : Progress) (e : FrameEvent UInt8 Nat) : Progress :=
  if p.error.isSome then p
  else
    match e with
    | .header _ type len => p.onHeader type len
    | .payload type b => p.onPayload type [b]
    | .done type => p.onDone type

/-- The frames of a control stream, read byte by byte. -/
def framesOf (bs : Bytes) : FrameMode UInt8 Nat × List (FrameEvent UInt8 Nat) :=
  frameHeader.feed (.between []) bs

/-- The bytes of a header that is not complete. -/
def heldBytes : FrameMode UInt8 Nat → Bytes
  | .between held => held
  | .inside _ _ => []

/-- What a control stream of these bytes comes to. -/
def progressOf (a : Bytes) (fin : Bool) : Progress :=
  match readVarint a a.length with
  | none => {}
  | some (type, n) =>
    if type = 0x00 then
      let p := (framesOf (a.drop n)).2.foldl Progress.act {}
      if fin && (heldBytes (framesOf (a.drop n)).1).isEmpty then p.fail closedCriticalStream else p
    else {}

/-- The bytes that wait for more. -/
def waiting (a : Bytes) : Bytes :=
  match readVarint a a.length with
  | none => a
  | some (type, n) => if type = 0x00 then heldBytes (framesOf (a.drop n)).1 else a.drop n

theorem foldl_act_of_error {p : Progress} (h : p.error.isSome = true) (es : List (FrameEvent UInt8 Nat)) :
    es.foldl Progress.act p = p := by
  induction es with
  | nil => rfl
  | cons e es ih =>
    rw [List.foldl_cons]
    have hone : p.act e = p := if_pos h
    rw [hone]
    exact ih

theorem onPayload_error (p : Progress) (type : Nat) (chunk : Bytes) :
    (p.onPayload type chunk).error = p.error := by
  unfold Progress.onPayload
  split <;> rfl

/-- Payload byte by byte is payload in one piece. -/
theorem foldl_act_payload {p : Progress} (h : p.error = none) (type : Nat) (chunk : Bytes) :
    (chunk.map (FrameEvent.payload type)).foldl Progress.act p = p.onPayload type chunk := by
  induction chunk generalizing p with
  | nil =>
    show p = p.onPayload type []
    unfold Progress.onPayload
    split
    · rw [List.append_nil]
    · rfl
  | cons b bs ih =>
    rw [List.map_cons, List.foldl_cons]
    have hone : p.act (.payload type b) = p.onPayload type [b] := by
      unfold Progress.act
      rw [h]
      rfl
    rw [hone, ih ((onPayload_error p type [b]).trans h)]
    unfold Progress.onPayload
    split
    · simp
    · rfl

/-! ## §2. The buffer of an in-order stream. -/

/-- The stream holds the bytes `a` that arrived in order, some of them consumed. -/
structure InOrder (q : QuicStream) (a : Bytes) : Prop where
  highest : q.highest = a.length
  ranges : q.rranges = if a = [] then [] else [(0, a.length)]
  consumed_le : q.consumed ≤ a.length
  buf : q.rbuf = a.drop q.roff

variable {q : QuicStream} {a : Bytes}

theorem InOrder.available (h : InOrder q a) : q.available = a.length - q.consumed := by
  unfold QuicStream.available
  rw [h.ranges]
  have hle := h.consumed_le
  generalize q.consumed = x at hle
  by_cases ha : a = []
  · subst ha
    rw [if_pos rfl]
    simp only [List.length_nil] at hle ⊢
    show x - x = 0 - x
    omega
  · rw [if_neg ha]
    unfold RangeSet.contiguousFrom
    by_cases hx : x < a.length
    · simp [hx]
    simp [hx]
    omega

theorem InOrder.unread (h : InOrder q a) : q.rbuf.drop q.rpos = a.drop q.consumed := by
  rw [h.buf, List.drop_drop]
  rfl

theorem InOrder.consume {q : QuicStream} {a : Bytes} (h : InOrder q a) {n : Nat}
    (hn : n ≤ a.length - q.consumed) : InOrder (q.consume n) a := by
  have hle := h.consumed_le
  have hcons := QuicStream.consumed_consume q n
  unfold QuicStream.consume at hcons ⊢
  split
  next hall =>
    rw [if_pos hall] at hcons
    refine ⟨h.highest, h.ranges, by omega, ?_⟩
    show [] = a.drop (q.roff + (q.rpos + n))
    rw [h.buf, List.length_drop] at hall
    unfold QuicStream.consumed at hle hn
    rw [List.drop_eq_nil_of_le]
    omega
  next hsome =>
    rw [if_neg hsome] at hcons
    exact ⟨h.highest, h.ranges, by omega, h.buf⟩

/-- Storing and consuming bytes leave the end of the stream where it is. -/
theorem store_end (q : QuicStream) (offset : Nat) (data : Bytes) :
    (q.store offset data).finSeen = q.finSeen ∧ (q.store offset data).finalSize = q.finalSize := by
  unfold QuicStream.store
  split <;> exact ⟨rfl, rfl⟩

theorem consume_end (q : QuicStream) (n : Nat) :
    (q.consume n).finSeen = q.finSeen ∧ (q.consume n).finalSize = q.finalSize := by
  unfold QuicStream.consume
  split <;> exact ⟨rfl, rfl⟩

theorem writeAt_end {buf : Bytes} {n : Nat} (h : buf.length = n) (src : Bytes) :
    writeAt buf n src = buf ++ src := by
  unfold writeAt
  dsimp only
  rw [List.take_append_of_le_length (by omega), List.take_of_length_le (by omega),
    List.drop_eq_nil_of_le (by simp only [List.length_append, List.length_replicate]; omega),
    List.append_nil]

theorem add_end {data : Bytes} (hdata : data ≠ []) :
    RangeSet.add (if a = [] then [] else [(0, a.length)]) a.length (a.length + data.length) =
      if a ++ data = [] then [] else [(0, (a ++ data).length)] := by
  have hpos : 0 < data.length := List.length_pos_iff.mpr hdata
  have hne : a ++ data ≠ [] := by
    intro h
    exact hdata (List.append_eq_nil_iff.mp h).2
  rw [if_neg hne, List.length_append]
  unfold RangeSet.add
  rw [if_neg (by omega)]
  by_cases ha : a = []
  · rw [if_pos ha, ha]
    simp
  rw [if_neg ha]
  simp [RangeSet.absorb]

theorem InOrder.store {data : Bytes} (h : InOrder q a) (hdata : data ≠ []) (fin : Bool) (size : Nat) :
    InOrder (QuicStream.store { q with highest := a.length + data.length, finSeen := fin,
                                       finalSize := size } a.length data) (a ++ data) := by
  have hpos : 0 < data.length := List.length_pos_iff.mpr hdata
  have hle : q.consumed ≤ a.length := h.consumed_le
  have hroff : q.roff ≤ q.consumed := Nat.le_add_right _ _
  unfold QuicStream.store
  have hcons : QuicStream.consumed { q with highest := a.length + data.length, finSeen := fin,
                                            finalSize := size } = q.consumed := rfl
  rw [hcons, if_pos (by omega), Nat.sub_eq_zero_of_le hle]
  refine ⟨?_, ?_, ?_, ?_⟩
  · simp
  · rw [h.ranges]
    exact add_end hdata
  · show q.consumed ≤ _
    simp only [List.length_append]
    omega
  · show writeAt q.rbuf (a.length - q.roff) data = (a ++ data).drop q.roff
    rw [h.buf, writeAt_end (by rw [List.length_drop]), List.drop_append_of_le_length (by omega)]

/-! ## §3. The conditions. -/

/-- The length of a frame arrived whole with its type, or its first byte shows that it takes more
    bytes than there are. -/
def headerWhole (u : Bytes) : Prop :=
  match readVarint u u.length with
  | none => True
  | some (_, n) =>
    match u.drop n with
    | [] => False
    | b :: _ => varintLen b ≤ u.length - n ∨ u.length < varintLen b

instance : DecidablePred headerWhole := fun u =>
  match h : readVarint u u.length with
  | none => isTrue (by unfold headerWhole; rw [h]; trivial)
  | some (_, n) =>
    match hd : u.drop n with
    | [] => isFalse (by unfold headerWhole; rw [h]; dsimp only; rw [hd]; exact id)
    | b :: _ =>
      decidable_of_iff (varintLen b ≤ u.length - n ∨ u.length < varintLen b)
        (by unfold headerWhole; rw [h]; dsimp only; rw [hd])

namespace Control

/-- The bytes that arrived and were not consumed. -/
def unread (c : Control) : Bytes := (c.q.rbuf.drop c.q.rpos).take c.q.available

/-- Nothing can be done before more bytes arrive, or at all. -/
def Settled (c : Control) : Prop :=
  c.progress.error.isSome = true ∨ c.q.available = 0 ∨
    (c.inFrame = false ∧ readFrameHeader c.unread = none)

instance (c : Control) : Decidable c.Settled := inferInstanceAs (Decidable (_ ∨ _ ∨ _))

/-- The condition on a round: a header is whole, a frame with bytes behind it is not empty. -/
def Orderly (c : Control) : Prop :=
  (c.inFrame = false → headerWhole c.unread) ∧ (c.inFrame = true → c.frameRemaining ≠ 0)

instance (c : Control) : Decidable c.Orderly := inferInstanceAs (Decidable (_ ∧ _))

/-- Each round of the loop, and nothing left when the rounds are used up. -/
def OrderlyLoop (beyond : Bytes) : Nat → Control → Prop
  | 0, c => c.Settled
  | n + 1, c =>
    c.progress.error.isSome = true ∨ c.q.available = 0 ∨
      (c.Orderly ∧ ((c.round beyond).2 = true → OrderlyLoop beyond n (c.round beyond).1))

instance OrderlyLoop.decidable (beyond : Bytes) : ∀ n c, Decidable (OrderlyLoop beyond n c)
  | 0, c => inferInstanceAs (Decidable c.Settled)
  | n + 1, c =>
    have : Decidable (OrderlyLoop beyond n (c.round beyond).1) := OrderlyLoop.decidable beyond n _
    inferInstanceAs (Decidable (_ ∨ _ ∨ (_ ∧ (_ → _))))

/-- The condition on an arrival. -/
def OrderlyArrival (beyond : Bytes) (c : Control) (data : Bytes) (fin : Bool) : Prop :=
  match (c.received data fin).readType beyond with
  | none => True
  | some c' => c'.uniType = 0x00 → c'.OrderlyLoop beyond 256

instance (beyond : Bytes) (c : Control) (data : Bytes) (fin : Bool) :
    Decidable (c.OrderlyArrival beyond data fin) :=
  match h : (c.received data fin).readType beyond with
  | none => isTrue (by unfold OrderlyArrival; rw [h]; trivial)
  | some c' =>
    decidable_of_iff (c'.uniType = 0x00 → c'.OrderlyLoop beyond 256)
      (by unfold OrderlyArrival; rw [h])

/-- The condition on every arrival of a stream. -/
def OrderlyAll (beyond : Bytes) (fin : Bool) : Control → List Bytes → Prop
  | _, [] => True
  | c, [b] => c.OrderlyArrival beyond b fin
  | c, b :: b' :: bs =>
    c.OrderlyArrival beyond b false ∧ OrderlyAll beyond fin (c.arrive beyond b false) (b' :: bs)

instance OrderlyAll.decidable (beyond : Bytes) (fin : Bool) : ∀ bs c,
    Decidable (OrderlyAll beyond fin c bs)
  | [], _ => isTrue trivial
  | [b], c => inferInstanceAs (Decidable (c.OrderlyArrival beyond b fin))
  | b :: b' :: bs, c =>
    have : Decidable (OrderlyAll beyond fin (c.arrive beyond b false) (b' :: bs)) :=
      OrderlyAll.decidable beyond fin (b' :: bs) _
    inferInstanceAs (Decidable (_ ∧ _))

/-! ## §4. One round. -/

variable {c : Control} {n : Nat} {fin : Bool}

theorem unread_eq {a : Bytes} (h : InOrder c.q a) : c.unread = a.drop c.q.consumed := by
  unfold unread
  rw [h.unread, h.available, List.take_of_length_le]
  exact Nat.le_of_eq List.length_drop

theorem readVarint_append {p q : Bytes} {room : Nat} (h : room ≤ p.length) :
    readVarint (p ++ q) room = readVarint p room := by
  cases p with
  | nil =>
    obtain rfl : room = 0 := by simpa using h
    cases q with
    | nil => rfl
    | cons b q => simp [readVarint, varintLen_pos]
  | cons b rest =>
    rw [List.cons_append, readVarint_cons, readVarint_cons]
    split
    · rfl
    rw [List.take_append_of_le_length]
    simp only [List.length_cons] at h
    omega

variable (beyond : Bytes)

/-- A whole header is read from the bytes that arrived. -/
theorem readHeader_eq {a : Bytes} (h : InOrder c.q a)
    (hw : headerWhole c.unread) : c.readHeader beyond = readFrameHeader c.unread := by
  have hu := unread_eq h
  have hmem : c.memory beyond = c.unread ++ 0 :: beyond := by
    unfold memory
    rw [h.unread, hu]
  have hav : c.q.available = c.unread.length := by
    rw [hu, List.length_drop, h.available]
  unfold readHeader readFrameHeader
  rw [hmem, hav, readVarint_append (Nat.le_refl _)]
  generalize c.unread = u at hw
  unfold headerWhole at hw
  cases htype : readVarint u u.length with
  | none => rfl
  | some tn =>
    obtain ⟨type, n⟩ := tn
    rw [htype] at hw
    dsimp only at hw ⊢
    have hn : n ≤ u.length := (readVarint_le htype).2
    rw [List.drop_append_of_le_length hn]
    cases hd : u.drop n with
    | nil =>
      rw [hd] at hw
      exact absurd hw id
    | cons b rest =>
      rw [hd] at hw
      have hlen : rest.length + 1 = u.length - n := by
        rw [← List.length_drop, hd, List.length_cons]
      have hsecond : readVarint (b :: rest ++ 0 :: beyond) u.length =
          readVarint (b :: rest) (u.length - n) := by
        rw [List.cons_append, readVarint_cons, readVarint_cons]
        rcases hw with hle | hgt
        · rw [if_neg (by omega), if_neg (by omega), List.take_append_of_le_length (by omega)]
        · rw [if_pos hgt, if_pos (by omega)]
      cases hr : readVarint (b :: rest) (u.length - n) <;> simp only [hsecond, hr]

/-- Where the parser is, for the byte-wise reader. -/
def mode (c : Control) : FrameMode UInt8 Nat :=
  if c.inFrame then .inside c.frameType c.frameRemaining else .between []

/-- The parser has done with the bytes it consumed, behind the `n` bytes of the stream type, what
    the byte-wise reader does with them. -/
structure Follows (c : Control) (a : Bytes) (n : Nat) : Prop where
  order : InOrder c.q a
  type : readVarint a a.length = some (0x00, n)
  known : c.typeKnown = true ∧ c.uniType = 0x00
  behind : n ≤ c.q.consumed
  read : ∃ es, framesOf ((a.take c.q.consumed).drop n) = (c.mode, es) ∧
    c.progress = es.foldl Progress.act {}

/-- Consuming `k` more bytes extends what was read by them. -/
theorem taken_extend {a : Bytes} {x k : Nat} (hn : n ≤ x) (hx : x ≤ a.length) :
    (a.take (x + k)).drop n = (a.take x).drop n ++ (a.drop x).take k := by
  rw [List.take_add, List.drop_append_of_le_length]
  rw [List.length_take]
  omega

theorem Follows.consume {c c' : Control} {a : Bytes} {n k : Nat} (h : c.Follows a n)
    (hk : k ≤ a.length - c.q.consumed) (hq : c'.q = c.q.consume k)
    (hknown : c'.typeKnown = c.typeKnown ∧ c'.uniType = c.uniType) (es : List (FrameEvent UInt8 Nat))
    (hfeed : frameHeader.feed c.mode ((a.drop c.q.consumed).take k) = (c'.mode, es))
    (hprog : c'.progress = es.foldl Progress.act c.progress) : c'.Follows a n := by
  have hcons : c'.q.consumed = c.q.consumed + k := by
    rw [hq, QuicStream.consumed_consume]
  obtain ⟨es₀, hread, hp₀⟩ := h.read
  refine ⟨?_, h.type, ?_, ?_, es₀ ++ es, ?_, ?_⟩
  · rw [hq]
    exact h.order.consume hk
  · rw [hknown.1, hknown.2]
    exact h.known
  · rw [hcons]
    exact Nat.le_add_right_of_le h.behind
  · rw [hcons, taken_extend h.behind h.order.consumed_le]
    unfold framesOf at hread ⊢
    rw [HeaderReader.feed_append, hread]
    rw [hfeed]
  · rw [hprog, List.foldl_append, ← hp₀]

/-- **Round lemma.**  An orderly round follows the byte-wise reader, and ends the loop only when
    nothing can be done. -/
theorem Follows.round {a : Bytes} (h : c.Follows a n)
    (herr : c.progress.error = none) (hav : c.q.available ≠ 0) (hok : c.Orderly) :
    (c.round beyond).1.Follows a n ∧ ((c.round beyond).2 = false → (c.round beyond).1.Settled) := by
  have hu := unread_eq h.order
  have havail := h.order.available
  have hlen : c.unread.length = a.length - c.q.consumed := by
    rw [hu, List.length_drop]
  unfold Control.round
  rw [if_neg hav]
  cases hin : c.inFrame with
  | false =>
    rw [if_pos (by rfl), readHeader_eq beyond h.order (hok.1 hin)]
    cases hread : readFrameHeader c.unread with
    | none => exact ⟨h, fun _ => .inr (.inr ⟨hin, hread⟩)⟩
    | some tlk =>
      obtain ⟨type, len, k⟩ := tlk
      refine ⟨?_, nofun⟩
      have hk := (frameHeader.le_length hread).2
      refine h.consume (k := k) (by omega) rfl ⟨rfl, rfl⟩
        [.header (c.unread.take k) type len] ?_ ?_
      · -- the bytes of the header alone are the header
        have hmode : c.mode = .between [] := by
          unfold mode
          rw [hin]
          rfl
        have hown : frameHeader.read (c.unread.take k) = some (type, len, k) := by
          have := frameHeader.stable hread []
          rwa [List.append_nil] at this
        rw [hmode, ← hu, HeaderReader.feed_header _ hown, List.take_take, Nat.min_self,
          List.drop_eq_nil_of_le (by rw [List.length_take]; omega)]
        rfl
      · rw [List.foldl_cons, List.foldl_nil]
        unfold Progress.act
        rw [herr]
        rfl
  | true =>
    rw [if_neg (by simp)]
    have hrem := hok.2 hin
    have hmem : ∀ k, k ≤ c.unread.length → (c.memory beyond).take k = c.unread.take k := by
      intro k hk
      unfold memory
      rw [h.order.unread, ← hu, List.take_append_of_le_length hk]
    have hmode : c.mode = .inside c.frameType c.frameRemaining := by
      unfold mode
      rw [hin]
      rfl
    generalize htake : min c.q.available c.frameRemaining = take
    have hpos : take ≠ 0 := by omega
    have hle : take ≤ c.unread.length := by omega
    have hchunk : (c.unread.take take).length = take := by
      rw [List.length_take]
      omega
    dsimp only
    rw [hmem take hle]
    by_cases hend : c.frameRemaining - take = 0
    · rw [if_pos hend]
      refine ⟨?_, fun hstop => absurd hstop (by simp [hpos])⟩
      have hall : c.frameRemaining = (c.unread.take take).length := by omega
      refine h.consume (k := take) (by omega) rfl ⟨rfl, rfl⟩
        ((c.unread.take take).map (.payload c.frameType) ++ [.done c.frameType]) ?_ ?_
      · rw [hmode, ← hu, hall, HeaderReader.feed_payload_done]
        · rfl
        · intro hnil
          rw [hnil] at hchunk
          exact hpos hchunk.symm
      · rw [List.foldl_append, foldl_act_payload herr, List.foldl_cons, List.foldl_nil]
        unfold Progress.act
        rw [onPayload_error, herr]
        rfl
    · rw [if_neg hend]
      refine ⟨?_, fun hstop => absurd hstop (by simp [hpos])⟩
      refine h.consume (k := take) (by omega) rfl ⟨rfl, rfl⟩
        ((c.unread.take take).map (.payload c.frameType)) ?_ ?_
      · rw [hmode, ← hu, HeaderReader.feed_payload _ (by omega), hchunk]
        unfold mode
        rw [show (c.consume take).inFrame = true from hin]
        rfl
      · exact (foldl_act_payload herr _ _).symm

theorem Follows.loop {a : Bytes} (rounds : Nat) (h : c.Follows a n) (hok : c.OrderlyLoop beyond rounds) :
    (c.loop beyond rounds).Follows a n ∧ (c.loop beyond rounds).Settled := by
  induction rounds generalizing c with
  | zero => exact ⟨h, hok⟩
  | succ rounds ih =>
    unfold Control.loop
    by_cases herr : c.progress.error.isSome = true
    · rw [if_pos herr]
      exact ⟨h, .inl herr⟩
    rw [if_neg herr]
    rw [Bool.not_eq_true, Option.isSome_eq_false_iff, Option.isNone_iff_eq_none] at herr
    by_cases hav : c.q.available = 0
    · -- no byte: the round does nothing
      have hround : c.round beyond = (c, false) := by
        unfold Control.round
        rw [if_pos hav]
      rw [hround]
      exact ⟨h, .inr (.inl hav)⟩
    · obtain ⟨horder, hrest⟩ : c.Orderly ∧
          ((c.round beyond).2 = true → OrderlyLoop beyond rounds (c.round beyond).1) := by
        rcases hok with he | hz | hok
        · rw [herr] at he
          simp at he
        · exact absurd hz hav
        · exact hok
      obtain ⟨hnext, hstop⟩ := h.round beyond herr hav horder
      by_cases hgo : (c.round beyond).2 = true
      · rw [if_pos hgo]
        exact ih hnext (hrest hgo)
      rw [if_neg hgo]
      rw [Bool.not_eq_true] at hgo
      exact ⟨hnext, hstop hgo⟩

/-! ## §5. Arrivals. -/

/-- What the byte-wise reader still makes of the unread bytes of a settled parser: nothing. -/
theorem Follows.settled {a : Bytes} (h : c.Follows a n) (hs : c.Settled) :
    (framesOf (a.drop n)).2.foldl Progress.act {} = c.progress ∧
      (c.progress.error = none → heldBytes (framesOf (a.drop n)).1 = c.unread) := by
  have hu := unread_eq h.order
  obtain ⟨es, hread, hprog⟩ := h.read
  have hsplit : a.drop n = (a.take c.q.consumed).drop n ++ c.unread := by
    rw [hu]
    have hx := h.order.consumed_le
    have hn := h.behind
    calc a.drop n = (a.take c.q.consumed ++ a.drop c.q.consumed).drop n := by
          rw [List.take_append_drop]
      _ = _ := by
          rw [List.drop_append_of_le_length]
          rw [List.length_take]
          omega
  have hfeed : framesOf (a.drop n) =
      ((frameHeader.feed c.mode c.unread).1, es ++ (frameHeader.feed c.mode c.unread).2) := by
    rw [hsplit]
    unfold framesOf at hread ⊢
    rw [HeaderReader.feed_append, hread]
  rw [hfeed]
  rw [List.foldl_append, ← hprog]
  rcases hs with herr | hav | ⟨hin, hnone⟩
  · rw [foldl_act_of_error herr]
    refine ⟨rfl, ?_⟩
    intro hno
    rw [hno] at herr
    simp at herr
  · have hnil : c.unread = [] := by
      unfold unread
      rw [hav, List.take_zero]
    rw [hnil]
    refine ⟨rfl, fun _ => ?_⟩
    unfold mode
    split <;> rfl
  · have hmode : c.mode = .between [] := by
      unfold mode
      rw [hin]
      rfl
    rw [hmode, frameHeader.feed_incomplete hnone]
    exact ⟨rfl, fun _ => rfl⟩

/-- The stream has come to what its bytes come to, and consumed none it did not have. -/
structure Came (c : Control) (a : Bytes) (fin : Bool) : Prop where
  progress : c.progress = progressOf a fin
  consumed_le : c.q.consumed ≤ a.length
  waits : c.progress.error = none → c.q.consumed + (waiting a).length = a.length

/-- The stream between two arrivals. -/
inductive Phase (c : Control) (a : Bytes) : Prop where
  | untyped (none : readVarint a a.length = none) (unknown : c.typeKnown = false)
      (start : c.q.consumed = 0) (idle : c.inFrame = false) (empty : c.progress = {})
  | other (type n : Nat) (read : readVarint a a.length = some (type, n)) (ne : type ≠ 0x00)
      (known : c.typeKnown = true ∧ c.uniType = type) (at_ : c.q.consumed = n) (empty : c.progress = {})
  | control (n : Nat) (follows : c.Follows a n) (settled : c.Settled)

structure Live (c : Control) (a : Bytes) : Prop where
  clean : c.progress.error = none
  undelivered : c.finDelivered = false
  order : InOrder c.q a
  phase : c.Phase a

/-- The type of the stream stays when bytes are added. -/
theorem readVarint_grow {a : Bytes} {type : Nat} (h : readVarint a a.length = some (type, n))
    (b : Bytes) : readVarint (a ++ b) (a ++ b).length = some (type, n) := by
  have hn := readVarint_le h
  have hst := readVarint_stable h (Nat.le_refl _) (a.drop n ++ b) (a ++ b).length
    (by rw [List.length_append]; omega)
  rwa [← List.append_assoc, List.take_append_drop] at hst

/-- What a connection in error has read is what the stream comes to, whatever follows. -/
theorem progressOf_of_error {a : Bytes} (h : (progressOf a false).error.isSome = true) (b : Bytes)
    (fin : Bool) : progressOf (a ++ b) fin = progressOf a false := by
  unfold progressOf at h ⊢
  cases htype : readVarint a a.length with
  | none =>
    rw [htype] at h
    simp at h
  | some tn =>
    obtain ⟨type, n⟩ := tn
    rw [htype] at h
    dsimp only at h
    have hn := readVarint_le htype
    rw [readVarint_grow htype b]
    dsimp only
    by_cases hz : type = 0x00
    · rw [if_pos hz] at h
      rw [if_pos hz, if_pos hz]
      simp only [Bool.false_and, Bool.false_eq_true, if_false] at h ⊢
      have hfold : (framesOf ((a ++ b).drop n)).2.foldl Progress.act {} =
          (framesOf (a.drop n)).2.foldl Progress.act {} := by
        rw [List.drop_append_of_le_length hn.2]
        unfold framesOf at h ⊢
        rw [HeaderReader.feed_append]
        rw [List.foldl_append, foldl_act_of_error h]
      rw [hfold]
      split
      · unfold Progress.fail
        rw [if_pos h]
      · rfl
    · rw [if_neg hz] at h
      simp at h

theorem received_fields (c : Control) (data : Bytes) (fin : Bool) :
    (c.received data fin).typeKnown = c.typeKnown ∧ (c.received data fin).uniType = c.uniType ∧
      (c.received data fin).inFrame = c.inFrame ∧ (c.received data fin).mode = c.mode ∧
      (c.received data fin).progress = c.progress ∧ (c.received data fin).finDelivered = c.finDelivered ∧
      (c.received data fin).q.finSeen = fin := by
  refine ⟨rfl, rfl, rfl, rfl, rfl, rfl, ?_⟩
  unfold received
  dsimp only
  split
  · rfl
  · exact (store_end _ _ _).1

theorem received_order {a : Bytes} (h : InOrder c.q a) (data : Bytes) (fin : Bool) :
    InOrder (c.received data fin).q (a ++ data) ∧ (c.received data fin).q.consumed = c.q.consumed ∧
      (fin = true → (c.received data fin).q.finalSize = (a ++ data).length) := by
  unfold received
  dsimp only
  rw [h.highest]
  by_cases hd : data = []
  · subst hd
    rw [if_pos List.isEmpty_nil]
    refine ⟨⟨?_, ?_, ?_, ?_⟩, rfl, ?_⟩
    · simp
    · rw [List.append_nil]
      exact h.ranges
    · rw [List.append_nil]
      exact h.consumed_le
    · rw [List.append_nil]
      exact h.buf
    · intro hfin
      subst hfin
      simp
  · rw [if_neg (by simpa using hd)]
    refine ⟨h.store hd fin _, ?_, ?_⟩
    · rw [QuicStream.consumed_store]
      rfl
    · intro hfin
      subst hfin
      rw [(store_end _ _ _).2, List.length_append]
      rfl

/-- The rounds leave the end of the stream where it is. -/
theorem loop_end (rounds : Nat) (c : Control) : (c.loop beyond rounds).q.finSeen = c.q.finSeen ∧
      (c.loop beyond rounds).q.finalSize = c.q.finalSize ∧
      (c.loop beyond rounds).finDelivered = c.finDelivered := by
  induction rounds generalizing c with
  | zero => exact ⟨rfl, rfl, rfl⟩
  | succ rounds ih =>
    have hround : (c.round beyond).1.q.finSeen = c.q.finSeen ∧
        (c.round beyond).1.q.finalSize = c.q.finalSize ∧
        (c.round beyond).1.finDelivered = c.finDelivered := by
      unfold Control.round
      split
      · exact ⟨rfl, rfl, rfl⟩
      split
      · split
        · exact ⟨rfl, rfl, rfl⟩
        · exact ⟨(consume_end _ _).1, (consume_end _ _).2, rfl⟩
      · dsimp only
        split <;> exact ⟨(consume_end _ _).1, (consume_end _ _).2, rfl⟩
    unfold Control.loop
    split
    · exact ⟨rfl, rfl, rfl⟩
    split
    · have hrest := ih (c.round beyond).1
      exact ⟨hrest.1.trans hround.1, hrest.2.1.trans hround.2.1, hrest.2.2.trans hround.2.2⟩
    · exact hround

theorem Follows.received {a : Bytes} (h : c.Follows a n) (data : Bytes)
    (fin : Bool) : (c.received data fin).Follows (a ++ data) n := by
  obtain ⟨horder, hcons, -⟩ := received_order h.order data fin
  obtain ⟨es, hread, hprog⟩ := h.read
  refine ⟨horder, readVarint_grow h.type data, h.known, by rw [hcons]; exact h.behind, es, ?_, hprog⟩
  rw [hcons, List.take_append_of_le_length h.order.consumed_le]
  exact hread

/-- The end of a control stream that has settled. -/
theorem Follows.finish {a : Bytes} (h : c.Follows a n)
    (hs : c.Settled) (hdel : c.finDelivered = false) (hseen : c.q.finSeen = fin)
    (hsize : fin = true → c.q.finalSize = a.length) : c.finish.Came a fin := by
  obtain ⟨hprog, hheld⟩ := h.settled hs
  have hu := unread_eq h.order
  have hle := h.order.consumed_le
  have hof : progressOf a fin = if fin && (heldBytes (framesOf (a.drop n)).1).isEmpty then
      c.progress.fail closedCriticalStream else c.progress := by
    unfold progressOf
    rw [h.type]
    dsimp only
    rw [if_pos rfl, hprog]
  have hwait : waiting a = heldBytes (framesOf (a.drop n)).1 := by
    unfold waiting
    rw [h.type]
    rfl
  cases herr : c.progress.error with
  | some code =>
    -- the connection is in error already
    have hself : c.finish = c := by
      unfold Control.finish
      rw [herr]
      rfl
    rw [hself]
    refine ⟨?_, hle, fun hno => absurd (herr.symm.trans hno) (by simp)⟩
    rw [hof]
    split
    · unfold Progress.fail
      rw [if_pos (by rw [herr]; rfl)]
    · rfl
  | none =>
    have hlen : (heldBytes (framesOf (a.drop n)).1).length = a.length - c.q.consumed := by
      rw [hheld herr, hu, List.length_drop]
    have hend : (fin && (heldBytes (framesOf (a.drop n)).1).isEmpty) = c.q.atEnd := by
      unfold QuicStream.atEnd
      rw [hseen]
      cases fin with
      | false => rfl
      | true =>
        rw [hsize rfl, Bool.true_and, Bool.true_and, Bool.eq_iff_iff, List.isEmpty_iff,
          ← List.length_eq_zero_iff, hlen, beq_iff_eq]
        omega
    rw [hend] at hof
    unfold Control.finish
    rw [herr, hdel]
    refine ⟨?_, ?_, ?_⟩
    · rw [hof]
      cases c.q.atEnd <;> rfl
    · cases c.q.atEnd <;> exact hle
    · intro _
      have hsum : c.q.consumed + (waiting a).length = a.length := by
        rw [hwait, hlen]
        omega
      cases c.q.atEnd <;> exact hsum

/-- A control stream whose type is known: the rounds, then the end. -/
theorem arrive_control {a : Bytes} (data : Bytes) (fin : Bool)
    (hclean : c.progress.error = none) (hdel : c.finDelivered = false) (h : c.Follows a n) :
    c.arrive beyond data fin = ((c.received data fin).loop beyond 256).finish := by
  have hf := h.received data fin
  unfold arrive
  rw [hclean]
  rw [if_neg (by simp)]
  by_cases hcall : (c.received data fin).q.available > 0 ∨
      ((c.received data fin).q.atEnd = true ∧ (c.received data fin).finDelivered = false)
  · rw [if_pos hcall]
    unfold onUniData readType
    rw [if_pos hf.known.1]
    show (if (c.received data fin).uniType = 0x00 then _ else _) = _
    rw [if_pos hf.known.2]
  · -- nothing arrived: neither the rounds nor the end have anything to do
    rw [if_neg hcall]
    rw [not_or] at hcall
    have hround : (c.received data fin).round beyond = (c.received data fin, false) := by
      unfold Control.round
      rw [if_pos (by omega)]
    have hloop : (c.received data fin).loop beyond 256 = c.received data fin := by
      unfold Control.loop
      rw [show (c.received data fin).progress.error = none from hclean, hround]
      rfl
    rw [hloop]
    unfold Control.finish
    have hnot : (c.received data fin).q.atEnd = false := by
      rw [← Bool.not_eq_true]
      exact fun hend => hcall.2 ⟨hend, hdel⟩
    rw [hnot]
    simp

/-- After an arrival: the stream has come to what its bytes come to, and lives on without an
    error and before its end. -/
def Arrived (c : Control) (a : Bytes) (fin : Bool) : Prop :=
  c.Came a fin ∧ (fin = false → c.progress.error = none → c.Live a)

/-- The rounds and the end of a control stream whose bytes were stored. -/
theorem Follows.arrived {a : Bytes}
    (h : c.Follows a n) (hdel : c.finDelivered = false) (hseen : c.q.finSeen = fin)
    (hsize : fin = true → c.q.finalSize = a.length) (hok : c.OrderlyLoop beyond 256) :
    ((c.loop beyond 256).finish).Arrived a fin := by
  obtain ⟨hf, hset⟩ := h.loop beyond 256 hok
  obtain ⟨he₁, he₂, he₃⟩ := loop_end beyond 256 c
  refine ⟨hf.finish hset (he₃.trans hdel) (he₁.trans hseen) (fun hfin => he₂.trans (hsize hfin)), ?_⟩
  intro hfin hclean
  have hself : (c.loop beyond 256).finish = c.loop beyond 256 := by
    unfold Control.finish QuicStream.atEnd
    rw [he₁, hseen, hfin]
    simp
  rw [hself] at hclean ⊢
  exact ⟨hclean, he₃.trans hdel, hf.order, .control n hf hset⟩

/-- The bytes of another stream stay where they are. -/
theorem arrived_other {a : Bytes} {type : Nat} (horder : InOrder c.q a)
    (hdel : c.finDelivered = false) (hread : readVarint a a.length = some (type, n))
    (hne : type ≠ 0x00) (hknown : c.typeKnown = true ∧ c.uniType = type) (hat : c.q.consumed = n)
    (hempty : c.progress = {}) : c.Arrived a fin := by
  have hn := readVarint_le hread
  refine ⟨⟨?_, horder.consumed_le, ?_⟩, ?_⟩
  · unfold progressOf
    rw [hempty, hread]
    dsimp only
    rw [if_neg hne]
  · intro _
    unfold waiting
    rw [hread, hat]
    dsimp only
    rw [if_neg hne, List.length_drop]
    omega
  · intro _ hclean
    exact ⟨hclean, hdel, horder, .other type n hread hne hknown hat hempty⟩

/-- Bytes that are not a whole stream type wait. -/
theorem arrived_untyped {a : Bytes} (horder : InOrder c.q a)
    (hdel : c.finDelivered = false) (hnone : readVarint a a.length = none)
    (hunknown : c.typeKnown = false) (hstart : c.q.consumed = 0) (hidle : c.inFrame = false)
    (hempty : c.progress = {}) : c.Arrived a fin := by
  refine ⟨⟨?_, horder.consumed_le, ?_⟩, ?_⟩
  · unfold progressOf
    rw [hempty, hnone]
  · intro _
    unfold waiting
    rw [hnone, hstart]
    exact Nat.zero_add _
  · intro _ hclean
    exact ⟨hclean, hdel, horder, .untyped hnone hunknown hstart hidle hempty⟩

/-- The type of the stream is read when it is complete. -/
theorem readType_untyped {a : Bytes} (horder : InOrder c.q a)
    (hunknown : c.typeKnown = false) (hstart : c.q.consumed = 0) : c.readType beyond =
      match readVarint a a.length with
      | none => none
      | some (type, n) => some { c.consume n with typeKnown := true, uniType := type } := by
  have hread : readVarint (c.memory beyond) c.q.available = readVarint a a.length := by
    unfold memory
    rw [horder.unread, horder.available, hstart, List.drop_zero, Nat.sub_zero,
      readVarint_append (Nat.le_refl _)]
  unfold readType
  rw [if_neg (by rw [hunknown]; simp)]
  cases hr : readVarint a a.length <;> simp only [hread, hr]

/-- The first arrivals of a stream, until its type is complete. -/
theorem onUniData_untyped {a : Bytes}
    (horder : InOrder c.q a) (hdel : c.finDelivered = false) (hseen : c.q.finSeen = fin)
    (hsize : fin = true → c.q.finalSize = a.length) (hunknown : c.typeKnown = false)
    (hstart : c.q.consumed = 0) (hidle : c.inFrame = false) (hempty : c.progress = {})
    (hok : match c.readType beyond with
      | none => True
      | some c' => c'.uniType = 0x00 → c'.OrderlyLoop beyond 256) :
    (c.onUniData beyond).Arrived a fin := by
  have htype := readType_untyped beyond horder hunknown hstart
  rw [htype] at hok
  unfold onUniData
  rw [htype]
  cases hv : readVarint a a.length with
  | none => exact arrived_untyped horder hdel hv hunknown hstart hidle hempty
  | some tn =>
    obtain ⟨type, n⟩ := tn
    rw [hv] at hok
    dsimp only at hok ⊢
    have hn := readVarint_le hv
    have hq : (c.q.consume n).consumed = n := by
      rw [QuicStream.consumed_consume, hstart, Nat.zero_add]
    have hord : InOrder (c.q.consume n) a := horder.consume (by omega)
    by_cases hz : type = 0x00
    · rw [if_pos hz]
      refine Follows.arrived beyond (n := n) ?_ hdel ?_ ?_ (hok hz)
      rotate_left
      · exact (consume_end _ _).1.trans hseen
      · exact fun hfin => (consume_end _ _).2.trans (hsize hfin)
      refine ⟨hord, hz ▸ hv, ⟨rfl, hz⟩, Nat.le_of_eq hq.symm, [], ?_, hempty⟩
      have hnil : (a.take (c.q.consume n).consumed).drop n = [] := by
        rw [hq, List.drop_eq_nil_of_le]
        rw [List.length_take]
        omega
      have hmode : c.mode = .between [] := by
        unfold mode
        rw [hidle]
        rfl
      show framesOf ((a.take (c.q.consume n).consumed).drop n) = (c.mode, _)
      rw [hnil, hmode]
      rfl
    · rw [if_neg hz]
      exact arrived_other hord hdel hv hz ⟨rfl, rfl⟩ hq hempty

/-- **Arrival lemma.**  An orderly arrival comes to what all the bytes so far come to. -/
theorem Live.arrive {a : Bytes} (h : c.Live a) (data : Bytes)
    (fin : Bool) (hok : c.OrderlyArrival beyond data fin) :
    (c.arrive beyond data fin).Arrived (a ++ data) fin := by
  obtain ⟨horder, hcons, hsize⟩ := received_order h.order data fin
  have hseen := (c.received_fields data fin).2.2.2.2.2.2
  have harrive : c.arrive beyond data fin =
      if (c.received data fin).q.available > 0 ∨
          ((c.received data fin).q.atEnd = true ∧ (c.received data fin).finDelivered = false)
      then (c.received data fin).onUniData beyond else c.received data fin := by
    unfold Control.arrive
    rw [h.clean]
    rfl
  cases h.phase with
  | control n hfollows hsettled =>
    have hf := hfollows.received data fin
    rw [arrive_control beyond data fin h.clean h.undelivered hfollows]
    apply hf.arrived beyond h.undelivered hseen hsize
    unfold OrderlyArrival readType at hok
    rw [if_pos hf.known.1] at hok
    exact hok hf.known.2
  | other type n hread hne hk hat hempty =>
    have hself : c.arrive beyond data fin = c.received data fin := by
      rw [harrive]
      split
      · unfold onUniData readType
        rw [if_pos (show (c.received data fin).typeKnown = true from hk.1)]
        show (if (c.received data fin).uniType = 0x00 then _ else _) = _
        rw [if_neg]
        intro hz
        exact hne (hk.2.symm.trans hz)
      · rfl
    rw [hself]
    exact arrived_other horder h.undelivered (readVarint_grow hread data) hne hk (hcons.trans hat)
      hempty
  | untyped hnone hunknown hstart hidle hempty =>
    have hstart' := hcons.trans hstart
    rw [harrive]
    split
    · exact onUniData_untyped beyond horder h.undelivered hseen hsize hunknown hstart' hidle hempty hok
    next hcall =>
      -- not even a byte
      have hnil : a ++ data = [] := by
        rw [← List.length_eq_zero_iff]
        have := horder.available
        rw [not_or] at hcall
        omega
      apply arrived_untyped horder h.undelivered _ hunknown hstart' hidle hempty
      rw [hnil]
      rfl

theorem arriveAll_of_error (fin : Bool)
    (h : c.progress.error.isSome = true) (bs : List Bytes) : arriveAll beyond fin c bs = c := by
  have hone : ∀ b f, c.arrive beyond b f = c := by
    intro b f
    unfold Control.arrive
    rw [if_pos h]
  induction bs with
  | nil => rfl
  | cons b bs ih =>
    cases bs with
    | nil => exact hone b fin
    | cons b' bs =>
      show arriveAll beyond fin (c.arrive beyond b false) (b' :: bs) = c
      rw [hone]
      exact ih

/-- The pieces of a stream come to what all of its bytes come to. -/
theorem arriveAll_came (fin : Bool) (bs : List Bytes) (c : Control) (a : Bytes)
    (hne : bs ≠ []) (h : c.Live a) (hok : OrderlyAll beyond fin c bs) :
    (arriveAll beyond fin c bs).Came (a ++ bs.flatten) fin := by
  induction bs generalizing c a with
  | nil => exact absurd rfl hne
  | cons b bs ih =>
    cases bs with
    | nil =>
      show (c.arrive beyond b fin).Came (a ++ (b ++ [])) fin
      rw [List.append_nil]
      exact (h.arrive beyond b fin hok).1
    | cons b' bs =>
      obtain ⟨hb, hbs⟩ := hok
      obtain ⟨hcame, hlive⟩ := h.arrive beyond b false hb
      rw [List.flatten_cons, ← List.append_assoc]
      show (arriveAll beyond fin (c.arrive beyond b false) (b' :: bs)).Came _ fin
      by_cases herr : (c.arrive beyond b false).progress.error = none
      · exact ih _ _ (by simp) (hlive rfl herr) hbs
      -- after an error every arrival is ignored
      have hsome : (c.arrive beyond b false).progress.error.isSome = true := by
        rw [Option.isSome_iff_ne_none]
        exact herr
      rw [arriveAll_of_error beyond fin hsome]
      refine ⟨?_, ?_, fun hno => absurd hno herr⟩
      · rw [hcame.progress] at hsome ⊢
        exact (progressOf_of_error hsome _ fin).symm
      · rw [List.length_append]
        exact Nat.le_add_right_of_le hcame.consumed_le

theorem OrderlyAll.start {pre rest : List Bytes} (hrest : rest ≠ [])
    (h : OrderlyAll beyond fin c (pre ++ rest)) : OrderlyAll beyond false c pre := by
  induction pre generalizing c with
  | nil => trivial
  | cons b pre ih =>
    cases pre with
    | nil =>
      cases rest with
      | nil => exact absurd rfl hrest
      | cons => exact h.1
    | cons => exact ⟨h.1, ih h.2⟩

theorem live_start : ({} : Control).Live [] := by
  refine ⟨rfl, rfl, ⟨rfl, rfl, Nat.le_refl _, rfl⟩, ?_⟩
  exact .untyped rfl rfl rfl rfl rfl

/-- A control stream in pieces comes to what it comes to in one: the same settings, the same
    frames skipped, the same error, the same bytes waiting; and no byte is consumed before it
    arrived. -/
theorem control_stream_split (beyond : Bytes) (fin : Bool) (bs : List Bytes) (hne : bs ≠ [])
    (hsplit : OrderlyAll beyond fin {} bs) (hwhole : OrderlyAll beyond fin {} [bs.flatten]) :
    (arriveAll beyond fin {} bs).progress = (arriveAll beyond fin {} [bs.flatten]).progress ∧
      (arriveAll beyond fin {} bs).q.consumed ≤ bs.flatten.length ∧
      (∀ pre rest, bs = pre ++ rest → rest ≠ [] →
        (arriveAll beyond false {} pre).q.consumed ≤ pre.flatten.length) ∧
      ((arriveAll beyond fin {} bs).progress.error = none →
        (arriveAll beyond fin {} bs).q.consumed = bs.flatten.length - (waiting bs.flatten).length) := by
  have h := arriveAll_came beyond fin bs {} [] hne live_start hsplit
  have h' := arriveAll_came beyond fin [bs.flatten] {} [] (by simp) live_start hwhole
  rw [List.nil_append] at h h'
  rw [List.flatten_singleton] at h'
  refine ⟨h.progress.trans h'.progress.symm, h.consumed_le, ?_, ?_⟩
  · rintro (_ | ⟨b, pre⟩) rest rfl hrest
    · exact Nat.le_refl 0
    · exact (arriveAll_came beyond false _ {} [] (by simp) live_start (hsplit.start _ hrest)).consumed_le
  intro hclean
  have := h.waits hclean
  omega

/-- The stream type, SETTINGS with a maximum field section of five, and a reserved frame, cut
    inside the header of the second. -/
theorem control_stream_split_pieces :
    OrderlyAll [] false {} [[0x00, 0x04, 0x02, 0x06, 0x05], [0x40], [0x21, 0x01, 0xff]] ∧
      OrderlyAll [] false {} [[0x00, 0x04, 0x02, 0x06, 0x05, 0x40, 0x21, 0x01, 0xff]] ∧
      (arriveAll [] false {} [[0x00, 0x04, 0x02, 0x06, 0x05], [0x40], [0x21, 0x01, 0xff]]).progress =
        (arriveAll [] false {} [[0x00, 0x04, 0x02, 0x06, 0x05, 0x40, 0x21, 0x01, 0xff]]).progress := by
  have hsplit : OrderlyAll [] false {}
      [[0x00, 0x04, 0x02, 0x06, 0x05], [0x40], [0x21, 0x01, 0xff]] := by
    decide +kernel
  have hwhole : OrderlyAll [] false {} [[0x00, 0x04, 0x02, 0x06, 0x05, 0x40, 0x21, 0x01, 0xff]] := by
    decide +kernel
  exact ⟨hsplit, hwhole, (control_stream_split [] false
    [[0x00, 0x04, 0x02, 0x06, 0x05], [0x40], [0x21, 0x01, 0xff]] (by simp) hsplit hwhole).1⟩

/-- SETTINGS cut behind its type: the zero behind the buffer is taken for the length, a byte that
    has not arrived is consumed, and the settings are lost. -/
theorem length_read_past_arrival : ¬ (arriveAll [] false {} [[0x00, 0x04]]).q.consumed ≤ [0x00, 0x04].length ∧
      (arriveAll [] false {} [[0x00, 0x04], [0x02, 0x06, 0x05]]).progress ≠
        (arriveAll [] false {} [[0x00, 0x04, 0x02, 0x06, 0x05]]).progress := by
  decide +kernel

end Control

end Agensio.Http3
