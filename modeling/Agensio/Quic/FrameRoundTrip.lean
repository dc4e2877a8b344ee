/-
  Agensio.Quic.FrameRoundTrip — frames are read back as they were written.

  Each frame a `put_*` function of `quic/frames.hpp` writes is a value of
  `Written`: its bytes and its size, what its format asks of it, and the
  frame `read_frame` makes of it.

  Main results:
    * `frames_round_trip` — these and the bounds of the reader together.
-/
import Agensio.Quic.Frames

namespace Agensio.Quic

open Agensio.Lib
open Agensio.Lib.Reader

namespace Frames

/-! ## §1. What was written is read back. -/

theorem yields_v {x : Nat} (hx : x ≤ kVarintMax) (before after : Bytes) :
    Yields v before (writeVarint x) after x := by
  unfold Yields v
  rw [List.drop_left, readVarint_writeVarint hx after (by simp), length_writeVarint]

/-- The type byte of a frame. -/
theorem yields_type {t : Nat} (ht : t < 64) (before after : Bytes) :
    Yields v before [UInt8.ofNat t] after t := by
  have hw : writeVarint t = [UInt8.ofNat t] := by
    unfold writeVarint varintSize
    rw [if_pos ht]
    rfl
  rw [← hw]
  exact yields_v (by unfold kVarintMax; omega) before after

/-- A frame behind its type byte. -/
theorem yields_readFrame {t : Nat} (ht : t < 64) {f g : Frame} {before w after : Bytes}
    (h : Yields (readBody { f with type := t }) (before ++ [UInt8.ofNat t]) w after g) :
    Yields (readFrame f) before (UInt8.ofNat t :: w) after g :=
  (yields_type ht before (w ++ after)).bind h

/-- The ranges whose gaps an `ACK` frame holds, from the smallest number of the range above. -/
def Gapped : (smallest : Nat) → List (Nat × Nat) → Prop
  | _, [] => True
  | smallest, x :: xs => x.1 < x.2 ∧ x.2 + 1 ≤ smallest ∧ Gapped x.1 xs

variable {smallest : Nat} {xs : List (Nat × Nat)}

/-- The bytes of the numbers of an `ACK` frame. -/
theorem yields_ackRanges (hmax : smallest ≤ kVarintMax)
    (hgap : Gapped smallest xs) (ranges : List (Nat × Nat)) (before after : Bytes) :
    Yields (ackRanges xs.length smallest ranges) before ((ackGaps smallest xs).flatMap writeVarint) after
      (ranges ++ xs.take (kMaxAckRanges + 1 - ranges.length)) := by
  induction xs generalizing smallest ranges before with
  | nil =>
    rw [List.take_nil, List.append_nil]
    exact yields_pure ranges before after
  | cons x xs ih =>
    obtain ⟨hx, hlow, hrest⟩ := hgap
    show Yields _ before ((((smallest - x.2 - 1) :: (x.2 - x.1 - 1) :: ackGaps x.1 xs)).flatMap
      writeVarint) after _
    rw [List.flatMap_cons, List.flatMap_cons]
    apply Yields.bind (yields_v (by omega) _ _)
    apply Yields.bind (yields_v (by omega) _ _)
    have hlargest : smallest - (smallest - x.2 - 1) - 2 = x.2 - 1 := by omega
    have hsmallest : x.2 - 1 - (x.2 - x.1 - 1) = x.1 := by omega
    have hend : x.2 - 1 + 1 = x.2 := by omega
    rw [if_neg (by omega)]
    rw [hlargest, if_neg (by omega), hsmallest, hend]
    have hih := ih (show x.1 ≤ kVarintMax by omega) hrest
      (if ranges.length ≤ kMaxAckRanges then ranges ++ [(x.1, x.2)] else ranges)
      (before ++ writeVarint (smallest - x.2 - 1) ++ writeVarint (x.2 - x.1 - 1))
    have htake : (if ranges.length ≤ kMaxAckRanges then ranges ++ [(x.1, x.2)] else ranges) ++
        xs.take (kMaxAckRanges + 1 - (if ranges.length ≤ kMaxAckRanges then ranges ++ [(x.1, x.2)]
          else ranges).length) =
        ranges ++ (x :: xs).take (kMaxAckRanges + 1 - ranges.length) := by
      by_cases hroom : ranges.length ≤ kMaxAckRanges
      · have hsub : kMaxAckRanges + 1 - ranges.length = kMaxAckRanges - ranges.length + 1 := by omega
        have hlen : kMaxAckRanges + 1 - (ranges ++ [(x.1, x.2)]).length =
            kMaxAckRanges - ranges.length := by
          rw [List.length_append]
          simp only [List.length_singleton]
          omega
        rw [if_pos hroom, hlen, hsub, List.take_succ_cons, List.append_assoc]
        rfl
      · have hsub : kMaxAckRanges + 1 - ranges.length = 0 := by omega
        rw [if_neg hroom, hsub, List.take_zero, List.take_zero]
    rw [htake] at hih
    exact hih

/-! ### The ranges of an `ACK` frame. -/

theorem Gapped.take (h : Gapped smallest xs) (n : Nat) : Gapped smallest (xs.take n) := by
  induction xs generalizing smallest n with
  | nil =>
    rw [List.take_nil]
    exact h
  | cons x xs ih =>
    cases n with
    | zero => trivial
    | succ n => exact ⟨h.1, h.2.1, ih h.2.2 n⟩

theorem gapped_append {ys : List (Nat × Nat)} {x : Nat × Nat}
    (h : Gapped smallest ys) (hx : x.1 < x.2) (hlow : x.2 + 1 ≤ smallest)
    (hys : ∀ y ∈ ys, x.2 + 1 ≤ y.1) : Gapped smallest (ys ++ [x]) := by
  induction ys generalizing smallest with
  | nil => exact ⟨hx, hlow, trivial⟩
  | cons y ys ih =>
    refine ⟨h.1, h.2.1, ?_⟩
    exact ih h.2.2 (hys y List.mem_cons_self) fun z hz => hys z (List.mem_cons_of_mem _ hz)

theorem above_fst {r : RangeSet} {lo : Nat} (h : RangeSet.Above lo r) : ∀ x ∈ r, lo ≤ x.1 := by
  induction r generalizing lo with
  | nil =>
    intro x hx
    cases hx
  | cons y ys ih =>
    intro x hx
    rcases List.mem_cons.mp hx with rfl | hx
    · exact h.1
    have hfst := ih h.2.2 x hx
    have hy := h.1
    have hne := h.2.1
    omega

/-- The ranges of a set, highest first, leave the gaps an `ACK` frame needs. -/
theorem gapped_reverse {r : RangeSet} {lo top : Nat} (h : RangeSet.Above lo r)
    (htop : ∀ x ∈ r, x.2 + 1 ≤ top) : Gapped top r.reverse := by
  induction r generalizing lo with
  | nil => trivial
  | cons x xs ih =>
    rw [List.reverse_cons]
    apply gapped_append (ih h.2.2 fun y hy => htop y (.tail _ hy)) h.2.1
      (htop x List.mem_cons_self)
    intro y hy
    exact above_fst h.2.2 y (List.mem_reverse.mp hy)

/-- What the gaps and lengths of an `ACK` frame stand for (RFC 9000 19.3.1). -/
def wireRanges (smallest : Nat) : List Nat → List (Nat × Nat)
  | gap :: len :: rest =>
    let largest := smallest - gap - 2
    (largest - len, largest + 1) :: wireRanges (largest - len) rest
  | _ => []

theorem wireRanges_ackGaps (h : Gapped smallest xs) : wireRanges smallest (ackGaps smallest xs) = xs := by
  induction xs generalizing smallest with
  | nil => rfl
  | cons x xs ih =>
    obtain ⟨hx, hlow, hrest⟩ := h
    have hlargest : smallest - (smallest - x.2 - 1) - 2 = x.2 - 1 := by omega
    have hsmallest : x.2 - 1 - (x.2 - x.1 - 1) = x.1 := by omega
    have hend : x.2 - 1 + 1 = x.2 := by omega
    show (smallest - (smallest - x.2 - 1) - 2 - (x.2 - x.1 - 1), smallest - (smallest - x.2 - 1) - 2 + 1) ::
        wireRanges (smallest - (smallest - x.2 - 1) - 2 - (x.2 - x.1 - 1)) (ackGaps x.1 xs) = x :: xs
    rw [hlargest, hsmallest, hend, ih hrest]

/-- The numbers are written while they fit. -/
theorem foldlM_putNumber (cap : Nat) (numbers : List Nat) (out : Bytes) (hout : out.length ≤ cap) :
    numbers.foldlM (putNumber cap) out =
      if cap < out.length + (numbers.map varintSize).sum then none
      else some (out ++ numbers.flatMap writeVarint) := by
  induction numbers generalizing out with
  | nil =>
    rw [List.foldlM_nil, List.map_nil, List.sum_nil, List.flatMap_nil, List.append_nil,
      if_neg (by omega)]
    rfl
  | cons n ns ih =>
    rw [List.foldlM_cons, List.map_cons, List.sum_cons, List.flatMap_cons]
    unfold putNumber
    by_cases hn : cap - out.length < varintSize n
    · rw [if_pos hn, if_pos (by omega)]
      rfl
    rw [if_neg hn]
    have hlen : (out ++ writeVarint n).length = out.length + varintSize n := by simp
    show ns.foldlM (putNumber cap) (out ++ writeVarint n) = _
    rw [ih _ (by omega), hlen, List.append_assoc, Nat.add_assoc]

/-! ### The frames that are written. -/

/-- A frame a `put_*` function writes, with the bytes that follow its header. -/
inductive Written where
  | ping
  | handshakeDone
  | ack (received : RangeSet) (delay : Nat)
  | crypto (offset : Nat) (data : Bytes)
  | stream (id offset : Nat) (data : Bytes) (fin withLength : Bool)
  | maxData (v : Nat)
  | maxStreamData (id v : Nat)
  | maxStreams (bidi : Bool) (v : Nat)
  | resetStream (id code finalSize : Nat)
  | stopSending (id code : Nat)
  | retireConnectionId (seq : Nat)
  | dataBlocked (v : Nat)
  | streamDataBlocked (id v : Nat)
  | pathChallenge (data : Vector UInt8 8)
  | pathResponse (data : Vector UInt8 8)
  | newConnectionId (seq retirePriorTo : Nat) (cid : PacketCid) (token : Vector UInt8 16)
  | connectionClose (app : Bool) (code frameType : Nat) (reason : Bytes)

namespace Written

/-- The `put_*` function of a frame. -/
def put (cap : Nat) : Written → Option Bytes
  | ping => putPing cap
  | handshakeDone => putHandshakeDone cap
  | ack received delay => putAck cap received delay
  | crypto offset data => putCryptoHeader cap offset data.length
  | stream id offset data fin withLength => putStreamHeader cap id offset data.length fin withLength
  | maxData v => putMaxData cap v
  | maxStreamData id v => putMaxStreamData cap id v
  | maxStreams bidi v => putMaxStreams cap bidi v
  | resetStream id code finalSize => putResetStream cap id code finalSize
  | stopSending id code => putStopSending cap id code
  | retireConnectionId seq => putRetireConnectionId cap seq
  | dataBlocked v => putDataBlocked cap v
  | streamDataBlocked id v => putStreamDataBlocked cap id v
  | pathChallenge data => putPathChallenge cap data
  | pathResponse data => putPathResponse cap data
  | newConnectionId seq retirePriorTo cid token => putNewConnectionId cap seq retirePriorTo cid token
  | connectionClose app code frameType reason => putConnectionClose cap app code frameType reason

/-- The bytes behind the header. -/
def payload : Written → Bytes
  | crypto _ data => data
  | stream _ _ data _ _ => data
  | _ => []

/-- The ranges below the highest that are written. -/
def further (received : RangeSet) : List (Nat × Nat) := received.reverse.tail.take kMaxAckRanges

/-- The numbers of an `ACK` frame. -/
def ackNumbers (received : RangeSet) (delay : Nat) : List Nat :=
  match received.reverse with
  | [] => []
  | top :: _ => [top.2 - 1, delay, (further received).length, top.2 - top.1 - 1] ++
      ackGaps top.1 (further received)

/-- The room a frame needs. -/
def size : Written → Nat
  | ping => 1
  | handshakeDone => 1
  | ack received delay => 1 + ((ackNumbers received delay).map varintSize).sum
  | crypto offset data => 1 + varintSize offset + varintSize data.length
  | stream id offset data _ withLength => streamHeaderSize id offset data.length withLength
  | maxData v => 1 + varintSize v
  | maxStreamData id v => 1 + varintSize id + varintSize v
  | maxStreams _ v => 1 + varintSize v
  | resetStream id code finalSize => 1 + varintSize id + varintSize code + varintSize finalSize
  | stopSending id code => 1 + varintSize id + varintSize code
  | retireConnectionId seq => 1 + varintSize seq
  | dataBlocked v => 1 + varintSize v
  | streamDataBlocked id v => 1 + varintSize id + varintSize v
  | pathChallenge _ => 9
  | pathResponse _ => 9
  | newConnectionId seq retirePriorTo cid _ =>
    1 + varintSize seq + varintSize retirePriorTo + 1 + cid.bytes.length + 16
  | connectionClose app code frameType reason =>
    1 + varintSize code + (if app then 0 else varintSize frameType) + varintSize reason.length +
      reason.length

/-- The numbers of a frame are of 62 bits, and it says what the format allows. -/
def Proper : Written → Prop
  | ping => True
  | handshakeDone => True
  | ack received delay =>
    RangeSet.Above 0 received ∧ (∀ x ∈ received, x.2 ≤ 2 ^ 62) ∧ delay ≤ kVarintMax
  | crypto offset data => offset ≤ kVarintMax ∧ data.length ≤ kVarintMax
  | stream id offset data _ _ => id ≤ kVarintMax ∧ offset + data.length ≤ kVarintMax
  | maxData v => v ≤ kVarintMax
  | maxStreamData id v => id ≤ kVarintMax ∧ v ≤ kVarintMax
  | maxStreams _ v => v ≤ kVarintMax
  | resetStream id code finalSize => id ≤ kVarintMax ∧ code ≤ kVarintMax ∧ finalSize ≤ kVarintMax
  | stopSending id code => id ≤ kVarintMax ∧ code ≤ kVarintMax
  | retireConnectionId seq => seq ≤ kVarintMax
  | dataBlocked v => v ≤ kVarintMax
  | streamDataBlocked id v => id ≤ kVarintMax ∧ v ≤ kVarintMax
  | pathChallenge _ => True
  | pathResponse _ => True
  | newConnectionId seq retirePriorTo cid _ =>
    seq ≤ kVarintMax ∧ retirePriorTo ≤ seq ∧ cid.bytes ≠ []
  | connectionClose _ code frameType reason =>
    code ≤ kVarintMax ∧ frameType ≤ kVarintMax ∧ reason.length ≤ kVarintMax

/-- A `STREAM` frame without a length reaches to the end of the packet. -/
def toTheEnd : Written → Bool
  | stream _ _ _ _ withLength => !withLength
  | _ => false

/-- The frame read where it was written from `start` on. -/
def frame (f : Frame) (start : Nat) : Written → Frame
  | ping => { f with type := 0x01 }
  | handshakeDone => { f with type := 0x1e }
  | ack received delay =>
    { f with
      type := 0x02, largestAck := (received.reverse.headD (0, 0)).2 - 1, ackDelay := delay
      ranges := received.reverse.take kMaxAckRanges }
  | crypto offset data =>
    { f with
      type := 0x06, offset, length := data.length
      data := some (start + (1 + varintSize offset + varintSize data.length)) }
  | stream id offset data fin withLength =>
    { f with
      type := streamType offset fin withLength, fin, streamId := id, offset, length := data.length
      data := some (start + streamHeaderSize id offset data.length withLength) }
  | maxData v => { f with type := 0x10, value := v }
  | maxStreamData id v => { f with type := 0x11, streamId := id, value := v }
  | maxStreams bidi v => { f with type := if bidi then 0x12 else 0x13, value := v }
  | resetStream id code finalSize =>
    { f with type := 0x04, streamId := id, value := code, value2 := finalSize }
  | stopSending id code => { f with type := 0x05, streamId := id, value := code }
  | retireConnectionId seq => { f with type := 0x19, value := seq }
  | dataBlocked v => { f with type := 0x14, value := v }
  | streamDataBlocked id v => { f with type := 0x15, streamId := id, value := v }
  | pathChallenge _ => { f with type := 0x1a, token := some (start + 1) }
  | pathResponse _ => { f with type := 0x1b, token := some (start + 1) }
  | newConnectionId seq retirePriorTo cid _ =>
    { f with
      type := 0x18, value := seq, value2 := retirePriorTo, cid
      token := some (start + (1 + varintSize seq + varintSize retirePriorTo + 1 + cid.bytes.length)) }
  | connectionClose app code frameType reason =>
    { f with
      type := if app then 0x1d else 0x1c, value := code
      value2 := if app then f.value2 else frameType
      reason := some (start + (1 + varintSize code + (if app then 0 else varintSize frameType) +
        varintSize reason.length), reason.length) }

end Written

/-! ### Frame by frame. -/

section
variable (f : Frame) (before after : Bytes)

variable {t : Nat}

theorem yields_value (hbody : readBody { f with type := t } = readValue { f with type := t })
    (ht : t < 64) {x : Nat} (hx : x ≤ kVarintMax) :
    Yields (readFrame f) before (UInt8.ofNat t :: writeVarint x) after { f with type := t, value := x } := by
  apply yields_readFrame ht
  rw [hbody]
  exact (yields_v hx _ _).map (yields_pure _ _ _)

theorem yields_streamValue
    (hbody : readBody { f with type := t } = readStreamValue { f with type := t }) (ht : t < 64)
    {id x : Nat} (hid : id ≤ kVarintMax) (hx : x ≤ kVarintMax) :
    Yields (readFrame f) before (UInt8.ofNat t :: (writeVarint id ++ writeVarint x)) after
      { f with type := t, streamId := id, value := x } := by
  apply yields_readFrame ht
  rw [hbody]
  apply (yields_v hid _ _).bind
  exact (yields_v hx _ _).map (yields_pure _ _ _)

theorem yields_reset {id code finalSize : Nat} (hid : id ≤ kVarintMax) (hcode : code ≤ kVarintMax)
    (hfinal : finalSize ≤ kVarintMax) : Yields (readFrame f) before
      (UInt8.ofNat 0x04 :: (writeVarint id ++ (writeVarint code ++ writeVarint finalSize))) after
      { f with type := 0x04, streamId := id, value := code, value2 := finalSize } := by
  apply yields_readFrame (by omega)
  apply (yields_v hid _ _).bind
  apply (yields_v hcode _ _).bind
  exact (yields_v hfinal _ _).map (yields_pure _ _ _)

theorem yields_path (hbody : readBody { f with type := t } = readPath { f with type := t })
    (ht : t < 64) (data : Vector UInt8 8) :
    Yields (readFrame f) before (UInt8.ofNat t :: data.toList) after
      { f with type := t, token := some (before.length + 1) } := by
  apply yields_readFrame ht
  rw [hbody]
  exact (yields_span after (by simp) (by simp)).map (yields_pure _ _ _)

theorem yields_crypto {offset : Nat} {data : Bytes} (hoffset : offset ≤ kVarintMax)
    (hdata : data.length ≤ kVarintMax) : Yields (readFrame f) before
      (UInt8.ofNat 0x06 :: (writeVarint offset ++ (writeVarint data.length ++ data))) after
      { f with
        type := 0x06, offset, length := data.length
        data := some (before.length + (1 + varintSize offset + varintSize data.length)) } := by
  apply yields_readFrame (by omega)
  apply (yields_v hoffset _ _).bind
  apply (yields_v hdata _ _).bind
  exact (yields_span after rfl (by simp; omega)).map (yields_pure _ _ _)

theorem yields_newConnectionId {seq retirePriorTo : Nat} (cid : PacketCid) (token : Vector UInt8 16)
    (hseq : seq ≤ kVarintMax) (hretire : retirePriorTo ≤ seq) (hcid : cid.bytes ≠ []) :
    Yields (readFrame f) before (UInt8.ofNat 0x18 :: (writeVarint seq ++ (writeVarint retirePriorTo ++
        (UInt8.ofNat cid.bytes.length :: (cid.bytes ++ token.toList))))) after
      { f with
        type := 0x18, value := seq, value2 := retirePriorTo, cid
        token := some (before.length +
          (1 + varintSize seq + varintSize retirePriorTo + 1 + cid.bytes.length)) } := by
  have hshort : cid.bytes.length ≤ 20 := cid.short
  have hpos : 0 < cid.bytes.length := List.length_pos_iff.mpr hcid
  have hbyte : (UInt8.ofNat cid.bytes.length).toNat = cid.bytes.length := by
    rw [UInt8.toNat_ofNat']
    omega
  apply yields_readFrame (by omega)
  apply (yields_v hseq _ _).bind
  apply (yields_v (by omega) _ _).bind
  rw [if_neg (by omega)]
  apply Yields.bind (w := [UInt8.ofNat cid.bytes.length]) (yields_next _ _ _)
  rw [hbyte, if_neg (by unfold kMaxCidLen; omega)]
  apply (yields_span _ rfl rfl).bind
  apply (yields_text _ _ _).peek
  apply (yields_span (p := before.length + (1 + varintSize seq + varintSize retirePriorTo + 1 +
    cid.bytes.length)) after (by simp) (by simp; omega)).map
  rw [PacketCid.assign_bytes]
  exact yields_pure _ _ _

theorem yields_close (app : Bool) {code frameType : Nat} {reason : Bytes} (hcode : code ≤ kVarintMax)
    (htype : frameType ≤ kVarintMax) (hreason : reason.length ≤ kVarintMax) : Yields (readFrame f) before
      (UInt8.ofNat (if app then 0x1d else 0x1c) :: (writeVarint code ++
        ((if app then [] else writeVarint frameType) ++ (writeVarint reason.length ++ reason)))) after
      { f with
        type := if app then 0x1d else 0x1c, value := code
        value2 := if app then f.value2 else frameType
        reason := some (before.length + (1 + varintSize code +
          (if app then 0 else varintSize frameType) + varintSize reason.length), reason.length) } := by
  cases app with
  | true =>
    apply yields_readFrame (by simp)
    apply (yields_v hcode _ _).bind
    apply Yields.bind (w := []) (yields_pure f.value2 _ _)
    apply (yields_v hreason _ _).bind
    exact (yields_span after rfl (by simp; omega)).map (yields_pure _ _ _)
  | false =>
    apply yields_readFrame (by simp)
    apply (yields_v hcode _ _).bind
    apply Yields.bind (w := writeVarint frameType) (yields_v htype _ _)
    apply (yields_v hreason _ _).bind
    exact (yields_span after rfl (by simp; omega)).map (yields_pure _ _ _)

/-- The three flags of a `STREAM` frame in its type. -/
theorem streamType_flags (offset : Nat) (fin withLength : Bool) :
    (0x08 ≤ streamType offset fin withLength ∧ streamType offset fin withLength ≤ 0x0f) ∧
    (streamType offset fin withLength &&& 0x04 ≠ 0 ↔ offset ≠ 0) ∧
    (streamType offset fin withLength &&& 0x02 ≠ 0 ↔ withLength = true) ∧
    decide (streamType offset fin withLength &&& 0x01 ≠ 0) = fin := by
  unfold streamType
  by_cases ho : offset ≠ 0
  · rw [if_pos ho]
    cases fin <;> cases withLength <;> simp [ho]
  rw [if_neg ho]
  cases fin <;> cases withLength <;> simp [ho]

theorem readBody_stream (ht : 0x08 ≤ t ∧ t ≤ 0x0f) :
    readBody { f with type := t } = readStream { f with type := t } := by
  obtain rfl | rfl | rfl | rfl | rfl | rfl | rfl | rfl : t = 0x08 ∨ t = 0x09 ∨ t = 0x0a ∨ t = 0x0b ∨
      t = 0x0c ∨ t = 0x0d ∨ t = 0x0e ∨ t = 0x0f := by omega
  all_goals rfl

theorem yields_stream {id offset : Nat} {data : Bytes} (fin withLength : Bool) (hid : id ≤ kVarintMax)
    (hdata : offset + data.length ≤ kVarintMax) (hend : withLength = false → after = []) :
    Yields (readFrame f) before (UInt8.ofNat (streamType offset fin withLength) :: (writeVarint id ++
        ((if offset ≠ 0 then writeVarint offset else []) ++
          ((if withLength then writeVarint data.length else []) ++ data)))) after
      { f with
        type := streamType offset fin withLength, fin, streamId := id, offset, length := data.length
        data := some (before.length + streamHeaderSize id offset data.length withLength) } := by
  obtain ⟨hrange, h4, h2, h1⟩ := streamType_flags offset fin withLength
  apply yields_readFrame (by omega)
  rw [readBody_stream f hrange]
  unfold readStream
  rw [h1]
  apply (yields_v hid _ _).bind
  have hoff : ∀ (before after : Bytes), Yields
      (if streamType offset fin withLength &&& 0x04 ≠ 0 then v else pure 0) before
      (if offset ≠ 0 then writeVarint offset else []) after offset := by
    intro before after
    by_cases ho : offset ≠ 0
    · rw [if_pos (h4.mpr ho), if_pos ho]
      exact yields_v (by omega) _ _
    rw [if_neg (mt h4.mp ho), if_neg ho, not_not.mp ho]
    exact yields_pure 0 _ _
  apply (hoff _ _).bind
  have hlen : ∀ before : Bytes, Yields
      (if streamType offset fin withLength &&& 0x02 ≠ 0 then v else left) before
      (if withLength then writeVarint data.length else []) (data ++ after) data.length := by
    intro before
    cases withLength with
    | true =>
      rw [if_pos (h2.mpr rfl)]
      exact yields_v (by omega) _ _
    | false =>
      -- without a length, the rest of the packet
      rw [if_neg (mt h2.mp (by simp)), hend rfl, List.append_nil]
      exact yields_left before data
  apply (hlen _).bind
  rw [if_neg (by omega)]
  refine (yields_span after rfl ?_).map (yields_pure _ _ _)
  unfold streamHeaderSize
  simp only [List.length_append, List.length_singleton, length_writeVarint, apply_ite List.length,
    List.length_nil]
  omega

theorem yields_ack {top : Nat × Nat} {xs : List (Nat × Nat)} {delay : Nat} (htop : top.1 < top.2)
    (hgap : Gapped top.1 xs) (hmax : top.2 ≤ 2 ^ 62) (hxs : xs.length ≤ kMaxAckRanges)
    (hdelay : delay ≤ kVarintMax) : Yields (readFrame f) before
      (UInt8.ofNat 0x02 :: ([top.2 - 1, delay, xs.length, top.2 - top.1 - 1] ++
        ackGaps top.1 xs).flatMap writeVarint) after
      { f with
        type := 0x02, largestAck := top.2 - 1, ackDelay := delay
        ranges := (top :: xs).take kMaxAckRanges } := by
  unfold kMaxAckRanges at hxs
  have hlargest : top.2 - 1 ≤ kVarintMax := by
    unfold kVarintMax
    omega
  have hcount : xs.length ≤ kVarintMax := by
    unfold kVarintMax
    omega
  have hfirst : top.2 - 1 - (top.2 - top.1 - 1) = top.1 := by omega
  have hend : top.2 - 1 + 1 = top.2 := by omega
  rw [List.flatMap_append]
  simp only [List.flatMap_cons, List.flatMap_nil, List.append_nil, List.append_assoc]
  apply yields_readFrame (by omega)
  apply (yields_v hlargest _ _).bind
  apply (yields_v hdelay _ _).bind
  apply (yields_v hcount _ _).bind
  apply (yields_v (by omega) _ _).bind
  rw [if_neg (by omega), hfirst, hend]
  apply (yields_ackRanges (by omega) hgap _ _ _).map
  have hall : [(top.1, top.2)] ++ xs.take (kMaxAckRanges + 1 - [(top.1, top.2)].length) = top :: xs := by
    rw [List.take_of_length_le (by simp only [List.length_singleton, kMaxAckRanges]; omega)]
    rfl
  rw [hall]
  exact yields_pure _ _ _

end

/-! ## §2. Every frame. -/

/-- The ranges the numbers of an `ACK` frame acknowledge (RFC 9000 19.3.1). -/
def ackedBy : List Nat → List (Nat × Nat)
  | largest :: _delay :: _count :: first :: gaps =>
    (largest - first, largest + 1) :: wireRanges (largest - first) gaps
  | _ => []

namespace Written

/-- There is something to write: an `ACK` of nothing is none. -/
def Nonempty : Written → Prop
  | ack received _ => received ≠ []
  | _ => True

/-- The bytes of a frame up to its payload. -/
def bytes : Written → Bytes
  | ping => [UInt8.ofNat 0x01]
  | handshakeDone => [UInt8.ofNat 0x1e]
  | ack received delay => UInt8.ofNat 0x02 :: (ackNumbers received delay).flatMap writeVarint
  | crypto offset data => UInt8.ofNat 0x06 :: (writeVarint offset ++ writeVarint data.length)
  | stream id offset data fin withLength =>
    UInt8.ofNat (streamType offset fin withLength) :: (writeVarint id ++
      ((if offset ≠ 0 then writeVarint offset else []) ++
        (if withLength then writeVarint data.length else [])))
  | maxData v => UInt8.ofNat 0x10 :: writeVarint v
  | maxStreamData id v => UInt8.ofNat 0x11 :: (writeVarint id ++ writeVarint v)
  | maxStreams bidi v => UInt8.ofNat (if bidi then 0x12 else 0x13) :: writeVarint v
  | resetStream id code finalSize =>
    UInt8.ofNat 0x04 :: (writeVarint id ++ (writeVarint code ++ writeVarint finalSize))
  | stopSending id code => UInt8.ofNat 0x05 :: (writeVarint id ++ writeVarint code)
  | retireConnectionId seq => UInt8.ofNat 0x19 :: writeVarint seq
  | dataBlocked v => UInt8.ofNat 0x14 :: writeVarint v
  | streamDataBlocked id v => UInt8.ofNat 0x15 :: (writeVarint id ++ writeVarint v)
  | pathChallenge data => UInt8.ofNat 0x1a :: data.toList
  | pathResponse data => UInt8.ofNat 0x1b :: data.toList
  | newConnectionId seq retirePriorTo cid token =>
    UInt8.ofNat 0x18 :: (writeVarint seq ++ (writeVarint retirePriorTo ++
      (UInt8.ofNat cid.bytes.length :: (cid.bytes ++ token.toList))))
  | connectionClose app code frameType reason =>
    UInt8.ofNat (if app then 0x1d else 0x1c) :: (writeVarint code ++
      ((if app then [] else writeVarint frameType) ++ (writeVarint reason.length ++ reason)))

theorem length_flatMap_write (ns : List Nat) : (ns.flatMap writeVarint).length = (ns.map varintSize).sum := by
  rw [List.length_flatMap]
  congr 1
  apply List.map_congr_left
  intro n _
  exact length_writeVarint n

/-- **The size is exact.** -/
theorem length_bytes (w : Written) : w.bytes.length = w.size := by
  cases w with
  | ack received delay =>
    rw [bytes, size, List.length_cons, length_flatMap_write, Nat.add_comm]
  | stream id offset data fin withLength =>
    simp only [bytes, size, streamHeaderSize, List.length_cons, List.length_append,
      length_writeVarint, apply_ite List.length, List.length_nil]
    omega
  | connectionClose app code frameType reason =>
    simp only [bytes, size, List.length_cons, List.length_append, length_writeVarint,
      apply_ite List.length, List.length_nil]
    omega
  | _ => simp [bytes, size] <;> omega

variable {type : Nat} {w : Written}

theorem putVarints_eq (cap : Nat) (h : type < 64) (ns : List Nat) :
    putVarints cap type ns = if cap < 1 + (ns.map varintSize).sum then none
      else some (UInt8.ofNat type :: ns.flatMap writeVarint) := by
  have hs : varintSize type = 1 := by
    unfold varintSize
    rw [if_pos h]
  have hw : writeVarint type = [UInt8.ofNat type] := by
    rw [writeVarint, hs]
    rfl
  rw [putVarints, hs, hw]
  rfl

theorem putVarints_one (cap : Nat) (h : type < 64) (a : Nat) :
    putVarints cap type [a] = if cap < 1 + varintSize a then none
      else some (UInt8.ofNat type :: writeVarint a) := by
  rw [putVarints_eq cap h]
  simp

theorem putVarints_two (cap : Nat) (h : type < 64) (a b : Nat) :
    putVarints cap type [a, b] = if cap < 1 + varintSize a + varintSize b then none
      else some (UInt8.ofNat type :: (writeVarint a ++ writeVarint b)) := by
  rw [putVarints_eq cap h]
  simp [Nat.add_assoc]

theorem putVarints_three (cap : Nat) (h : type < 64) (a b c : Nat) : putVarints cap type [a, b, c] =
      if cap < 1 + varintSize a + varintSize b + varintSize c then none
      else some (UInt8.ofNat type :: (writeVarint a ++ (writeVarint b ++ writeVarint c))) := by
  rw [putVarints_eq cap h]
  simp [Nat.add_assoc]

theorem ackNumbers_eq {received : RangeSet} {top : Nat × Nat} {below : List (Nat × Nat)}
    (hr : received.reverse = top :: below) (delay : Nat) : ackNumbers received delay =
      [top.2 - 1, delay, (below.take kMaxAckRanges).length, top.2 - top.1 - 1] ++
        ackGaps top.1 (below.take kMaxAckRanges) := by
  simp only [ackNumbers, further, hr, List.tail_cons]

theorem putAck_eq (cap : Nat) {received : RangeSet} (h : received ≠ []) (delay : Nat) :
    putAck cap received delay =
      if cap < 1 + ((ackNumbers received delay).map varintSize).sum then none
      else some (UInt8.ofNat 0x02 :: (ackNumbers received delay).flatMap writeVarint) := by
  cases hr : received.reverse with
  | nil => exact absurd (List.reverse_eq_nil_iff.mp hr) h
  | cons top below =>
    unfold putAck
    rw [hr]
    dsimp only
    by_cases hcap : cap = 0
    · rw [if_pos hcap, if_pos (by omega)]
    rw [if_neg hcap, foldlM_putNumber _ _ _ (by simp only [List.length_singleton]; omega)]
    rw [ackNumbers_eq hr]
    rfl

/-- **A frame is written** when its size fits. -/
theorem put_eq (h : w.Nonempty) (cap : Nat) :
    w.put cap = if cap < w.size then none else some w.bytes := by
  cases w with
  | ping => rfl
  | handshakeDone => rfl
  | ack received delay => exact putAck_eq cap h delay
  | crypto offset data => rfl
  | stream id offset data fin withLength => rfl
  | maxData v => exact putVarints_one cap (by omega) v
  | maxStreamData id v => exact putVarints_two cap (by omega) id v
  | maxStreams bidi v => exact putVarints_one cap (by split <;> omega) v
  | resetStream id code finalSize => exact putVarints_three cap (by omega) id code finalSize
  | stopSending id code => exact putVarints_two cap (by omega) id code
  | retireConnectionId seq => exact putVarints_one cap (by omega) seq
  | dataBlocked v => exact putVarints_one cap (by omega) v
  | streamDataBlocked id v => exact putVarints_two cap (by omega) id v
  | pathChallenge data => rfl
  | pathResponse data => rfl
  | newConnectionId seq retirePriorTo cid token => rfl
  | connectionClose app code frameType reason =>
    cases app <;> rfl

/-- An `ACK` of nothing is not written. -/
theorem nonempty_of_put {cap : Nat} {b : Bytes} (h : w.put cap = some b) : w.Nonempty := by
  cases w with
  | ack received delay =>
    intro hnil
    subst hnil
    simp [put, putAck] at h
  | _ => trivial

theorem put_some {w : Written} {cap : Nat} {b : Bytes} (h : w.put cap = some b) :
    b = w.bytes ∧ w.size ≤ cap := by
  rw [put_eq (nonempty_of_put h)] at h
  split at h
  · simp at h
  · exact ⟨(Option.some.inj h).symm, by omega⟩

/-! ### Read back. -/

/-- What the views of a frame read show in the packet. -/
def Shows (buf : Bytes) (g : Frame) : Written → Prop
  | crypto _ data => ∃ d, g.data = some d ∧ (buf.drop d).take g.length = data
  | stream _ _ data _ _ => ∃ d, g.data = some d ∧ (buf.drop d).take g.length = data
  | pathChallenge data => ∃ t, g.token = some t ∧ (buf.drop t).take 8 = data.toList
  | pathResponse data => ∃ t, g.token = some t ∧ (buf.drop t).take 8 = data.toList
  | newConnectionId _ _ _ token => ∃ t, g.token = some t ∧ (buf.drop t).take 16 = token.toList
  | connectionClose _ _ _ reason =>
    ∃ r, g.reason = some r ∧ (buf.drop r.1).take r.2 = reason
  | _ => True

/-- **A frame is read back**: the frame that was written, from the bytes that were. -/
theorem yields_frame (hw : w.Proper) (hne : w.Nonempty) (f : Frame) (before after : Bytes)
    (hend : w.toTheEnd = true → after = []) :
    Yields (readFrame f) before (w.bytes ++ w.payload) after (w.frame f before.length) := by
  cases w with
  | ping => exact yields_readFrame (by omega) (yields_pure _ _ _)
  | handshakeDone => exact yields_readFrame (by omega) (yields_pure _ _ _)
  | ack received delay =>
    obtain ⟨habove, hmax, hdelay⟩ := hw
    cases hr : received.reverse with
    | nil => exact absurd (List.reverse_eq_nil_iff.mp hr) hne
    | cons top below =>
      have hmem : top ∈ received := List.mem_reverse.mp (hr ▸ .head _)
      have hgap : Gapped (2 ^ 62 + 1) (top :: below) := by
        rw [← hr]
        exact gapped_reverse habove fun x hx => by have := hmax x hx; omega
      have hack := yields_ack f before after hgap.1 (hgap.2.2.take kMaxAckRanges) (hmax top hmem)
        (by rw [List.length_take]; exact Nat.min_le_left _ _) hdelay
      have hranges : (top :: below.take kMaxAckRanges).take kMaxAckRanges =
          (top :: below).take kMaxAckRanges := by
        simp only [kMaxAckRanges, List.take_succ_cons, List.take_take]
        rfl
      rw [hranges, ← ackNumbers_eq hr] at hack
      simp only [bytes, payload, frame, hr, List.append_nil, List.headD_cons]
      exact hack
  | crypto offset data =>
    have h := yields_crypto f before after hw.1 hw.2
    rw [← List.append_assoc (writeVarint offset)] at h
    exact h
  | stream id offset data fin withLength =>
    have h := yields_stream f before after fin withLength hw.1 hw.2 fun hl => hend (by simp [toTheEnd, hl])
    simp only [← List.append_assoc] at h
    simp only [bytes, payload, List.cons_append, ← List.append_assoc]
    exact h
  | maxData v =>
    exact (yields_value f before after rfl (by omega) hw).append_nil
  | maxStreamData id v =>
    exact (yields_streamValue f before after rfl (by omega) hw.1 hw.2).append_nil
  | maxStreams bidi v =>
    cases bidi with
    | true => exact (yields_value f before after (t := 0x12) rfl (by omega) hw).append_nil
    | false => exact (yields_value f before after (t := 0x13) rfl (by omega) hw).append_nil
  | resetStream id code finalSize =>
    exact (yields_reset f before after hw.1 hw.2.1 hw.2.2).append_nil
  | stopSending id code =>
    exact (yields_streamValue f before after rfl (by omega) hw.1 hw.2).append_nil
  | retireConnectionId seq =>
    exact (yields_value f before after rfl (by omega) hw).append_nil
  | dataBlocked v =>
    exact (yields_value f before after rfl (by omega) hw).append_nil
  | streamDataBlocked id v =>
    exact (yields_streamValue f before after rfl (by omega) hw.1 hw.2).append_nil
  | pathChallenge data =>
    exact (yields_path f before after rfl (by omega) data).append_nil
  | pathResponse data =>
    exact (yields_path f before after rfl (by omega) data).append_nil
  | newConnectionId seq retirePriorTo cid token =>
    exact (yields_newConnectionId f before after cid token hw.1 hw.2.1 hw.2.2).append_nil
  | connectionClose app code frameType reason =>
    exact (yields_close f before after app hw.1 hw.2.1 hw.2.2).append_nil

/-- A view of what is written that starts behind its first bytes. -/
theorem take_drop_view (before after : Bytes) {w l view : Bytes} {p n : Nat} (hw : w = l ++ view)
    (hp : l.length = p) (hn : view.length = n) :
    ((before ++ (w ++ after)).drop (before.length + p)).take n = view := by
  rw [hw, ← hp, ← hn, ← List.drop_drop, List.drop_left, List.append_assoc, List.drop_left, List.take_left]

theorem shows_frame (w : Written) (f : Frame) (before after : Bytes) :
    w.Shows (before ++ ((w.bytes ++ w.payload) ++ after)) (w.frame f before.length) := by
  cases w with
  | crypto offset data => exact ⟨_, rfl, take_drop_view before after rfl (length_bytes _) rfl⟩
  | stream id offset data fin withLength =>
    exact ⟨_, rfl, take_drop_view before after rfl (length_bytes _) rfl⟩
  | pathChallenge data =>
    exact ⟨_, rfl, take_drop_view before after (l := [UInt8.ofNat 0x1a]) (List.append_nil _) rfl
      (by simp)⟩
  | pathResponse data =>
    exact ⟨_, rfl, take_drop_view before after (l := [UInt8.ofNat 0x1b]) (List.append_nil _) rfl
      (by simp)⟩
  | newConnectionId seq retirePriorTo cid token =>
    refine ⟨_, rfl, take_drop_view before after (l := UInt8.ofNat 0x18 :: (writeVarint seq ++
      (writeVarint retirePriorTo ++ (UInt8.ofNat cid.bytes.length :: cid.bytes)))) ?_ ?_ (by simp)⟩
    · simp [bytes, payload]
    · simp
      omega
  | connectionClose app code frameType reason =>
    refine ⟨_, rfl, take_drop_view before after (l := UInt8.ofNat (if app then 0x1d else 0x1c) ::
      (writeVarint code ++ ((if app then [] else writeVarint frameType) ++ writeVarint reason.length)))
      ?_ ?_ rfl⟩
    · simp [bytes, payload]
    · cases app <;> simp <;> omega
  | _ => trivial

/-- **An `ACK` acknowledges** the highest range of the set and the thirty-two below it. -/
theorem ackedBy_numbers {received : RangeSet} (h : RangeSet.Above 0 received)
    (hmax : ∀ x ∈ received, x.2 ≤ 2 ^ 62) (delay : Nat) :
    ackedBy (ackNumbers received delay) = received.reverse.take (kMaxAckRanges + 1) := by
  cases hr : received.reverse with
  | nil =>
    rw [ackNumbers, hr]
    rfl
  | cons top below =>
    have hgap : Gapped (2 ^ 62 + 1) (top :: below) := by
      rw [← hr]
      exact gapped_reverse h fun x hx => by have := hmax x hx; omega
    have hlt := hgap.1
    have hfirst : top.2 - 1 - (top.2 - top.1 - 1) = top.1 := by omega
    have hlast : top.2 - 1 + 1 = top.2 := by omega
    simp only [ackNumbers, further, hr, List.tail_cons, List.cons_append, List.nil_append, ackedBy,
      hfirst, hlast, wireRanges_ackGaps (hgap.2.2.take kMaxAckRanges), List.take_succ_cons]

end Written

open Written

/-- **Frames.**  A frame that says what its format allows and is written takes exactly the room its
size gives, within the room there is, and is read back with its bytes, whatever is before and after;
a `STREAM` frame without a length, at the end of the packet.  An `ACK` holds the highest range of
the set and up to thirty-two below it, and the thirty-two highest are read.  Whatever the bytes, a
frame read takes at least one byte and no more than there are, its views among them, so the loop
over a packet ends. -/
theorem frames_round_trip : (∀ (w : Written) (cap : Nat), w.Nonempty → ((w.put cap).isSome ↔ w.size ≤ cap)) ∧
    (∀ (w : Written) (cap : Nat) (b : Bytes), w.Proper → w.put cap = some b → b.length = w.size ∧
      ∀ (f : Frame) (before after : Bytes), (w.toTheEnd = true → after = []) →
        Yields (readFrame f) before (b ++ w.payload) after (w.frame f before.length) ∧
        w.Shows (before ++ ((b ++ w.payload) ++ after)) (w.frame f before.length)) ∧
    (∀ (received : RangeSet) (delay cap : Nat) (b : Bytes), (ack received delay).Proper →
      putAck cap received delay = some b → ∃ numbers, b = UInt8.ofNat 0x02 :: numbers.flatMap writeVarint ∧
        ackedBy numbers = received.reverse.take (kMaxAckRanges + 1)) ∧
    (∀ (f : Frame) (buf : Bytes) (pos : Nat) (g : Frame) (pos' : Nat), pos ≤ buf.length →
      readFrame f buf pos = some (g, pos') → pos < pos' ∧ pos' ≤ buf.length ∧ ViewsIn pos pos' g) ∧
    (∀ (f : Frame) (buf : Bytes), (readFrames buf (buf.length + 1) f 0).isSome) := by
  refine ⟨?_, ?_, ?_, ?_, ?_⟩
  · intro w cap hne
    rw [put_eq hne]
    split
    · exact iff_of_false (by simp) (by omega)
    · exact iff_of_true rfl (by omega)
  · intro w cap b hw hput
    obtain ⟨rfl, -⟩ := put_some hput
    refine ⟨length_bytes w, ?_⟩
    intro f before after hend
    exact ⟨yields_frame hw (nonempty_of_put hput) f before after hend, shows_frame w f before after⟩
  · intro received delay cap b hw hput
    obtain ⟨rfl, -⟩ := @put_some (ack received delay) cap b hput
    exact ⟨ackNumbers received delay, rfl, ackedBy_numbers hw.1 hw.2.1 delay⟩
  · intro f buf pos g pos' hpos hr
    obtain ⟨-, hin, hlt, hviews⟩ := readFrame_ensures f hpos hr
    exact ⟨hlt, hin, hviews⟩
  · intro f buf
    exact readFrames_isSome buf f (Nat.zero_le _) (by omega)

/-- A frame read back from the middle of a packet. -/
theorem frames_round_trip_stream :
    Yields (readFrame {}) [0x01] ([0x0f, 0x04, 0x05, 0x03] ++ [0x61, 0x62, 0x63]) [0x1e]
      { type := 0x0f, fin := true, streamId := 4, offset := 5, length := 3, data := some 5 } :=
  ((frames_round_trip.2.1 (stream 4 5 [0x61, 0x62, 0x63] true true) 100 [0x0f, 0x04, 0x05, 0x03]
    ⟨by decide, by decide⟩ rfl).2 {} [0x01] [0x1e] (by decide)).1

/-- Every other number from `2 * k` on. -/
def everyOther (k n : Nat) : RangeSet := (List.range' k n).map fun i => (2 * i, 2 * i + 1)

theorem above_everyOther (k n : Nat) : RangeSet.Above (2 * k) (everyOther k n) := by
  induction n generalizing k with
  | zero => trivial
  | succ n ih =>
    show 2 * k ≤ 2 * k ∧ 2 * k < 2 * k + 1 ∧ RangeSet.Above (2 * k + 1 + 1) (everyOther (k + 1) n)
    exact ⟨le_rfl, by omega, ih (k + 1)⟩

/-- An `ACK` of thirty-three ranges acknowledges the lowest of them too. -/
theorem thirty_three_ranges : RangeSet.Above 0 (everyOther 0 33) ∧
    ∃ b numbers, putAck 100 (everyOther 0 33) 0 = some b ∧
      b = UInt8.ofNat 0x02 :: numbers.flatMap writeVarint ∧
      (0, 1) ∈ ackedBy numbers ∧ (0, 1) ∉ (everyOther 0 33).reverse.take 32 :=
  ⟨above_everyOther 0 33, _, ackNumbers (everyOther 0 33) 0,
    (putAck_eq 100 (by decide) 0).trans (if_neg (by decide +kernel)), rfl, by decide +kernel,
    by decide +kernel⟩

end Frames

end Agensio.Quic
