/-
  Agensio.Quic.Frames — frames written and read.

  Model of the `put_*` functions and of `read_frame` (`quic/frames.hpp`).
  A writer is given the room left in the packet and answers nothing when
  the frame does not fit; `CRYPTO` and `STREAM` headers are followed by
  their bytes.  The reader moves a pointer through the packet: here a
  position in it, which the views it returns are also.

  Main results:
    * `readFrame_ensures` — a frame read takes at least one byte and no more
      than there are, its views among them;
    * `readFrames_isSome` — the loop over a packet ends.
-/
import Agensio.Lib.Cursor
import Agensio.Quic.Link
import Agensio.Quic.RangeSet
import Agensio.Quic.TransportParams

namespace Agensio.Quic

open Agensio.Lib
open Agensio.Lib.Reader

namespace Frames

/-! ## §1. The writers. -/

/-- `put_ping`. -/
def putPing (cap : Nat) : Option Bytes := if cap < 1 then none else some [0x01]

/-- `put_handshake_done`. -/
def putHandshakeDone (cap : Nat) : Option Bytes := if cap < 1 then none else some [0x1e]

/-- The gap and the length of each range below the first, from the begin of the one above. -/
def ackGaps (prevBegin : Nat) : List (Nat × Nat) → List Nat
  | [] => []
  | x :: xs => (prevBegin - x.2 - 1) :: (x.2 - x.1 - 1) :: ackGaps x.1 xs

/-- One number more, while it fits. -/
def putNumber (cap : Nat) (out : Bytes) (v : Nat) : Option Bytes :=
  if cap - out.length < varintSize v then none else some (out ++ writeVarint v)

/-- `put_ack`: the highest range and up to `kMaxAckRanges` below it. -/
def putAck (cap : Nat) (received : RangeSet) (delay : Nat) : Option Bytes :=
  match received.reverse with
  | [] => none
  | top :: below =>
    if cap = 0 then none
    else
      let further := below.take kMaxAckRanges
      let numbers := [top.2 - 1, delay, further.length, top.2 - top.1 - 1] ++ ackGaps top.1 further
      numbers.foldlM (putNumber cap) [0x02]

/-- `put_crypto_header`. -/
def putCryptoHeader (cap offset len : Nat) : Option Bytes :=
  if cap < 1 + varintSize offset + varintSize len then none
  else some (0x06 :: (writeVarint offset ++ writeVarint len))

/-- `stream_header_size`. -/
def streamHeaderSize (id offset len : Nat) (withLength : Bool) : Nat :=
  1 + varintSize id + (if offset ≠ 0 then varintSize offset else 0) +
    (if withLength then varintSize len else 0)

/-- The type of a `STREAM` frame. -/
def streamType (offset : Nat) (fin withLength : Bool) : Nat :=
  0x08 ||| (if offset ≠ 0 then 0x04 else 0) ||| (if withLength then 0x02 else 0) |||
    (if fin then 0x01 else 0)

/-- `put_stream_header`. -/
def putStreamHeader (cap id offset len : Nat) (fin withLength : Bool) : Option Bytes :=
  if cap < streamHeaderSize id offset len withLength then none
  else some (UInt8.ofNat (streamType offset fin withLength) ::
    (writeVarint id ++ ((if offset ≠ 0 then writeVarint offset else []) ++
      (if withLength then writeVarint len else []))))

/-- `put_varints`, of one to three numbers behind the type. -/
def putVarints (cap type : Nat) (numbers : List Nat) : Option Bytes :=
  if cap < varintSize type + (numbers.map varintSize).sum then none
  else some (writeVarint type ++ numbers.flatMap writeVarint)

def putMaxData (cap v : Nat) : Option Bytes := putVarints cap 0x10 [v]

def putMaxStreamData (cap id v : Nat) : Option Bytes := putVarints cap 0x11 [id, v]

def putMaxStreams (cap : Nat) (bidi : Bool) (v : Nat) : Option Bytes :=
  putVarints cap (if bidi then 0x12 else 0x13) [v]

def putResetStream (cap id code finalSize : Nat) : Option Bytes :=
  putVarints cap 0x04 [id, code, finalSize]

def putStopSending (cap id code : Nat) : Option Bytes := putVarints cap 0x05 [id, code]

def putRetireConnectionId (cap seq : Nat) : Option Bytes := putVarints cap 0x19 [seq]

def putDataBlocked (cap v : Nat) : Option Bytes := putVarints cap 0x14 [v]

def putStreamDataBlocked (cap id v : Nat) : Option Bytes := putVarints cap 0x15 [id, v]

/-- `put_path_challenge` and `put_path_response`. -/
def putPathChallenge (cap : Nat) (data : Vector UInt8 8) : Option Bytes :=
  if cap < 9 then none else some (0x1a :: data.toList)

def putPathResponse (cap : Nat) (data : Vector UInt8 8) : Option Bytes :=
  if cap < 9 then none else some (0x1b :: data.toList)

/-- `put_new_connection_id`. -/
def putNewConnectionId (cap seq retirePriorTo : Nat) (cid : PacketCid) (token : Vector UInt8 16) :
    Option Bytes :=
  if cap < 1 + varintSize seq + varintSize retirePriorTo + 1 + cid.bytes.length + 16 then none
  else some (0x18 :: (writeVarint seq ++ (writeVarint retirePriorTo ++
    (UInt8.ofNat cid.bytes.length :: (cid.bytes ++ token.toList)))))

/-- `put_connection_close`. -/
def putConnectionClose (cap : Nat) (app : Bool) (code frameType : Nat) (reason : Bytes) :
    Option Bytes :=
  if cap < 1 + varintSize code + (if app then 0 else varintSize frameType) +
      varintSize reason.length + reason.length then none
  else some ((if app then 0x1d else 0x1c) :: (writeVarint code ++
    ((if app then [] else writeVarint frameType) ++ (writeVarint reason.length ++ reason))))

/-! ## §2. The reader. -/

/-- `Frame`.  A pointer into the packet is a position in it; the first `range_count` of the ranges
are a list. -/
structure Frame where
  type : Nat := 0
  streamId : Nat := 0
  offset : Nat := 0
  length : Nat := 0
  fin : Bool := false
  data : Option Nat := none
  largestAck : Nat := 0
  ackDelay : Nat := 0
  ranges : List (Nat × Nat) := []
  value : Nat := 0
  value2 : Nat := 0
  cid : PacketCid := .empty
  token : Option Nat := none
  reason : Option (Nat × Nat) := none
  deriving DecidableEq

/-- `read_varint` at the pointer. -/
def v : Reader UInt8 Nat := fun buf pos =>
  match readVarint (buf.drop pos) (buf.length - pos) with
  | none => none
  | some (x, n) => some (x, pos + n)

/-- The loop over the gaps of an `ACK` frame: `smallest` is the last number of the range above. -/
def ackRanges : (count : Nat) → (smallest : Nat) → List (Nat × Nat) → Reader UInt8 (List (Nat × Nat))
  | 0, _, ranges => pure ranges
  | count + 1, smallest, ranges => do
    let gap ← v
    let len ← v
    if gap + 2 > smallest then fail
    else
      let largest := smallest - gap - 2
      if len > largest then fail
      else
        let smallest := largest - len
        ackRanges count smallest
          (if ranges.length ≤ kMaxAckRanges then ranges ++ [(smallest, largest + 1)] else ranges)

/-- `ack` and `ack_ecn`. -/
def readAck (f : Frame) : Reader UInt8 Frame := do
  let largestAck ← v
  let ackDelay ← v
  let count ← v
  let first ← v
  if first > largestAck then fail
  else
    let ranges ← ackRanges count (largestAck - first) [(largestAck - first, largestAck + 1)]
    let f := { f with largestAck, ackDelay, ranges := ranges.take kMaxAckRanges }
    if f.type = 0x03 then do
      let _ect0 ← v
      let _ect1 ← v
      let _ce ← v
      pure f
    else pure f

def readCrypto (f : Frame) : Reader UInt8 Frame := do
  let offset ← v
  let length ← v
  let data ← span length
  pure { f with offset, length, data := some data }

def readNewToken (f : Frame) : Reader UInt8 Frame := do
  let length ← v
  if length = 0 then fail
  else
    let data ← span length
    pure { f with length, data := some data }

def readResetStream (f : Frame) : Reader UInt8 Frame := do
  let streamId ← v
  let value ← v
  let value2 ← v
  pure { f with streamId, value, value2 }

/-- The frames of a stream and a number. -/
def readStreamValue (f : Frame) : Reader UInt8 Frame := do
  let streamId ← v
  let value ← v
  pure { f with streamId, value }

/-- The frames of one number. -/
def readValue (f : Frame) : Reader UInt8 Frame := do
  let value ← v
  pure { f with value }

def readNewConnectionId (f : Frame) : Reader UInt8 Frame := do
  let value ← v
  let value2 ← v
  if value2 > value then fail
  else
    let len ← next
    if len.toNat < 1 ∨ len.toNat > kMaxCidLen then fail
    else
      let c ← span len.toNat
      let id ← text c len.toNat
      let token ← span 16
      pure { f with value, value2, cid := .assign id, token := some token }

def readPath (f : Frame) : Reader UInt8 Frame := do
  let token ← span 8
  pure { f with token := some token }

def readClose (f : Frame) : Reader UInt8 Frame := do
  let value ← v
  let value2 ← (if f.type = 0x1c then v else pure f.value2)
  let len ← v
  let r ← span len
  pure { f with value, value2, reason := some (r, len) }

def readStream (f : Frame) : Reader UInt8 Frame := do
  let fin := decide (f.type &&& 0x01 ≠ 0)
  let streamId ← v
  let offset ← (if f.type &&& 0x04 ≠ 0 then v else pure 0)
  let length ← (if f.type &&& 0x02 ≠ 0 then v else left)
  if offset + length > kVarintMax then fail
  else
    let data ← span length
    pure { f with fin, streamId, offset, length, data := some data }

/-- The `switch` of `read_frame` on the type. -/
def readBody (f : Frame) : Reader UInt8 Frame :=
  match f.type with
  | 0x00 => do
    -- a run of PADDING is one frame
    skip (fun b => b = 0)
    pure f
  | 0x01 => pure f
  | 0x02 => readAck f
  | 0x03 => readAck f
  | 0x04 => readResetStream f
  | 0x05 => readStreamValue f
  | 0x06 => readCrypto f
  | 0x07 => readNewToken f
  | 0x10 => readValue f
  | 0x11 => readStreamValue f
  | 0x12 => readValue f
  | 0x13 => readValue f
  | 0x14 => readValue f
  | 0x15 => readStreamValue f
  | 0x16 => readValue f
  | 0x17 => readValue f
  | 0x18 => readNewConnectionId f
  | 0x19 => readValue f
  | 0x1a => readPath f
  | 0x1b => readPath f
  | 0x1c => readClose f
  | 0x1d => readClose f
  | 0x1e => pure f
  | type => if 0x08 ≤ type ∧ type ≤ 0x0f then readStream f else fail

/-- `read_frame`. -/
def readFrame (f : Frame) : Reader UInt8 Frame := do
  let type ← v
  readBody { f with type }

/-! ## §3. Reading stays inside the packet. -/

theorem ensures_v : Ensures v fun p q _ => p < q := by
  intro buf pos a pos' hpos hr
  unfold v at hr
  cases hv : readVarint (buf.drop pos) (buf.length - pos) with
  | none =>
    rw [hv] at hr
    simp at hr
  | some x =>
    rw [hv] at hr
    obtain ⟨-, rfl⟩ : x.1 = a ∧ pos + x.2 = pos' := by simpa using hr
    have hle := readVarint_le hv
    exact ⟨by omega, by omega, by omega⟩

/-- A number first: what follows says it all of a span that may begin later. -/
theorem ensures_v_then {α : Type} {g : Nat → Reader UInt8 α} {Q : Nat → Nat → α → Prop}
    (hg : ∀ a, Ensures (g a) Q) (hmono : ∀ p q s b, p ≤ q → Q q s b → Q p s b) : Ensures (v >>= g) Q :=
  ensures_v.then hg hmono

/-- The types that have a view of bytes, of a token, of a reason. -/
def CarriesData (type : Nat) : Prop := type = 0x06 ∨ type = 0x07 ∨ (0x08 ≤ type ∧ type ≤ 0x0f)

def CarriesToken (type : Nat) : Prop := type = 0x18 ∨ type = 0x1a ∨ type = 0x1b

def CarriesReason (type : Nat) : Prop := type = 0x1c ∨ type = 0x1d

/-- The views of a frame lie between two positions; the fields of other types are left from frames
before. -/
structure ViewsIn (p q : Nat) (f : Frame) : Prop where
  data : CarriesData f.type → ∃ d, f.data = some d ∧ p ≤ d ∧ d + f.length ≤ q
  token : CarriesToken f.type →
    ∃ t, f.token = some t ∧ p ≤ t ∧ t + (if f.type = 0x18 then 16 else 8) ≤ q
  reason : CarriesReason f.type → ∃ r, f.reason = some r ∧ p ≤ r.1 ∧ r.1 + r.2 ≤ q

variable {p : Nat} {f : Frame}

theorem ViewsIn.later {q s : Nat} (hpq : p ≤ q) (h : ViewsIn q s f) : ViewsIn p s f := by
  refine ⟨?_, ?_, ?_⟩
  · intro ht
    obtain ⟨d, hd, hle, hin⟩ := h.data ht
    exact ⟨d, hd, by omega, hin⟩
  · intro ht
    obtain ⟨t, htok, hle, hin⟩ := h.token ht
    exact ⟨t, htok, by omega, hin⟩
  · intro ht
    obtain ⟨r, hr, hle, hin⟩ := h.reason ht
    exact ⟨r, hr, by omega, hin⟩

/-- A type without views. -/
def NoViews (f : Frame) : Prop :=
  ¬ CarriesData f.type ∧ ¬ CarriesToken f.type ∧ ¬ CarriesReason f.type

theorem NoViews.viewsIn (h : NoViews f) (p q : Nat) : ViewsIn p q f :=
  ⟨fun hc => absurd hc h.1, fun hc => absurd hc h.2.1, fun hc => absurd hc h.2.2⟩

theorem noViews_of {t : Nat} (h : f.type = t)
    (hno : ¬ CarriesData t ∧ ¬ CarriesToken t ∧ ¬ CarriesReason t) : NoViews f := by
  subst h
  exact hno

/-- What is read goes forward and has its views where it was read. -/
abbrev Sound (r : Reader UInt8 Frame) : Prop := Ensures r ViewsIn

theorem sound_pure (h : NoViews f) : Sound (pure f) := ensures_pure fun p => h.viewsIn p p

theorem sound_v {g : Nat → Reader UInt8 Frame} (hg : ∀ a, Sound (g a)) : Sound (v >>= g) :=
  ensures_v_then hg fun _ _ _ _ hpq h => h.later hpq

theorem ackRanges_ensures (count smallest : Nat) (ranges : List (Nat × Nat)) :
    Ensures (ackRanges count smallest ranges) fun _ _ _ => True := by
  induction count generalizing smallest ranges with
  | zero => exact ensures_pure fun _ => trivial
  | succ count ih =>
    apply ensures_v_then _ (fun _ _ _ _ _ h => h)
    intro gap
    apply ensures_v_then _ (fun _ _ _ _ _ h => h)
    intro len
    apply ensures_ite
    · exact fun _ => ensures_fail
    · intro _
      apply ensures_ite
      · exact fun _ => ensures_fail
      · exact fun _ => ih _ _

theorem sound_readAck (h : NoViews f) : Sound (readAck f) := by
  apply sound_v
  intro largestAck
  apply sound_v
  intro ackDelay
  apply sound_v
  intro count
  apply sound_v
  intro first
  apply ensures_ite
  · exact fun _ => ensures_fail
  · intro _
    apply (ackRanges_ensures _ _ _).then _ (fun _ _ _ _ hpq h => h.later hpq)
    intro ranges
    have hnew : NoViews { f with largestAck, ackDelay, ranges := ranges.take kMaxAckRanges } := h
    apply ensures_ite
    · intro _
      apply sound_v
      intro _
      apply sound_v
      intro _
      apply sound_v
      intro _
      exact sound_pure hnew
    · exact fun _ => sound_pure hnew

/-- A span and the frame that holds it. -/
theorem sound_span {n : Nat} {g : Nat → Frame} (h : ∀ p, ViewsIn p (p + n) (g p)) :
    Sound (span n >>= fun a => pure (g a)) := by
  apply (ensures_span n).bind (R := fun a p q f => f = g a ∧ p = q)
  · intro a buf pos f pos' hpos hr
    have hr' : some (g a, pos) = some (f, pos') := hr
    obtain ⟨rfl, rfl⟩ : g a = f ∧ pos = pos' := by simpa using hr'
    exact ⟨le_rfl, hpos, rfl, rfl⟩
  · intro p q s a f _ _ hspan hf
    obtain ⟨rfl, rfl⟩ := hspan
    obtain ⟨rfl, rfl⟩ := hf
    exact h a

/-- The bytes of a frame. -/
theorem data_in {g : Frame} (hc : CarriesData g.type) (hd : g.data = some p) :
    ViewsIn p (p + g.length) g := by
  refine ⟨fun _ => ⟨p, hd, le_rfl, le_rfl⟩, ?_, ?_⟩
  · intro ht
    unfold CarriesData at hc
    unfold CarriesToken at ht
    omega
  · intro hr
    unfold CarriesData at hc
    unfold CarriesReason at hr
    omega

theorem sound_readCrypto (h : CarriesData f.type) : Sound (readCrypto f) := by
  apply sound_v
  intro offset
  apply sound_v
  intro length
  apply sound_span
  intro p
  exact data_in (g := { f with offset, length, data := some p }) h rfl

theorem sound_readNewToken (h : CarriesData f.type) : Sound (readNewToken f) := by
  apply sound_v
  intro length
  apply ensures_ite
  · exact fun _ => ensures_fail
  · intro _
    apply sound_span
    intro p
    exact data_in (g := { f with length, data := some p }) h rfl

/-- The flags of a `STREAM` frame choose whether a number is read. -/
theorem ensures_optional (c : Prop) [Decidable c] {r : Reader UInt8 Nat}
    (hr : Ensures r fun _ _ _ => True) : Ensures (if c then v else r) fun _ _ _ => True :=
  ensures_ite (fun _ => ensures_v.mono fun _ _ _ _ => trivial) fun _ => hr

theorem sound_readStream (h : CarriesData f.type) : Sound (readStream f) := by
  apply sound_v
  intro streamId
  apply (ensures_optional _ (ensures_pure fun _ => trivial)).then _ (fun _ _ _ _ hpq h => h.later hpq)
  intro offset
  apply (ensures_optional _ ensures_left).then _ (fun _ _ _ _ hpq h => h.later hpq)
  intro length
  apply ensures_ite
  · exact fun _ => ensures_fail
  · intro _
    apply sound_span
    intro p
    exact data_in (g := { f with fin := _, streamId, offset, length, data := some p }) h rfl

/-- The eight or sixteen bytes of a frame. -/
theorem token_in {g : Frame} (hc : CarriesToken g.type) {n : Nat} (ht : g.token = some p)
    (hn : n = if g.type = 0x18 then 16 else 8) : ViewsIn p (p + n) g := by
  refine ⟨?_, fun _ => ⟨p, ht, le_rfl, by rw [hn]⟩, ?_⟩
  · intro hd
    unfold CarriesToken at hc
    unfold CarriesData at hd
    omega
  · intro hr
    unfold CarriesToken at hc
    unfold CarriesReason at hr
    omega

theorem sound_readPath (h : CarriesToken f.type) (htype : f.type ≠ 0x18) : Sound (readPath f) := by
  apply sound_span
  intro p
  exact token_in (g := { f with token := some p }) h rfl (by rw [if_neg htype])

theorem sound_readNewConnectionId (htype : f.type = 0x18) : Sound (readNewConnectionId f) := by
  apply sound_v
  intro value
  apply sound_v
  intro value2
  apply ensures_ite
  · exact fun _ => ensures_fail
  · intro _
    apply ensures_next.then _ (fun _ _ _ _ hpq h => h.later hpq)
    intro len
    apply ensures_ite
    · exact fun _ => ensures_fail
    · intro _
      apply (ensures_span _).then _ (fun _ _ _ _ hpq h => h.later hpq)
      intro c
      apply (ensures_text _ _).then _ (fun _ _ _ _ hpq h => h.later hpq)
      intro id
      apply sound_span
      intro p
      exact token_in (g := { f with value, value2, cid := .assign id, token := some p })
        (.inl htype) rfl (by rw [if_pos htype])

theorem sound_readClose (h : CarriesReason f.type) : Sound (readClose f) := by
  apply sound_v
  intro value
  apply (ensures_optional _ (ensures_pure fun _ => trivial)).then _ (fun _ _ _ _ hpq h => h.later hpq)
  intro value2
  apply sound_v
  intro len
  apply sound_span
  intro p
  refine ⟨?_, ?_, fun _ => ⟨(p, len), rfl, le_rfl, le_rfl⟩⟩
  · intro hd
    have hd' : CarriesData f.type := hd
    unfold CarriesReason at h
    unfold CarriesData at hd'
    omega
  · intro ht
    have ht' : CarriesToken f.type := ht
    unfold CarriesReason at h
    unfold CarriesToken at ht'
    omega

theorem sound_readValue (h : NoViews f) : Sound (readValue f) :=
  sound_v fun _ => sound_pure h

theorem sound_readStreamValue (h : NoViews f) : Sound (readStreamValue f) :=
  sound_v fun _ => sound_v fun _ => sound_pure h

theorem sound_readResetStream (h : NoViews f) : Sound (readResetStream f) :=
  sound_v fun _ => sound_v fun _ => sound_v fun _ => sound_pure h

theorem sound_readBody (f : Frame) : Sound (readBody f) := by
  -- the types without views
  have none_of : ∀ t, f.type = t → (¬ CarriesData t ∧ ¬ CarriesToken t ∧ ¬ CarriesReason t) →
      NoViews f := fun t h hno => noViews_of h hno
  unfold readBody
  split
  · exact (ensures_skip _).then (fun _ => sound_pure (none_of _ ‹_› (by simp [CarriesData, CarriesToken, CarriesReason])))
      fun _ _ _ _ hpq h => h.later hpq
  · exact sound_pure (none_of _ ‹_› (by simp [CarriesData, CarriesToken, CarriesReason]))
  · exact sound_readAck (none_of _ ‹_› (by simp [CarriesData, CarriesToken, CarriesReason]))
  · exact sound_readAck (none_of _ ‹_› (by simp [CarriesData, CarriesToken, CarriesReason]))
  · exact sound_readResetStream (none_of _ ‹_› (by simp [CarriesData, CarriesToken, CarriesReason]))
  · exact sound_readStreamValue (none_of _ ‹_› (by simp [CarriesData, CarriesToken, CarriesReason]))
  · exact sound_readCrypto (.inl ‹_›)
  · exact sound_readNewToken (.inr (.inl ‹_›))
  · exact sound_readValue (none_of _ ‹_› (by simp [CarriesData, CarriesToken, CarriesReason]))
  · exact sound_readStreamValue (none_of _ ‹_› (by simp [CarriesData, CarriesToken, CarriesReason]))
  · exact sound_readValue (none_of _ ‹_› (by simp [CarriesData, CarriesToken, CarriesReason]))
  · exact sound_readValue (none_of _ ‹_› (by simp [CarriesData, CarriesToken, CarriesReason]))
  · exact sound_readValue (none_of _ ‹_› (by simp [CarriesData, CarriesToken, CarriesReason]))
  · exact sound_readStreamValue (none_of _ ‹_› (by simp [CarriesData, CarriesToken, CarriesReason]))
  · exact sound_readValue (none_of _ ‹_› (by simp [CarriesData, CarriesToken, CarriesReason]))
  · exact sound_readValue (none_of _ ‹_› (by simp [CarriesData, CarriesToken, CarriesReason]))
  · exact sound_readNewConnectionId ‹_›
  · exact sound_readValue (none_of _ ‹_› (by simp [CarriesData, CarriesToken, CarriesReason]))
  · rename_i htype
    exact sound_readPath (by rw [htype]; simp [CarriesToken]) (by rw [htype]; decide)
  · rename_i htype
    exact sound_readPath (by rw [htype]; simp [CarriesToken]) (by rw [htype]; decide)
  · rename_i htype
    exact sound_readClose (by rw [htype]; simp [CarriesReason])
  · rename_i htype
    exact sound_readClose (by rw [htype]; simp [CarriesReason])
  · exact sound_pure (none_of _ ‹_› (by simp [CarriesData, CarriesToken, CarriesReason]))
  apply ensures_ite
  · intro hrange
    exact sound_readStream (.inr (.inr hrange))
  · exact fun _ => ensures_fail

/-- **Reading stays inside the packet**: a frame takes at least one byte, and no more than there
are; its views lie among those it took. -/
theorem readFrame_ensures (f : Frame) : Ensures (readFrame f) fun p q g => p < q ∧ ViewsIn p q g := by
  apply ensures_v.bind (R := fun _ => ViewsIn)
  · intro type
    exact sound_readBody _
  · intro p q s _ g hpq hqs hlt hviews
    exact ⟨by omega, hviews.later hpq⟩

/-- The loop of `process_frames` over a packet: the frames read, and whether the last was malformed;
nothing when the fuel runs out. -/
def readFrames (buf : Bytes) : (fuel : Nat) → Frame → (pos : Nat) → Option (List Frame × Bool)
  | 0, _, _ => none
  | fuel + 1, f, pos =>
    if pos < buf.length then
      match readFrame f buf pos with
      | none => some ([], true)
      | some (g, pos') => (readFrames buf fuel g pos').map fun r => (g :: r.1, r.2)
    else some ([], false)

/-- **The frame loop ends**: each pass takes a byte. -/
theorem readFrames_isSome (buf : Bytes) {fuel pos : Nat} (f : Frame) (hpos : pos ≤ buf.length)
    (hfuel : buf.length - pos < fuel) : (readFrames buf fuel f pos).isSome := by
  induction fuel generalizing f pos with
  | zero => omega
  | succ fuel ih =>
    unfold readFrames
    split
    · cases hr : readFrame f buf pos with
      | none => rfl
      | some x =>
        obtain ⟨-, hin, hlt, -⟩ := readFrame_ensures f hpos hr
        dsimp only
        rw [Option.isSome_map]
        exact ih x.1 hin (by omega)
    · rfl

end Frames

end Agensio.Quic
