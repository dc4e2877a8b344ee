/-
  Agensio.Http2.BlockFrames — header blocks in frames.

  The frame header of `http2/frame.hpp`, `close_headers` of
  `http2/writer.hpp`, which cuts a block already in the output, and the
  way back: the loop of `process_frames` with `handle_frame` for HEADERS
  and CONTINUATION, on the session of `Http2.HeaderBlocks`.  The settings
  of the client are taken to be there.  What the other frames do is a
  parameter (`other`).

  Main results:
    * `header_blocks` — both directions, on bytes.
-/
import Agensio.Lib.Framing
import Agensio.Http2.HeaderBlocks

namespace Agensio.Http2.Wire

open Agensio.Lib

/-! ## §1. Frames. -/

def kFrameHeaderSize : Nat := 9
def kMaxFramePayload : Nat := 16384

namespace FrameType
def headers : UInt8 := 0x1
def continuation : UInt8 := 0x9
end FrameType

namespace flag
def endStream : UInt8 := 0x1
def endHeaders : UInt8 := 0x4
def padded : UInt8 := 0x8
def priority : UInt8 := 0x20
end flag

/-- A frame; its length is that of the payload. -/
structure WireFrame where
  type : UInt8
  flags : UInt8
  id : Nat
  payload : Bytes
  deriving DecidableEq

namespace WireFrame

def endHeaders (f : WireFrame) : Bool := f.flags &&& flag.endHeaders != 0
def endStream (f : WireFrame) : Bool := f.flags &&& flag.endStream != 0

end WireFrame

structure FrameHeader where
  length : Nat
  type : UInt8
  flags : UInt8
  streamId : Nat
  deriving DecidableEq

def readU32 (p : Bytes) : Nat :=
  (p.getD 0 0).toNat * 2 ^ 24 + (p.getD 1 0).toNat * 2 ^ 16 + (p.getD 2 0).toNat * 2 ^ 8 + (p.getD 3 0).toNat

def writeU32 (v : Nat) : Bytes :=
  [.ofNat (v >>> 24), .ofNat (v >>> 16), .ofNat (v >>> 8), .ofNat v]

/-- A stream's id, the reserved bit cleared. -/
def readStreamId (p : Bytes) : Nat := readU32 p % 2 ^ 31

/-- `read_frame_header`. -/
def readFrameHeader (p : Bytes) : FrameHeader where
  length := (p.getD 0 0).toNat * 2 ^ 16 + (p.getD 1 0).toNat * 2 ^ 8 + (p.getD 2 0).toNat
  type := p.getD 3 0
  flags := p.getD 4 0
  streamId := readStreamId (p.drop 5)

/-- `write_frame_header`. -/
def writeFrameHeader (length : Nat) (type flags : UInt8) (id : Nat) : Bytes :=
  [.ofNat (length >>> 16), .ofNat (length >>> 8), .ofNat length, type, flags] ++ writeU32 (id % 2 ^ 31)

def WireFrame.text (f : WireFrame) : Bytes :=
  writeFrameHeader f.payload.length f.type f.flags f.id ++ f.payload

theorem length_writeFrameHeader (n : Nat) (t f : UInt8) (id : Nat) :
    (writeFrameHeader n t f id).length = kFrameHeaderSize := rfl

/-- A header is read as it was written. -/
theorem readFrameHeader_text {f : WireFrame} (hlen : f.payload.length < 2 ^ 24) (hid : f.id < 2 ^ 31)
    (rest : Bytes) : readFrameHeader (f.text ++ rest) = ⟨f.payload.length, f.type, f.flags, f.id⟩ := by
  obtain ⟨type, flags, id, payload⟩ := f
  dsimp only at hlen hid
  simp only [readFrameHeader, readStreamId, readU32, WireFrame.text, writeFrameHeader, writeU32, FrameHeader.mk.injEq,
    List.cons_append, List.nil_append, List.getD_cons_zero, List.getD_cons_succ, List.drop_succ_cons,
    List.drop_zero, Nat.shiftRight_eq_div_pow, UInt8.toNat_ofNat', true_and]
  omega

/-! ## §2. The writer. -/

/-- The loop over the block past the first frame. -/
def closeLoop (max id : Nat) : (fuel : Nat) → (rest out : Bytes) → Bytes
  | 0, _, out => out
  | fuel + 1, rest, out =>
    if rest = [] then out
    else
      closeLoop max id fuel (rest.drop max)
        (out ++ writeFrameHeader (min max rest.length) FrameType.continuation
          (if rest.length ≤ max then flag.endHeaders else 0) id ++ rest.take max)

/-- `close_headers`: the output with a slot for a frame header at `at_`, and the block behind it. -/
def closeHeaders (out : Bytes) (at_ max : Nat) (endStream : Bool) (id : Nat) : Bytes :=
  let block := out.drop (at_ + kFrameHeaderSize)
  let es := if endStream then flag.endStream else 0
  if block.length ≤ max then
    out.take at_ ++ writeFrameHeader block.length FrameType.headers (flag.endHeaders ||| es) id ++ block
  else
    closeLoop max id block.length (block.drop max)
      (out.take at_ ++ writeFrameHeader max FrameType.headers es id ++ block.take max)

/-- The frames carry `bs` in pieces of at most `max`, no more of them than it takes, and the last
    one says so. -/
structure Carries (max id : Nat) (bs : Bytes) (fs : List WireFrame) : Prop where
  whole : (fs.map (·.payload)).flatten = bs
  size : ∀ f ∈ fs, f.payload.length ≤ max ∧ f.id = id
  count : (fs.length - 1) * max < bs.length ∨ fs.length = 1
  ends : fs.map (·.endHeaders) = List.replicate (fs.length - 1) false ++ [true]

theorem Carries.cons {max id : Nat} {rest : Bytes} {f : WireFrame} {fs : List WireFrame}
    (hc : Carries max id rest fs) (hne : rest ≠ []) (hfull : f.payload.length = max) (hid : f.id = id)
    (hopen : f.endHeaders = false) : Carries max id (f.payload ++ rest) (f :: fs) := by
  obtain ⟨n, hn⟩ : ∃ n, fs.length = n + 1 := by
    cases fs with
    | nil => exact absurd hc.whole.symm hne
    | cons f fs => exact ⟨fs.length, rfl⟩
  refine ⟨by rw [List.map_cons, List.flatten_cons, hc.whole], ?_, .inl ?_, ?_⟩
  · intro g hg
    rcases List.mem_cons.mp hg with rfl | hg
    · exact ⟨Nat.le_of_eq hfull, hid⟩
    · exact hc.size g hg
  · have hpos := List.length_pos_iff.mpr hne
    have hcount := hc.count
    rw [hn, Nat.add_sub_cancel] at hcount
    rw [List.length_cons, hn, Nat.add_sub_cancel, Nat.succ_mul, List.length_append, hfull]
    rcases hcount with h | h
    · omega
    rw [Nat.succ_inj.mp h]
    omega
  · have hends := hc.ends
    rw [hn, Nat.add_sub_cancel] at hends
    rw [List.map_cons, hends, hopen, List.length_cons, hn, Nat.add_sub_cancel, List.replicate_succ]
    rfl

/-- **The CONTINUATION frames** of what does not fit the first frame. -/
theorem closeLoop_split {max : Nat} (hmax : 0 < max) (id fuel : Nat) {rest : Bytes} (out : Bytes)
    (hne : rest ≠ []) (hfuel : rest.length ≤ fuel) :
    ∃ fs, closeLoop max id fuel rest out = out ++ fs.flatMap (·.text) ∧ Carries max id rest fs ∧
      ∀ f ∈ fs, f.type = FrameType.continuation ∧ f.endStream = false := by
  induction fuel generalizing rest out with
  | zero => exact absurd (List.length_eq_zero_iff.mp (Nat.le_zero.mp hfuel)) hne
  | succ fuel ih =>
    unfold closeLoop
    rw [if_neg hne]
    let first : WireFrame :=
      ⟨FrameType.continuation, if rest.length ≤ max then flag.endHeaders else 0, id, rest.take max⟩
    have htext : out ++ writeFrameHeader (min max rest.length) FrameType.continuation
        (if rest.length ≤ max then flag.endHeaders else 0) id ++ rest.take max = out ++ first.text := by
      simp [WireFrame.text, first]
    rw [htext]
    by_cases hlast : rest.length ≤ max
    · have hdrop : rest.drop max = [] := List.drop_eq_nil_of_le hlast
      refine ⟨[first], ?_, ⟨?_, ?_, .inr rfl, ?_⟩, ?_⟩
      · rw [hdrop]
        cases fuel <;> simp [closeLoop]
      · simp [first, List.take_of_length_le hlast]
      · simp [first]
      · simp [first, hlast, WireFrame.endHeaders, flag.endHeaders]
      · simp [first, hlast, WireFrame.endStream, show flag.endHeaders &&& flag.endStream = 0 by decide]
    · have hmore : rest.drop max ≠ [] := by
        rw [Ne, List.drop_eq_nil_iff]
        exact hlast
      obtain ⟨fs, hfs, hc, hkind⟩ := ih (out ++ first.text) hmore (by rw [List.length_drop]; omega)
      refine ⟨first :: fs, ?_, ?_, ?_⟩
      · rw [hfs, List.flatMap_cons, List.append_assoc]
      · have hcons : Carries max id (first.payload ++ rest.drop max) (first :: fs) :=
          hc.cons hmore (by simp [first]; omega) rfl (by simp [first, hlast, WireFrame.endHeaders])
        rwa [List.take_append_drop] at hcons
      · intro f hf
        rcases List.mem_cons.mp hf with rfl | hf
        · simp [first, hlast, WireFrame.endStream]
        · exact hkind f hf

/-- The frames of a head: HEADERS, and CONTINUATION as often as it takes. -/
structure HeadFrames (max id : Nat) (endStream : Bool) (block : Bytes) (fs : List WireFrame) : Prop
    extends Carries max id block fs where
  types : fs.map (·.type) = FrameType.headers :: List.replicate (fs.length - 1) FrameType.continuation
  endStream : fs.map (·.endStream) = endStream :: List.replicate (fs.length - 1) false

theorem closeHeaders_frames (out : Bytes) (at_ : Nat) {max : Nat} (hmax : 0 < max) (endStream : Bool) (id : Nat) :
    ∃ fs, closeHeaders out at_ max endStream id = out.take at_ ++ fs.flatMap (·.text) ∧
      HeadFrames max id endStream (out.drop (at_ + kFrameHeaderSize)) fs := by
  unfold closeHeaders
  generalize out.drop (at_ + kFrameHeaderSize) = block
  have hflags : ∀ eh : Bool,
      (((if eh then flag.endHeaders else 0) ||| (if endStream then flag.endStream else 0)) &&& flag.endHeaders != 0) = eh ∧
      (((if eh then flag.endHeaders else 0) ||| (if endStream then flag.endStream else 0)) &&& flag.endStream != 0) =
        endStream := by
    cases endStream <;> decide
  by_cases hfits : block.length ≤ max
  · rw [if_pos hfits]
    refine ⟨[⟨FrameType.headers, flag.endHeaders ||| (if endStream then flag.endStream else 0), id, block⟩],
      ?_, ⟨⟨by simp, by simpa using hfits, .inr rfl, ?_⟩, rfl, ?_⟩⟩
    · simp [WireFrame.text]
    · simpa [WireFrame.endHeaders] using (hflags true).1
    · simpa [WireFrame.endStream] using (hflags true).2
  · rw [if_neg hfits]
    let first : WireFrame := ⟨FrameType.headers, if endStream then flag.endStream else 0, id, block.take max⟩
    have htext : out.take at_ ++ writeFrameHeader max FrameType.headers (if endStream then flag.endStream else 0)
        id ++ block.take max = out.take at_ ++ first.text := by
      simp [WireFrame.text, first, Nat.min_eq_left (Nat.le_of_not_le hfits)]
    have hmore : block.drop max ≠ [] := by
      rw [Ne, List.drop_eq_nil_iff]
      exact hfits
    obtain ⟨fs, hfs, hc, hkind⟩ := closeLoop_split hmax id block.length (out.take at_ ++ first.text) hmore
      (by rw [List.length_drop]; omega)
    refine ⟨first :: fs, ?_, ⟨?_, ?_, ?_⟩⟩
    · rw [htext, hfs, List.flatMap_cons, List.append_assoc]
    · have hcons : Carries max id (first.payload ++ block.drop max) (first :: fs) :=
        hc.cons hmore (by simp [first]; omega) rfl
          (by simpa [first, WireFrame.endHeaders] using (hflags false).1)
      rwa [List.take_append_drop] at hcons
    · rw [List.map_cons, List.length_cons, Nat.add_sub_cancel]
      exact congrArg _ (List.eq_replicate_iff.mpr
        ⟨List.length_map .., by simpa using fun f hf => (hkind f hf).1⟩)
    · rw [List.map_cons, List.length_cons, Nat.add_sub_cancel]
      refine congrArg₂ _ (by simpa [first, WireFrame.endStream] using (hflags false).2)
        (List.eq_replicate_iff.mpr ⟨List.length_map .., by simpa using fun f hf => (hkind f hf).2⟩)

/-! ## §3. The reader. -/

/-- The fragment of a HEADERS frame, and whether its stream depends on itself. -/
def headersFragment (f : WireFrame) : Option (Bool × Bytes) :=
  let unpadded : Option Bytes :=
    if f.flags &&& flag.padded != 0 then
      match f.payload with
      | [] => none
      | pad :: p => if pad.toNat + 1 > f.payload.length then none else some (p.take (p.length - pad.toNat))
    else some f.payload
  unpadded.bind fun p =>
    if f.flags &&& flag.priority != 0 then
      if p.length < 5 then none else some (decide (readStreamId p = f.id), p.drop 5)
    else some (false, p)

/-- A header block in progress admits only its CONTINUATION. -/
def interrupts (s : Session) (f : WireFrame) : Bool :=
  s.conn.block.any fun b => f.type != FrameType.continuation || f.id != b.1

/-- What a block is finished with, and what the other frames do. -/
structure Handling where
  assemble : Session.Assemble
  around : Session.Around
  other : Session → WireFrame → Session

namespace Handling

variable (e : Handling)

def finish (s : Session) : Session := s.finishBlock e.assemble e.around

def complete (x : Session × Bool) (endHeaders : Bool) : Session :=
  Session.complete e.assemble x endHeaders e.around

/-- `handle_frame`, behind the first SETTINGS. -/
def handleFrame (s : Session) (f : WireFrame) : Session :=
  if interrupts s f then s.connectionError
  else if f.type = FrameType.headers then
    match headersFragment f with
    | none => s.connectionError
    | some (selfDependent, fragment) =>
      e.complete (s.onHeaders f.id f.endStream selfDependent fragment e.around) f.endHeaders
  else if f.type = FrameType.continuation then
    e.complete (s.onContinuation f.id f.payload e.around.maxHeaderSize) f.endHeaders
  else e.other s f

/-- One pass of the loop of `process_frames`; it ends with the connection. -/
def nextFrame (s : Session) (bs : Bytes) : Outcome Session UInt8 :=
  if s.conn.closing then .incomplete
  else if bs.length < kFrameHeaderSize then .incomplete
  else
    let h := readFrameHeader bs
    if h.length > kMaxFramePayload then .failed
    else if bs.length < kFrameHeaderSize + h.length then .incomplete
    else
      .done (e.handleFrame s ⟨h.type, h.flags, h.streamId, (bs.drop kFrameHeaderSize).take h.length⟩)
        (bs.drop (kFrameHeaderSize + h.length))

/-- Frame by frame, until the connection closes. -/
def handleAll (s : Session) (fs : List WireFrame) : Session :=
  fs.foldl (fun s f => if s.conn.closing then s else e.handleFrame s f) s

end Handling

theorem readFrameHeader_append {bs : Bytes} (h : ¬ bs.length < kFrameHeaderSize) (more : Bytes) :
    readFrameHeader (bs ++ more) = readFrameHeader bs := by
  unfold kFrameHeaderSize at h
  simp only [readFrameHeader, readStreamId, readU32, List.getD_eq_getElem?_getD, List.getElem?_drop]
  simp (disch := omega) only [List.getElem?_append_left]

namespace Handling

variable {e : Handling} {s : Session}

theorem nextFrame_steady (e : Handling) : Steady e.nextFrame := by
  refine ⟨?_, ?_⟩
  · intro s bs hne more
    unfold nextFrame at hne ⊢
    by_cases hclosing : s.conn.closing = true
    · rw [if_pos hclosing] at hne
      exact absurd rfl hne
    rw [if_neg hclosing] at hne
    rw [if_neg hclosing, if_neg hclosing]
    by_cases hshort : bs.length < kFrameHeaderSize
    · rw [if_pos hshort] at hne
      exact absurd rfl hne
    rw [if_neg hshort] at hne
    rw [if_neg hshort, if_neg (by rw [List.length_append]; omega), readFrameHeader_append hshort]
    by_cases hlong : (readFrameHeader bs).length > kMaxFramePayload
    · rw [if_pos hlong, if_pos hlong]
      rfl
    rw [if_neg hlong] at hne
    rw [if_neg hlong, if_neg hlong]
    by_cases hcut : bs.length < kFrameHeaderSize + (readFrameHeader bs).length
    · rw [if_pos hcut] at hne
      exact absurd rfl hne
    rw [if_neg hcut, if_neg (by rw [List.length_append]; omega),
      List.drop_append_of_le_length (by omega), List.drop_append_of_le_length (by omega),
      List.take_append_of_le_length (by rw [List.length_drop]; omega)]
    rfl
  · intro s bs s' rest h
    unfold nextFrame at h
    dsimp only at h
    split at h
    · simp at h
    split at h
    · simp at h
    next hshort =>
      split at h
      · simp at h
      split at h
      · simp at h
      obtain ⟨-, rfl⟩ := Outcome.done.inj h
      refine ⟨bs.take (kFrameHeaderSize + (readFrameHeader bs).length), ?_, (List.take_append_drop ..).symm⟩
      rw [Ne, List.take_eq_nil_iff]
      rintro (hz | rfl)
      · simp [kFrameHeaderSize] at hz
      · simp [kFrameHeaderSize] at hshort

theorem handleAll_closing (h : s.conn.closing = true) (fs : List WireFrame) : e.handleAll s fs = s := by
  induction fs with
  | nil => rfl
  | cons f fs ih =>
    unfold handleAll
    rw [List.foldl_cons, if_pos h]
    exact ih

theorem handleAll_cons (h : s.conn.closing = false) (f : WireFrame) (fs : List WireFrame) :
    e.handleAll s (f :: fs) = e.handleAll (e.handleFrame s f) fs := by
  unfold handleAll
  rw [List.foldl_cons, if_neg (by simp [h])]

/-- **Whatever the reads**, the frames are handled one after the other. -/
theorem arrivals_state {fs : List WireFrame}
    (hfs : ∀ f ∈ fs, f.payload.length ≤ kMaxFramePayload ∧ f.id < 2 ^ 31) (s : Session) {pieces : List Bytes}
    (hpieces : pieces.flatten = fs.flatMap (·.text)) : (arrivals e.nextFrame s pieces).state =
      e.handleAll s fs := by
  have hsteady := e.nextFrame_steady
  rw [drain_arrivals hsteady, hpieces]
  clear hpieces
  induction fs generalizing s with
  | nil => rfl
  | cons f fs ih =>
    obtain ⟨hlen, hid⟩ := hfs f List.mem_cons_self
    have hlt : f.payload.length < 2 ^ 24 := Nat.lt_of_le_of_lt hlen (by decide)
    rw [List.flatMap_cons]
    generalize hrest : fs.flatMap (·.text) = rest at ih
    have hlength : f.text.length = kFrameHeaderSize + f.payload.length := List.length_append
    have hpos : (f.text ++ rest).length ≠ 0 := by
      rw [List.length_append, hlength]
      simp [kFrameHeaderSize]
    obtain ⟨n, hn⟩ := Nat.exists_eq_succ_of_ne_zero hpos
    rw [hn]
    unfold drain
    rw [if_neg hpos]
    by_cases hclosing : s.conn.closing = true
    · rw [handleAll_closing hclosing, nextFrame, if_pos hclosing]
    have hnext : e.nextFrame s (f.text ++ rest) =
        .done (e.handleFrame s f) rest := by
      unfold nextFrame
      rw [if_neg hclosing, readFrameHeader_text hlt hid]
      dsimp only
      rw [if_neg (by rw [List.length_append, hlength]; omega), if_neg (Nat.not_lt.mpr hlen),
        if_neg (by rw [List.length_append, hlength]; omega), ← hlength, List.drop_left]
      rw [WireFrame.text, List.append_assoc, ← length_writeFrameHeader f.payload.length f.type f.flags f.id,
        List.drop_left, List.take_left]
    rw [hnext, handleAll_cons (by simpa using hclosing)]
    dsimp only
    rw [drain_fuel hsteady (by rw [List.length_append, hlength] at hn; unfold kFrameHeaderSize at hn; omega)
      (Nat.le_refl rest.length)]
    exact ih (fun g hg => hfs g (.tail _ hg)) _

end Handling

/-! ## §4. A client's block. -/

/-- A HEADERS frame of a client; a priority field is four bytes of a stream and one of a weight. -/
structure HeadersFrame where
  id : Nat
  endStream : Bool
  pad : Option Bytes := none
  priority : Option Bytes := none
  fragment : Bytes
  pad_short : ∀ p ∈ pad, p.length ≤ 255 := by decide
  priority_five : ∀ p ∈ priority, p.length = 5 := by decide

namespace HeadersFrame

def wire (h : HeadersFrame) (endHeaders : Bool) : WireFrame where
  type := FrameType.headers
  flags := (if h.endStream then flag.endStream else 0) ||| (if endHeaders then flag.endHeaders else 0) |||
    (if h.pad.isSome then flag.padded else 0) ||| (if h.priority.isSome then flag.priority else 0)
  id := h.id
  payload := (h.pad.map fun p => [.ofNat p.length]).getD [] ++ h.priority.getD [] ++ h.fragment ++ h.pad.getD []

def selfDependent (h : HeadersFrame) : Bool := h.priority.any fun p => readStreamId p = h.id

/-- The frames of a block; the last one has END_HEADERS. -/
def continuations (id : Nat) : List Bytes → List WireFrame
  | [] => []
  | f :: fs => ⟨FrameType.continuation, if fs = [] then flag.endHeaders else 0, id, f⟩ :: continuations id fs

def block (h : HeadersFrame) (fs : List Bytes) : List WireFrame := h.wire (fs = []) :: continuations h.id fs

theorem wire_flags (h : HeadersFrame) (eh : Bool) : (h.wire eh).endStream = h.endStream ∧
    (h.wire eh).endHeaders = eh ∧ ((h.wire eh).flags &&& flag.padded != 0) = h.pad.isSome ∧
    ((h.wire eh).flags &&& flag.priority != 0) = h.priority.isSome := by
  unfold WireFrame.endStream WireFrame.endHeaders wire
  dsimp only
  generalize h.pad.isSome = pad
  generalize h.priority.isSome = priority
  generalize h.endStream = endStream
  revert pad priority endStream eh
  decide

theorem unpadded_fragment (h : HeadersFrame) : (if h.priority.isSome = true then
    if (h.priority.getD [] ++ h.fragment).length < 5 then none
    else some (decide (readStreamId (h.priority.getD [] ++ h.fragment) = h.id),
      (h.priority.getD [] ++ h.fragment).drop 5)
    else some (false, h.priority.getD [] ++ h.fragment)) = some (h.selfDependent, h.fragment) := by
  have hfive := h.priority_five
  unfold selfDependent
  cases hp : h.priority with
  | none =>
    dsimp only [Option.isSome_none, Option.getD_none, Option.any_none]
    rw [if_neg Bool.false_ne_true, List.nil_append]
  | some p =>
    have hlen : p.length = 5 := hfive p hp
    have hget : ∀ i < 5, (p ++ h.fragment).getD i 0 = p.getD i 0 := fun i hi =>
      List.getD_append p h.fragment 0 i (hlen ▸ hi)
    have hread : readStreamId (p ++ h.fragment) = readStreamId p := by
      unfold readStreamId readU32
      rw [hget 0 (by decide), hget 1 (by decide), hget 2 (by decide), hget 3 (by decide)]
    dsimp only [Option.isSome_some, Option.getD_some]
    rw [if_pos rfl, if_neg (by rw [List.length_append]; omega), List.drop_left' hlen]
    rw [Option.any_some]
    exact congrArg (fun b => some (b, h.fragment)) (decide_eq_decide.mpr (by rw [hread]))

/-- Neither the padding nor the priority is part of the fragment. -/
theorem headersFragment_wire (h : HeadersFrame) (eh : Bool) :
    headersFragment (h.wire eh) = some (h.selfDependent, h.fragment) := by
  obtain ⟨-, -, hpad, hprio⟩ := h.wire_flags eh
  have hshort := h.pad_short
  unfold headersFragment
  rw [hpad, hprio]
  have hrest := h.unpadded_fragment
  cases hq : h.pad with
  | none =>
    have hpayload : (h.wire eh).payload = h.priority.getD [] ++ h.fragment := by
      simp [wire, hq]
    rw [hpayload]
    exact hrest
  | some q =>
    have hlen : q.length ≤ 255 := hshort q hq
    have hpayload : (h.wire eh).payload = .ofNat q.length :: (h.priority.getD [] ++ h.fragment ++ q) := by
      simp [wire, hq]
    have hnat : (UInt8.ofNat q.length).toNat = q.length := by
      rw [UInt8.toNat_ofNat']
      omega
    rw [hpayload]
    dsimp only [Option.isSome_some]
    rw [if_pos rfl, hnat, if_neg (by simp; omega), List.length_append, Nat.add_sub_cancel, List.take_left]
    exact hrest

end HeadersFrame

namespace Handling

variable {e : Handling} {s : Session}

theorem opened_block {c : Connection} {id : Nat} {endStream selfDependent : Bool} (hb : c.block = none)
    (hopen : (c.frame (c.onHeaders id endStream selfDependent)).closing = false) :
    ∃ kind, (c.frame (c.onHeaders id endStream selfDependent)).block = some (id, kind, endStream) := by
  unfold Connection.frame at hopen ⊢
  rw [hb, if_neg (by simp)] at hopen
  rw [hb, if_neg (by simp)]
  unfold Connection.onHeaders at hopen ⊢
  split at hopen
  · simp [Connection.connectionError] at hopen
  next hid =>
    rw [if_neg hid]
    split
    · split <;> exact ⟨_, rfl⟩
    next hnone =>
      rw [hnone] at hopen
      dsimp only at hopen
      split at hopen
      · simp [Connection.connectionError] at hopen
      next hnew =>
        rw [if_neg hnew]
        exact ⟨_, rfl⟩

/-- A fragment over the limit ends the connection. -/
theorem handleAll_append {f : Bytes} (endHeaders : Bool) (fs : List WireFrame) :
    e.handleAll (e.complete (s.appendBlock f e.around.maxHeaderSize) endHeaders) fs =
      if (s.buffer ++ f).length > e.around.maxHeaderSize then s.connectionError
      else if endHeaders then e.handleAll (e.finish { s with buffer := s.buffer ++ f }) fs
      else e.handleAll { s with buffer := s.buffer ++ f } fs := by
  unfold Session.appendBlock complete Session.complete
  rw [List.length_append]
  split
  · exact handleAll_closing rfl fs
  · cases endHeaders <;> rfl

/-- The session with the points of the empty frames among `fs`. -/
def wear (s : Session) (fs : List Bytes) : Session := fs.foldl (fun s f => if f.isEmpty then s.glitch else s) s

/-- `n` more points leave the connection open: they stay below the budget, and where they reach the
    soft threshold, the GOAWAY finds a stream open or is not the first. -/
def Lasts (s : Session) (n : Nat) : Prop :=
  n = 0 ∨ s.glitches + n < kGlitchBudget ∧
    (s.glitches < kGlitchSoft → kGlitchSoft ≤ s.glitches + n → s.conn.goingAway = true ∨ s.conn.streams ≠ [])

instance (s : Session) (n : Nat) : Decidable (Lasts s n) :=
  inferInstanceAs (Decidable (n = 0 ∨ s.glitches + n < kGlitchBudget ∧
    (s.glitches < kGlitchSoft → kGlitchSoft ≤ s.glitches + n → s.conn.goingAway = true ∨ s.conn.streams ≠ [])))

theorem wear_cons (s : Session) (f : Bytes) (fs : List Bytes) :
    wear s (f :: fs) = wear (if f.isEmpty then s.glitch else s) fs := rfl

theorem glitch_frames (s : Session) (b : Bytes) (k : Nat) :
    { s with buffer := b, blockFrames := k }.glitch = { s.glitch with buffer := b, blockFrames := k } := by
  unfold Session.glitch
  dsimp only
  split
  · rfl
  split <;> rfl

theorem glitch_buffer (s : Session) : s.glitch.buffer = s.buffer ∧ s.glitch.blockFrames = s.blockFrames := by
  have h := glitch_frames s s.buffer s.blockFrames
  exact ⟨by rw [h], by rw [h]⟩

/-- Points have nothing to do with the block. -/
theorem wear_frames (s : Session) (b : Bytes) (k : Nat) (fs : List Bytes) :
    wear { s with buffer := b, blockFrames := k } fs = { wear s fs with buffer := b, blockFrames := k } := by
  induction fs generalizing s with
  | nil => rfl
  | cons f fs ih =>
    rw [wear_cons, wear_cons]
    split
    · rw [glitch_frames, ih]
    · exact ih s

theorem wear_keeps (s : Session) (fs : List Bytes) : (wear s fs).blocks = s.blocks ∧
    (wear s fs).conn.block = s.conn.block ∧ (s.conn.closing = true → (wear s fs).conn.closing = true) := by
  induction fs generalizing s with
  | nil => exact ⟨rfl, rfl, id⟩
  | cons f fs ih =>
    rw [wear_cons]
    split
    · obtain ⟨-, hblocks, hblock, hclosing⟩ := s.glitch_keeps
      obtain ⟨hblocks', hblock', hclosing'⟩ := ih s.glitch
      exact ⟨hblocks'.trans hblocks, hblock'.trans hblock, fun h => hclosing' (hclosing h)⟩
    · exact ih s

/-- One point, and then `n` more. -/
theorem lasts_succ (hclosing : s.conn.closing = false) (n : Nat) :
    Lasts s (n + 1) ↔ s.glitch.conn.closing = false ∧ Lasts s.glitch n := by
  unfold Lasts Session.glitch Session.goaway Connection.connectionError kGlitchBudget kGlitchSoft
  cases haway : s.conn.goingAway <;> cases hstreams : s.conn.streams <;> grind

/-- **The points of empty frames** end the connection or not. -/
theorem wear_closing (hclosing : s.conn.closing = false) (fs : List Bytes) :
    (wear s fs).conn.closing = false ↔ Lasts s (fs.countP (·.isEmpty)) := by
  induction fs generalizing s with
  | nil => exact iff_of_true hclosing (.inl rfl)
  | cons f fs ih =>
    rw [wear_cons, List.countP_cons]
    by_cases hf : f.isEmpty = true
    · rw [if_pos hf, if_pos hf, lasts_succ hclosing]
      cases hend : s.glitch.conn.closing with
      | false => rw [ih hend, and_iff_right rfl]
      | true =>
        rw [(wear_keeps s.glitch fs).2.2 hend]
        exact iff_of_false (by simp) fun h => by simp at h
    · rw [if_neg hf, if_neg hf]
      exact ih hclosing

/-- **The CONTINUATION frames** collect the block, or end the connection: at a limit, or with the
    points of the empty ones before the last. -/
theorem handleAll_continuations {id : Nat} {kind : BlockKind} {endStream : Bool} {fs : List Bytes}
    (hclosing : s.conn.closing = false) (hb : s.conn.block = some (id, kind, endStream)) (hne : fs ≠ []) :
    if s.blockFrames + fs.length ≤ kMaxContinuations ∧
        (s.buffer ++ fs.flatten).length ≤ e.around.maxHeaderSize ∧
        (wear s fs.dropLast).conn.closing = false then
      e.handleAll s (HeadersFrame.continuations id fs) =
        e.finish { wear s fs with buffer := s.buffer ++ fs.flatten, blockFrames := s.blockFrames + fs.length }
    else
      (e.handleAll s (HeadersFrame.continuations id fs)).conn.closing = true ∧
        (e.handleAll s (HeadersFrame.continuations id fs)).blocks = s.blocks := by
  induction fs generalizing s with
  | nil => exact absurd rfl hne
  | cons f fs ih =>
    have hframe : ∀ fl, e.handleFrame s ⟨FrameType.continuation, fl, id, f⟩ =
        e.complete (s.onContinuation id f e.around.maxHeaderSize) (fl &&& flag.endHeaders != 0) := by
      intro fl
      unfold handleFrame
      rw [if_neg (by simp [interrupts, hb]), if_neg (show FrameType.continuation ≠ FrameType.headers by decide),
        if_pos rfl]
      rfl
    rw [HeadersFrame.continuations, handleAll_cons hclosing, hframe, Session.onContinuation, hb]
    dsimp only
    rw [if_neg (not_not.mpr (rfl : id = id)), List.length_cons, List.flatten_cons]
    by_cases hcount : s.blockFrames + 1 > kMaxContinuations
    · have hend : ∀ eh, e.complete (s.connectionError, false) eh = s.connectionError := fun _ => rfl
      rw [if_pos hcount, if_neg (by omega), hend, handleAll_closing rfl]
      exact ⟨rfl, rfl⟩
    -- the frame is counted, and an empty one is a point
    have hworn : (if f.isEmpty then ({ s with blockFrames := s.blockFrames + 1 } : Session).glitch
        else { s with blockFrames := s.blockFrames + 1 }) =
          { wear s [f] with buffer := s.buffer, blockFrames := s.blockFrames + 1 } :=
      wear_frames s s.buffer (s.blockFrames + 1) [f]
    obtain ⟨hblocks, hblock, -⟩ := wear_keeps s [f]
    rw [if_neg hcount, hworn, handleAll_append]
    by_cases hsize : (s.buffer ++ f).length > e.around.maxHeaderSize
    · rw [if_pos hsize, if_neg (by rw [← List.append_assoc, List.length_append]; omega)]
      exact ⟨rfl, hblocks⟩
    rw [if_neg hsize]
    cases fs with
    | nil =>
      rw [if_pos ⟨Nat.not_lt.mp hcount, (by simpa using Nat.not_lt.mp hsize), hclosing⟩, List.flatten_nil,
        List.append_nil]
      rfl
    | cons g gs =>
      rw [if_neg (List.cons_ne_nil g gs), show ((0 : UInt8) &&& flag.endHeaders != 0) = false by decide,
        if_neg Bool.false_ne_true, List.dropLast_cons_cons]
      have hrest : ∀ ks, wear { wear s [f] with buffer := s.buffer ++ f, blockFrames := s.blockFrames + 1 } ks =
          { wear s (f :: ks) with buffer := s.buffer ++ f, blockFrames := s.blockFrames + 1 } := fun ks =>
        wear_frames (wear s [f]) (s.buffer ++ f) (s.blockFrames + 1) ks
      cases hend : (wear s [f]).conn.closing with
      | true =>
        have hstay := (wear_keeps (wear s [f]) (g :: gs).dropLast).2.2 hend
        have hsame : e.handleAll { wear s [f] with buffer := s.buffer ++ f, blockFrames := s.blockFrames + 1 }
            (HeadersFrame.continuations id (g :: gs)) =
              { wear s [f] with buffer := s.buffer ++ f, blockFrames := s.blockFrames + 1 } :=
          handleAll_closing (s := { wear s [f] with buffer := s.buffer ++ f, blockFrames := s.blockFrames + 1 })
            hend _
        rw [if_neg fun hopen => absurd (hstay.symm.trans hopen.2.2) (by simp), hsame]
        exact ⟨hend, hblocks⟩
      | false =>
        have hmore := ih
          (s := { wear s [f] with buffer := s.buffer ++ f, blockFrames := s.blockFrames + 1 }) hend
          (hblock.trans hb) (List.cons_ne_nil g gs)
        rw [hrest, hrest] at hmore
        rw [List.append_assoc, Nat.add_assoc, Nat.add_comm 1] at hmore
        rw [← hblocks]
        exact hmore

/-- The session behind a HEADERS frame. -/
def opened (e : Handling) (s : Session) (h : HeadersFrame) : Session :=
  s.beginBlock h.id h.endStream h.selfDependent e.around.overRate

/-- The block of a client, to be finished. -/
def collected (e : Handling) (s : Session) (h : HeadersFrame) (fs : List Bytes) : Session :=
  { wear (opened e s h) fs with buffer := h.fragment ++ fs.flatten, blockFrames := fs.length }

/-- What a HEADERS frame that does not end the connection leaves. -/
theorem opened_spec {h : HeadersFrame} (hb : s.conn.block = none)
    (hopen : (opened e s h).conn.closing = false) :
    (s.conn.frame (s.conn.onHeaders h.id h.endStream h.selfDependent)).closing = false ∧
      (∃ kind, (opened e s h).conn.block = some (h.id, kind, h.endStream)) ∧
      (opened e s h).blocks = s.blocks ∧ (opened e s h).buffer = [] ∧ (opened e s h).blockFrames = 0 := by
  unfold opened Session.beginBlock at hopen ⊢
  generalize hfirst : ({ s with
    conn := s.conn.frame (s.conn.onHeaders h.id h.endStream h.selfDependent), buffer := [], blockFrames := 0 } :
      Session) = first at hopen ⊢
  have hconn : first.conn = s.conn.frame (s.conn.onHeaders h.id h.endStream h.selfDependent) := hfirst ▸ rfl
  have hrest : first.blocks = s.blocks ∧ first.buffer = [] ∧ first.blockFrames = 0 := hfirst ▸ ⟨rfl, rfl, rfl⟩
  rw [← hconn]
  have hkind : first.conn.closing = false → ∃ kind, first.conn.block = some (h.id, kind, h.endStream) := by
    rw [hconn]
    exact opened_block hb
  split at hopen
  next hmis =>
    rw [if_pos hmis]
    unfold Session.punish at hopen ⊢
    split at hopen
    · simp [Session.connectionError, Connection.connectionError] at hopen
    next hrate =>
      obtain ⟨-, hblocks, hblock, hclosing⟩ := first.glitch_keeps
      obtain ⟨hbuffer, hframes⟩ := glitch_buffer first
      have hlast : first.conn.closing = false := by
        rw [← Bool.not_eq_true]
        exact fun hc => absurd ((hclosing hc).symm.trans hopen) (by simp)
      rw [if_neg hrate, hblock, hblocks, hbuffer, hframes]
      exact ⟨hlast, hkind hlast, hrest⟩
  next hmis =>
    rw [if_neg hmis]
    exact ⟨hopen, hkind hopen, hrest⟩

/-- **A client's block** is collected, or the connection ends at a limit. -/
theorem handleAll_block {h : HeadersFrame} {fs : List Bytes} (hclosing : s.conn.closing = false)
    (hb : s.conn.block = none) (hopen : (opened e s h).conn.closing = false) :
    if fs.length ≤ kMaxContinuations ∧ (h.fragment ++ fs.flatten).length ≤ e.around.maxHeaderSize ∧
        Lasts (opened e s h) (fs.dropLast.countP (·.isEmpty)) then
      e.handleAll s (h.block fs) = e.finish (collected e s h fs) ∧
        (e.handleAll s (h.block fs)).blocks = s.blocks ++ [h.fragment ++ fs.flatten]
    else
      (e.handleAll s (h.block fs)).conn.closing = true ∧ (e.handleAll s (h.block fs)).blocks = s.blocks := by
  obtain ⟨hfirst, ⟨kind, hkind⟩, hblocks, hbuffer, hframes⟩ := opened_spec hb hopen
  simp only [← wear_closing hopen]
  have hfinish : (e.finish (collected e s h fs)).blocks = s.blocks ++ [h.fragment ++ fs.flatten] := by
    obtain ⟨hworn, hblock, -⟩ := wear_keeps (opened e s h) fs
    unfold finish Session.finishBlock collected
    rw [hblock, hkind, hworn, hblocks]
    dsimp only
    split
    · exact (Session.punish_keeps _ _).2.1
    · rfl
  obtain ⟨hes, heh, -, -⟩ := h.wire_flags (fs = [])
  have hframe : e.handleFrame s (h.wire (fs = [])) =
      e.complete (s.onHeaders h.id h.endStream h.selfDependent h.fragment e.around) (decide (fs = [])) := by
    unfold handleFrame
    rw [if_neg (by simp [interrupts, hb]), if_pos (show (h.wire (fs = [])).type = FrameType.headers from rfl),
      h.headersFragment_wire, hes, heh]
    rfl
  have hheaders : s.onHeaders h.id h.endStream h.selfDependent h.fragment e.around =
      (opened e s h).appendBlock h.fragment e.around.maxHeaderSize := by
    unfold Session.onHeaders
    exact if_neg (by rw [Bool.not_eq_true]; exact hfirst)
  rw [HeadersFrame.block, handleAll_cons hclosing, hframe, hheaders, handleAll_append, hbuffer, List.nil_append]
  by_cases hsize : h.fragment.length > e.around.maxHeaderSize
  · rw [if_pos hsize, if_neg (by rw [List.length_append]; omega)]
    exact ⟨rfl, hblocks⟩
  rw [if_neg hsize]
  cases fs with
  | nil =>
    rw [if_pos ⟨Nat.zero_le _, (by simpa using Nat.not_lt.mp hsize), hopen⟩]
    have hnil : collected e s h [] = { opened e s h with buffer := h.fragment } := by
      unfold collected
      rw [List.flatten_nil, List.append_nil, List.length_nil, ← hframes]
      rfl
    rw [hnil] at hfinish ⊢
    exact ⟨rfl, hfinish⟩
  | cons f fs =>
    have hmore := handleAll_continuations (e := e) (s := { opened e s h with buffer := h.fragment }) hopen hkind
      (List.cons_ne_nil f fs)
    have hworn : ∀ ks, wear { opened e s h with buffer := h.fragment } ks =
        { wear (opened e s h) ks with buffer := h.fragment, blockFrames := 0 } := by
      intro ks
      rw [← wear_frames (opened e s h) h.fragment 0 ks, ← hframes]
    rw [hworn, hworn, hframes, Nat.zero_add] at hmore
    split at hmore
    next hfits =>
      rw [if_pos hfits]
      exact ⟨hmore, (congrArg Session.blocks hmore).trans hfinish⟩
    next hfits =>
      rw [if_neg hfits]
      exact ⟨hmore.1, hmore.2.trans hblocks⟩

end Handling

open Handling

/-- **Header blocks are split and put together again.**  A head of any length is one HEADERS frame and
    the CONTINUATION frames it takes, behind the bytes that were there; they read back as written.
    However the reads cut a client's frames, the block is finished with its fragments in order, as long
    as there are eight CONTINUATION frames at most, the block is within `max_header_size` and the points
    of empty CONTINUATION frames before the last one leave the connection open; beyond that the
    connection ends and no block is completed. -/
theorem header_blocks :
    (∀ (out : Bytes) (at_ max : Nat) (endStream : Bool) (id : Nat), 16384 ≤ max → max < 2 ^ 24 → id < 2 ^ 31 →
      ∃ fs, closeHeaders out at_ max endStream id = out.take at_ ++ fs.flatMap (·.text) ∧
        HeadFrames max id endStream (out.drop (at_ + kFrameHeaderSize)) fs ∧
        ∀ f ∈ fs, ∀ rest, readFrameHeader (f.text ++ rest) = ⟨f.payload.length, f.type, f.flags, f.id⟩) ∧
    ∀ (e : Handling) (s : Session) (h : HeadersFrame) (fs pieces : List Bytes),
      s.conn.closing = false → s.conn.block = none → (opened e s h).conn.closing = false →
      (∀ f ∈ h.block fs, f.payload.length ≤ kMaxFramePayload ∧ f.id < 2 ^ 31) →
      pieces.flatten = (h.block fs).flatMap (·.text) →
      let read := (arrivals e.nextFrame s pieces).state
      if fs.length ≤ kMaxContinuations ∧ (h.fragment ++ fs.flatten).length ≤ e.around.maxHeaderSize ∧
          Lasts (opened e s h) (fs.dropLast.countP (·.isEmpty)) then
        read = e.finish (collected e s h fs) ∧ read.blocks = s.blocks ++ [h.fragment ++ fs.flatten]
      else read.conn.closing = true ∧ read.blocks = s.blocks := by
  refine ⟨fun out at_ max endStream id hmax hlt hid => ?_, ?_⟩
  · obtain ⟨fs, htext, hframes⟩ := closeHeaders_frames out at_ (Nat.lt_of_lt_of_le (by decide) hmax) endStream id
    refine ⟨fs, htext, hframes, fun f hf rest => ?_⟩
    obtain ⟨hsize, hf⟩ := hframes.size f hf
    exact readFrameHeader_text (hsize.trans_lt hlt) (by rw [hf]; exact hid) rest
  · intro e s h fs pieces hclosing hb hopen hfs hpieces
    rw [arrivals_state hfs s hpieces]
    exact handleAll_block hclosing hb hopen

/-- A padded HEADERS frame with a priority: a POST and half of a literal. -/
def cookieFrame : HeadersFrame where
  id := 1
  endStream := true
  pad := some [0, 0]
  priority := some [0, 0, 0, 3, 16]
  fragment := Session.postHead ++ [0x40, 0x01]

/-- A limit of 1024 bytes for a header list. -/
def plainHandling : Handling := ⟨Session.assembleRequest 100000, Session.plainAround, fun s _ => s⟩

/-- A head over the frame size; a client's block in three frames, one of them empty, and two reads,
    where the empty one is the 75th point and the connection is not the first to say GOAWAY. -/
theorem header_blocks_cookie :
    (∃ fs, closeHeaders (List.replicate 40009 0x61) 0 16384 true 1 = fs.flatMap (·.text) ∧
      HeadFrames 16384 1 true (List.replicate 40000 0x61) fs) ∧ ∀ n, (arrivals plainHandling.nextFrame
        { Session.start 10 with glitches := 74, conn := { Connection.start 10 with goingAway := true } }
        [((cookieFrame.block [[], [0x78, 0x01, 0x79]]).flatMap (·.text)).take n,
          ((cookieFrame.block [[], [0x78, 0x01, 0x79]]).flatMap (·.text)).drop n]).state.blocks =
      [Session.postHead ++ [0x40, 0x01, 0x78, 0x01, 0x79]] := by
  refine ⟨?_, fun n => ?_⟩
  · obtain ⟨fs, htext, hframes, -⟩ :=
      header_blocks.1 (List.replicate 40009 0x61) 0 16384 true 1 (by decide) (by decide) (by decide)
    refine ⟨fs, htext, ?_⟩
    rwa [Nat.zero_add, List.drop_replicate] at hframes
  · have h := header_blocks.2 plainHandling
      { Session.start 10 with glitches := 74, conn := { Connection.start 10 with goingAway := true } }
      cookieFrame [[], [0x78, 0x01, 0x79]]
      [((cookieFrame.block [[], [0x78, 0x01, 0x79]]).flatMap (·.text)).take n,
        ((cookieFrame.block [[], [0x78, 0x01, 0x79]]).flatMap (·.text)).drop n]
      rfl rfl (by decide) (by decide) (by simp)
    rw [if_pos ⟨by decide, by decide, .inr (by decide)⟩] at h
    exact h.2

/-- A block in ten frames is not put together: the connection ends. -/
theorem ten_frames_refused :
    ¬ ∀ (s : Session) (h : HeadersFrame) (fs pieces : List Bytes), s.conn.closing = false → s.conn.block = none →
      (opened plainHandling s h).conn.closing = false → pieces.flatten = (h.block fs).flatMap (·.text) →
      (arrivals plainHandling.nextFrame s pieces).state.blocks = s.blocks ++ [h.fragment ++ fs.flatten] := by
  intro h
  have hten := h (Session.start 10) { id := 1, endStream := true, fragment := Session.postHead }
    (List.replicate 9 [0x82])
    [(HeadersFrame.block { id := 1, endStream := true, fragment := Session.postHead }
      (List.replicate 9 [0x82])).flatMap (·.text)]
    rfl rfl (by decide) (by simp)
  revert hten
  decide +kernel

end Agensio.Http2.Wire
