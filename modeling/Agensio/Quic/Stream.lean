/-
  Agensio.Quic.Stream — a QUIC stream's transport state.

  Model of `quic/stream.hpp`: what arrived and how much of it the
  application took; what is to be sent (the head bytes, then a memory
  body or a file), addressed by offset so that a lost range is framed
  again from the same source; and the flags that tie the stream to the
  connection's lists (`ready` with `nextReady`, `creditDue`,
  `resetDue`, `stopDue`).

  Offsets are natural numbers.  They stay below 2^62 (a varint), except
  in the two places of the connection that compare `consumed + window`
  with `maxRecv` in unsigned arithmetic: those use `add64` and `sub64`.
-/
import Agensio.Bytes
import Agensio.Quic.RangeSet

namespace Agensio.Quic

/-- A stream object is addressed by the number of its allocation. -/
abbrev Ptr := Nat

/-! ## §1. Unsigned 64-bit arithmetic, where it matters. -/

/-- `a + b` on `std::uint64_t`. -/
def add64 (a b : Nat) : Nat := (a + b) % 2 ^ 64

/-- `a - b` on `std::uint64_t`: wraps below zero. -/
def sub64 (a b : Nat) : Nat := (a % 2 ^ 64 + (2 ^ 64 - b % 2 ^ 64)) % 2 ^ 64

/-- `kNoSize`: no final size known. -/
def kNoSize : Nat := 2 ^ 64 - 1

def streamIsBidi (id : Nat) : Bool := id &&& 2 == 0

def streamIsClient (id : Nat) : Bool := id &&& 1 == 0

/-! ## §2. The stream. -/

/-- A file region to send: the file's bytes are the environment's, see `ReadAt`. -/
structure FileRegion where
  offset : Nat
  len : Nat
  deriving DecidableEq

/-- A stream: both sides of it, and its place in the lists. -/
structure QuicStream where
  id : Nat := 0
  isOpen : Bool := false
  -- receive
  rbuf : Bytes := []
  roff : Nat := 0
  rpos : Nat := 0
  rranges : RangeSet := []
  highest : Nat := 0
  finalSize : Nat := kNoSize
  finSeen : Bool := false
  maxRecv : Nat := 0
  window : Nat := 0
  creditDue : Bool := false
  resetReceived : Bool := false
  resetCode : Nat := 0
  stopSendingReceived : Bool := false
  stopCode : Nat := 0
  -- send
  head : Bytes := []
  headBase : Nat := 0
  trimHead : Bool := false
  mem : Bytes := []
  file : Option FileRegion := none
  chunk : Bytes := []
  chunkOff : Nat := 0
  chunkLen : Nat := 0
  fin : Bool := false
  total : Nat := 0
  next : Nat := 0
  lost : RangeSet := []
  acked : RangeSet := []
  finSent : Bool := false
  finAcked : Bool := false
  maxSend : Nat := 0
  blockedReported : Bool := false
  ready : Bool := false
  nextReady : Option Ptr := none
  resetSent : Bool := false
  resetSendCode : Nat := 0
  resetDue : Bool := false
  stopDue : Bool := false
  stopSendCode : Nat := 0
  sendDone : Bool := false
  deriving DecidableEq, Inhabited

namespace QuicStream

def consumed (s : QuicStream) : Nat := s.roff + s.rpos

def available (s : QuicStream) : Nat := s.rranges.contiguousFrom s.consumed - s.consumed

def atEnd (s : QuicStream) : Bool := s.finSeen && s.consumed == s.finalSize

/-- The application took `n` bytes; an emptied buffer is dropped and its offset moves on. -/
def consume (s : QuicStream) (n : Nat) : QuicStream :=
  if s.rpos + n = s.rbuf.length then { s with roff := s.roff + (s.rpos + n), rbuf := [], rpos := 0 }
  else { s with rpos := s.rpos + n }

def hasUnsent (s : QuicStream) : Bool :=
  !s.lost.isEmpty || decide (s.next < s.total) || (s.fin && !s.finSent)

def headEnd (s : QuicStream) : Nat := s.headBase + s.head.length

/-- `reset_quic`: the stream back in the pool.  The chunk buffer keeps its bytes. -/
def resetQuic (s : QuicStream) : QuicStream := { chunk := s.chunk }

/-- Bytes that arrived, to their place behind `roff`; what was consumed already is cut off. -/
def store (s : QuicStream) (offset : Nat) (data : Bytes) : QuicStream :=
  if offset + data.length > s.consumed then
    let cut := s.consumed - offset
    let src := data.drop cut
    let start := offset + cut
    { s with
      rbuf := writeAt s.rbuf (start - s.roff) src
      rranges := s.rranges.add start (start + src.length) }
  else s

end QuicStream

/-! ## §3. The bytes to send. -/

/-- `File::read_at`: at most `len` bytes of the stream's file at `offset`; empty is an error or
    the end. -/
abbrev ReadAt := (offset len : Nat) → Bytes

namespace QuicStream

/-- The stream with the chunk that holds `bodyAt`: the one read ahead, or the next window of the
    file; `none` when the read fails. -/
def withChunk (read : ReadAt) (s : QuicStream) (f : FileRegion) (bodyAt : Nat) :
    Option QuicStream :=
  if bodyAt ≥ s.chunkOff ∧ bodyAt < s.chunkOff + s.chunkLen then some s
  else
    let n := min 65536 (f.len - bodyAt)
    match (read (f.offset + bodyAt) n).take n with
    | [] => none
    | b :: bs => some { s with chunk := b :: bs, chunkOff := bodyAt, chunkLen := bs.length + 1 }

/-- The loop of `copy_stream_bytes`, one source per round: the head, the memory body, or the
    chunk of the file read ahead (refilled when the offset lies outside it).  Every round that
    goes on copies at least one byte, so `len` rounds are enough. -/
def copyLoop (read : ReadAt) : Nat → QuicStream → (offset len : Nat) → Bytes →
    Option (Bytes × QuicStream)
  | _, s, _, 0, out => some (out, s)
  | 0, _, _, _ + 1, _ => none
  | fuel + 1, s, at_, want@(_ + 1), out =>
    if at_ < s.headEnd then
      if at_ < s.headBase then none
      else
        let piece := (s.head.drop (at_ - s.headBase)).take want
        copyLoop read fuel s (at_ + piece.length) (want - piece.length) (out ++ piece)
    else
      let bodyAt := at_ - s.headEnd
      if s.mem ≠ [] then
        if bodyAt ≥ s.mem.length then none
        else
          let piece := (s.mem.drop bodyAt).take want
          copyLoop read fuel s (at_ + piece.length) (want - piece.length) (out ++ piece)
      else
        match s.file with
        | none => none
        | some f =>
          if bodyAt ≥ f.len then none
          else
            match s.withChunk read f bodyAt with
            | none => none
            | some s' =>
              let piece := ((s'.chunk.take s'.chunkLen).drop (bodyAt - s'.chunkOff)).take want
              copyLoop read fuel s' (at_ + piece.length) (want - piece.length) (out ++ piece)

/-- `copy_stream_bytes`: the bytes `[offset, offset + len)`, `none` when the source fails. -/
def copyStreamBytes (read : ReadAt) (s : QuicStream) (offset len : Nat) :
    Option (Bytes × QuicStream) :=
  copyLoop read len s offset len []

/-! ## §4. What the operations leave alone. -/

variable {read : ReadAt} {s s' : QuicStream}

theorem withChunk_chunk {f : FileRegion} {bodyAt : Nat} (h : s.withChunk read f bodyAt = some s') :
    ∃ chunk off len, s' = { s with chunk := chunk, chunkOff := off, chunkLen := len } := by
  unfold withChunk at h
  split at h
  · injection h with h
    exact ⟨s.chunk, s.chunkOff, s.chunkLen, h.symm⟩
  dsimp only at h
  split at h
  · simp at h
  injection h with h
  exact ⟨_, _, _, h.symm⟩

/-- Copying may refill the chunk, and changes nothing else of the stream. -/
theorem copyLoop_chunk (read : ReadAt) (fuel : Nat) (s : QuicStream) (at_ want : Nat)
    (out data : Bytes) (s' : QuicStream) (h : copyLoop read fuel s at_ want out = some (data, s')) :
    ∃ chunk off len, s' = { s with chunk := chunk, chunkOff := off, chunkLen := len } := by
  induction fuel generalizing s at_ want out with
  | zero =>
    cases want with
    | zero =>
      simp only [copyLoop, Option.some.injEq, Prod.mk.injEq] at h
      exact ⟨s.chunk, s.chunkOff, s.chunkLen, h.2.symm⟩
    | succ n => simp [copyLoop] at h
  | succ fuel ih =>
    cases want with
    | zero =>
      simp only [copyLoop, Option.some.injEq, Prod.mk.injEq] at h
      exact ⟨s.chunk, s.chunkOff, s.chunkLen, h.2.symm⟩
    | succ n =>
      unfold copyLoop at h
      dsimp only at h
      split at h
      · -- from the head
        split at h
        · simp at h
        · exact ih _ _ _ _ h
      · split at h
        · -- from the memory body
          split at h
          · simp at h
          · exact ih _ _ _ _ h
        · -- from the file
          split at h
          · simp at h
          split at h
          · simp at h
          split at h
          · simp at h
          next s₁ hs₁ =>
          obtain ⟨chunk, off, len, hs'⟩ := ih _ _ _ _ h
          obtain ⟨_, _, _, rfl⟩ := withChunk_chunk hs₁
          exact ⟨chunk, off, len, hs'⟩

theorem copyStreamBytes_chunk {offset len : Nat} {data : Bytes}
    (h : s.copyStreamBytes read offset len = some (data, s')) :
    ∃ chunk off n, s' = { s with chunk := chunk, chunkOff := off, chunkLen := n } :=
  copyLoop_chunk read len s offset len [] data s' h

/-- Copying gives as many bytes as were asked for. -/
theorem copyLoop_length (read : ReadAt) (fuel : Nat) (s : QuicStream) (at_ want : Nat)
    (out data : Bytes) (s' : QuicStream) (h : copyLoop read fuel s at_ want out = some (data, s')) :
    data.length = out.length + want := by
  -- each round appends a piece of at most `want` bytes
  have hpiece : ∀ (o src : Bytes) (n : Nat), (o ++ src.take n).length + (n - (src.take n).length) =
      o.length + n := by
    intro o src n
    rw [List.length_append, List.length_take]
    omega
  induction fuel generalizing s at_ want out with
  | zero =>
    cases want with
    | zero =>
      simp only [copyLoop, Option.some.injEq, Prod.mk.injEq] at h
      rw [← h.1]
      omega
    | succ n => simp [copyLoop] at h
  | succ fuel ih =>
    have hgo : ∀ (s₁ : QuicStream) (src : Bytes) (n at₁ : Nat),
        copyLoop read fuel s₁ at₁ (n - (src.take n).length) (out ++ src.take n) = some (data, s') →
        data.length = out.length + n := by
      intro s₁ src n at₁ hrec
      rw [ih _ _ _ _ hrec]
      exact hpiece out src n
    cases want with
    | zero =>
      simp only [copyLoop, Option.some.injEq, Prod.mk.injEq] at h
      rw [← h.1]
      omega
    | succ n =>
      unfold copyLoop at h
      dsimp only at h
      split at h
      · split at h
        · simp at h
        · exact hgo _ _ _ _ h
      · split at h
        · split at h
          · simp at h
          · exact hgo _ _ _ _ h
        · split at h
          · simp at h
          split at h
          · simp at h
          split at h
          · simp at h
          · exact hgo _ _ _ _ h

theorem copyStreamBytes_length {offset len : Nat} {data : Bytes}
    (h : s.copyStreamBytes read offset len = some (data, s')) : data.length = len := by
  have hlen := copyLoop_length read len s offset len [] data s' h
  rw [List.length_nil, Nat.zero_add] at hlen
  exact hlen

@[simp] theorem consumed_consume (s : QuicStream) (n : Nat) : (s.consume n).consumed = s.consumed + n := by
  unfold consume consumed
  split <;> simp <;> omega

@[simp] theorem consumed_store (s : QuicStream) (offset : Nat) (data : Bytes) :
    (s.store offset data).consumed = s.consumed := by
  unfold store
  split <;> rfl

end QuicStream

end Agensio.Quic
