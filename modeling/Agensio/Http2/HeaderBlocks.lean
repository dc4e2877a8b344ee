/-
  Agensio.Http2.HeaderBlocks — header blocks and the HPACK decoder.

  The connection of `Http2.Receive` with the block being collected and
  the decoder: `on_headers`, `on_continuation`, `append_block` and
  `finish_block` of `http2/connection.hpp`.  A block is decoded at four
  places, for a request that is served, for one that is refused, for
  trailers and for a block that is discarded; the result is looked at in
  three of them.  The sinks of all four take every field (`sink_field`
  returns true on each of its paths).

  What the fields of a request come to is a parameter (`assemble`), which
  `assembleRequest` is one of.  Misbehaviour is counted as in the source;
  whether one more stream reset before its answer is over the rate of the
  second is in the label (`overRate`).
  HISTORY VARIABLE: `blocks`, the blocks that were completed.

  Main results:
    * `decoder_in_step` — while the connection is not closing, its table
      is that of the reference, if the list of every refused request's
      block fits the limit;
    * `refused_block_cut_short` — a refused request over the limit.
-/
import Agensio.Http.RequestAssembly
import Agensio.Http2.Receive
import Agensio.Hpack.Reference

namespace Agensio.Http2

open Agensio.Lib Agensio.Codec Agensio.Hpack

/-! ## §1. The model. -/

/-- SETTINGS_HEADER_TABLE_SIZE. -/
def kHeaderTableSize : Nat := 4096

/-- CONTINUATION frames for one header block. -/
def kMaxContinuations : Nat := 8

/-- Misbehaviour points before the close, and before a GOAWAY. -/
def kGlitchBudget : Nat := 100
def kGlitchSoft : Nat := 75

/-- A connection with its decoder and the block being collected. -/
structure Session where
  conn : Connection
  decoder : Decoder := Decoder.new kHeaderTableSize
  /-- `block_`. -/
  buffer : Bytes := []
  blockFrames : Nat := 0
  glitches : Nat := 0
  -- history
  blocks : List Bytes := []

namespace Session

/-- What a request's fields come to: `sink_field` and `finish_request`. -/
abbrev Assemble := List Field → Connection.Verdict

/-- The fields of a request through `sink_field`, and what `finish_request` says. -/
def assembleRequest (bodyLimit : Nat) : Assemble := fun fields =>
  let a := fields.foldl (fun (a : Http.Assembly) f => a.sinkEvery f.1 f.2) {}
  if a.seen.overflow then .overflow
  else
    match Http.finishRequest a (bytes "HTTP/2.0") with
    | (.ok, _, length) => .request length bodyLimit
    | _ => .malformed

/-- The configuration around a frame: `max_header_size` as the fragment is appended and as the block
    is decoded (a reload may lie between), the stream that gives its slot up, and the reset rate. -/
structure Around where
  maxHeaderSize : Nat
  decodeSize : Nat
  evicted : Option Nat := none
  overRate : Bool := false
  deriving DecidableEq

def connectionError (s : Session) : Session := { s with conn := s.conn.connectionError }

/-- `goaway`; with no stream open the connection ends with it. -/
def goaway (c : Connection) : Connection :=
  if c.goingAway then c else { c with goingAway := true, closing := c.closing || c.streams.isEmpty }

/-- `glitch`: a GOAWAY at the soft threshold, the end at the budget. -/
def glitch (s : Session) : Session :=
  let n := s.glitches + 1
  if n = kGlitchSoft then { s with glitches := n, conn := goaway s.conn }
  else if n ≥ kGlitchBudget then { s with glitches := n, conn := s.conn.connectionError }
  else { s with glitches := n }

/-- `glitch` and `count_reset`. -/
def punish (s : Session) (overRate : Bool) : Session :=
  if overRate then s.glitch.connectionError else s.glitch

/-- Whether `open_stream` refuses a request. -/
def refuses (c : Connection) (evicted : Option Nat) : Bool :=
  let c' := if c.streams.length ≥ c.maxConcurrent then c.evict evicted else c
  c.goingAway || decide (c'.streams.length ≥ c'.maxConcurrent)

/-- What the result of a decode means where it is looked at. -/
def verdict (assemble : Assemble) : Result → List Field → Connection.Verdict
  | .malformed, _ => .refused
  | .tooLarge, _ => .refused
  | .ok, fields => assemble fields
  | .tooMany, fields => assemble fields

/-- Whether the end of a block counts against the client: a request over the concurrency limit, or a
    stream error. -/
def blockMisbehaves (c : Connection) (v : Connection.Verdict) (evicted : Option Nat) : Bool :=
  match c.block with
  | none => false
  | some (_, .request, endStream) =>
    !c.goingAway && (refuses c evicted ||
      match v with
      | .malformed => true
      | .request contentLength _ => endStream && contentLength.any (· ≠ 0)
      | _ => false)
  | some (id, .trailers, _) =>
    decide (v ≠ .refused) && (c.streams.lookup id).any fun s =>
      decide (s.state ≠ .halfClosedLocal) && s.contentLength.any (· ≠ s.bodyReceived)
  | some (_, .discard, _) => false

/-- `finish_block`. -/
def finishBlock (assemble : Assemble) (s : Session) (a : Around) : Session :=
  match s.conn.block with
  | none => s
  | some _ =>
    let (decoder, result, fields) := s.decoder.decode s.buffer a.decodeSize fun _ => true
    let v := verdict assemble result fields
    let s' := { s with
      decoder := decoder
      conn := s.conn.finishBlock v a.evicted
      blocks := s.blocks ++ [s.buffer] }
    if blockMisbehaves s.conn v a.evicted then s'.punish a.overRate else s'

/-- `append_block`: the session, and whether the fragment was taken. -/
def appendBlock (s : Session) (fragment : Bytes) (maxHeaderSize : Nat) : Session × Bool :=
  if s.buffer.length + fragment.length > maxHeaderSize then (s.connectionError, false)
  else ({ s with buffer := s.buffer ++ fragment }, true)

/-- Whether a HEADERS frame counts against the client: a second one that is no trailers, or a stream
    that depends on itself. -/
def headersMisbehave (c : Connection) (id : Nat) (endStream selfDependent : Bool) : Bool :=
  match if id ≤ c.lastStreamId then c.streams.lookup id else none with
  | some s => decide (s.state = .halfClosedRemote ∨ s.state = .closed ∨ endStream = false)
  | none => selfDependent && !c.recentClosed.contains id

/-- `on_headers`, up to the fragment. -/
def beginBlock (s : Session) (id : Nat) (endStream selfDependent overRate : Bool) : Session :=
  let s' := { s with
    conn := s.conn.frame (s.conn.onHeaders id endStream selfDependent), buffer := [], blockFrames := 0 }
  if headersMisbehave s.conn id endStream selfDependent then s'.punish overRate else s'

/-- `on_headers`, up to `finish_block`. -/
def onHeaders (s : Session) (id : Nat) (endStream selfDependent : Bool) (fragment : Bytes)
    (a : Around) : Session × Bool :=
  let conn := s.conn.frame (s.conn.onHeaders id endStream selfDependent)
  if conn.closing then ({ s with conn := conn }, false)
  else (s.beginBlock id endStream selfDependent a.overRate).appendBlock fragment a.maxHeaderSize

/-- `on_continuation`, up to `finish_block`; after a glitch it goes on. -/
def onContinuation (s : Session) (id : Nat) (fragment : Bytes) (maxHeaderSize : Nat) :
    Session × Bool :=
  match s.conn.block with
  | none => (s.connectionError, false)
  | some (blockStream, _, _) =>
    if id ≠ blockStream then (s.connectionError, false)
    else if s.blockFrames + 1 > kMaxContinuations then (s.connectionError, false)
    else
      let s := { s with blockFrames := s.blockFrames + 1 }
      (if fragment.isEmpty then s.glitch else s).appendBlock fragment maxHeaderSize

inductive Label where
  | headers (id : Nat) (endStream selfDependent : Bool) (fragment : Bytes) (endHeaders : Bool)
      (a : Around)
  | continuation (id : Nat) (fragment : Bytes) (endHeaders : Bool) (a : Around)
  /-- Misbehaviour counted anywhere else. -/
  | misbehave (overRate : Bool)
  /-- Anything that is no header block. -/
  | other (l : Connection.Label)
  deriving DecidableEq

/-- The frame with END_HEADERS completes the block. -/
def complete (assemble : Assemble) (x : Session × Bool) (endHeaders : Bool) (a : Around) : Session :=
  if x.2 && endHeaders then x.1.finishBlock assemble a else x.1

/-- One step; `none` where the frame cannot be handled any more. -/
def step (assemble : Assemble) (s : Session) : Label → Option Session
  | .headers id endStream selfDependent fragment endHeaders a =>
    if s.conn.closing then none
    else some (complete assemble (s.onHeaders id endStream selfDependent fragment a) endHeaders a)
  | .continuation id fragment endHeaders a =>
    if s.conn.closing then none
    else some (complete assemble (s.onContinuation id fragment a.maxHeaderSize) endHeaders a)
  | .misbehave overRate => some (s.punish overRate)
  | .other (.headers _ _ _) => none
  | .other (.block _ _) => none
  | .other l => (Connection.step s.conn l).map fun c => { s with conn := c }

def start (maxConcurrent : Nat) : Session := { conn := Connection.start maxConcurrent }

/-! ## §2. The condition and the invariant. -/

/-- The reference behind the blocks of a session. -/
def reference (s : Session) : Reference := Reference.after kHeaderTableSize s.blocks

/-- The list of a refused request's block fits the limit. -/
def Fits (s : Session) (a : Around) : Prop :=
  ∀ b ∈ s.conn.block, b.2.1 = .request → refuses { s.conn with block := none } a.evicted = true →
    weight fieldSize (s.reference.decode s.buffer).2 ≤ a.decodeSize

instance (s : Session) (a : Around) : Decidable (s.Fits a) :=
  inferInstanceAs (Decidable (∀ b ∈ s.conn.block, _ → _ → _))

/-- The condition on a frame that completes a block. -/
def Completes (x : Session × Bool) (endHeaders : Bool) (a : Around) : Prop :=
  (x.2 && endHeaders) = true → x.1.Fits a

instance (x : Session × Bool) (endHeaders : Bool) (a : Around) : Decidable (Completes x endHeaders a) :=
  inferInstanceAs (Decidable (_ → _))

/-- The condition on a step. -/
def Clean (s : Session) : Label → Prop
  | .headers id endStream selfDependent fragment endHeaders a =>
    Completes (s.onHeaders id endStream selfDependent fragment a) endHeaders a
  | .continuation id fragment endHeaders a =>
    Completes (s.onContinuation id fragment a.maxHeaderSize) endHeaders a
  | .misbehave _ => True
  | .other _ => True

instance Clean.decidable (s : Session) : (l : Label) → Decidable (s.Clean l)
  | .headers _ _ _ _ endHeaders a => inferInstanceAs (Decidable (Completes _ endHeaders a))
  | .continuation _ _ endHeaders a => inferInstanceAs (Decidable (Completes _ endHeaders a))
  | .misbehave _ => .isTrue trivial
  | .other _ => .isTrue trivial

/-- The decoder is in step with the reference, or the connection is closing. -/
def InStep (s : Session) : Prop := s.conn.closing = true ∨ Agrees s.decoder s.reference

theorem inStep_start (maxConcurrent : Nat) : (start maxConcurrent).InStep :=
  .inr (agrees_new kHeaderTableSize)

/-! ## §3. Misbehaviour. -/

/-- Points change the connection only. -/
theorem glitch_keeps (s : Session) : s.glitch.decoder = s.decoder ∧ s.glitch.blocks = s.blocks ∧
    s.glitch.conn.block = s.conn.block ∧ (s.conn.closing = true → s.glitch.conn.closing = true) := by
  unfold glitch
  dsimp only
  split
  · unfold goaway
    split
    · exact ⟨rfl, rfl, rfl, id⟩
    · exact ⟨rfl, rfl, rfl, fun h => by simp [h]⟩
  split
  · exact ⟨rfl, rfl, rfl, fun _ => rfl⟩
  · exact ⟨rfl, rfl, rfl, id⟩

theorem punish_keeps (s : Session) (overRate : Bool) : (s.punish overRate).decoder = s.decoder ∧
    (s.punish overRate).blocks = s.blocks ∧
    (s.conn.closing = true → (s.punish overRate).conn.closing = true) := by
  obtain ⟨hdecoder, hblocks, -, hclosing⟩ := s.glitch_keeps
  cases overRate with
  | true => exact ⟨hdecoder, hblocks, fun _ => rfl⟩
  | false => exact ⟨hdecoder, hblocks, hclosing⟩

theorem InStep.punish {s : Session} (h : s.InStep) (overRate : Bool) : (s.punish overRate).InStep := by
  obtain ⟨hdecoder, hblocks, hclosing⟩ := s.punish_keeps overRate
  refine h.imp hclosing fun hagree => ?_
  unfold Session.reference
  rw [hdecoder, hblocks]
  exact hagree

/-! ## §4. The end of a block. -/

/-- Where the result is looked at, a block that is not decoded closes the connection. -/
theorem finishBlock_refused (c : Connection) {b : Nat × BlockKind × Bool} (evicted : Option Nat)
    (hb : c.block = some b)
    (hserved : b.2.1 = .request → refuses { c with block := none } evicted = false) :
    (c.finishBlock .refused evicted).closing = true := by
  obtain ⟨id, kind, endStream⟩ := b
  unfold Connection.finishBlock
  rw [hb]
  dsimp only
  cases kind with
  | discard => rfl
  | trailers => rfl
  | request =>
    have hslot := hserved rfl
    unfold refuses at hslot
    dsimp only at hslot
    rw [Bool.or_eq_false_iff, decide_eq_false_iff_not] at hslot
    obtain ⟨haway, hroom⟩ := hslot
    dsimp only
    unfold Connection.openRequest
    rw [if_neg (by rw [haway]; exact Bool.false_ne_true)]
    dsimp only
    rw [if_neg hroom]
    rfl

/-- **Block lemma.** -/
theorem InStep.finishBlock (assemble : Assemble) {s : Session} (a : Around)
    (h : Agrees s.decoder s.reference) (hfits : s.Fits a) : (s.finishBlock assemble a).InStep := by
  unfold Session.finishBlock
  split
  · exact .inr h
  next b hb =>
    have href : Reference.after kHeaderTableSize (s.blocks ++ [s.buffer]) =
        (s.reference.decode s.buffer).1 := by
      unfold Reference.after
      rw [List.foldl_append]
      rfl
    have huncut := h.decode_uncut s.buffer a.decodeSize
    have hall := h.decode_fits s.buffer a.decodeSize
    generalize s.decoder.decode s.buffer a.decodeSize (fun _ => true) = x at huncut hall
    obtain ⟨decoder, result, fields⟩ := x
    dsimp only at huncut hall ⊢
    have hdone : InStep { s with
        decoder := decoder, conn := s.conn.finishBlock (verdict assemble result fields) a.evicted,
        blocks := s.blocks ++ [s.buffer] } := by
      by_cases hcut : result = .tooLarge
      · by_cases hserved : b.2.1 = .request → refuses { s.conn with block := none } a.evicted = false
        · left
          rw [hcut]
          exact finishBlock_refused s.conn a.evicted hb hserved
        · -- a refused request: its list fits
          right
          rw [Classical.not_imp, Bool.not_eq_false] at hserved
          show Agrees decoder (Reference.after kHeaderTableSize (s.blocks ++ [s.buffer]))
          rw [href]
          exact hall (hfits b hb hserved.1 hserved.2)
      · right
        show Agrees decoder (Reference.after kHeaderTableSize (s.blocks ++ [s.buffer]))
        rw [href]
        exact huncut hcut
    split
    · exact hdone.punish a.overRate
    · exact hdone

/-! ## §5. Runs. -/

theorem appendBlock_keeps (s : Session) (fragment : Bytes) (maxHeaderSize : Nat) :
    (s.appendBlock fragment maxHeaderSize).1.decoder = s.decoder ∧
      (s.appendBlock fragment maxHeaderSize).1.blocks = s.blocks := by
  unfold Session.appendBlock
  split <;> exact ⟨rfl, rfl⟩

/-- Collecting a block leaves the decoder alone. -/
theorem collect_keeps (s : Session) : (∀ id endStream selfDependent fragment a,
      (s.onHeaders id endStream selfDependent fragment a).1.decoder = s.decoder ∧
      (s.onHeaders id endStream selfDependent fragment a).1.blocks = s.blocks) ∧ ∀ id fragment maxHeaderSize,
      (s.onContinuation id fragment maxHeaderSize).1.decoder = s.decoder ∧
      (s.onContinuation id fragment maxHeaderSize).1.blocks = s.blocks := by
  refine ⟨?_, ?_⟩
  · intro id endStream selfDependent fragment a
    unfold Session.onHeaders
    dsimp only
    split
    · exact ⟨rfl, rfl⟩
    obtain ⟨hd, hb⟩ := appendBlock_keeps (s.beginBlock id endStream selfDependent a.overRate) fragment
      a.maxHeaderSize
    rw [hd, hb]
    unfold beginBlock
    dsimp only
    split
    · exact ⟨(punish_keeps _ _).1, (punish_keeps _ _).2.1⟩
    · exact ⟨rfl, rfl⟩
  · intro id fragment maxHeaderSize
    unfold Session.onContinuation
    split
    · exact ⟨rfl, rfl⟩
    split
    · exact ⟨rfl, rfl⟩
    split
    · exact ⟨rfl, rfl⟩
    dsimp only
    obtain ⟨hd, hb⟩ := appendBlock_keeps
      (if fragment.isEmpty then { s with blockFrames := s.blockFrames + 1 }.glitch
        else { s with blockFrames := s.blockFrames + 1 }) fragment maxHeaderSize
    rw [hd, hb]
    split
    · exact ⟨(glitch_keeps _).1, (glitch_keeps _).2.1⟩
    · exact ⟨rfl, rfl⟩

theorem InStep.complete (assemble : Assemble) {s : Session} {x : Session × Bool} (endHeaders : Bool)
    (a : Around) (h : Agrees s.decoder s.reference)
    (hd : x.1.decoder = s.decoder) (hb : x.1.blocks = s.blocks)
    (hfits : Completes x endHeaders a) : (complete assemble x endHeaders a).InStep := by
  have hx : Agrees x.1.decoder x.1.reference := by
    unfold Session.reference
    rw [hd, hb]
    exact h
  unfold Session.complete
  split
  next hend => exact InStep.finishBlock assemble a hx (hfits hend)
  · exact .inr hx

/-- **Step lemma.** -/
theorem inStep_step (assemble : Assemble) (s : Session) (l : Label) (s' : Session) (h : s.InStep)
    (hclean : s.Clean l) (hstep : step assemble s l = some s') : s'.InStep := by
  have hopen : ∀ {c : Connection} {l : Connection.Label} {c' : Connection},
      Connection.step c l = some c' → c.closing = false := by
    intro c l c' hc
    unfold Connection.step at hc
    split at hc
    · simp at hc
    next hclosing => simpa using hclosing
  have hagree : s.conn.closing = false → Agrees s.decoder s.reference := by
    intro hclosing
    rcases h with hc | ha
    · cases hclosing.symm.trans hc
    · exact ha
  cases l with
  | headers id endStream selfDependent fragment endHeaders a =>
    unfold Session.step at hstep
    dsimp only at hstep
    split at hstep
    · simp at hstep
    next hclosing =>
      cases hstep
      obtain ⟨hd, hb⟩ := (collect_keeps s).1 id endStream selfDependent fragment a
      exact InStep.complete assemble endHeaders a (hagree (by simpa using hclosing)) hd hb hclean
  | continuation id fragment endHeaders a =>
    unfold Session.step at hstep
    dsimp only at hstep
    split at hstep
    · simp at hstep
    next hclosing =>
      cases hstep
      obtain ⟨hd, hb⟩ := (collect_keeps s).2 id fragment a.maxHeaderSize
      exact InStep.complete assemble endHeaders a (hagree (by simpa using hclosing)) hd hb hclean
  | misbehave overRate =>
    cases hstep
    exact h.punish overRate
  | other l =>
    have hkeep : (Connection.step s.conn l).map (fun c => { s with conn := c }) = some s' →
        s'.InStep := by
      intro hmap
      cases hc : Connection.step s.conn l with
      | none =>
        rw [hc] at hmap
        simp at hmap
      | some c =>
        rw [hc] at hmap
        cases hmap
        exact .inr (hagree (hopen hc))
    cases l <;> first | exact hkeep hstep | simp [Session.step] at hstep

/-- **The decoder stays in step** in every run whose refused requests' blocks fit the limit: the
    connection is closing, or the table is the reference's after the same blocks. -/
theorem decoder_in_step (assemble : Assemble) (maxConcurrent : Nat) (ls : List Label) (s : Session)
    (hrun : run (step assemble) (start maxConcurrent) ls = some s)
    (hok : Meets (step assemble) Clean (start maxConcurrent) ls) : s.conn.closing = true ∨
      (s.decoder.table.entries = (Reference.after kHeaderTableSize s.blocks).entries ∧
        s.decoder.table.limit = (Reference.after kHeaderTableSize s.blocks).limit) := by
  have hinv : s.InStep := run_invariant (inStep_step assemble) (inStep_start maxConcurrent) hrun hok
  exact hinv.imp id fun h => ⟨h.entries, h.limit⟩

/-- `:method: POST`, `:scheme: http`, `:path: /`, `:authority: x`. -/
def postHead : Bytes := [0x83, 0x86, 0x84, 0x41, 0x01, 0x78]

/-- A configuration with 1024 bytes for a header list. -/
def plainAround : Around := { maxHeaderSize := 1024, decodeSize := 1024 }

/-- A POST that inserts `x: y`, one that is refused and inserts `a: b`, an empty CONTINUATION in the
    trailers for the first. -/
def refusedInStep : List Label :=
  [.headers 1 false false (postHead ++ [0x40, 0x01, 0x78, 0x01, 0x79]) true plainAround,
    .headers 3 true false (postHead ++ [0x40, 0x01, 0x61, 0x01, 0x62]) true plainAround,
    .headers 1 true false [0x40, 0x01, 0x63] false plainAround, .continuation 1 [] false plainAround,
    .continuation 1 [0x01, 0x64, 0xbf] true plainAround]

theorem decoder_in_step_refused : Meets (step (assembleRequest 100000)) Clean (start 1) refusedInStep ∧
      ∃ s, run (step (assembleRequest 100000)) (start 1) refusedInStep = some s ∧ s.conn.closing = false ∧
        s.glitches = 2 ∧
        s.decoder.table.entries = [([0x63], [0x64]), ([0x61], [0x62]), (bytes ":authority", [0x78]),
          ([0x78], [0x79]), (bytes ":authority", [0x78])] ∧ (s.conn.closing = true ∨
          (s.decoder.table.entries = (Reference.after kHeaderTableSize s.blocks).entries ∧
            s.decoder.table.limit = (Reference.after kHeaderTableSize s.blocks).limit)) := by
  have hok : Meets (step (assembleRequest 100000)) Clean (start 1) refusedInStep := by decide +kernel
  refine ⟨hok, _, rfl, by decide +kernel, by decide +kernel, by decide +kernel, ?_⟩
  exact decoder_in_step (assembleRequest 100000) 1 refusedInStep _ rfl hok

/-- With one stream open and one allowed, a request whose list is over the limit and whose last
    field is to be inserted. -/
def refusedOverLimit : List Label :=
  [.headers 1 false false postHead true plainAround,
    .headers 3 true false (postHead ++ List.replicate 25 0x82 ++ [0x40, 0x01, 0x61, 0x01, 0x62]) true
      plainAround]

/-- The refused block is decoded only up to the limit: the insertion is missed, and the connection
    goes on with the first stream. -/
theorem refused_block_cut_short :
    ∃ s, run (step (assembleRequest 100000)) (start 1) refusedOverLimit = some s ∧ s.conn.closing = false ∧
      s.conn.streams.map (·.1) = [1] ∧
      s.decoder.table.entries ≠ (Reference.after kHeaderTableSize s.blocks).entries := by
  refine ⟨_, rfl, ?_⟩
  decide +kernel

end Session

end Agensio.Http2
