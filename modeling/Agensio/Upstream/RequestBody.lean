/-
  Agensio.Upstream.RequestBody — the request body, to the application.

  Model of `BodyReader::step` and `collect_request_body`
  (`handlers/upstream_common.cpp`), of the body half of
  `UpstreamRequest::begin`, `send_head` and `send_body_next`
  (`upstream/client.cpp`), and of `encode_body_chunk` for an HTTP origin
  and for a FastCGI server.  The temporary file, the connection and the
  client's stream answer as they like.

  Main results:
    * `reaches_iff` — when all of it arrives as it was announced.
-/
import Agensio.Http1.Chunked
import Agensio.Proxy.Head
import Agensio.Upstream.Fcgi

namespace Agensio.Upstream

open Agensio.Codec (Field)
open Agensio.Http1
open Agensio.Proxy (Outgoing)

/-! ## §1. The body as it comes in. -/

def kBodyChunk : Nat := 64 * 1024

/-- What one `async_read` of the client's body hands out. -/
structure Read where
  bytes : Bytes
  /-- The temporary file is open, or can be opened, and takes the bytes. -/
  stored : Bool
  ne : bytes ≠ []
  fits : bytes.length ≤ kBodyChunk

/-- A `StreamBody`: the reads in order, and then the end of the body or an error. -/
structure ClientBody where
  /-- `length()`. -/
  declared : Option Nat
  reads : List Read
  fails : Bool

/-- The client's body bytes. -/
def ClientBody.bytes (c : ClientBody) : Bytes := c.reads.flatMap Read.bytes

/-- `UpstreamBodyInput`. -/
structure BodyInput where
  memory : Bytes := []
  spill : Option Bytes := none
  size : Nat := 0
  sizeKnown : Bool := true
  stream : Option ClientBody := none

/-- The body that is pulled from the client as it is sent. -/
def ClientBody.input (c : ClientBody) : BodyInput :=
  { stream := some c, sizeKnown := c.declared.isSome, size := c.declared.getD 0 }

/-- `BodyReader::step` with a read; nothing when the temporary file fails. -/
def BodyInput.step (memoryMax : Nat) (body : BodyInput) (r : Read) : Option BodyInput :=
  if body.spill.isSome || memoryMax < body.memory.length + r.bytes.length then
    if r.stored then
      some { body with size := body.size + r.bytes.length, spill := some (body.spill.getD [] ++ r.bytes) }
    else none
  else some { body with size := body.size + r.bytes.length, memory := body.memory ++ r.bytes }

/-- `collect_request_body`. -/
def collectRequestBody (memoryMax : Nat) (fails : Bool) : BodyInput → List Read → Option BodyInput
  | body, [] => if fails then none else some body
  | body, r :: rs => (body.step memoryMax r).bind fun body => collectRequestBody memoryMax fails body rs

/-- What the handlers start an exchange with; nothing when there is no exchange. -/
def bodyInput (requestBuffering : Bool) (requestBufferMax : Nat) : Option ClientBody → Option BodyInput
  | none => some {}
  | some c =>
    if requestBuffering then collectRequestBody requestBufferMax c.fails {} c.reads
    else some c.input

/-! ## §2. The bytes behind the head. -/

/-- The wire protocol; `chunked_out_` of an HTTP exchange. -/
inductive Wire
  | http (chunkedOut : Bool)
  | fcgi
  deriving DecidableEq

/-- `encode_body_chunk`. -/
def Wire.encodeBodyChunk : Wire → Bytes → Bool → Bytes
  | .http false, bs, _ => bs
  | .http true, bs, last => chunkText bs ++ if last then kLastChunk else []
  | .fcgi, bs, last =>
    (if bs = [] then [] else Fcgi.streamText .stdin_ 1 bs false) ++
      if last then Fcgi.recordText .stdin_ 1 [] else []

/-- `File::read_at` on a buffer of `kBodyChunk`: the number of bytes got at this position, none only
    at the end of the file; or an error. -/
structure Disk where
  readAt : Bytes → Nat → Option Nat
  fits : ∀ {file pos n}, readAt file pos = some n → n ≤ kBodyChunk ∧ n ≤ file.length - pos
  ends : ∀ {file pos}, readAt file pos = some 0 → file.length ≤ pos

/-- The `k`-th write of the exchange goes through. -/
abbrev Link := Nat → Bool

section Sending

variable (w : Wire) (link : Link) (disk : Disk)

/-- The body bytes that ride with the head (`begin`). -/
def BodyInput.riding (b : BodyInput) : Bytes :=
  if b.stream.isNone && b.spill.isNone then w.encodeBodyChunk b.memory true
  else if b.memory.isEmpty then [] else w.encodeBodyChunk b.memory false

/-- `send_body_next` over the temporary file, from its `k`-th write and from `bodyPos`. -/
def sendSpill (file : Bytes) : Nat → Nat → Nat → Option Bytes
  | 0, _, _ => none
  | fuel + 1, k, bodyPos =>
    match disk.readAt file bodyPos with
    | none => none
    | some got =>
      let chunk := w.encodeBodyChunk ((file.drop bodyPos).take got) (got = 0)
      if !link k then none
      else if got = 0 then some chunk
      else (sendSpill file fuel (k + 1) (bodyPos + got)).map (chunk ++ ·)

/-- `send_body_next` over the client's stream. -/
def sendStream (fails : Bool) : Nat → List Read → Option Bytes
  | k, [] => if fails || !link k then none else some (w.encodeBodyChunk [] true)
  | k, r :: rs =>
    if !link k then none
    else (sendStream fails (k + 1) rs).map (w.encodeBodyChunk r.bytes false ++ ·)

/-- The bytes written behind the head, up to `body_sent`; nothing when the exchange fails before. -/
def BodyInput.send (b : BodyInput) : Option Bytes :=
  if !link 0 then none
  else
    match b.spill, b.stream with
    | some file, _ => (sendSpill w link disk file (file.length + 1) 1 0).map (b.riding w ++ ·)
    | none, some c => (sendStream w link c.fails 1 c.reads).map (b.riding w ++ ·)
    | none, none => some (b.riding w)

end Sending

/-! ## §3. What the application takes. -/

/-- How a head says that its body is delimited. -/
inductive Announced
  | length (n : Nat)
  | chunked
  | nothing
  deriving DecidableEq

def announced (fs : List Field) : Announced :=
  if fs.any fun f => f = (bytes "Transfer-Encoding", bytes "chunked") then .chunked
  else
    match fs.lookup (bytes "Content-Length") with
    | some v => .length (decimal v)
    | none => .nothing

/-- The body that is there, and the bytes behind it. -/
def Announced.body : Announced → Bytes → Option (Bytes × Bytes)
  | .length n, bs => if n ≤ bs.length then some (bs.take n, bs.drop n) else none
  | .chunked, bs =>
    let fed := ({} : ChunkedDecoder).feed bs
    if fed.status = .done then some (fed.out, fed.rest) else none
  | .nothing, bs => some ([], bs)

/-- What `encode_head` reads of the body. -/
def BodyInput.outgoing (b : BodyInput) (upgrade keepConn : Bool) : Outgoing :=
  { stream := b.stream.isSome, sizeKnown := b.sizeKnown, spillOpen := b.spill.isSome, memory := b.memory,
    size := b.size, upgrade := upgrade, keepConn := keepConn }

/-- `chunked_out_`, behind `encode_head`. -/
def BodyInput.chunkedOut (b : BodyInput) : Bool := b.stream.isSome && !b.sizeKnown

/-- Nothing gets in the way of the exchange. -/
def Undisturbed (link : Link) (disk : Disk) (src : Option ClientBody) : Prop :=
  (∀ k, link k = true) ∧ (∀ file pos, (disk.readAt file pos).isSome = true) ∧ ∀ c, src = some c → c.fails = false

/-- **The body arrives**, at an HTTP origin as its head announced it and at a FastCGI server as the
    STDIN records up to the empty one, whenever the sending is reported to be over. -/
structure Arrives (body : Bytes) (b : BodyInput) (upgrade keepConn : Bool) (head : Bytes) (link : Link) (disk : Disk) :
    Prop where
  http : ∀ bs, b.send (.http b.chunkedOut) link disk = some bs →
    (announced ((b.outgoing upgrade keepConn).framingFields head)).body bs = some (body, []) ∧
      ∀ n, announced ((b.outgoing upgrade keepConn).framingFields head) = .length n → n = bs.length
  fcgi : ∀ bs, b.send .fcgi link disk = some bs → ∃ rs, Fcgi.readRecords bs = some (rs, []) ∧
    Fcgi.stdinOf rs = some (body, [])

/-- The body of every exchange arrives, and the sending is over when nothing gets in the way. -/
def Reaches (requestBuffering : Bool) (requestBufferMax : Nat) (src : Option ClientBody) (upgrade keepConn : Bool)
    (head : Bytes) : Prop :=
  ∀ b, bodyInput requestBuffering requestBufferMax src = some b → ∀ link disk,
    Arrives ((src.map ClientBody.bytes).getD []) b upgrade keepConn head link disk ∧
      (Undisturbed link disk src → ∀ w, (b.send w link disk).isSome = true)

/-- The body that is streamed is as long as its source declared. -/
def Declared (requestBuffering : Bool) (src : Option ClientBody) : Prop :=
  ∀ c, src = some c → requestBuffering = false → c.fails = false → ∀ n, c.declared = some n → n = c.bytes.length

/-! ## §4. The collector. -/

/-- The body as far as it was read is the memory prefix and then the file. -/
structure Holds (bs : Bytes) (b : BodyInput) : Prop where
  bytes : b.memory ++ b.spill.getD [] = bs
  size : b.size = bs.length
  known : b.sizeKnown = true
  stream : b.stream = none

theorem Holds.step {bs : Bytes} {b b' : BodyInput} {memoryMax : Nat} {r : Read} (h : Holds bs b)
    (hs : b.step memoryMax r = some b') : Holds (bs ++ r.bytes) b' := by
  unfold BodyInput.step at hs
  split at hs
  · -- into the file, behind what it has
    split at hs
    · cases hs
      refine ⟨?_, ?_, h.known, h.stream⟩
      · show b.memory ++ (b.spill.getD [] ++ r.bytes) = bs ++ r.bytes
        rw [← List.append_assoc, h.bytes]
      · rw [h.size, List.length_append]
    · cases hs
  · next hmem =>
    -- into memory: the file was never opened
    cases hs
    have hnone : b.spill = none := by
      cases hspill : b.spill with
      | none => rfl
      | some file => exact absurd (by rw [hspill]; rfl) hmem
    refine ⟨?_, ?_, h.known, h.stream⟩
    · have := h.bytes
      rw [hnone] at this
      rw [hnone, ← this]
      simp
    · rw [h.size, List.length_append]

/-- **What is collected is the body**, whichever side of the limit each read falls on. -/
theorem collect_body {memoryMax : Nat} {fails : Bool} {rs : List Read} : ∀ {bs : Bytes} {b b' : BodyInput},
    Holds bs b → collectRequestBody memoryMax fails b rs = some b' → Holds (bs ++ rs.flatMap Read.bytes) b' := by
  induction rs with
  | nil =>
    intro bs b b' h hc
    unfold collectRequestBody at hc
    split at hc
    · cases hc
    cases hc
    rw [List.flatMap_nil, List.append_nil]
    exact h
  | cons r rs ih =>
    intro bs b b' h hc
    unfold collectRequestBody at hc
    obtain ⟨b₁, hstep, hrest⟩ := Option.bind_eq_some_iff.mp hc
    have := ih (h.step hstep) hrest
    rw [List.append_assoc] at this
    exact this

/-! ## §5. Sending. -/

/-- What an encoding makes of the pieces of a body. -/
def Wire.encoded (w : Wire) (pieces : List Bytes) : Bytes :=
  pieces.flatMap (fun p => w.encodeBodyChunk p false) ++ w.encodeBodyChunk [] true

section Pieces

variable {w : Wire} {link : Link} {disk : Disk}

/-- The pieces the temporary file is sent in. -/
theorem sendSpill_pieces {file bs : Bytes} : ∀ {fuel k pos : Nat}, sendSpill w link disk file fuel k pos = some bs →
    ∃ pieces, bs = w.encoded pieces ∧ pieces.flatten = file.drop pos ∧
      ∀ p ∈ pieces, p ≠ [] ∧ p.length ≤ kBodyChunk := by
  intro fuel
  induction fuel generalizing bs with
  | zero => intro k pos h; cases h
  | succ fuel ih =>
    intro k pos h
    unfold sendSpill at h
    cases hread : disk.readAt file pos with
    | none => rw [hread] at h; cases h
    | some got =>
      rw [hread] at h
      dsimp only at h
      split at h
      · cases h
      split at h
      · next hzero =>
        -- the end of the file
        subst hzero
        cases h
        refine ⟨[], ?_, ?_, nofun⟩
        · unfold Wire.encoded
          simp
        · rw [List.flatten_nil, List.drop_eq_nil_of_le (disk.ends hread)]
      · next hpos =>
        obtain ⟨bs', hrest, rfl⟩ := Option.map_eq_some_iff.mp h
        obtain ⟨pieces, rfl, hflat, hall⟩ := ih hrest
        obtain ⟨hchunk, hle⟩ := disk.fits hread
        refine ⟨(file.drop pos).take got :: pieces, ?_, ?_, ?_⟩
        · unfold Wire.encoded
          rw [List.flatMap_cons, List.append_assoc, decide_eq_false hpos]
        · rw [List.flatten_cons, hflat, ← List.drop_drop, List.take_append_drop]
        · intro p hp
          rcases List.mem_cons.mp hp with rfl | hp
          · have hlen : ((file.drop pos).take got).length = got := by
              rw [List.length_take, List.length_drop]
              omega
            refine ⟨?_, by omega⟩
            intro hnil
            rw [hnil, List.length_nil] at hlen
            omega
          · exact hall p hp

/-- The pieces the client's stream is sent in are the reads. -/
theorem sendStream_pieces {fails : Bool} {rs : List Read} : ∀ {k : Nat} {bs : Bytes},
    sendStream w link fails k rs = some bs → fails = false ∧ bs = w.encoded (rs.map Read.bytes) := by
  induction rs with
  | nil =>
    intro k bs h
    unfold sendStream at h
    split at h
    · cases h
    next hgo =>
    cases h
    cases fails with
    | true => exact absurd (Bool.true_or _) hgo
    | false => exact ⟨rfl, rfl⟩
  | cons r rs ih =>
    intro k bs h
    unfold sendStream at h
    split at h
    · cases h
    obtain ⟨bs', hrest, rfl⟩ := Option.map_eq_some_iff.mp h
    obtain ⟨hfails, rfl⟩ := ih hrest
    refine ⟨hfails, ?_⟩
    unfold Wire.encoded
    rw [List.map_cons, List.flatMap_cons, List.append_assoc]

/-- Nothing is left out and the reading ends. -/
theorem sendSpill_isSome (hlink : ∀ k, link k = true) (hdisk : ∀ file pos, (disk.readAt file pos).isSome = true)
    {file : Bytes} : ∀ {fuel k pos : Nat}, file.length - pos < fuel →
    (sendSpill w link disk file fuel k pos).isSome = true := by
  intro fuel
  induction fuel with
  | zero => intro k pos h; omega
  | succ fuel ih =>
    intro k pos h
    unfold sendSpill
    obtain ⟨got, hread⟩ := Option.isSome_iff_exists.mp (hdisk file pos)
    rw [hread]
    dsimp only
    rw [hlink k, if_neg (show ¬ (!true) = true by decide)]
    split
    · rfl
    next hpos =>
    have := (disk.fits hread).2
    rw [Option.isSome_map]
    exact ih (by omega)

theorem sendStream_isSome (hlink : ∀ k, link k = true) {rs : List Read} :
    ∀ {k : Nat}, (sendStream w link false k rs).isSome = true := by
  induction rs with
  | nil =>
    intro k
    unfold sendStream
    rw [hlink k]
    rfl
  | cons r rs ih =>
    intro k
    unfold sendStream
    rw [hlink k, if_neg (show ¬ (!true) = true by decide), Option.isSome_map]
    exact ih

end Pieces

theorem Wire.encodeBodyChunk_nil (w : Wire) : w.encodeBodyChunk [] false = [] := by
  cases w with
  | http chunkedOut => cases chunkedOut <;> rfl
  | fcgi => rfl

/-- The last chunk is a chunk and then the end. -/
theorem Wire.encodeBodyChunk_last (w : Wire) (bs : Bytes) :
    w.encodeBodyChunk bs true = w.encodeBodyChunk bs false ++ w.encodeBodyChunk [] true := by
  cases w with
  | http chunkedOut =>
    cases chunkedOut with
    | false => exact (List.append_nil bs).symm
    | true =>
      show chunkText bs ++ kLastChunk = (chunkText bs ++ []) ++ kLastChunk
      rw [List.append_nil]
  | fcgi =>
    show (if bs = [] then [] else Fcgi.streamText .stdin_ 1 bs false) ++ Fcgi.recordText .stdin_ 1 [] =
      ((if bs = [] then [] else Fcgi.streamText .stdin_ 1 bs false) ++ []) ++ Fcgi.recordText .stdin_ 1 []
    rw [List.append_nil]

/-- The memory prefix as the pieces it is sent in. -/
def BodyInput.prefixPieces (b : BodyInput) : List Bytes := if b.memory = [] then [] else [b.memory]

theorem BodyInput.prefixPieces_flatten (b : BodyInput) : b.prefixPieces.flatten = b.memory := by
  unfold BodyInput.prefixPieces
  split
  · next h => rw [h]; rfl
  · simp

theorem BodyInput.riding_before (w : Wire) {b : BodyInput} (h : (b.stream.isNone && b.spill.isNone) = false)
    (pieces : List Bytes) : b.riding w ++ w.encoded pieces = w.encoded (b.prefixPieces ++ pieces) := by
  unfold BodyInput.riding BodyInput.prefixPieces Wire.encoded
  rw [h, if_neg Bool.false_ne_true]
  cases b.memory with
  | nil => rfl
  | cons c cs =>
    simp only [List.isEmpty_cons, List.cons_ne_nil, Bool.false_eq_true, if_false, List.singleton_append,
      List.flatMap_cons, List.append_assoc]

theorem BodyInput.riding_alone (w : Wire) {b : BodyInput} (h : (b.stream.isNone && b.spill.isNone) = true) :
    b.riding w = w.encoded b.prefixPieces := by
  unfold BodyInput.riding BodyInput.prefixPieces Wire.encoded
  rw [if_pos h, w.encodeBodyChunk_last]
  cases b.memory with
  | nil => rw [w.encodeBodyChunk_nil]; rfl
  | cons c cs => simp

section Send

variable {w : Wire} {link : Link} {disk : Disk} {b : BodyInput} {body bs : Bytes}

/-- **What is sent of a body that was collected** is the body in pieces. -/
theorem send_collected (hb : Holds body b) (h : b.send w link disk = some bs) :
    ∃ pieces, bs = w.encoded pieces ∧ pieces.flatten = body ∧ ∀ p ∈ pieces, p ≠ [] := by
  have hpre : ∀ p ∈ b.prefixPieces, p ≠ [] := by
    unfold BodyInput.prefixPieces
    split
    · nofun
    next hne =>
    intro p hp
    rw [List.mem_singleton.mp hp]
    exact hne
  have hbytes := hb.bytes
  unfold BodyInput.send at h
  split at h
  · cases h
  rw [hb.stream] at h
  cases hspill : b.spill with
  | none =>
    rw [hspill] at h hbytes
    cases h
    refine ⟨b.prefixPieces, BodyInput.riding_alone w (by rw [hb.stream, hspill]; rfl), ?_, hpre⟩
    rw [BodyInput.prefixPieces_flatten, ← hbytes]
    exact (List.append_nil _).symm
  | some file =>
    rw [hspill] at h hbytes
    obtain ⟨bs', hrest, rfl⟩ := Option.map_eq_some_iff.mp h
    obtain ⟨pieces, rfl, hflat, hall⟩ := sendSpill_pieces hrest
    refine ⟨b.prefixPieces ++ pieces, BodyInput.riding_before w (by rw [hspill]; exact Bool.and_false _) pieces, ?_, ?_⟩
    · rw [List.flatten_append, BodyInput.prefixPieces_flatten, hflat, List.drop_zero]
      exact hbytes
    · intro p hp
      rcases List.mem_append.mp hp with hp | hp
      · exact hpre p hp
      · exact (hall p hp).1

/-- What is sent of a body that is streamed is its reads. -/
theorem send_streamed {c : ClientBody} (h : c.input.send w link disk = some bs) :
    c.fails = false ∧ bs = w.encoded (c.reads.map Read.bytes) := by
  unfold BodyInput.send at h
  split at h
  · cases h
  obtain ⟨bs', hrest, rfl⟩ := Option.map_eq_some_iff.mp h
  obtain ⟨hfails, rfl⟩ := sendStream_pieces hrest
  exact ⟨hfails, rfl⟩

theorem send_isSome (hlink : ∀ k, link k = true) (hdisk : ∀ file pos, (disk.readAt file pos).isSome = true)
    (hstream : ∀ c, b.stream = some c → c.fails = false) : (b.send w link disk).isSome = true := by
  unfold BodyInput.send
  rw [hlink 0, if_neg (show ¬ (!true) = true by decide)]
  cases hspill : b.spill with
  | some file =>
    rw [Option.isSome_map]
    exact sendSpill_isSome hlink hdisk (by omega)
  | none =>
    cases hs : b.stream with
    | none => rfl
    | some c =>
      rw [Option.isSome_map, hstream c hs]
      exact sendStream_isSome hlink

end Send

/-! ## §6. Receiving. -/

theorem encoded_raw (pieces : List Bytes) : (Wire.http false).encoded pieces = pieces.flatten := by
  unfold Wire.encoded
  show pieces.flatMap (fun p => p) ++ [] = pieces.flatten
  rw [List.append_nil, List.flatMap_id']

theorem encoded_chunked (pieces : List Bytes) :
    (Wire.http true).encoded pieces = pieces.flatMap chunkText ++ kLastChunk ++ [] := by
  unfold Wire.encoded
  rw [List.append_nil]
  congr 2
  funext p
  exact List.append_nil _

theorem body_length (bs : Bytes) : (Announced.length bs.length).body bs = some (bs, []) := by
  show (if bs.length ≤ bs.length then some (bs.take bs.length, bs.drop bs.length) else none) = some (bs, [])
  rw [if_pos le_rfl, List.take_length, List.drop_length]

/-- **The chunks are read back.** -/
theorem body_chunked {pieces : List Bytes} (h : ∀ p ∈ pieces, p.length < 2 ^ 64) :
    Announced.chunked.body ((Wire.http true).encoded pieces) = some (pieces.flatten, []) := by
  obtain ⟨hout, hrest, hdone⟩ := ChunkedDecoder.feed_chunks h []
  unfold Announced.body
  rw [encoded_chunked]
  dsimp only
  rw [if_pos hdone, hout, hrest]

/-- **The STDIN records are read back.** -/
theorem stdin_encoded {pieces : List Bytes} (hne : ∀ p ∈ pieces, p ≠ []) :
    ∃ rs, Fcgi.readRecords (Wire.fcgi.encoded pieces) = some (rs, []) ∧
      Fcgi.stdinOf rs = some (pieces.flatten, []) := by
  let last : Fcgi.Message := ⟨.stdin_, [], Nat.zero_le _⟩
  let ms := pieces.flatMap (Fcgi.streamMessages .stdin_) ++ [last]
  have htext : Wire.fcgi.encoded pieces = ms.flatMap Fcgi.Message.text := by
    unfold Wire.encoded
    rw [List.flatMap_append, List.flatMap_assoc, List.flatMap_singleton]
    congr 1
    -- piece by piece
    refine List.flatMap_congr fun p hp => ?_
    show (if p = [] then [] else Fcgi.streamText .stdin_ 1 p false) ++ [] = _
    rw [if_neg (hne p hp), Fcgi.streamText_eq, List.append_nil]
    exact congrArg (List.flatMap Fcgi.Message.text) (List.append_nil _)
  refine ⟨ms.map Fcgi.Message.record, by rw [htext]; exact Fcgi.readRecords_append ms, ?_⟩
  have hrecords : ms.map Fcgi.Message.record =
      ((pieces.flatMap fun p => Fcgi.pieces p.length p).map fun c => ⟨Fcgi.RecordType.stdin_.code, 1, c⟩) ++
        [last.record] := by
    rw [List.map_append, List.map_flatMap, List.map_flatMap]
    congr 1
    refine List.flatMap_congr fun p _ => Fcgi.streamMessages_record .stdin_ p
  have hpieces : ∀ c ∈ pieces.flatMap fun p => Fcgi.pieces p.length p, c ≠ [] := by
    intro c hc
    obtain ⟨p, _, hc⟩ := List.mem_flatMap.mp hc
    exact ((Fcgi.pieces_spec p.length p le_rfl).2 c hc).1
  have hflat : ∀ ps : List Bytes, (ps.flatMap fun p => Fcgi.pieces p.length p).flatten = ps.flatten := by
    intro ps
    induction ps with
    | nil => rfl
    | cons p ps ih =>
      rw [List.flatMap_cons, List.flatten_append, List.flatten_cons, ih,
        (Fcgi.pieces_spec p.length p le_rfl).1]
  rw [hrecords, Fcgi.stdinOf_stream _ hpieces, hflat]
  show some (pieces.flatten ++ [], []) = some (pieces.flatten, [])
  rw [List.append_nil]

/-! ## §7. What the head announces. -/

theorem decimal_decimalText (n : Nat) : decimal (decimalText n) = n := by
  unfold decimalText
  split
  · next h => rw [h]; rfl
  unfold decimal
  rw [List.foldl_map]
  conv_rhs => rw [← ChunkedDecoder.foldl_digits 10 n]
  -- each digit is written as its character
  refine List.foldl_ext _ _ _ fun a v hv => ?_
  have hlt : v < 10 := Nat.digits_lt_base (by decide) (List.mem_reverse.mp hv)
  have : (UInt8.ofNat (0x30 + v)).toNat = 0x30 + v := by
    rw [UInt8.toNat_ofNat']
    omega
  rw [this]
  omega

/-- The field behind the framing. -/
def connectionField (upgrade keepConn : Bool) : List Field :=
  if upgrade then [(bytes "Connection", bytes "Upgrade")]
  else if keepConn then [] else [(bytes "Connection", bytes "close")]

theorem announced_connection (upgrade keepConn : Bool) : announced (connectionField upgrade keepConn) = .nothing := by
  cases upgrade <;> cases keepConn <;> decide

theorem announced_coding (fs : List Field) :
    announced ((bytes "Transfer-Encoding", bytes "chunked") :: fs) = .chunked := by
  unfold announced
  rw [List.any_cons, decide_eq_true rfl, Bool.true_or, if_pos rfl]

theorem announced_length (upgrade keepConn : Bool) (n : Nat) :
    announced ((bytes "Content-Length", decimalText n) :: connectionField upgrade keepConn) = .length n := by
  have hany : ((connectionField upgrade keepConn).any
      fun f => f = (bytes "Transfer-Encoding", bytes "chunked")) = false := by
    cases upgrade <;> cases keepConn <;> decide
  have hname : bytes "Content-Length" ≠ bytes "Transfer-Encoding" := by decide
  have hne : ((bytes "Content-Length", decimalText n) : Field) ≠ (bytes "Transfer-Encoding", bytes "chunked") :=
    fun h => hname (congrArg Prod.fst h)
  unfold announced
  rw [List.any_cons, hany, decide_eq_false hne, List.lookup_cons_self]
  show Announced.length (decimal (decimalText n)) = .length n
  rw [decimal_decimalText]

/-- What `encode_head` announces, from the body it was given. -/
theorem announced_framingFields (b : BodyInput) (upgrade keepConn : Bool) (head : Bytes) :
    announced ((b.outgoing upgrade keepConn).framingFields head) = if b.chunkedOut then .chunked
      else if (b.outgoing upgrade keepConn).haveBody || b.size > 0 || (bytes "POST").isPrefixOf head ||
        (bytes "PUT").isPrefixOf head || (bytes "PATCH").isPrefixOf head then .length b.size
      else .nothing := by
  unfold Outgoing.framingFields
  show announced ((if !b.stream.isSome || b.sizeKnown then
      if (b.outgoing upgrade keepConn).haveBody || b.size > 0 || (bytes "POST").isPrefixOf head ||
        (bytes "PUT").isPrefixOf head || (bytes "PATCH").isPrefixOf head then
        [(bytes "Content-Length", decimalText b.size)] else []
    else [(bytes "Transfer-Encoding", bytes "chunked")]) ++ connectionField upgrade keepConn) = _
  have hcoded : (!b.stream.isSome || b.sizeKnown) = !b.chunkedOut := by
    unfold BodyInput.chunkedOut
    cases b.stream.isSome <;> cases b.sizeKnown <;> rfl
  rw [hcoded]
  cases b.chunkedOut with
  | true => exact announced_coding _
  | false =>
    rw [if_pos (show (!false) = true from rfl), if_neg Bool.false_ne_true]
    split
    · exact announced_length upgrade keepConn b.size
    · exact announced_connection upgrade keepConn

/-! ## §8. When the body arrives. -/

section Arrival

variable {src : Option ClientBody} {requestBuffering : Bool} {requestBufferMax : Nat} {upgrade keepConn : Bool}
  {head : Bytes}

theorem http_of_holds {b : BodyInput} {body : Bytes} (hb : Holds body b) {link : Link} {disk : Disk} {bs : Bytes}
    (h : b.send (.http b.chunkedOut) link disk = some bs) :
    (announced ((b.outgoing upgrade keepConn).framingFields head)).body bs = some (body, []) ∧
      ∀ n, announced ((b.outgoing upgrade keepConn).framingFields head) = .length n → n = bs.length := by
  have hraw : b.chunkedOut = false := by
    unfold BodyInput.chunkedOut
    rw [hb.stream]
    rfl
  rw [announced_framingFields, hraw, if_neg Bool.false_ne_true]
  rw [hraw] at h
  obtain ⟨pieces, rfl, hflat, _⟩ := send_collected hb h
  rw [encoded_raw, hflat]
  split
  · refine ⟨?_, ?_⟩
    · rw [hb.size]
      exact body_length body
    · rintro n ⟨⟩
      exact hb.size
  · next hnone =>
    -- nothing was announced: there is no body
    refine ⟨?_, nofun⟩
    have hsize : b.size = 0 := by
      by_contra hne
      refine hnone ?_
      rw [decide_eq_true (Nat.pos_of_ne_zero hne)]
      simp
    rw [hb.size] at hsize
    rw [List.eq_nil_of_length_eq_zero hsize]
    rfl

/-- A collected body arrives. -/
theorem arrives_of_holds {b : BodyInput} {body : Bytes} (hb : Holds body b) (link : Link) (disk : Disk) :
    Arrives body b upgrade keepConn head link disk where
  http _ h := http_of_holds hb h
  fcgi bs h := by
    obtain ⟨pieces, rfl, hflat, hne⟩ := send_collected hb h
    rw [← hflat]
    exact stdin_encoded hne

theorem chunkedOut_input (c : ClientBody) : c.input.chunkedOut = !c.declared.isSome := Bool.true_and _

theorem announced_input (c : ClientBody) : announced ((c.input.outgoing upgrade keepConn).framingFields head) =
    if c.declared.isSome then .length (c.declared.getD 0) else .chunked := by
  rw [announced_framingFields, chunkedOut_input]
  cases c.declared.isSome with
  | true =>
    -- a body that is streamed counts as one
    show (if (!true) = true then _ else if true = true then Announced.length c.input.size else _) = _
    rw [if_neg (show ¬ (!true) = true by decide), if_pos rfl, if_pos rfl]
    rfl
  | false => exact if_pos rfl

/-- A body that is streamed behind no length arrives. -/
theorem http_of_undeclared {c : ClientBody} (hdecl : c.declared = none) {link : Link} {disk : Disk} {bs : Bytes}
    (h : c.input.send (.http c.input.chunkedOut) link disk = some bs) :
    (announced ((c.input.outgoing upgrade keepConn).framingFields head)).body bs = some (c.bytes, []) ∧
      ∀ n, announced ((c.input.outgoing upgrade keepConn).framingFields head) = .length n → n = bs.length := by
  obtain ⟨_, rfl⟩ := send_streamed h
  rw [announced_input, chunkedOut_input, hdecl]
  refine ⟨?_, nofun⟩
  have hbytes : (c.reads.map Read.bytes).flatten = c.bytes := List.flatMap_def.symm
  rw [← hbytes]
  refine body_chunked fun p hp => ?_
  obtain ⟨r, _, rfl⟩ := List.mem_map.mp hp
  have := r.fits
  unfold kBodyChunk at this
  omega

/-- A body that is streamed behind a length arrives if it is so long, and only then. -/
theorem http_of_declared {c : ClientBody} {n : Nat} (hdecl : c.declared = some n) {link : Link} {disk : Disk}
    {bs : Bytes} (h : c.input.send (.http c.input.chunkedOut) link disk = some bs) :
    ((announced ((c.input.outgoing upgrade keepConn).framingFields head)).body bs = some (c.bytes, []) ∧
      ∀ n, announced ((c.input.outgoing upgrade keepConn).framingFields head) = .length n → n = bs.length) ↔
      n = c.bytes.length := by
  obtain ⟨_, rfl⟩ := send_streamed h
  have hbytes : (c.reads.map Read.bytes).flatten = c.bytes := List.flatMap_def.symm
  rw [announced_input, chunkedOut_input, hdecl]
  show ((Announced.length n).body ((Wire.http false).encoded (c.reads.map Read.bytes)) = _ ∧
    ∀ m, Announced.length n = .length m → m = ((Wire.http false).encoded (c.reads.map Read.bytes)).length) ↔ _
  rw [encoded_raw, hbytes]
  constructor
  · rintro ⟨_, hlen⟩
    exact hlen n rfl
  · rintro rfl
    refine ⟨body_length c.bytes, ?_⟩
    rintro m ⟨⟩
    rfl

/-- A streamed body arrives if it is as long as it was declared. -/
theorem arrives_of_declared {c : ClientBody} {link : Link} {disk : Disk}
    (hlen : c.fails = false → ∀ n, c.declared = some n → n = c.bytes.length) :
    Arrives c.bytes c.input upgrade keepConn head link disk where
  http bs h := by
    cases hdecl : c.declared with
    | none => exact http_of_undeclared hdecl h
    | some n => exact (http_of_declared hdecl h).mpr (hlen (send_streamed h).1 n hdecl)
  fcgi bs h := by
    obtain ⟨_, rfl⟩ := send_streamed h
    have hbytes : (c.reads.map Read.bytes).flatten = c.bytes := List.flatMap_def.symm
    rw [← hbytes]
    refine stdin_encoded fun p hp => ?_
    obtain ⟨r, _, rfl⟩ := List.mem_map.mp hp
    exact r.ne

end Arrival

/-- A disk that hands out all it can. -/
def goodDisk : Disk where
  readAt file pos := some (min kBodyChunk (file.length - pos))
  fits := by
    intro file pos n h
    cases h
    exact ⟨Nat.min_le_left .., Nat.min_le_right ..⟩
  ends := by
    intro file pos h
    have h := Option.some.inj h
    unfold kBodyChunk at h
    omega

theorem holds_nil : Holds [] {} := ⟨rfl, rfl, rfl, rfl⟩

/-- **Every body reaches the application exactly, in every mode**, but for a streamed one that is
    not as long as its source declared. -/
theorem reaches_iff (requestBuffering : Bool) (requestBufferMax : Nat) (src : Option ClientBody)
    (upgrade keepConn : Bool) (head : Bytes) :
    Reaches requestBuffering requestBufferMax src upgrade keepConn head ↔ Declared requestBuffering src := by
  constructor
  · rintro h c rfl rfl hfails n hdecl
    -- nothing gets in the way of this one
    have hsome : (c.input.send (.http c.input.chunkedOut) (fun _ => true) goodDisk).isSome = true := by
      refine send_isSome (fun _ => rfl) (fun _ _ => rfl) ?_
      rintro c' ⟨⟩
      exact hfails
    obtain ⟨bs, hbs⟩ := Option.isSome_iff_exists.mp hsome
    have harrives := (h c.input rfl (fun _ => true) goodDisk).1
    exact (http_of_declared hdecl hbs).mp (harrives.http bs hbs)
  · intro hdecl b hb link disk
    cases src with
    | none =>
      cases hb
      exact ⟨arrives_of_holds holds_nil link disk, fun hu w => send_isSome hu.1 hu.2.1 nofun⟩
    | some c =>
      cases requestBuffering with
      | true =>
        have hheld : Holds c.bytes b := collect_body holds_nil hb
        refine ⟨arrives_of_holds hheld link disk, fun hu w => send_isSome hu.1 hu.2.1 ?_⟩
        rw [hheld.stream]
        nofun
      | false =>
        cases hb
        refine ⟨arrives_of_declared (hdecl c rfl rfl), fun hu w => send_isSome hu.1 hu.2.1 ?_⟩
        rintro c' ⟨⟩
        exact hu.2.2 c rfl

/-- Five bytes are declared and three are sent, with the end of the stream behind them. -/
def shortBody : ClientBody := ⟨some 5, [⟨bytes "abc", true, by decide, by decide⟩], false⟩

/-- The origin is told of five bytes and is sent three, and that is a success. -/
theorem short_body_announced : ¬ Reaches false 0 (some shortBody) false true (bytes "POST / HTTP/1.1\r\n") := by
  intro h
  obtain ⟨_, hlen⟩ := (h shortBody.input rfl (fun _ => true) goodDisk).1.http (bytes "abc") (by decide)
  cases hlen 5 (by decide)

end Agensio.Upstream
