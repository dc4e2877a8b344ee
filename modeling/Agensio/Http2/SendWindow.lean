/-
  Agensio.Http2.SendWindow — flow control of what the server sends.

  Model of `on_settings`, `on_window_update`, `open_stream`, `respond`,
  `close_stream` and `release` of `http2/connection.hpp` and of the turns
  a cycle gives its streams (`Emit`), as far as the send windows go.  In
  which order the writer takes the streams is left open: any stream of the
  table may have its turn at any time.

  Frames of the client are handled until a connection error; what the
  server had in hand may still go out behind it.  `exhausted` is whether a
  glitch of the frame uses the budget up.

  HISTORY VARIABLES: `credits` (the WINDOW_UPDATE increments accepted, 0
  for the connection); the DATA frames are those on the wire.

  An empty DATA frame ends a stream whatever its window is, also one that
  SETTINGS made negative.  SETTINGS that overflow one stream's window leave
  the streams behind it as they were: the connection is closed.

  Main results:
    * `send_windows_exact` — every run;
    * `empty_frame_beyond_window` — the two cases above.
-/
import Mathlib.Data.List.Nodup
import Agensio.Lib.Runs
import Agensio.Http2.Emit

namespace Agensio.Http2

open Agensio.Lib

/-! ## §1. The model. -/

def kMaxWindow : Nat := 0x7fffffff

/-- `static_cast<std::int32_t>`. -/
@[irreducible] def toInt32 (w : Int) : Int := w.bmod (2 ^ 32)

/-- The sending side: windows, limits and what went out. -/
structure Sending where
  /-- The active streams of the pool. -/
  streams : List OutStream := []
  cycle : Cycle := {}
  /-- `peer_.initial_window_size`. -/
  initialWindow : Nat := 65535
  lastStreamId : Nat := 0
  /-- `closing_after_write_`, with the error. -/
  error : Option ErrorCode := none
  -- history
  credits : List (Nat × Nat) := []
  deriving DecidableEq

namespace Sending

def find (c : Sending) (id : Nat) : Option OutStream := c.streams.find? (·.id = id)

def control (c : Sending) (f : Frame) : Sending :=
  { c with cycle := { c.cycle with wire := c.cycle.wire ++ [f] } }

def update (c : Sending) (id : Nat) (f : OutStream → OutStream) : Sending :=
  { c with streams := c.streams.map fun s => if s.id = id then f s else s }

def connectionError (c : Sending) (code : ErrorCode) : Sending :=
  if c.error.isSome then c else { c with error := some code }.control (.goaway code)

def glitch (c : Sending) (exhausted : Bool) : Sending :=
  if exhausted then c.connectionError .enhanceYourCalm else c

/-- `close_stream`; the table keeps the stream until it is released. -/
def closeStream (c : Sending) (id : Nat) : Sending := c.update id ({ · with closed := true })

def streamError (c : Sending) (id : Nat) (code : ErrorCode) (exhausted : Bool) : Sending :=
  ((c.control (.rstStream id code)).closeStream id).glitch exhausted

/-- `open_stream`, for a stream that is taken. -/
def openStream (c : Sending) (id : Nat) : Sending :=
  { c with streams := c.streams ++ [{ id := id, sendWindow := toInt32 c.initialWindow }], lastStreamId := id }

/-- `StreamPool::release`: the last stream takes the slot. -/
def release (c : Sending) (id : Nat) : Sending :=
  match c.streams.findIdx? (·.id = id), c.streams.getLast? with
  | some i, some last =>
    { c with
      streams := if i + 1 = c.streams.length then c.streams.dropLast else c.streams.dropLast.set i last }
  | _, _ => c

/-- The windows move by the difference, up to a stream that overflows. -/
def adjust (delta : Int) : List OutStream → List OutStream × Bool
  | [] => ([], false)
  | s :: rest =>
    if s.sendWindow + delta > kMaxWindow then (s :: rest, true)
    else
      ({ s with sendWindow := toInt32 (s.sendWindow + delta) } :: (adjust delta rest).1, (adjust delta rest).2)

/-- `PeerSettings::apply`. -/
def applySetting (id value : Nat) : ErrorCode :=
  if id = 2 then if value > 1 then .protocolError else .noError
  else if id = 4 then if value > kMaxWindow then .flowControlError else .noError
  else if id = 5 then if value < 16384 ∨ value > 2 ^ 24 - 1 then .protocolError else .noError
  else if id = 9 then if value > 1 then .protocolError else .noError
  else .noError

/-- One pair of a SETTINGS frame, and whether the next is looked at. -/
def onSetting (c : Sending) (id value : Nat) : Sending × Bool :=
  if applySetting id value = .noError then
    if id = 4 then
      let r := adjust (value - c.initialWindow) c.streams
      let c' := { c with initialWindow := value, streams := r.1 }
      if r.2 then (c'.connectionError .flowControlError, false) else (c', true)
    else if id = 5 then ({ c with cycle := { c.cycle with maxFrame := value } }, true)
    else (c, true)
  else (c.connectionError (applySetting id value), false)

def settingsLoop (c : Sending) : List (Nat × Nat) → Sending × Bool
  | [] => (c, true)
  | (id, value) :: rest =>
    match c.onSetting id value with
    | (c', true) => settingsLoop c' rest
    | (c', false) => (c', false)

def onSettings (c : Sending) (pairs : List (Nat × Nat)) (exhausted : Bool) : Sending :=
  match (c.glitch exhausted).settingsLoop pairs with
  | (c', true) => c'.control .settingsAck
  | (c', false) => c'

/-- `on_window_update`, with the four bytes of its payload. -/
def onWindowUpdate (c : Sending) (id payload : Nat) (exhausted : Bool) : Sending :=
  let inc : Nat := payload % 2 ^ 31
  if id = 0 then
    if inc = 0 then c.connectionError .protocolError
    else if c.cycle.connWindow + inc > kMaxWindow then c.connectionError .flowControlError
    else
      let c := { c with
        cycle := { c.cycle with connWindow := toInt32 (c.cycle.connWindow + inc) }
        credits := c.credits ++ [(0, inc)] }
      if inc < 1024 then c.glitch exhausted else c
  else
    match c.find id with
    | none =>
      if id > c.lastStreamId then c.connectionError .protocolError
      else if inc = 0 then (c.control (.rstStream id .protocolError)).glitch exhausted
      else c.glitch exhausted
    | some s =>
      if inc = 0 then c.streamError id .protocolError exhausted
      else if s.sendWindow + inc > kMaxWindow then c.streamError id .flowControlError exhausted
      else
        let c := { c.update id (fun s => { s with sendWindow := toInt32 (s.sendWindow + inc) }) with
          credits := c.credits ++ [(id, inc)] }
        if inc < 1024 then c.glitch exhausted else c

/-- The writer's turn for a stream; a file that cannot be read fails it (`on_stream_failed`). -/
def emits (k : Transport) (reads : FileReads) (c : Sending) (s : OutStream) : Sending :=
  let r := emit k reads c.cycle s
  let c := { c with cycle := r.2.1 }.update s.id (fun _ => r.2.2)
  if r.1 = .failed then (c.control (.rstStream s.id .internalError)).closeStream s.id else c

/-- `respond`: the answer goes out at once when it may and can, else it waits for the writer. -/
def respond (c : Sending) (s : OutStream) (now : Bool) : Sending :=
  if s.closed then c
  else
    match (if now && !s.pulling then emitNow c.cycle s else none) with
    | some r => ({ c with cycle := r.1 }.update s.id (fun _ => r.2)).closeStream s.id
    | none => c.update s.id (fun _ => { s with ready := true })

/-- A read of the source completes: with `n` bytes, or with an error (`none`). -/
def pulled (c : Sending) (s : OutStream) (n : Option Nat) : Sending :=
  let c := { c with cycle := { c.cycle with pulls := c.cycle.pulls - 1 } }
  let failed := (c.control (.rstStream s.id .internalError)).closeStream s.id
  let s' := { s with pulling := false }
  if s.closed then c.update s.id (fun _ => s')
  else
    match n with
    | none => failed
    | some 0 =>
      if s.sourceRemaining.any (0 < ·) then failed
      else c.update s.id (fun _ => { s' with sourceDone := true })
    | some n =>
      c.update s.id (fun _ =>
        { s' with chunkLen := n, chunkPos := 0, sourceRemaining := s.sourceRemaining.map (· - n) })

inductive SendLabel where
  | opens (id : Nat)
  /-- A stream that is refused, or whose block is only decoded. -/
  | refuses (id : Nat)
  | settings (pairs : List (Nat × Nat)) (exhausted : Bool)
  | windowUpdate (id payload : Nat) (exhausted : Bool)
  | responds (id : Nat) (head : Bool) (body : Body) (headBlock : Nat) (now : Bool)
  | emits (id : Nat) (reads : FileReads)
  | pulled (id : Nat) (n : Option Nat)
  /-- The write of the cycle completed. -/
  | written
  /-- Reset by the client, complete, timed out, in error: for whatever reason. -/
  | closes (id : Nat)
  | releases (id : Nat)
  | errs (code : ErrorCode)

/-- What one event does; frames of the client only while there is no connection error. -/
def step (k : Transport) (c : Sending) : SendLabel → Option Sending
  | .opens id => if c.error = none ∧ id % 2 = 1 ∧ c.lastStreamId < id then some (c.openStream id) else none
  | .refuses id =>
    if c.error = none ∧ id % 2 = 1 ∧ c.lastStreamId < id then some { c with lastStreamId := id } else none
  | .settings pairs exhausted => if c.error = none then some (c.onSettings pairs exhausted) else none
  | .windowUpdate id payload exhausted =>
    if c.error = none then some (c.onWindowUpdate id payload exhausted) else none
  | .responds id head body headBlock now =>
    (c.find id).map fun s => c.respond { s with head := head, body := body, headBlock := headBlock } now
  | .emits id reads => (c.find id).map (c.emits k reads)
  | .pulled id n => (c.find id).bind fun s => if s.pulling then some (c.pulled s n) else none
  | .written => some { c with cycle := { c.cycle with external := 0 } }
  | .closes id => some (c.closeStream id)
  | .releases id => (c.find id).bind fun s => if s.closed && !s.pulling then some (c.release id) else none
  | .errs code => some (c.connectionError code)

/-! ## §2. The windows and the history. -/

/-- The increments accepted for a stream, or for the connection. -/
def credited (c : Sending) (id : Nat) : Nat := ((c.credits.filter (·.1 = id)).map (·.2)).sum

/-- The DATA payload written on a stream. -/
def sentOn (c : Sending) (id : Nat) : Nat := payloadOf ((datas c.cycle.wire).filter (·.id = id))

def sentAll (c : Sending) : Nat := payloadOf (datas c.cycle.wire)

/-- A 32-bit signed integer. -/
def InRange (w : Int) : Prop := -2 ^ 31 ≤ w ∧ w < 2 ^ 31

/-- The windows are what the peer gave and what was sent of it, no frame with payload was beyond
    one, and no window left its range. -/
structure Exact (c : Sending) : Prop where
  stream : c.error = none → ∀ s ∈ c.streams,
    s.sendWindow = c.initialWindow + c.credited s.id - c.sentOn s.id
  conn : c.cycle.connWindow = 65535 + c.credited 0 - c.sentAll
  fits : ∀ f ∈ datas c.cycle.wire, f.Fits
  range : InRange c.cycle.connWindow ∧ ∀ s ∈ c.streams, InRange s.sendWindow

/-- What would leave the range of a window ends in the error RFC 9113 asks for. -/
structure Refuses (k : Transport) (c : Sending) : Prop where
  conn : ∀ payload exhausted c', c.step k (.windowUpdate 0 payload exhausted) = some c' →
    kMaxWindow < c.cycle.connWindow + (payload % 2 ^ 31 : Nat) → c'.error = some .flowControlError
  stream : ∀ s ∈ c.streams, ∀ payload exhausted c', c.step k (.windowUpdate s.id payload exhausted) = some c' →
    kMaxWindow < s.sendWindow + (payload % 2 ^ 31 : Nat) →
    .rstStream s.id .flowControlError ∈ c'.cycle.wire ∧ ∀ t ∈ c'.streams, t.id = s.id → t.closed = true
  settings : ∀ before value after c₁ c', c.settingsLoop before = (c₁, true) →
    kMaxWindow < value ∨ (∃ s ∈ c₁.streams, kMaxWindow < s.sendWindow + ((value : Int) - c₁.initialWindow)) →
    c.step k (.settings (before ++ (4, value) :: after) false) = some c' →
    c'.error = some .flowControlError

/-! ## §3. The invariant. -/

/-- Each stream's window is some initial window it was given, with its credits, less what was sent:
    the current one while there is no connection error. -/
structure Inv (c : Sending) : Prop where
  ids : (c.streams.map (·.id)).Nodup
  known : ∀ s ∈ c.streams, 0 < s.id ∧ s.id ≤ c.lastStreamId
  wireIds : ∀ f ∈ datas c.cycle.wire, f.id ≤ c.lastStreamId
  creditIds : ∀ p ∈ c.credits, p.1 ≤ c.lastStreamId
  base : ∀ s ∈ c.streams, ∃ b : Nat, b ≤ kMaxWindow ∧
    s.sendWindow = b + c.credited s.id - c.sentOn s.id ∧ (c.error = none → b = c.initialWindow)
  spent : ∀ s ∈ c.streams, c.sentOn s.id ≤ kMaxWindow + c.credited s.id
  upper : ∀ s ∈ c.streams, s.sendWindow ≤ kMaxWindow
  initial : c.initialWindow ≤ kMaxWindow
  conn : c.cycle.connWindow = 65535 + c.credited 0 - c.sentAll
  connRange : 0 ≤ c.cycle.connWindow ∧ c.cycle.connWindow ≤ kMaxWindow
  fits : ∀ f ∈ datas c.cycle.wire, f.Fits

variable {c : Sending} {s s' : OutStream} {id : Nat} {f : OutStream → OutStream}

theorem Inv.lower (h : c.Inv) (hs : s ∈ c.streams) : -(kMaxWindow : Int) ≤ s.sendWindow := by
  obtain ⟨b, -, hw, -⟩ := h.base s hs
  have hspent := h.spent s hs
  omega

/-- A window between the two bounds is not changed by the cast. -/
theorem toInt32_eq {w : Int} (hlow : -(kMaxWindow : Int) ≤ w) (hup : w ≤ kMaxWindow) : toInt32 w = w := by
  unfold toInt32 kMaxWindow at *
  rw [Int.bmod_eq_iff (by decide)]
  omega

theorem Inv.exact (h : c.Inv) : c.Exact := by
  refine ⟨fun he s hs => ?_, h.conn, h.fits, ?_, fun s hs => ?_⟩
  · obtain ⟨b, -, hw, hb⟩ := h.base s hs
    rw [hw, hb he]
  · have := h.connRange
    unfold InRange kMaxWindow at *
    omega
  · have hup := h.upper s hs
    have hlow := h.lower hs
    unfold InRange kMaxWindow at *
    omega

theorem find_mem (h : c.find id = some s) : s ∈ c.streams ∧ s.id = id := by
  refine ⟨List.mem_of_find?_eq_some h, ?_⟩
  simpa using List.find?_some h

/-- A stream of the table is found by its id. -/
theorem find_of_mem (h : (c.streams.map (·.id)).Nodup) (hs : s ∈ c.streams) : c.find s.id = some s := by
  cases hf : c.find s.id with
  | none =>
    have := List.find?_eq_none.mp hf s hs
    simp at this
  | some t =>
    obtain ⟨ht, hid⟩ := find_mem hf
    rw [List.inj_on_of_nodup_map h ht hs hid]

/-- Steps that touch neither windows nor history. -/
theorem Inv.of_windows {c' : Sending} (h : c.Inv)
    (hsub : ∀ s' ∈ c'.streams, ∃ s ∈ c.streams, s'.id = s.id ∧ s'.sendWindow = s.sendWindow)
    (hids : (c'.streams.map (·.id)).Nodup) (hwire : datas c'.cycle.wire = datas c.cycle.wire)
    (hcredits : c'.credits = c.credits) (hinit : c'.initialWindow = c.initialWindow)
    (hlast : c.lastStreamId ≤ c'.lastStreamId) (hconn : c'.cycle.connWindow = c.cycle.connWindow)
    (herr : c'.error = none → c.error = none) : c'.Inv := by
  have hcredited : ∀ id, c'.credited id = c.credited id := by
    intro id
    unfold credited
    rw [hcredits]
  have hsent : ∀ id, c'.sentOn id = c.sentOn id := by
    intro id
    unfold sentOn
    rw [hwire]
  refine ⟨hids, ?_, ?_, ?_, ?_, ?_, ?_, by rw [hinit]; exact h.initial, ?_, by rw [hconn]; exact h.connRange,
    by rw [hwire]; exact h.fits⟩
  · intro s' hs'
    obtain ⟨s, hs, hid, -⟩ := hsub s' hs'
    have := h.known s hs
    rw [hid]
    omega
  · intro f hf
    rw [hwire] at hf
    exact Nat.le_trans (h.wireIds f hf) hlast
  · intro p hp
    rw [hcredits] at hp
    exact Nat.le_trans (h.creditIds p hp) hlast
  · intro s' hs'
    obtain ⟨s, hs, hid, hw⟩ := hsub s' hs'
    obtain ⟨b, hb, hbase, hcur⟩ := h.base s hs
    refine ⟨b, hb, ?_, fun he => by rw [hinit]; exact hcur (herr he)⟩
    rw [hw, hid, hcredited, hsent]
    exact hbase
  · intro s' hs'
    obtain ⟨s, hs, hid, -⟩ := hsub s' hs'
    rw [hid, hcredited, hsent]
    exact h.spent s hs
  · intro s' hs'
    obtain ⟨s, hs, -, hw⟩ := hsub s' hs'
    rw [hw]
    exact h.upper s hs
  · unfold sentAll
    rw [hconn, hwire, hcredited]
    exact h.conn

theorem mem_update (h : s' ∈ (c.update id f).streams) :
    ∃ s ∈ c.streams, s' = if s.id = id then f s else s := by
  obtain ⟨s, hs, rfl⟩ := List.mem_map.mp h
  exact ⟨s, hs, rfl⟩

/-- An update that keeps the ids keeps the table's. -/
theorem update_ids (hf : ∀ s ∈ c.streams, s.id = id → (f s).id = s.id) :
    (c.update id f).streams.map (·.id) = c.streams.map (·.id) := by
  unfold update
  rw [List.map_map]
  apply List.map_congr_left
  intro s hs
  show (if s.id = id then f s else s).id = s.id
  split
  · exact hf s hs ‹_›
  · rfl

/-- An update of what is no window. -/
theorem Inv.update (h : c.Inv)
    (hf : ∀ s ∈ c.streams, s.id = id → (f s).id = s.id ∧ (f s).sendWindow = s.sendWindow) :
    (c.update id f).Inv := by
  apply h.of_windows
  · intro s' hs'
    obtain ⟨s, hs, rfl⟩ := mem_update hs'
    split
    · obtain ⟨hid, hw⟩ := hf s hs ‹_›
      exact ⟨s, hs, hid, hw⟩
    · exact ⟨s, hs, rfl, rfl⟩
  · rw [update_ids fun s hs hid => (hf s hs hid).1]
    exact h.ids
  · rfl
  · rfl
  · rfl
  · exact Nat.le_refl _
  · rfl
  · exact fun he => he

/-- A frame that carries no payload. -/
theorem Inv.control (h : c.Inv) {f : Frame} (hf : datas [f] = []) : (c.control f).Inv := by
  apply h.of_windows
  · exact fun s hs => ⟨s, hs, rfl, rfl⟩
  · exact h.ids
  · show datas (c.cycle.wire ++ [f]) = datas c.cycle.wire
    rw [datas_append, hf, List.append_nil]
  · rfl
  · rfl
  · exact Nat.le_refl _
  · rfl
  · exact id

theorem Inv.connectionError (h : c.Inv) (code : ErrorCode) : (c.connectionError code).Inv := by
  unfold Sending.connectionError
  split
  · exact h
  have herr : { c with error := some code }.Inv := by
    apply h.of_windows
    · exact fun s hs => ⟨s, hs, rfl, rfl⟩
    · exact h.ids
    · rfl
    · rfl
    · rfl
    · exact Nat.le_refl _
    · rfl
    · simp
  exact herr.control rfl

theorem Inv.glitch (h : c.Inv) (exhausted : Bool) : (c.glitch exhausted).Inv := by
  unfold Sending.glitch
  split
  · exact h.connectionError _
  · exact h

theorem Inv.closeStream (h : c.Inv) (id : Nat) : (c.closeStream id).Inv :=
  h.update fun _ _ _ => ⟨rfl, rfl⟩

theorem Inv.streamError (h : c.Inv) (id : Nat) (code : ErrorCode) (exhausted : Bool) :
    (c.streamError id code exhausted).Inv :=
  ((h.control rfl).closeStream id).glitch exhausted

/-! ## §4. Frames of the client. -/

theorem sum_filter_above {α : Type} (l : List α) (key value : α → Nat) {bound : Nat}
    (h : ∀ x ∈ l, key x ≤ bound) (hid : bound < id) : ((l.filter (key · = id)).map value).sum = 0 := by
  have hnil : l.filter (key · = id) = [] := by
    rw [List.filter_eq_nil_iff]
    intro x hx
    have := h x hx
    simp only [decide_eq_true_eq]
    omega
  rw [hnil]
  rfl

/-- A stream is opened: nothing was sent or credited on its id. -/
theorem Inv.openStream (h : c.Inv) (hid : c.lastStreamId < id) : (c.openStream id).Inv := by
  have hcredit : c.credited id = 0 := sum_filter_above c.credits (·.1) (·.2) h.creditIds hid
  have hsent : c.sentOn id = 0 :=
    sum_filter_above (datas c.cycle.wire) DataFrame.id DataFrame.length h.wireIds hid
  have hcast : toInt32 c.initialWindow = c.initialWindow := by
    have := h.initial
    exact toInt32_eq (by omega) (by omega)
  -- what is said of the old streams, and of the new one
  have hall : ∀ P : OutStream → Prop, (∀ s ∈ c.streams, P s) →
      P { id := id, sendWindow := toInt32 c.initialWindow } → ∀ s ∈ (c.openStream id).streams, P s := by
    intro P hold hnew s hs
    rcases List.mem_append.mp hs with hs | hs
    · exact hold s hs
    rw [List.mem_singleton] at hs
    rw [hs]
    exact hnew
  refine ⟨?_, ?_, ?_, ?_, ?_, ?_, ?_, h.initial, h.conn, h.connRange, h.fits⟩
  · have hmap : (c.openStream id).streams.map (·.id) = c.streams.map (·.id) ++ [id] := by
      simp [Sending.openStream]
    rw [hmap, List.nodup_append]
    refine ⟨h.ids, by simp, ?_⟩
    intro a ha b hb
    obtain ⟨s, hs, rfl⟩ := List.mem_map.mp ha
    have := h.known s hs
    rw [List.mem_singleton] at hb
    omega
  · apply hall
    · intro s hs
      have := h.known s hs
      show 0 < s.id ∧ s.id ≤ id
      omega
    · show 0 < id ∧ id ≤ id
      omega
  · intro f hf
    have := h.wireIds f hf
    show f.id ≤ id
    omega
  · intro p hp
    have := h.creditIds p hp
    show p.1 ≤ id
    omega
  · apply hall
    · exact h.base
    · refine ⟨c.initialWindow, h.initial, ?_, fun _ => rfl⟩
      show toInt32 c.initialWindow = (c.initialWindow : Int) + (c.credited id : Nat) - (c.sentOn id : Nat)
      rw [hcast, hcredit, hsent]
      simp
  · apply hall
    · exact h.spent
    · show c.sentOn id ≤ kMaxWindow + c.credited id
      omega
  · apply hall
    · exact h.upper
    · show toInt32 c.initialWindow ≤ kMaxWindow
      have := h.initial
      omega

theorem Inv.release (h : c.Inv) (id : Nat) : (c.release id).Inv := by
  unfold Sending.release
  split
  · rename_i i last _ hlast
    have hsplit : c.streams = c.streams.dropLast ++ [last] := (List.dropLast_append_getLast? last hlast).symm
    have hids := h.ids
    rw [hsplit, List.map_append, List.nodup_append] at hids
    obtain ⟨hnodup, -, hnew⟩ := hids
    have hfresh : last.id ∉ c.streams.dropLast.map (·.id) := by
      intro hm
      exact hnew _ hm last.id (by simp) rfl
    apply h.of_windows
    · intro s hs
      refine ⟨s, ?_, rfl, rfl⟩
      split at hs
      · exact List.dropLast_subset _ hs
      rcases List.mem_or_eq_of_mem_set hs with hs | rfl
      · exact List.dropLast_subset _ hs
      · exact List.mem_of_getLast? hlast
    · split
      · exact hnodup
      rw [List.map_set]
      exact hnodup.set hfresh
    · rfl
    · rfl
    · rfl
    · exact Nat.le_refl _
    · rfl
    · exact fun he => he
  · exact h

/-- The walk over the streams: an overflow leaves the rest, and is reported. -/
theorem adjust_spec (delta : Int) (l : List OutStream) : ((adjust delta l).1.map (·.id) = l.map (·.id)) ∧
      (∀ s' ∈ (adjust delta l).1, ∃ s ∈ l, s'.id = s.id ∧
        (s'.sendWindow = s.sendWindow ∧ (adjust delta l).2 = true ∨
          s'.sendWindow = toInt32 (s.sendWindow + delta) ∧ s.sendWindow + delta ≤ kMaxWindow)) ∧
      ((∃ s ∈ l, kMaxWindow < s.sendWindow + delta) → (adjust delta l).2 = true) := by
  induction l with
  | nil => exact ⟨rfl, by simp [adjust], by simp⟩
  | cons s rest ih =>
    obtain ⟨hids, hmem, hover⟩ := ih
    unfold adjust
    split
    case isTrue ho =>
      exact ⟨rfl, fun t ht => ⟨t, ht, rfl, .inl ⟨rfl, rfl⟩⟩, fun _ => rfl⟩
    case isFalse ho =>
      refine ⟨by rw [List.map_cons, List.map_cons, hids], ?_, ?_⟩
      · intro t ht
        rcases List.mem_cons.mp ht with rfl | ht
        · exact ⟨s, .head _, rfl, .inr ⟨rfl, by omega⟩⟩
        obtain ⟨u, hu, hrest⟩ := hmem t ht
        exact ⟨u, .tail _ hu, hrest⟩
      · rintro ⟨t, ht, hlt⟩
        rcases List.mem_cons.mp ht with rfl | ht
        · omega
        · exact hover ⟨t, ht, hlt⟩

/-- Every stream was given the current initial window. -/
def Level (c : Sending) : Prop :=
  ∀ s ∈ c.streams, s.sendWindow = c.initialWindow + c.credited s.id - c.sentOn s.id

theorem Inv.level (h : c.Inv) (he : c.error = none) : c.Level := h.exact.stream he

/-- A change of the initial window, with the overflow it may end in. -/
theorem Inv.adjusts (h : c.Inv) (hlevel : c.Level) {value : Nat} (hv : value ≤ kMaxWindow)
    {err : Option ErrorCode}
    (herr : err = none → (adjust ((value : Int) - c.initialWindow) c.streams).2 = false) :
    { c with
      initialWindow := value, error := err
      streams := (adjust ((value : Int) - c.initialWindow) c.streams).1 }.Inv := by
  obtain ⟨hids, hmem, -⟩ := adjust_spec ((value : Int) - c.initialWindow) c.streams
  -- each stream keeps its window, or has it moved to the new base
  have hbase : ∀ s' ∈ (adjust ((value : Int) - c.initialWindow) c.streams).1, ∃ s ∈ c.streams, s'.id = s.id ∧
      s'.sendWindow ≤ kMaxWindow ∧ ∃ b : Nat, b ≤ kMaxWindow ∧
        s'.sendWindow = b + c.credited s.id - c.sentOn s.id ∧ (err = none → b = value) := by
    intro s' hs'
    obtain ⟨s, hs, hid, hcase⟩ := hmem s' hs'
    have hw := hlevel s hs
    have hspent := h.spent s hs
    rcases hcase with ⟨hsame, hover⟩ | ⟨hmoved, hle⟩
    · refine ⟨s, hs, hid, by rw [hsame]; exact h.upper s hs, c.initialWindow, h.initial,
        by rw [hsame]; exact hw, fun he => ?_⟩
      rw [herr he] at hover
      cases hover
    · have hcast : toInt32 (s.sendWindow + ((value : Int) - c.initialWindow)) =
          s.sendWindow + ((value : Int) - c.initialWindow) := toInt32_eq (by omega) hle
      refine ⟨s, hs, hid, by rw [hmoved, hcast]; exact hle, value, hv, ?_, fun _ => rfl⟩
      rw [hmoved, hcast, hw]
      omega
  refine ⟨?_, ?_, h.wireIds, h.creditIds, ?_, ?_, ?_, hv, h.conn, h.connRange, h.fits⟩
  · rw [hids]
    exact h.ids
  · intro s' hs'
    obtain ⟨s, hs, hid, -⟩ := hbase s' hs'
    rw [hid]
    exact h.known s hs
  · intro s' hs'
    obtain ⟨s, -, hid, -, b, hb, hw, hcur⟩ := hbase s' hs'
    refine ⟨b, hb, ?_, hcur⟩
    rw [hid]
    exact hw
  · intro s' hs'
    obtain ⟨s, hs, hid, -⟩ := hbase s' hs'
    rw [hid]
    exact h.spent s hs
  · intro s' hs'
    obtain ⟨-, -, -, hup, -⟩ := hbase s' hs'
    exact hup

/-- The two values of a SETTINGS pair that matter here. -/
theorem applySetting_initial (value : Nat) : applySetting 4 value = .noError ↔ value ≤ kMaxWindow := by
  unfold applySetting
  split
  · omega
  simp only [if_true]
  split
  · simp; omega
  · simp; omega

theorem adjust_level (h : c.Inv) (hlevel : c.Level) {value : Nat}
    (hover : (adjust ((value : Int) - c.initialWindow) c.streams).2 = false) {err : Option ErrorCode} :
    { c with
      initialWindow := value, error := err
      streams := (adjust ((value : Int) - c.initialWindow) c.streams).1 }.Level := by
  obtain ⟨-, hmem, -⟩ := adjust_spec ((value : Int) - c.initialWindow) c.streams
  intro s' hs'
  obtain ⟨s, hs, hid, hcase⟩ := hmem s' hs'
  have hw := hlevel s hs
  have hspent := h.spent s hs
  rcases hcase with ⟨-, ho⟩ | ⟨hmoved, hle⟩
  · rw [hover] at ho
    cases ho
  have hcast : toInt32 (s.sendWindow + ((value : Int) - c.initialWindow)) =
      s.sendWindow + ((value : Int) - c.initialWindow) := toInt32_eq (by omega) hle
  show s'.sendWindow = (value : Int) + (c.credited s'.id : Nat) - (c.sentOn s'.id : Nat)
  rw [hmoved, hcast, hw, hid]
  omega

/-- One pair of SETTINGS; where the next is looked at, all streams were moved. -/
theorem onSetting_inv (h : c.Inv) (hlevel : c.Level) (id value : Nat) :
    (c.onSetting id value).1.Inv ∧ ((c.onSetting id value).2 = true → (c.onSetting id value).1.Level) := by
  unfold onSetting
  split
  case isFalse => exact ⟨h.connectionError _, nofun⟩
  case isTrue happly =>
  split
  · rename_i hid
    subst hid
    have hv := (applySetting_initial value).mp happly
    dsimp only
    split
    · -- a window overflows
      refine ⟨?_, nofun⟩
      unfold Sending.connectionError
      split
      · rename_i herr
        exact h.adjusts hlevel hv (fun he => by rw [he] at herr; cases herr)
      apply Inv.control
      · exact h.adjusts hlevel hv (nofun)
      · rfl
    · rename_i hover
      have hover' := by simpa using hover
      exact ⟨h.adjusts hlevel hv (fun _ => hover'), fun _ => adjust_level h hlevel hover'⟩
  · split
    · refine ⟨?_, fun _ => hlevel⟩
      apply h.of_windows
      · exact fun s hs => ⟨s, hs, rfl, rfl⟩
      · exact h.ids
      · rfl
      · rfl
      · rfl
      · exact Nat.le_refl _
      · rfl
      · exact fun he => he
    · exact ⟨h, fun _ => hlevel⟩

theorem settingsLoop_inv (pairs : List (Nat × Nat)) (h : c.Inv) (hlevel : c.Level) :
    (c.settingsLoop pairs).1.Inv := by
  induction pairs generalizing c with
  | nil => exact h
  | cons p rest ih =>
    obtain ⟨id, value⟩ := p
    obtain ⟨hinv, hlev⟩ := onSetting_inv h hlevel id value
    unfold settingsLoop
    generalize c.onSetting id value = r at hinv hlev
    obtain ⟨c', goOn⟩ := r
    cases goOn with
    | true => exact ih hinv (hlev rfl)
    | false => exact hinv

theorem glitch_level (h : c.Level) (exhausted : Bool) : (c.glitch exhausted).Level := by
  unfold Sending.glitch Sending.connectionError
  split
  · split
    · exact h
    -- the GOAWAY is no DATA
    intro s hs
    have hsent : ({ c with error := some ErrorCode.enhanceYourCalm }.control
        (.goaway .enhanceYourCalm)).sentOn s.id = c.sentOn s.id := by
      simp [sentOn, Sending.control, datas]
    rw [hsent]
    exact h s hs
  · exact h

theorem onSettings_inv (h : c.Inv) (he : c.error = none) (pairs : List (Nat × Nat))
    (exhausted : Bool) : (c.onSettings pairs exhausted).Inv := by
  have hloop := settingsLoop_inv pairs (h.glitch exhausted) (glitch_level (h.level he) exhausted)
  unfold onSettings
  generalize (c.glitch exhausted).settingsLoop pairs = r at hloop
  obtain ⟨c', goOn⟩ := r
  cases goOn with
  | true => exact hloop.control rfl
  | false => exact hloop

theorem credited_append (c : Sending) (id inc id' : Nat) :
    { c with credits := c.credits ++ [(id, inc)] }.credited id' =
      c.credited id' + if id = id' then inc else 0 := by
  unfold credited
  rw [List.filter_append, List.map_append, List.sum_append]
  by_cases h : id = id'
  · simp [h]
  · simp [h]

/-- An increment of the connection's window. -/
theorem Inv.creditConn (h : c.Inv) {inc : Nat} (hle : c.cycle.connWindow + inc ≤ kMaxWindow) :
    { c with
      cycle := { c.cycle with connWindow := toInt32 (c.cycle.connWindow + inc) }
      credits := c.credits ++ [(0, inc)] }.Inv := by
  have hrange := h.connRange
  have hcast : toInt32 (c.cycle.connWindow + inc) = c.cycle.connWindow + inc := toInt32_eq (by omega) hle
  set c' : Sending := { c with
    cycle := { c.cycle with connWindow := toInt32 (c.cycle.connWindow + inc) }
    credits := c.credits ++ [(0, inc)] } with hc'
  have hcredit : ∀ id, c'.credited id = c.credited id + if 0 = id then inc else 0 :=
    credited_append c 0 inc
  have hstream : ∀ s ∈ c.streams, c'.credited s.id = c.credited s.id := by
    intro s hs
    have := (h.known s hs).1
    rw [hcredit, if_neg (by omega), Nat.add_zero]
  refine ⟨h.ids, h.known, h.wireIds, ?_, ?_, ?_, h.upper, h.initial, ?_, ?_, h.fits⟩
  · intro p hp
    rcases List.mem_append.mp hp with hp | hp
    · exact h.creditIds p hp
    rw [List.mem_singleton] at hp
    rw [hp]
    exact Nat.zero_le _
  · intro s hs
    rw [hstream s hs]
    exact h.base s hs
  · intro s hs
    rw [hstream s hs]
    exact h.spent s hs
  · have hconn := h.conn
    show toInt32 (c.cycle.connWindow + inc) = 65535 + (c'.credited 0 : Nat) - (c.sentAll : Nat)
    rw [hcast, hcredit, if_pos rfl]
    push_cast
    omega
  · show 0 ≤ toInt32 (c.cycle.connWindow + inc) ∧ toInt32 (c.cycle.connWindow + inc) ≤ kMaxWindow
    rw [hcast]
    omega

/-- An increment of a stream's window. -/
theorem Inv.creditStream (h : c.Inv) (hs : s ∈ c.streams) {inc : Nat}
    (hle : s.sendWindow + inc ≤ kMaxWindow) :
    { c.update s.id (fun s => { s with sendWindow := toInt32 (s.sendWindow + inc) }) with
      credits := c.credits ++ [(s.id, inc)] }.Inv := by
  set c' : Sending := { c.update s.id (fun s => { s with sendWindow := toInt32 (s.sendWindow + inc) }) with
    credits := c.credits ++ [(s.id, inc)] } with hc'
  have hcredit : ∀ id, c'.credited id = c.credited id + if s.id = id then inc else 0 :=
    credited_append c s.id inc
  have hpos := (h.known s hs).1
  -- a stream of the new table is the one credited, or an old one with another id
  have hcases : ∀ t' ∈ c'.streams,
      t'.id = s.id ∧ t'.sendWindow = s.sendWindow + inc ∨ t' ∈ c.streams ∧ t'.id ≠ s.id := by
    intro t' ht'
    obtain ⟨t, ht, rfl⟩ := mem_update ht'
    split
    · rename_i hid
      left
      obtain rfl : t = s := List.inj_on_of_nodup_map h.ids ht hs hid
      have hlow := h.lower hs
      exact ⟨rfl, toInt32_eq (by omega) hle⟩
    · rename_i hid
      exact .inr ⟨ht, hid⟩
  have hother : ∀ {id : Nat}, id ≠ s.id → c'.credited id = c.credited id := by
    intro id hne
    rw [hcredit, if_neg (fun he => hne he.symm), Nat.add_zero]
  have hself : c'.credited s.id = c.credited s.id + inc := by
    rw [hcredit, if_pos rfl]
  have hsent : ∀ id, c'.sentOn id = c.sentOn id := fun _ => rfl
  refine ⟨?_, ?_, h.wireIds, ?_, ?_, ?_, ?_, h.initial, ?_, h.connRange, h.fits⟩
  · rw [update_ids]
    · exact h.ids
    · exact fun _ _ _ => rfl
  · intro t' ht'
    rcases hcases t' ht' with ⟨hid, -⟩ | ⟨ht, -⟩
    · rw [hid]
      exact h.known s hs
    · exact h.known t' ht
  · intro p hp
    rcases List.mem_append.mp hp with hp | hp
    · exact h.creditIds p hp
    rw [List.mem_singleton] at hp
    rw [hp]
    exact (h.known s hs).2
  · intro t' ht'
    rcases hcases t' ht' with ⟨hid, hw⟩ | ⟨ht, hid⟩
    · obtain ⟨b, hb, hbase, hcur⟩ := h.base s hs
      refine ⟨b, hb, ?_, hcur⟩
      rw [hw, hid, hself, hsent, hbase]
      push_cast
      omega
    · rw [hother hid, hsent]
      exact h.base t' ht
  · intro t' ht'
    rcases hcases t' ht' with ⟨hid, -⟩ | ⟨ht, hid⟩
    · have := h.spent s hs
      rw [hid, hself, hsent]
      omega
    · rw [hother hid, hsent]
      exact h.spent t' ht
  · intro t' ht'
    rcases hcases t' ht' with ⟨-, hw⟩ | ⟨ht, -⟩
    · rw [hw]
      exact hle
    · exact h.upper t' ht
  · have hzero : c'.credited 0 = c.credited 0 := hother (by omega)
    rw [hzero]
    exact h.conn

theorem onWindowUpdate_inv (h : c.Inv) (id payload : Nat) (exhausted : Bool) :
    (c.onWindowUpdate id payload exhausted).Inv := by
  unfold onWindowUpdate
  dsimp only
  split
  · split
    · exact h.connectionError _
    split
    · exact h.connectionError _
    rename_i hle
    have hinv := h.creditConn (by omega : c.cycle.connWindow + (payload % 2 ^ 31 : Nat) ≤ kMaxWindow)
    split
    · exact hinv.glitch exhausted
    · exact hinv
  · split
    · split
      · exact h.connectionError _
      split
      · exact (h.control rfl).glitch exhausted
      · exact h.glitch exhausted
    · rename_i s hfind
      obtain ⟨hs, rfl⟩ := find_mem hfind
      split
      · exact h.streamError _ _ _
      split
      · exact h.streamError _ _ _
      rename_i hle
      have hinv := h.creditStream hs (by omega : s.sendWindow + (payload % 2 ^ 31 : Nat) ≤ kMaxWindow)
      split
      · exact hinv.glitch exhausted
      · exact hinv

/-! ## §5. The writer. -/

/-- An emission of a stream of the table. -/
theorem Inv.wrote (h : c.Inv) {w' : Cycle} {fs : List DataFrame}
    (hs : s ∈ c.streams) (hw : Wrote c.cycle s w' s' fs) :
    ({ c with cycle := w' }.update s.id (fun _ => s')).Inv := by
  set c' : Sending := { c with cycle := w' }.update s.id (fun _ => s') with hc'
  have hwire : datas c'.cycle.wire = datas c.cycle.wire ++ fs := hw.wire
  have hself : c'.sentOn s.id = c.sentOn s.id + payloadOf fs := by
    have hall : fs.filter (·.id = s.id) = fs := by
      rw [List.filter_eq_self]
      intro f hf
      simpa using (hw.frames f hf).1
    unfold sentOn
    rw [hwire, List.filter_append, payloadOf_append, hall]
  have hother : ∀ {id : Nat}, id ≠ s.id → c'.sentOn id = c.sentOn id := by
    intro id hne
    have hnil : fs.filter (·.id = id) = [] := by
      rw [List.filter_eq_nil_iff]
      intro f hf
      have := (hw.frames f hf).1
      simp only [decide_eq_true_eq]
      omega
    unfold sentOn
    rw [hwire, List.filter_append, hnil, List.append_nil]
  have hcases : ∀ t' ∈ c'.streams, t' = s' ∨ t' ∈ c.streams ∧ t'.id ≠ s.id := by
    intro t' ht'
    obtain ⟨t, ht, rfl⟩ := mem_update ht'
    split
    · exact .inl rfl
    rename_i hid
    exact .inr ⟨ht, hid⟩
  have hcredit : ∀ id, c'.credited id = c.credited id := fun _ => rfl
  have hstream := hw.stream
  have hconn := hw.conn
  have hrange := h.connRange
  have hfits := hw.fits
  obtain ⟨b, hb, hbase, hcur⟩ := h.base s hs
  refine ⟨?_, ?_, ?_, h.creditIds, ?_, ?_, ?_, h.initial, ?_, ?_, ?_⟩
  · rw [update_ids fun _ _ hid => hw.id.trans hid.symm]
    exact h.ids
  · intro t' ht'
    rcases hcases t' ht' with rfl | ⟨ht, -⟩
    · rw [hw.id]
      exact h.known s hs
    · exact h.known t' ht
  · intro f hf
    rw [hwire] at hf
    rcases List.mem_append.mp hf with hf | hf
    · exact h.wireIds f hf
    rw [(hw.frames f hf).1]
    exact (h.known s hs).2
  · intro t' ht'
    rcases hcases t' ht' with rfl | ⟨ht, hid⟩
    · refine ⟨b, hb, ?_, hcur⟩
      rw [hstream, hw.id, hself, hcredit, hbase]
      push_cast
      omega
    · rw [hother hid, hcredit]
      exact h.base t' ht
  · intro t' ht'
    rcases hcases t' ht' with rfl | ⟨ht, hid⟩
    · -- what is written fits the window, so it is within an initial window and the credits
      have hspent := h.spent s hs
      rw [hw.id, hself, hcredit]
      by_cases hz : payloadOf fs = 0
      · omega
      · omega
    · rw [hother hid, hcredit]
      exact h.spent t' ht
  · intro t' ht'
    rcases hcases t' ht' with rfl | ⟨ht, -⟩
    · have := h.upper s hs
      omega
    · exact h.upper t' ht
  · have hall : c'.sentAll = c.sentAll + payloadOf fs := by
      unfold sentAll
      rw [hwire, payloadOf_append]
    have hold := h.conn
    show w'.connWindow = 65535 + (c.credited 0 : Nat) - (c'.sentAll : Nat)
    rw [hall, hconn]
    push_cast
    omega
  · show 0 ≤ w'.connWindow ∧ w'.connWindow ≤ kMaxWindow
    by_cases hz : payloadOf fs = 0
    · omega
    · omega
  · intro f hf
    rw [hwire] at hf
    rcases List.mem_append.mp hf with hf | hf
    · exact h.fits f hf
    · exact (hw.frames f hf).2

theorem Inv.emits (h : c.Inv) (k : Transport) (reads : FileReads)
    (hs : s ∈ c.streams) : (c.emits k reads s).Inv := by
  obtain ⟨fs, hw⟩ := emit_wrote k reads c.cycle s
  have hinv := h.wrote hs hw
  unfold Sending.emits
  dsimp only
  split
  · exact (hinv.control rfl).closeStream s.id
  · exact hinv

/-- A stream of the table is given other values, its window aside. -/
theorem Inv.replace (h : c.Inv) (hs : s ∈ c.streams) (hid : s'.id = s.id)
    (hw : s'.sendWindow = s.sendWindow) : (c.update s.id (fun _ => s')).Inv := by
  apply h.update
  intro t ht hti
  obtain rfl : t = s := List.inj_on_of_nodup_map h.ids ht hs hti
  exact ⟨hid, hw⟩

theorem Inv.respond (h : c.Inv) (hs : s ∈ c.streams) (hid : s'.id = s.id)
    (hc : s'.closed = s.closed) (hw : s'.sendWindow = s.sendWindow) (now : Bool) :
    (c.respond s' now).Inv := by
  unfold Sending.respond
  split
  · exact h
  split
  · rename_i r hnow
    split at hnow
    · obtain ⟨w', t⟩ := r
      obtain ⟨fs, hwrote⟩ := emitNow_wrote hnow
      have hfirst : Wrote c.cycle s c.cycle s' [] := .none hid hc rfl hw rfl
      have hinv := (h.wrote hs (hfirst.trans hwrote)).closeStream s.id
      rw [← hid] at hinv
      exact hinv
    · cases hnow
  · have hinv : (c.update s.id (fun _ => { s' with ready := true })).Inv := h.replace hs hid hw
    rw [← hid] at hinv
    exact hinv

theorem Inv.pulled (h : c.Inv) (hs : s ∈ c.streams) (n : Option Nat) : (c.pulled s n).Inv := by
  have hless : { c with cycle := { c.cycle with pulls := c.cycle.pulls - 1 } }.Inv := by
    apply h.of_windows
    · exact fun s hs => ⟨s, hs, rfl, rfl⟩
    · exact h.ids
    · rfl
    · rfl
    · rfl
    · exact Nat.le_refl _
    · rfl
    · exact fun he => he
  have hfailed := (hless.control (f := .rstStream s.id .internalError) rfl).closeStream s.id
  unfold Sending.pulled
  split
  · exact hless.replace hs rfl rfl
  split
  · exact hfailed
  · split
    · exact hfailed
    · exact hless.replace hs rfl rfl
  · exact hless.replace hs rfl rfl

/-! ## §6. Runs. -/

/-- **Step lemma.** -/
theorem step_inv {k : Transport} {c' : Sending} {lb : SendLabel} (h : c.Inv)
    (hstep : c.step k lb = some c') : c'.Inv := by
  cases lb with
  | opens id =>
    simp only [step] at hstep
    split at hstep
    case isTrue hid => cases hstep; exact h.openStream hid.2.2
    case isFalse => cases hstep
  | refuses id =>
    simp only [step] at hstep
    split at hstep
    case isTrue hid =>
      cases hstep
      apply h.of_windows
      · exact fun s hs => ⟨s, hs, rfl, rfl⟩
      · exact h.ids
      · rfl
      · rfl
      · rfl
      · exact Nat.le_of_lt hid.2.2
      · rfl
      · exact fun he => he
    case isFalse => cases hstep
  | settings pairs exhausted =>
    simp only [step] at hstep
    split at hstep
    case isTrue he => cases hstep; exact onSettings_inv h he pairs exhausted
    case isFalse => cases hstep
  | windowUpdate id payload exhausted =>
    simp only [step] at hstep
    split at hstep
    case isTrue => cases hstep; exact onWindowUpdate_inv h id payload exhausted
    case isFalse => cases hstep
  | responds id head body headBlock now =>
    obtain ⟨s, hfind, rfl⟩ := Option.map_eq_some_iff.mp hstep
    apply h.respond (find_mem hfind).1
    · rfl
    · rfl
    · rfl
  | emits id reads =>
    obtain ⟨s, hfind, rfl⟩ := Option.map_eq_some_iff.mp hstep
    exact h.emits k reads (find_mem hfind).1
  | pulled id n =>
    obtain ⟨s, hfind, hif⟩ := Option.bind_eq_some_iff.mp hstep
    split at hif
    · cases hif
      exact h.pulled (find_mem hfind).1 n
    · cases hif
  | written =>
    cases hstep
    apply h.of_windows
    · exact fun s hs => ⟨s, hs, rfl, rfl⟩
    · exact h.ids
    · rfl
    · rfl
    · rfl
    · exact Nat.le_refl _
    · rfl
    · exact fun he => he
  | closes id => cases hstep; exact h.closeStream id
  | releases id =>
    obtain ⟨s, -, hif⟩ := Option.bind_eq_some_iff.mp hstep
    split at hif
    · cases hif
      exact h.release id
    · cases hif
  | errs code => cases hstep; exact h.connectionError code

theorem start_inv : ({} : Sending).Inv := by
  refine ⟨by simp, by simp, by simp [datas], by simp, by simp, by simp, by simp, by decide, ?_, by decide,
    by simp [datas]⟩
  decide

/-- An error that is raised first stays. -/
theorem connectionError_error (h : c.error = none) (code : ErrorCode) :
    (c.connectionError code).error = some code := by
  simp [connectionError, h, control]

theorem settingsLoop_append (before after : List (Nat × Nat)) {c₁ : Sending}
    (h : c.settingsLoop before = (c₁, true)) : c.settingsLoop (before ++ after) = c₁.settingsLoop after := by
  induction before generalizing c with
  | nil =>
    simp only [settingsLoop, Prod.mk.injEq, and_true] at h
    rw [h, List.nil_append]
  | cons p rest ih =>
    obtain ⟨id, value⟩ := p
    rw [List.cons_append, settingsLoop]
    rw [settingsLoop] at h
    cases hp : c.onSetting id value with
    | mk c' goOn =>
      rw [hp] at h
      cases goOn with
      | true => exact ih h
      | false => simp at h

/-- A pair that is accepted raises no error. -/
theorem settingsLoop_error (pairs : List (Nat × Nat)) {c₁ : Sending}
    (h : c.settingsLoop pairs = (c₁, true)) : c₁.error = c.error := by
  induction pairs generalizing c with
  | nil =>
    simp only [settingsLoop, Prod.mk.injEq, and_true] at h
    rw [h]
  | cons p rest ih =>
    obtain ⟨id, value⟩ := p
    have hone : (c.onSetting id value).2 = true → (c.onSetting id value).1.error = c.error := by
      unfold onSetting
      split
      · split
        · dsimp only
          split
          · exact fun hn => by cases hn
          · exact fun _ => rfl
        · split
          · exact fun _ => rfl
          · exact fun _ => rfl
      · exact fun hn => by cases hn
    unfold settingsLoop at h
    cases hp : c.onSetting id value with
    | mk c' goOn =>
      rw [hp] at h hone
      cases goOn with
      | true => exact (ih h).trans (hone rfl)
      | false => simp at h

theorem Inv.refuses (h : c.Inv) (k : Transport) : c.Refuses k := by
  refine ⟨?_, ?_, ?_⟩
  · intro payload exhausted c' hstep hover
    have hrange := h.connRange
    simp only [step] at hstep
    split at hstep
    case isFalse => cases hstep
    case isTrue he =>
      cases hstep
      unfold onWindowUpdate
      rw [if_pos rfl, if_neg (by omega), if_pos (by omega)]
      exact connectionError_error he _
  · intro s hs payload exhausted c' hstep hover
    have hup := h.upper s hs
    simp only [step] at hstep
    split at hstep
    case isFalse => cases hstep
    case isTrue he =>
      cases hstep
      have hpos := (h.known s hs).1
      unfold onWindowUpdate
      rw [if_neg (by omega), find_of_mem h.ids hs]
      dsimp only
      rw [if_neg (by omega), if_pos (by omega)]
      -- the RST_STREAM is written, the stream closed; a glitch does not undo either
      have hkeeps : ∀ d : Sending, (∃ fs, (d.glitch exhausted).cycle.wire = d.cycle.wire ++ fs) ∧
          (d.glitch exhausted).streams = d.streams := by
        intro d
        unfold Sending.glitch Sending.connectionError
        split
        · split
          · exact ⟨⟨[], by simp⟩, rfl⟩
          · exact ⟨⟨[.goaway .enhanceYourCalm], rfl⟩, rfl⟩
        · exact ⟨⟨[], by simp⟩, rfl⟩
      obtain ⟨⟨fs, hwire⟩, hstreams⟩ :=
        hkeeps ((c.control (.rstStream s.id .flowControlError)).closeStream s.id)
      unfold Sending.streamError
      refine ⟨?_, ?_⟩
      · rw [hwire]
        simp [Sending.closeStream, Sending.update, Sending.control]
      · intro t ht htid
        rw [hstreams] at ht
        obtain ⟨u, -, rfl⟩ := mem_update ht
        split
        · rfl
        rename_i hne
        rw [if_neg hne] at htid
        exact absurd htid hne
  · intro before value after c₁ c' hloop hover hstep
    simp only [step] at hstep
    split at hstep
    case isFalse => cases hstep
    case isTrue he =>
      cases hstep
      have he₁ : c₁.error = none := (settingsLoop_error before hloop).trans he
      -- the pair ends the loop with the error
      have hpair : c₁.onSetting 4 value = ((c₁.onSetting 4 value).1, false) ∧
          (c₁.onSetting 4 value).1.error = some .flowControlError := by
        unfold onSetting
        by_cases hv : value ≤ kMaxWindow
        · rw [if_pos ((applySetting_initial value).mpr hv), if_pos rfl]
          have hex := hover.resolve_left (by omega)
          rw [if_pos ((adjust_spec _ _).2.2 hex)]
          refine ⟨rfl, ?_⟩
          apply connectionError_error
          exact he₁
        · have hcode : applySetting 4 value = .flowControlError := by
            unfold applySetting
            rw [if_neg (by decide), if_pos rfl, if_pos (by omega)]
          rw [hcode, if_neg (by decide)]
          exact ⟨rfl, connectionError_error he₁ _⟩
      have hrest : c₁.settingsLoop ((4, value) :: after) = ((c₁.onSetting 4 value).1, false) := by
        rw [settingsLoop, hpair.1]
      unfold onSettings Sending.glitch
      rw [if_neg (by decide), settingsLoop_append before _ hloop, hrest]
      exact hpair.2

/-- **Flow control of what is sent.**  In every state of every run the windows are what the peer
    gave less what was sent, no frame with payload was beyond a window, no window left its range,
    and what would make one leave it is refused with the error. -/
theorem send_windows_exact (k : Transport) (lbs : List SendLabel) (c : Sending)
    (hrun : run (step k) {} lbs = some c) : c.Exact ∧ c.Refuses k := by
  have h : c.Inv := run_preserves (fun _ _ _ h hstep => step_inv h hstep) start_inv hrun
  exact ⟨h.exact, h.refuses k⟩

/-- A source's answer of ten bytes, its end, and a window that SETTINGS took back meanwhile. -/
def shrunkWindow : List SendLabel :=
  [.opens 1, .responds 1 false (.streamBody none) 20 false, .emits 1 ⟨fun _ n => n, fun _ _ => Int.le_refl _⟩,
    .pulled 1 (some 10), .emits 1 ⟨fun _ n => n, fun _ _ => Int.le_refl _⟩, .settings [(4, 4)] false,
    .pulled 1 (some 0), .emits 1 ⟨fun _ n => n, fun _ _ => Int.le_refl _⟩]

theorem send_windows_exact_shrunk :
    ∃ c, run (step {}) {} shrunkWindow = some c ∧ c.sentAll = 10 ∧ c.Exact ∧ c.Refuses {} := by
  have hsome : (run (step {}) {} shrunkWindow).isSome = true := by decide +kernel
  have hsent : (run (step {}) {} shrunkWindow).map sentAll = some 10 := by decide +kernel
  obtain ⟨c, hc⟩ := Option.isSome_iff_exists.mp hsome
  rw [hc] at hsent
  exact ⟨c, hc, by simpa using hsent, send_windows_exact {} shrunkWindow c hc⟩

/-- The first stream's window cannot take the new initial window; the second is left behind. -/
def overflowingSettings : List SendLabel :=
  [.opens 1, .opens 3, .windowUpdate 1 0x7fff0000 false, .settings [(4, 65536)] false]

/-- The end of stream 1 is an empty DATA frame in a window of -6; and a connection error leaves a
    stream off the current initial window. -/
theorem empty_frame_beyond_window : (∃ c, run (step {}) {} shrunkWindow = some c ∧
      ∃ f ∈ datas c.cycle.wire, ¬ ((f.length : Int) ≤ f.streamRoom ∧ (f.length : Int) ≤ f.connRoom)) ∧
    ∃ c, run (step {}) {} overflowingSettings = some c ∧ ∃ s ∈ c.streams, s.closed = false ∧
        s.sendWindow ≠ c.initialWindow + c.credited s.id - c.sentOn s.id := by
  have hempty : (run (step {}) {} shrunkWindow).any (fun c : Sending => decide (∃ f ∈ datas c.cycle.wire,
      ¬ ((f.length : Int) ≤ f.streamRoom ∧ (f.length : Int) ≤ f.connRoom))) = true := by decide +kernel
  have hbehind : (run (step {}) {} overflowingSettings).any (fun c : Sending => decide (∃ s ∈ c.streams,
      s.closed = false ∧ s.sendWindow ≠ c.initialWindow + c.credited s.id - c.sentOn s.id)) = true := by
    decide +kernel
  refine ⟨?_, ?_⟩
  · obtain ⟨c, hc, hex⟩ := (Option.any_eq_true _ _).mp hempty
    exact ⟨c, hc, of_decide_eq_true hex⟩
  · obtain ⟨c, hc, hex⟩ := (Option.any_eq_true _ _).mp hbehind
    exact ⟨c, hc, of_decide_eq_true hex⟩

end Sending

end Agensio.Http2
