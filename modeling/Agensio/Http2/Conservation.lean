/-
  Agensio.Http2.Conservation — the connection window is conserved.

  Every DATA frame is charged to the connection window before its stream
  is looked at.  `Owing k` says where the window is: granted, about to be
  returned, buffered for a handler, and `k` bytes of the frame at hand
  for which nothing was credited yet.  Each operation is given by what it
  does to `k`.

  The window shrinks for good where a stream is closed for a frame that
  is beyond its window or its content-length (the frame itself), and
  where it is closed with its body done and bytes unread: `close_stream`
  gives those back only while the body is not done.  A stream that is
  closed while its trailers' block is in progress counts what it gave
  back once more.

  Main results:
    * `receive_windows_conserved` — in every run without these steps the
      parts add up to the connection window, and with all streams closed
      a quarter of it can be sent (in fact more than half);
    * `window_lost_on_close` — an answered upload that was never read.
-/
import Agensio.Http2.Receive

namespace Agensio.Http2

open Agensio.Lib

/-! ## §1. The invariant. -/

/-- Body bytes of a stream that the handler has not read. -/
def H2Stream.unread (s : H2Stream) : Nat := if s.state = .closed then 0 else s.recvPending

theorem H2Stream.unread_eq {s : H2Stream} (h : s.state ≠ .closed) : s.unread = s.recvPending := if_neg h

structure H2Stream.Ok (s : H2Stream) : Prop where
  buffered : s.recvPending = s.buffered
  draining : s.state = .halfClosedLocal → s.bodyDone = false
  -- trailers can set a stream back that is to be released
  deferred : s.deferRelease = true → s.state = .closed ∨ s.state = .halfClosedRemote ∧ s.recvPending = 0

theorem H2Stream.Ok.kept {s : H2Stream} (h : s.Ok) (hs : s.state = .opened) : s.deferRelease ≠ true := by
  intro hd
  rcases h.deferred hd with hc | ⟨hc, -⟩ <;> cases hs.symm.trans hc

namespace Connection

/-- The window, with `k` bytes charged and not credited. -/
structure Owing (k : Nat) (c : Connection) : Prop where
  nodup : (c.streams.map Prod.fst).Nodup
  opened : ∀ id ∈ c.streams.map Prod.fst, id ≤ c.lastStreamId
  fresh : ∀ id e, c.block = some (id, .request, e) → id ∉ c.streams.map Prod.fst ∧ id ≤ c.lastStreamId
  streams : ∀ p ∈ c.streams, p.2.Ok
  conserved : c.connRecvGrant + c.connUnreturned + total H2Stream.unread c.streams + k =
    kConnectionWindow
  flushed : c.connUnreturned < kConnectionWindow / 2

theorem half_pos : 0 < kConnectionWindow / 2 := by decide

theorem owing_start (maxConcurrent : Nat) : Owing 0 (start maxConcurrent) := by
  refine ⟨List.nodup_nil, ?_, ?_, ?_, rfl, half_pos⟩
  · intro id hid
    simp [start] at hid
  · intro id e h
    simp [start] at h
  · intro p hp
    simp [start] at hp

variable {k k' id length len : Nat} {c : Connection} {s s' : H2Stream}

/-- Only the table, the block and the windows count. -/
theorem Owing.congr {c' : Connection} (h : Owing k c) (hs : c'.streams = c.streams)
    (hl : c.lastStreamId ≤ c'.lastStreamId)
    (hb : ∀ id e, c'.block = some (id, .request, e) → id ∉ c.streams.map Prod.fst ∧ id ≤ c'.lastStreamId)
    (hg : c'.connRecvGrant + c'.connUnreturned + k' = c.connRecvGrant + c.connUnreturned + k)
    (hf : c'.connUnreturned < kConnectionWindow / 2) : Owing k' c' := by
  refine ⟨?_, ?_, ?_, ?_, ?_, hf⟩
  · rw [hs]
    exact h.nodup
  · rw [hs]
    intro id hid
    exact Nat.le_trans (h.opened id hid) hl
  · rw [hs]
    exact hb
  · rw [hs]
    exact h.streams
  · rw [hs]
    have := h.conserved
    omega

theorem Owing.connectionError (h : Owing k c) : Owing k c.connectionError :=
  h.congr rfl (Nat.le_refl _) h.fresh rfl h.flushed

theorem Owing.noteReset (h : Owing k c) (id : Nat) : Owing k (c.noteReset id) :=
  h.congr rfl (Nat.le_refl _) h.fresh rfl h.flushed

/-- `n` of the bytes that are owed are credited. -/
theorem Owing.returnConnWindow {n : Nat} (h : Owing (k + n) c) : Owing k (c.returnConnWindow n) := by
  unfold Connection.returnConnWindow
  split
  · next hz =>
    subst hz
    exact h
  split
  · refine h.congr rfl (Nat.le_refl _) h.fresh ?_ half_pos
    show c.connRecvGrant + (c.connUnreturned + n) + 0 + k = c.connRecvGrant + c.connUnreturned + (k + n)
    omega
  next hkeep =>
    refine h.congr rfl (Nat.le_refl _) h.fresh ?_ ?_
    · show c.connRecvGrant + (c.connUnreturned + n) + k = c.connRecvGrant + c.connUnreturned + (k + n)
      omega
    · show c.connUnreturned + n < _
      omega

@[simp] theorem returnConnWindow_streams (c : Connection) (n : Nat) :
    (c.returnConnWindow n).streams = c.streams := by
  unfold Connection.returnConnWindow
  split
  · rfl
  split <;> rfl

/-- A stream's record is replaced: what it holds less is owed, what it holds more is settled. -/
theorem Owing.put (h : Owing k c)
    (hs : c.streams.lookup id = some s) (hk : s'.unread + k' = s.unread + k) (hok : s'.Ok) :
    Owing k' (c.put id s') := by
  have hkeys : (c.put id s').streams.map Prod.fst = c.streams.map Prod.fst := keys_setAt _ _ _
  refine ⟨?_, ?_, ?_, ?_, ?_, h.flushed⟩
  · rw [hkeys]
    exact h.nodup
  · rw [hkeys]
    exact h.opened
  · rw [hkeys]
    exact h.fresh
  · intro p hp
    obtain ⟨pre, post, heq, hset, -⟩ := lookup_split h.nodup hs
    have hp' : p ∈ setAt c.streams id s' := hp
    rw [hset, List.mem_append, List.mem_cons] at hp'
    rcases hp' with hp | rfl | hp
    · exact h.streams p (by rw [heq]; simp [hp])
    · exact hok
    · exact h.streams p (by rw [heq]; simp [hp])
  · have htotal := total_setAt H2Stream.unread h.nodup hs s'
    have hcons := h.conserved
    show c.connRecvGrant + c.connUnreturned + total H2Stream.unread (setAt c.streams id s') + k' = _
    omega

/-- A stream leaves the table: what it held is owed. -/
theorem Owing.drop (h : Owing k c) (hs : c.streams.lookup id = some s) (hk : k' = s.unread + k) :
    Owing k' { c with streams := dropAt c.streams id } := by
  have hsub : ∀ i ∈ (dropAt c.streams id).map Prod.fst, i ∈ c.streams.map Prod.fst := by
    intro i hi
    obtain ⟨p, hp, rfl⟩ := List.mem_map.mp hi
    exact List.mem_map_of_mem (mem_dropAt.mp hp).1
  refine ⟨keys_dropAt_nodup h.nodup id, ?_, ?_, ?_, ?_, h.flushed⟩
  · intro i hi
    exact h.opened i (hsub i hi)
  · intro i e hb
    obtain ⟨hn, hle⟩ := h.fresh i e hb
    exact ⟨fun hi => hn (hsub i hi), hle⟩
  · intro p hp
    exact h.streams p (mem_dropAt.mp hp).1
  · have htotal := total_dropAt H2Stream.unread h.nodup hs
    have hcons := h.conserved
    show c.connRecvGrant + c.connUnreturned + total H2Stream.unread (dropAt c.streams id) + k' = _
    omega

theorem Owing.lookup (h : Owing k c) (hs : c.streams.lookup id = some s) : s.Ok :=
  h.streams _ (mem_of_lookup hs)

@[simp] theorem put_lookup (hs : c.streams.lookup id = some s) (s' : H2Stream) :
    (c.put id s').streams.lookup id = some s' :=
  lookup_setAt_self hs s'

/-- Only the stream's window moves. -/
theorem returned_eq (s : H2Stream) (n : Nat) :
    ∃ grant unreturned, s.returned n = { s with recvGrant := grant, recvUnreturned := unreturned } := by
  unfold H2Stream.returned
  split
  · exact ⟨_, _, rfl⟩
  split
  · exact ⟨_, _, rfl⟩
  · exact ⟨_, _, rfl⟩

/-! ## §2. The condition. -/

/-- A stream that can be closed: it is, or its body is not done, or everything was read. -/
def Settled (c : Connection) (id : Nat) : Prop :=
  ∀ s ∈ c.streams.lookup id, s.state = .closed ∨ s.bodyDone = false ∨ s.recvPending = 0

instance (c : Connection) (id : Nat) : Decidable (c.Settled id) :=
  inferInstanceAs (Decidable (∀ s ∈ c.streams.lookup id, _ ∨ _ ∨ _))

/-- Trailers (or END_STREAM) with `n` bytes unread: the content-length is met, or `n` is zero. -/
def EndsWell (s : H2Stream) (received n : Nat) : Prop :=
  s.contentLength.any (· ≠ received) = true → n = 0

instance (s : H2Stream) (received n : Nat) : Decidable (EndsWell s received n) :=
  inferInstanceAs (Decidable (_ → _))

/-- The condition on a DATA frame of `length` bytes, `len` without its padding. -/
def DataClean (s : H2Stream) (length len : Nat) (endStream : Bool) : Prop :=
  (s.state = .opened → length ≤ s.recvGrant ∧
    s.contentLength.any (· < s.bodyReceived + len) = false ∧
    (endStream = true → s.bodyReceived + len ≤ s.bodyLimit →
      EndsWell s (s.bodyReceived + len) (s.recvPending + len))) ∧
  (s.state = .halfClosedLocal → length ≤ s.recvGrant) ∧
  (s.state = .halfClosedRemote → s.bodyDone = false ∨ s.recvPending = 0)

instance (s : H2Stream) (length len : Nat) (endStream : Bool) :
    Decidable (DataClean s length len endStream) :=
  inferInstanceAs (Decidable ((_ → _ ∧ _ ∧ (_ → _ → _)) ∧ (_ → _) ∧ (_ → _ ∨ _)))

/-- The condition on the end of a block of trailers. -/
def TrailersClean (s : H2Stream) : Prop :=
  s.state ≠ .halfClosedLocal → (s.state = .closed → s.recvPending = 0) ∧
    EndsWell s s.bodyReceived s.recvPending

instance (s : H2Stream) : Decidable (TrailersClean s) :=
  inferInstanceAs (Decidable (_ → (_ → _) ∧ _))

/-- The condition on a step. -/
def Clean (c : Connection) : Label → Prop
  | .data id length pad endStream => c.block = none → length ≤ c.connRecvGrant →
      ∀ len ∈ payloadLength length pad, ∀ s ∈ c.streams.lookup id, DataClean s length len endStream
  | .headers id endStream _ => c.block = none → ∀ s ∈ c.streams.lookup id,
      s.state = .halfClosedRemote ∨ endStream = false → c.Settled id
  | .block v _ => ∀ b ∈ c.block,
      b.2.1 = .trailers → v ≠ .refused → ∀ s ∈ c.streams.lookup b.1, TrailersClean s
  | .reset id => c.block = none → c.Settled id
  | .written id => c.Settled id
  | .cut id => c.Settled id
  | _ => True

instance Clean.decidable (c : Connection) : (l : Label) → Decidable (c.Clean l)
  | .data id length pad endStream => inferInstanceAs (Decidable (_ → _ →
      ∀ len ∈ payloadLength length pad, ∀ s ∈ c.streams.lookup id, DataClean s length len endStream))
  | .headers id _ _ => inferInstanceAs (Decidable (_ → ∀ s ∈ c.streams.lookup id, _ ∨ _ → _))
  | .block v _ => inferInstanceAs (Decidable (∀ b ∈ c.block,
      b.2.1 = .trailers → v ≠ .refused → ∀ s ∈ c.streams.lookup b.1, TrailersClean s))
  | .reset _ => inferInstanceAs (Decidable (_ → _))
  | .written id => inferInstanceAs (Decidable (c.Settled id))
  | .cut id => inferInstanceAs (Decidable (c.Settled id))
  | .priority _ => .isTrue trivial
  | .read _ _ => .isTrue trivial
  | .answer _ => .isTrue trivial
  | .hold _ _ => .isTrue trivial
  | .goAway => .isTrue trivial
  | .giveUp => .isTrue trivial

/-! ## §3. The operations. -/

/-- Crediting and a change of the table do not see each other. -/
theorem returnConnWindow_streams_comm (c : Connection) (n : Nat) (l : List (Nat × H2Stream)) :
    { c.returnConnWindow n with streams := l } = { c with streams := l }.returnConnWindow n := by
  unfold Connection.returnConnWindow
  split
  · rfl
  split <;> rfl

/-- `n` bytes are credited and a stream's record is replaced. -/
theorem Owing.settle {n : Nat} (h : Owing k c)
    (hs : c.streams.lookup id = some s) (hk : s'.unread + n + k' = s.unread + k) (hok : s'.Ok) :
    Owing k' ((c.returnConnWindow n).put id s') := by
  have hput : Owing (k' + n) (c.put id s') := h.put hs (by omega) hok
  have hcomm : (c.returnConnWindow n).put id s' = (c.put id s').returnConnWindow n := by
    unfold Connection.put
    rw [returnConnWindow_streams]
    exact returnConnWindow_streams_comm c n _
  rw [hcomm]
  exact hput.returnConnWindow

/-- A settled stream is closed without loss. -/
theorem Owing.closeStream (h : Owing k c) (hset : c.Settled id) : Owing k (c.closeStream id) := by
  unfold Connection.closeStream
  cases hs : c.streams.lookup id with
  | none => exact h
  | some s =>
    dsimp only
    by_cases hclosed : s.state = .closed
    · rw [if_pos hclosed]
      exact h
    rw [if_neg hclosed]
    have hunread : s.unread = s.recvPending := if_neg hclosed
    -- what is credited is what the stream held
    obtain ⟨n, hn, heq⟩ : ∃ n, n = s.recvPending ∧
        (if s.bodyDone = false ∧ s.recvPending > 0 then c.returnConnWindow s.recvPending else c) =
          c.returnConnWindow n := by
      refine ⟨s.recvPending, rfl, ?_⟩
      split
      · rfl
      next hkeep =>
        have hzero : s.recvPending = 0 := by
          rcases hset s hs with hc | hb | hz
          · exact absurd hc hclosed
          · by_contra hne
            exact hkeep ⟨hb, by omega⟩
          · exact hz
        rw [hzero]
        rfl
    rw [heq]
    have hnote : ((c.returnConnWindow n).noteReset id).streams = c.streams := returnConnWindow_streams c n
    split
    · have hok : H2Stream.Ok { s with state := .closed, pending := none, deferRelease := true } :=
        ⟨(h.lookup hs).buffered, nofun, fun _ => .inl rfl⟩
      have hput : Owing k ((c.returnConnWindow n).put id
          { s with state := .closed, pending := none, deferRelease := true }) :=
        h.settle hs (by show 0 + n + k = _; omega) hok
      exact hput.noteReset id
    · have hdrop : Owing (k + n) { c with streams := dropAt c.streams id } :=
        h.drop hs (by omega)
      have hout := (hdrop.returnConnWindow).noteReset id
      rw [← returnConnWindow_streams_comm] at hout
      rw [hnote]
      exact hout

theorem settled_put (hs : c.streams.lookup id = some s)
    (h : s'.state = .closed ∨ s'.bodyDone = false ∨ s'.recvPending = 0) : (c.put id s').Settled id := by
  intro x hx
  rw [put_lookup hs, Option.mem_def, Option.some.injEq] at hx
  rw [← hx]
  exact h

/-- A read takes what is buffered, and that is credited. -/
theorem Owing.deliver (h : Owing k c)
    (hs : c.streams.lookup id = some s) (hk : s'.unread + k' = s.unread + k) (hok : s'.Ok)
    (hopen : s'.state ≠ .closed) : Owing k' (c.deliver id s') := by
  unfold Connection.deliver
  cases hp : s'.pending with
  | none => exact h.put hs hk hok
  | some room =>
    dsimp only
    have hle : min s'.buffered room ≤ s'.recvPending := by
      rw [hok.buffered]
      exact Nat.min_le_left _ _
    generalize min s'.buffered room = n at hle
    obtain ⟨g, u, heq⟩ := returned_eq { s' with
      pending := none, buffered := s'.buffered - n, recvPending := s'.recvPending - n } n
    unfold Connection.returnWindow
    rw [heq]
    refine h.settle hs ?_ ⟨?_, hok.draining, fun hd => (hok.deferred hd).imp_right fun hz => ⟨hz.1, ?_⟩⟩
    · rw [H2Stream.unread_eq hopen] at hk
      rw [H2Stream.unread_eq]
      · dsimp only
        omega
      · exact hopen
    · rw [hok.buffered]
    · show s'.recvPending - n = 0
      omega

theorem Owing.endOfBody (h : Owing k c)
    (hs : c.streams.lookup id = some s) (hk : s'.unread + k' = s.unread + k) (hok : s'.Ok)
    (hstate : s'.state = .halfClosedRemote) (hends : EndsWell s' s'.bodyReceived s'.recvPending) :
    Owing k' (c.endOfBody id s') := by
  have hdone : H2Stream.Ok { s' with bodyDone := true } :=
    ⟨hok.buffered, fun hst => absurd (hstate.symm.trans hst) (by simp), hok.deferred⟩
  unfold Connection.endOfBody
  dsimp only
  split
  next hbad =>
    have hput : Owing k' (c.put id { s' with bodyDone := true }) := h.put hs hk hdone
    exact hput.closeStream (settled_put hs (.inr (.inr (hends hbad))))
  · exact h.deliver hs hk hdone (by rw [hstate]; simp)

/-- DATA behind the response is credited at once. -/
theorem Owing.dropData {endStream : Bool}
    (h : Owing length c) (hs : c.streams.lookup id = some s) (hstate : s.state = .halfClosedLocal)
    (hgrant : length ≤ s.recvGrant) : Owing 0 (c.dropData id s length len endStream) := by
  unfold Connection.dropData
  rw [if_neg (by omega)]
  dsimp only
  obtain ⟨g, u, heq⟩ := returned_eq { s with recvGrant := s.recvGrant - length } length
  rw [heq]
  have hok := h.lookup hs
  have hput : Owing 0 ((c.returnConnWindow length).put id { s with
      recvGrant := g, recvUnreturned := u
      bodyReceived := s.bodyReceived + len, discarded := s.discarded + len }) :=
    h.settle hs rfl ⟨hok.buffered, hok.draining, hok.deferred⟩
  have hclose := hput.closeStream (settled_put (by rw [returnConnWindow_streams]; exact hs)
    (.inr (.inl (hok.draining hstate))))
  split
  · exact hclose
  split
  · split <;> exact hclose
  split
  · exact hclose
  · exact hput

/-- DATA for the handler: padding is credited, the rest is buffered, delivered or refused. -/
theorem Owing.takeData {endStream : Bool}
    (h : Owing length c) (hs : c.streams.lookup id = some s) (hstate : s.state = .opened)
    (hlen : len ≤ length) (hclean : DataClean s length len endStream) :
    Owing 0 (c.takeData id s length len endStream) := by
  obtain ⟨hgrant, hmore, hends⟩ := hclean.1 hstate
  have hok := h.lookup hs
  have hunread : s.unread = s.recvPending := if_neg (by rw [hstate]; simp)
  have hkept := hok.kept hstate
  unfold Connection.takeData
  rw [if_neg (by omega)]
  obtain ⟨g, u, heq⟩ := returned_eq { s with recvGrant := s.recvGrant - length } (length - len)
  rw [heq]
  dsimp only
  rw [hmore, if_neg Bool.false_ne_true]
  -- the padding is credited: `len` bytes are owed
  have hpad : Owing len (c.returnConnWindow (length - len)) := by
    apply Owing.returnConnWindow
    rw [Nat.add_sub_cancel' hlen]
    exact h
  have hs' : (c.returnConnWindow (length - len)).streams.lookup id = some s := by
    rw [returnConnWindow_streams]
    exact hs
  split
  · -- too large: the payload is credited, what was buffered stays the handler's
    refine hpad.settle hs' ?_ ⟨hok.buffered, nofun, fun hd => absurd hd hkept⟩
    rw [H2Stream.unread_eq (by simp), hunread]
    dsimp only
    omega
  next hlimit =>
    have hbuf : s.recvPending + len = s.buffered + len := by rw [hok.buffered]
    cases endStream with
    | true =>
      rw [if_pos rfl]
      refine hpad.endOfBody hs' ?_ ⟨hbuf, nofun, fun hd => absurd hd hkept⟩ rfl
        (hends rfl (by omega))
      rw [H2Stream.unread_eq (by simp), hunread]
      rfl
    | false =>
      rw [if_neg Bool.false_ne_true]
      have hopen : s.state ≠ .closed := by rw [hstate]; simp
      refine hpad.deliver hs' ?_ ⟨hbuf, hok.draining, fun hd => absurd hd hkept⟩ hopen
      rw [H2Stream.unread_eq, hunread]
      · rfl
      · exact hopen

theorem payloadLength_le {pad : Option Nat} (h : payloadLength length pad = some len) : len ≤ length := by
  cases pad with
  | none => exact Nat.le_of_eq (Option.some.inj h).symm
  | some pad =>
    have h' : (if pad + 1 > length then none else some (length - (pad + 1))) = some len := h
    split at h'
    · simp at h'
    have := Option.some.inj h'
    omega

theorem Owing.onData (id length : Nat) (pad : Option Nat) (endStream : Bool)
    (h : Owing 0 c) (hb : c.block = none) (hclean : c.Clean (.data id length pad endStream)) :
    Owing 0 (c.onData id length pad endStream) := by
  unfold Connection.onData
  split
  · exact h.connectionError
  split
  · exact h.connectionError
  next len hlen =>
    split
    · exact h.connectionError
    next hgrant =>
      -- the frame is charged
      have hcharged : Owing length { c with connRecvGrant := c.connRecvGrant - length } := by
        refine h.congr rfl (Nat.le_refl _) h.fresh ?_ h.flushed
        show c.connRecvGrant - length + c.connUnreturned + length = _
        omega
      have hback : Owing 0 (Connection.returnConnWindow
          { c with connRecvGrant := c.connRecvGrant - length } length) := by
        apply Owing.returnConnWindow
        rw [Nat.zero_add]
        exact hcharged
      have hdata := hclean hb (by omega) len hlen
      dsimp only
      split
      · split
        · exact hback.connectionError
        · exact hback
      next s hs =>
        have hds := hdata s hs
        have hset : (s.state = .closed ∨ s.bodyDone = false ∨ s.recvPending = 0) →
            (Connection.returnConnWindow { c with connRecvGrant := c.connRecvGrant - length }
              length).Settled id := by
          intro hcase x hx
          rw [returnConnWindow_streams, Option.mem_def] at hx
          cases hs.symm.trans hx
          exact hcase
        cases hst : s.state with
        | opened => exact hcharged.takeData hs hst (payloadLength_le hlen) hds
        | halfClosedLocal => exact hcharged.dropData hs hst (hds.2.1 hst)
        | halfClosedRemote => exact hback.closeStream (hset (.inr (hds.2.2 hst)))
        | closed => exact hback.closeStream (hset (.inl hst))

theorem Owing.readBody (id room : Nat) (h : Owing 0 c) : Owing 0 (c.readBody id room) := by
  unfold Connection.readBody
  split
  · exact h
  next s hs =>
    have hok := h.lookup hs
    split
    · exact h
    next hgo =>
      have hopen : s.state ≠ .closed := fun hc => hgo (.inr (.inr hc))
      split
      · exact h.deliver hs rfl ⟨hok.buffered, hok.draining, hok.deferred⟩ hopen
      · exact h.put hs rfl ⟨hok.buffered, hok.draining, hok.deferred⟩

theorem Owing.onStreamWritten (id : Nat) (h : Owing 0 c) (hset : c.Settled id) :
    Owing 0 (c.onStreamWritten id) := by
  unfold Connection.onStreamWritten
  split
  · exact h
  next s hs =>
    have hok := h.lookup hs
    split
    next hdrain =>
      have hopen : s.state ≠ .closed := by rw [hdrain.2.2.1]; simp
      refine h.put hs ?_ ⟨hok.buffered, fun _ => hdrain.2.1, fun hd => absurd hd (hok.kept hdrain.2.2.1)⟩
      rw [H2Stream.unread_eq (by simp), H2Stream.unread_eq hopen]
    · exact h.closeStream hset

/-! ## §4. Header blocks. -/

theorem returnConnWindow_frame (c : Connection) (n : Nat) :
    (c.returnConnWindow n).lastStreamId = c.lastStreamId ∧ (c.returnConnWindow n).block = c.block := by
  unfold Connection.returnConnWindow
  split
  · exact ⟨rfl, rfl⟩
  split
  · exact ⟨rfl, rfl⟩
  · exact ⟨rfl, rfl⟩

/-- A close takes no new id into the table. -/
theorem closeStream_frame (c : Connection) (id : Nat) :
    (∀ i ∈ (c.closeStream id).streams.map Prod.fst, i ∈ c.streams.map Prod.fst) ∧
      (c.closeStream id).lastStreamId = c.lastStreamId ∧ (c.closeStream id).block = c.block := by
  unfold Connection.closeStream
  split
  · exact ⟨fun _ hi => hi, rfl, rfl⟩
  next s _ =>
    split
    · exact ⟨fun _ hi => hi, rfl, rfl⟩
    have hsame : (if s.bodyDone = false ∧ s.recvPending > 0 then c.returnConnWindow s.recvPending
          else c).streams = c.streams ∧
        (if s.bodyDone = false ∧ s.recvPending > 0 then c.returnConnWindow s.recvPending
          else c).lastStreamId = c.lastStreamId ∧
        (if s.bodyDone = false ∧ s.recvPending > 0 then c.returnConnWindow s.recvPending
          else c).block = c.block := by
      split
      · exact ⟨returnConnWindow_streams _ _, returnConnWindow_frame _ _⟩
      · exact ⟨rfl, rfl, rfl⟩
    generalize (if s.bodyDone = false ∧ s.recvPending > 0 then c.returnConnWindow s.recvPending
      else c) = c' at hsame
    obtain ⟨hstr, hframe⟩ := hsame
    split
    · refine ⟨?_, hframe⟩
      intro i hi
      have hi' : i ∈ (setAt c'.streams id
          { s with state := .closed, pending := none, deferRelease := true }).map Prod.fst := hi
      rwa [keys_setAt, hstr] at hi'
    · refine ⟨?_, hframe⟩
      intro i hi
      have hi' : i ∈ (dropAt c'.streams id).map Prod.fst := hi
      obtain ⟨p, hp, rfl⟩ := List.mem_map.mp hi'
      rw [hstr] at hp
      exact List.mem_map_of_mem (mem_dropAt.mp hp).1

theorem Owing.onHeaders (id : Nat) (endStream selfDependent : Bool) (h : Owing 0 c)
    (hb : c.block = none) (hclean : c.Clean (.headers id endStream selfDependent)) :
    Owing 0 (c.onHeaders id endStream selfDependent) := by
  unfold Connection.onHeaders
  split
  · exact h.connectionError
  split
  next s hs =>
    have hlookup : c.streams.lookup id = some s := by
      split at hs
      · exact hs
      · simp at hs
    split
    next hbad =>
      have hset : c.Settled id := by
        by_cases hc : s.state = .closed
        · intro x hx
          cases hlookup.symm.trans hx
          exact .inl hc
        · apply hclean hb s hlookup
          rcases hbad with hr | hc' | he
          · exact .inl hr
          · exact absurd hc' hc
          · exact .inr he
      have hclosed := h.closeStream hset
      exact hclosed.congr rfl (Nat.le_refl _) (fun i e hblock => absurd hblock (by simp)) rfl
        hclosed.flushed
    · exact h.congr rfl (Nat.le_refl _) (fun i e hblock => absurd hblock (by simp)) rfl h.flushed
  · split
    · exact h.connectionError
    next hnew =>
      have hlt : c.lastStreamId < id := by omega
      refine h.congr rfl (Nat.le_of_lt hlt) ?_ rfl h.flushed
      intro i e hblock
      obtain ⟨rfl, -⟩ := Prod.mk.inj (Option.some.inj hblock)
      exact ⟨fun hmem => absurd (h.opened id hmem) (by omega), Nat.le_refl _⟩

/-- A stream is opened. -/
theorem Owing.opens (h : Owing 0 c) (hb : c.block = none)
    (hfresh : id ∉ c.streams.map Prod.fst) (hle : id ≤ c.lastStreamId) :
    Owing 0 { c with streams := c.streams ++ [(id, ({} : H2Stream))] } := by
  have hkeys : (c.streams ++ [(id, ({} : H2Stream))]).map Prod.fst = c.streams.map Prod.fst ++ [id] := by
    rw [List.map_append]
    rfl
  refine ⟨?_, ?_, ?_, ?_, ?_, h.flushed⟩
  · rw [hkeys]
    apply List.nodup_append.mpr
    refine ⟨h.nodup, by simp, ?_⟩
    intro i hi j hj
    rw [List.mem_singleton] at hj
    subst hj
    rintro rfl
    exact hfresh hi
  · show ∀ i ∈ (c.streams ++ [(id, ({} : H2Stream))]).map Prod.fst, i ≤ c.lastStreamId
    rw [hkeys]
    intro i hi
    rcases List.mem_append.mp hi with hi | hi
    · exact h.opened i hi
    rw [List.mem_singleton] at hi
    omega
  · intro i e hblock
    cases hb.symm.trans hblock
  · intro p hp
    rcases List.mem_append.mp hp with hp | hp
    · exact h.streams p hp
    rw [List.mem_singleton] at hp
    subst hp
    exact ⟨rfl, fun _ => rfl, nofun⟩
  · rw [total_append]
    exact h.conserved

theorem Owing.beginRequest (h : Owing 0 c)
    (hs : c.streams.lookup id = some {}) (endStream : Bool) (v : Verdict) :
    Owing 0 (c.beginRequest id endStream v) := by
  have hfree : ∀ s : H2Stream, s.recvPending = 0 → s.buffered = 0 → s.state ≠ .halfClosedLocal →
      s.deferRelease = false → Owing 0 (c.put id s) := by
    intro s hp hbuf hst hkept
    refine h.put hs ?_ ⟨hp.trans hbuf.symm, fun hl => absurd hl hst, fun hd => nomatch hkept.symm.trans hd⟩
    unfold H2Stream.unread
    rw [hp, ite_self]
    rfl
  cases v with
  | refused => exact h.connectionError
  | malformed =>
    apply h.closeStream
    intro x hx
    cases hs.symm.trans hx
    exact .inr (.inr rfl)
  | overflow => exact hfree _ rfl rfl (by simp) rfl
  | request contentLength bodyLimit =>
    unfold Connection.beginRequest
    dsimp only
    split
    · split
      · refine (hfree _ rfl rfl (by simp) rfl).closeStream (settled_put hs (.inr (.inr rfl)))
      · exact hfree _ rfl rfl (by simp) rfl
    split
    · exact hfree _ rfl rfl (by simp) rfl
    split
    · exact hfree _ rfl rfl (by simp) rfl
    · exact hfree _ rfl rfl (by simp) rfl

/-- The stream that gives its slot up had its body not done. -/
theorem Owing.evict (h : Owing 0 c) (evicted : Option Nat) : Owing 0 (c.evict evicted) ∧
      (∀ i ∈ (c.evict evicted).streams.map Prod.fst, i ∈ c.streams.map Prod.fst) ∧
      (c.evict evicted).lastStreamId = c.lastStreamId ∧ (c.evict evicted).block = c.block := by
  unfold Connection.evict
  split
  · exact ⟨h, fun _ hi => hi, rfl, rfl⟩
  next id =>
    split
    · exact ⟨h, fun _ hi => hi, rfl, rfl⟩
    next s hs =>
      split
      next hlocal =>
        refine ⟨h.closeStream ?_, closeStream_frame c id⟩
        intro x hx
        cases hs.symm.trans hx
        exact .inr (.inl ((h.lookup hs).draining hlocal))
      · exact ⟨h, fun _ hi => hi, rfl, rfl⟩

theorem Owing.openRequest (h : Owing 0 c) (hb : c.block = none)
    (hfresh : id ∉ c.streams.map Prod.fst) (hle : id ≤ c.lastStreamId) (endStream : Bool)
    (v : Verdict) (evicted : Option Nat) : Owing 0 (c.openRequest id endStream v evicted) := by
  unfold Connection.openRequest
  split
  · exact h
  dsimp only
  have hroom : Owing 0 (if c.streams.length ≥ c.maxConcurrent then c.evict evicted else c) ∧
      (∀ i ∈ (if c.streams.length ≥ c.maxConcurrent then c.evict evicted else c).streams.map Prod.fst,
        i ∈ c.streams.map Prod.fst) ∧
      (if c.streams.length ≥ c.maxConcurrent then c.evict evicted else c).lastStreamId =
        c.lastStreamId ∧
      (if c.streams.length ≥ c.maxConcurrent then c.evict evicted else c).block = c.block := by
    split
    · exact h.evict evicted
    · exact ⟨h, fun _ hi => hi, rfl, rfl⟩
  generalize (if c.streams.length ≥ c.maxConcurrent then c.evict evicted else c) = c' at hroom
  obtain ⟨h', hkeys, hlast, hblock⟩ := hroom
  split
  · exact h'
  have hfresh' : id ∉ c'.streams.map Prod.fst := fun hmem => hfresh (hkeys id hmem)
  have hopened := h'.opens (hblock.trans hb) hfresh' (by omega)
  apply hopened.beginRequest
  have hnone : c'.streams.lookup id = none := by
    rw [List.lookup_eq_none_iff]
    intro p hp
    apply bne_iff_ne.mpr
    rintro rfl
    exact hfresh' (List.mem_map_of_mem hp)
  rw [List.lookup_append, hnone]
  simp

theorem Owing.finishBlock (v : Verdict) (evicted : Option Nat) (h : Owing 0 c)
    (hclean : c.Clean (.block v evicted)) : Owing 0 (c.finishBlock v evicted) := by
  unfold Connection.finishBlock
  split
  · exact h
  next id kind endStream hblock =>
    have hdone : Owing 0 { c with block := none } :=
      h.congr rfl (Nat.le_refl _) (fun i e hb => absurd hb (by simp)) rfl h.flushed
    cases kind with
    | request =>
      obtain ⟨hfresh, hle⟩ := h.fresh id endStream hblock
      exact hdone.openRequest rfl hfresh hle endStream v evicted
    | discard =>
      dsimp only
      split
      · exact hdone.connectionError
      · exact hdone
    | trailers =>
      dsimp only
      split
      · exact hdone.connectionError
      next hv =>
        split
        · exact hdone
        next s hs =>
          have hok := h.lookup hs
          split
          next hlocal =>
            apply hdone.closeStream
            intro x hx
            cases hs.symm.trans hx
            exact .inr (.inl (hok.draining hlocal))
          next hlocal =>
            obtain ⟨hclosed, hends⟩ := hclean _ hblock rfl hv s hs hlocal
            refine hdone.endOfBody hs ?_ ⟨hok.buffered, nofun, fun hd => .inr ⟨rfl, ?_⟩⟩ rfl hends
            rw [H2Stream.unread_eq (by simp)]
            -- a stream closed meanwhile comes back with nothing unread
            by_cases hc : s.state = .closed
            · unfold H2Stream.unread
              rw [if_pos hc]
              exact hclosed hc
            · rw [H2Stream.unread_eq hc]
            · exact (hok.deferred hd).elim hclosed And.right

theorem Owing.hold (id : Nat) (held : Bool) (h : Owing 0 c) : Owing 0 (c.hold id held) := by
  unfold Connection.hold
  split
  · exact h
  next s hs =>
    split
    next hgone =>
      apply h.drop hs
      unfold H2Stream.unread
      rcases (h.lookup hs).deferred hgone.1 with hc | ⟨-, hz⟩
      · rw [if_pos hc]
      · rw [hz, ite_self]
    · exact h.put hs rfl ⟨(h.lookup hs).buffered, (h.lookup hs).draining, (h.lookup hs).deferred⟩

/-! ## §5. Runs. -/

/-- **Step lemma.** -/
theorem owing_step (c : Connection) (l : Label) (c' : Connection) (h : Owing 0 c) (hclean : c.Clean l)
    (hstep : step c l = some c') : Owing 0 c' := by
  have hframe : ∀ next : Connection, (c.block = none → Owing 0 next) → Owing 0 (c.frame next) := by
    intro next hnext
    unfold Connection.frame
    split
    · exact h.connectionError
    next hb => exact hnext (by simpa using hb)
  unfold Connection.step at hstep
  split at hstep
  · simp at hstep
  cases l with
  | data id length pad endStream =>
    cases hstep
    exact hframe _ fun hb => h.onData id length pad endStream hb hclean
  | headers id endStream selfDependent =>
    cases hstep
    exact hframe _ fun hb => h.onHeaders id endStream selfDependent hb hclean
  | block v evicted =>
    cases hstep
    exact h.finishBlock v evicted hclean
  | reset id =>
    cases hstep
    exact hframe _ fun hb => h.closeStream (hclean hb)
  | priority id =>
    cases hstep
    apply hframe
    intro _
    split
    · exact h.noteReset id
    · exact h
  | read id room =>
    cases hstep
    exact h.readBody id room
  | written id =>
    cases hstep
    exact h.onStreamWritten id hclean
  | cut id =>
    cases hstep
    exact h.closeStream hclean
  | answer id =>
    cases hstep
    split
    · exact h
    next s hs => exact h.put hs rfl ⟨(h.lookup hs).buffered, (h.lookup hs).draining, (h.lookup hs).deferred⟩
  | hold id held =>
    cases hstep
    exact h.hold id held
  | goAway =>
    cases hstep
    exact h.congr rfl (Nat.le_refl _) h.fresh rfl h.flushed
  | giveUp =>
    cases hstep
    exact h.connectionError

/-- **The receive window is conserved** in every run whose steps are clean, and with all streams
    closed the client can send a quarter of it. -/
theorem receive_windows_conserved (maxConcurrent : Nat) (ls : List Label) (c : Connection)
    (hrun : run step (start maxConcurrent) ls = some c) (hok : Meets step Clean (start maxConcurrent) ls) :
    c.connRecvGrant + c.connUnreturned + total H2Stream.unread c.streams = kConnectionWindow ∧
      ((∀ p ∈ c.streams, p.2.state = .closed) → kConnectionWindow / 4 ≤ c.connRecvGrant) := by
  have hinv : Owing 0 c := run_invariant owing_step (owing_start maxConcurrent) hrun hok
  refine ⟨hinv.conserved, ?_⟩
  intro hclosed
  have hzero : total H2Stream.unread c.streams = 0 := by
    apply total_eq_zero
    intro p hp
    exact if_pos (hclosed p hp)
  have hcons := hinv.conserved
  have hflushed := hinv.flushed
  unfold kConnectionWindow at *
  omega

/-- An upload in two frames, one padded, read and answered. -/
def uploadRead : List Label :=
  [.headers 1 false false, .block (.request (some 1500) 100000) none, .data 1 1010 (some 9) false,
    .read 1 4096, .data 1 500 none true, .read 1 4096, .answer 1, .written 1]

theorem receive_windows_conserved_upload : Meets step Clean (start 100) uploadRead ∧
      ∃ c, run step (start 100) uploadRead = some c ∧ c.streams = [] ∧
        c.connRecvGrant = kConnectionWindow - 1510 ∧
        c.connRecvGrant + c.connUnreturned + total H2Stream.unread c.streams = kConnectionWindow ∧
        ((∀ p ∈ c.streams, p.2.state = .closed) → kConnectionWindow / 4 ≤ c.connRecvGrant) := by
  have hok : Meets step Clean (start 100) uploadRead := by decide +kernel
  refine ⟨hok, _, rfl, by decide +kernel, by decide +kernel, ?_⟩
  exact receive_windows_conserved 100 uploadRead _ rfl hok

/-- An upload that arrives whole, is never read and then reset by the client. -/
def uploadUnread : List Label :=
  [.headers 1 false false, .block (.request none 1048576) none] ++
    List.replicate 48 (.data 1 16384 none false) ++ [.data 1 16384 none true, .reset 1]

/-- Its bytes are lost to the window: nothing is open, and less than a quarter can be sent. -/
theorem window_lost_on_close :
    ∃ c, run step (start 100) uploadUnread = some c ∧ c.closing = false ∧ c.streams = [] ∧
      c.connRecvGrant + c.connUnreturned + total H2Stream.unread c.streams ≠ kConnectionWindow ∧
      ¬ kConnectionWindow / 4 ≤ c.connRecvGrant := by
  refine ⟨_, rfl, ?_⟩
  decide +kernel

end Connection

end Agensio.Http2
