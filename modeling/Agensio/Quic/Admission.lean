/-
  Agensio.Quic.Admission — client streams open once and within the limit.

  `incoming_stream` opens a stream for a client id it neither finds nor
  knows as closed, below the limit last advertised.  What it knows is two
  counters and a bitmap of 1,024 closed indices per kind, which shifts as
  higher ids open (`Grows` of `View`: an index once known as closed stays
  so); the limit advances when MAX_STREAMS goes into a packet, by the
  number of streams closed until then.

  `Admission` is the connection with two HISTORY VARIABLES: the calls of
  `on_new_stream`, each with the largest MAX_STREAMS advertised by then,
  and that largest value.  Every id ever opened is open or known as
  closed, so what was opened of a kind is counted by the open streams
  and the closed counter together; distinct indices below the advertised
  limit are no more than it, and the limit is at most the closed counter
  and the configured number.

  Main result: `client_streams_open_once`.
-/
import Agensio.Quic.Table
import Mathlib.Data.List.Perm.Subperm

namespace Agensio.Quic

open Agensio.Lib

/-! ## §1. The stream counters. -/

/-- The counters behind MAX_STREAMS, by kind (`true` for bidirectional). -/
structure Tally where
  advertised : Bool → Nat
  ourMax : Bool → Nat
  closed : Bool → Nat
  limit : Bool → Nat

/-- MAX_STREAMS goes out. -/
def Tally.announce (t : Tally) : Tally := { t with advertised := t.ourMax }

/-- One more stream of the kind is closed. -/
def Tally.close (t : Tally) (bidi : Bool) : Tally :=
  { t with
    closed := Function.update t.closed bidi (t.closed bidi + 1)
    ourMax := Function.update t.ourMax bidi (t.closed bidi + 1 + t.limit bidi) }

/-- The advertised limit of a kind, which the peer was told, exceeds the closed streams by at most
    the configured limit. -/
structure Tally.Sound (limit told : Bool → Nat) (t : Tally) : Prop where
  limit : t.limit = limit
  told : told = t.advertised
  advertised_le : ∀ bidi, t.advertised bidi ≤ t.ourMax bidi
  ourMax : ∀ bidi, t.ourMax bidi = t.closed bidi + t.limit bidi

theorem Tally.close_closed_self (t : Tally) (bidi : Bool) :
    (t.close bidi).closed bidi = t.closed bidi + 1 := Function.update_self ..

variable {bidi : Bool}

theorem Tally.close_closed_other (t : Tally) {kind : Bool} (h : bidi ≠ kind) :
    (t.close kind).closed bidi = t.closed bidi := Function.update_of_ne h ..

theorem Tally.close_ourMax_self (t : Tally) (bidi : Bool) :
    (t.close bidi).ourMax bidi = t.closed bidi + 1 + t.limit bidi := Function.update_self ..

theorem Tally.close_ourMax_other (t : Tally) {kind : Bool} (h : bidi ≠ kind) :
    (t.close kind).ourMax bidi = t.ourMax bidi := Function.update_of_ne h ..

theorem Tally.Sound.announce {limit told : Bool → Nat} {t : Tally} (h : t.Sound limit told) :
    t.announce.Sound limit t.ourMax :=
  ⟨h.limit, rfl, fun _ => Nat.le_refl _, h.ourMax⟩

theorem Tally.Sound.close {limit told : Bool → Nat} {t : Tally} (h : t.Sound limit told)
    (kind : Bool) : (t.close kind).Sound limit told := by
  refine ⟨h.limit, h.told, fun bidi => ?_, fun bidi => ?_⟩
  · have hadv := h.advertised_le bidi
    have hmax := h.ourMax bidi
    show t.advertised bidi ≤ _
    by_cases hb : bidi = kind
    · rw [hb] at hadv hmax ⊢
      rw [Tally.close_ourMax_self]
      omega
    · rw [Tally.close_ourMax_other t hb]
      exact hadv
  · show _ = _ + t.limit bidi
    by_cases hb : bidi = kind
    · rw [hb, Tally.close_ourMax_self, Tally.close_closed_self]
    rw [Tally.close_ourMax_other t hb, Tally.close_closed_other t hb]
    exact h.ourMax bidi

namespace Conn

variable {c c' : Conn} {p : Ptr}

def tally (c : Conn) : Tally where
  advertised := c.advertised
  ourMax := fun bidi => if bidi then c.ourMaxStreamsBidi else c.ourMaxStreamsUni
  closed := fun bidi => if bidi then c.closedBidi else c.closedUni
  limit := fun bidi => if bidi then c.limits.maxStreamsBidi else c.limits.maxStreamsUni

theorem tally_of_linkOnly (h : LinkOnly c c') : c'.tally = c.tally := by
  obtain ⟨_, _, _, _, rfl⟩ := h
  rfl

theorem tally_of_counters (h : c'.counters = c.counters) : c'.tally = c.tally := by
  simp only [counters, Prod.mk.injEq] at h
  obtain ⟨hl, hab, hau, hmb, hmu, hcb, hcu⟩ := h
  unfold tally advertised
  rw [hl, hab, hau, hmb, hmu, hcb, hcu]

/-- **The counters move when a stream is closed or a limit is told**, and by nothing else. -/
theorem tally_tour : Tour fun c c' => c'.tally = c.tally where
  refl := fun _ => rfl
  trans := fun h h' => h'.trans h
  rest := fun _ _ hc => tally_of_counters hc
  touch := fun _ _ _ _ _ => rfl
  blank := fun _ _ => rfl
  push := fun _ _ _ => rfl
  enqueue := fun c p => tally_of_linkOnly (enqueue_linkOnly c p)
  dequeue := fun c p => tally_of_linkOnly (dequeue_linkOnly c p)
  rotate := fun c => tally_of_linkOnly (rotate_linkOnly c)

theorem tally_countClosed (c : Conn) (id : Nat) :
    (c.countClosed id).tally = c.tally.close (streamIsBidi id) := by
  unfold countClosed tally Tally.close
  cases streamIsBidi id with
  | true =>
    rw [if_pos rfl]
    congr 1 <;> funext b <;> cases b <;> rfl
  | false =>
    rw [if_neg Bool.false_ne_true]
    congr 1 <;> funext b <;> cases b <;> rfl

theorem tally_closeStream (hc : streamIsClient (c.streams p).id = true) :
    (c.closeStream p).tally = c.tally.close (streamIsBidi (c.streams p).id) := by
  have hrel : ∀ k : Conn, (k.release p).tally = k.tally := by
    intro k
    unfold release
    split
    · split <;> rfl
    · rfl
  have hdrop := tally_of_linkOnly (dequeue_linkOnly c p)
  unfold closeStream
  rw [hrel]
  unfold streamClosed
  dsimp only
  rw [if_pos hc]
  show (Conn.countClosed _ _).tally = _
  rw [tally_countClosed]
  exact congrArg (fun t : Tally => t.close (streamIsBidi (c.streams p).id)) hdrop

theorem tally_applyLost (c : Conn) (it : SentItem) : (c.applyLost it).tally = c.tally := by
  cases it with
  | stream id offset len fin =>
    unfold applyLost
    dsimp only
    split
    · rfl
    next p _ =>
    split
    · rfl
    split
    · exact tally_tour.enqueue (c.modify p _) p
    · rfl
  | maxStreamData id =>
    unfold applyLost
    dsimp only
    split
    · rfl
    split
    · exact tally_tour.grant ..
    · rfl
  | resetStream id =>
    unfold applyLost
    dsimp only
    split
    · rfl
    · split <;> rfl
  | stopSending id =>
    unfold applyLost
    dsimp only
    split
    · rfl
    · split <;> rfl
  | maxData => rfl
  | maxStreams => rfl

theorem tally_controlTurn (c : Conn) (room : Nat) : (c.controlTurn room).conn.tally = c.tally := by
  have hreset : ∀ p, (c.putReset p room).1.tally = c.tally := by
    intro p
    unfold putReset
    dsimp only
    split
    · rfl
    · split <;> rfl
  have hstop : ∀ (k : Conn) (p : Ptr) (room' : Nat), (k.putStop p room').1.tally = k.tally := by
    intro k p room'
    unfold putStop
    dsimp only
    split
    · rfl
    · split <;> rfl
  unfold controlTurn
  split
  · rfl
  next p rest _ =>
  have h₁ := hreset p
  cases hr : c.putReset p room with
  | mk c₁ r =>
    obtain ⟨fs, ok⟩ := r
    rw [hr] at h₁
    cases ok with
    | false => exact h₁
    | true =>
      dsimp only
      have h₂ := hstop c₁ p (room - (fs.map OutFrame.size).sum)
      cases hs : c₁.putStop p (room - (fs.map OutFrame.size).sum) with
      | mk c₂ r₂ =>
        obtain ⟨gs, ok₂⟩ := r₂
        rw [hs] at h₂
        cases ok₂ with
        | false => exact h₂.trans h₁
        | true =>
          dsimp only
          split
          · exact (tally_tour.dequeue ((c₂.setControl rest).modify p _) p).trans (h₂.trans h₁)
          · exact h₂.trans h₁

/-- **What a step does to the counters.** -/
theorem step_tally {op : Op} (h : TableInv c) (hs : c.step op = some c') :
    (c'.tally = c.tally ∧ ∀ p, op ≠ .closeStream p) ∨
    ((∃ room eliciting, op = .maxStreamsTurn room eliciting) ∧ c'.tally = c.tally.announce) ∨
    ∃ p, op = .closeStream p ∧ p ∈ c.active ∧ c' = c.closeStream p ∧
      c'.tally = c.tally.close (streamIsBidi (c.streams p).id) := by
  cases op with
  | closeStream p =>
    simp only [step, Option.ite_none_right_eq_some, Option.some.injEq] at hs
    obtain ⟨⟨hp, -⟩, rfl⟩ := hs
    exact .inr (.inr ⟨p, rfl, hp, rfl, tally_closeStream (h.active_client p hp)⟩)
  | maxStreamsTurn room eliciting =>
    simp only [step, Option.ite_none_left_eq_some, Option.some.injEq] at hs
    obtain ⟨-, rfl⟩ := hs
    unfold maxStreamsTurn
    dsimp only
    split
    · refine .inr (.inl ⟨⟨room, eliciting, rfl⟩, ?_⟩)
      unfold tally Tally.announce advertised
      rfl
    · exact .inl ⟨rfl, by simp⟩
  | streamReady p =>
    cases hs
    exact .inl ⟨tally_tour.enqueue c p, by simp⟩
  | close appError code reason =>
    cases hs
    exact .inl ⟨(tally_tour.walk 0).close .., by simp⟩
  | _ =>
    simp only [step, Option.ite_none_right_eq_some, Option.ite_none_left_eq_some, Option.some.injEq] at hs
    obtain ⟨-, rfl⟩ := hs
    refine .inl ⟨?_, by simp⟩
    first
      | exact tally_tour.openOwn ..
      | exact (tally_tour.walk _).streamConsumed (fun c m => tally_tour.grant _ m c) _
      | exact (tally_tour.walk _).streamWindow (fun c m => tally_tour.grant _ m c) _
      | exact tally_tour.streamReset ..
      | exact tally_tour.streamStopSending ..
      | exact tally_tour.handleFrame ..
      | exact tally_tour.applyAcked ..
      | exact tally_applyLost ..
      | exact tally_controlTurn ..
      | exact tally_tour.streamTurn ..
      | rfl
      | exact tally_tour.maxDataTurn ..
      | exact tally_tour.creditTurn ..

/-! ## §2. The open streams. -/

/-- The ids of the peer's open streams. -/
def roster (c : Conn) : List Nat := c.active.map fun p => (c.streams p).id

/-- The same streams, and no id forgotten. -/
structure SameRoster (c c' : Conn) : Prop where
  roster : c'.roster = c.roster
  grows : Grows c c'

theorem SameRoster.trans {a b c : Conn} (h : SameRoster a b) (h' : SameRoster b c) : SameRoster a c :=
  ⟨h'.roster.trans h.roster, h.grows.trans h'.grows⟩

theorem roster_congr (ha : c'.active = c.active)
    (hid : ∀ q ∈ c.active, (c'.streams q).id = (c.streams q).id) : c'.roster = c.roster := by
  unfold roster
  rw [ha]
  exact List.map_congr_left hid

theorem SameRoster.of_same (h : SameReceive c c') : SameRoster c c' :=
  ⟨roster_congr h.active fun q _ => h.id q, h.grows⟩

theorem SameRoster.of_receive (h : ReceiveOp p c c') : SameRoster c c' :=
  ⟨roster_congr h.active fun q _ => h.id q, h.grows⟩

theorem SameRoster.of_quiet (h : Quiet c c') : SameRoster c c' :=
  .of_same (SameReceive.of_quiet h)

theorem SameRoster.of_linkOnly (h : LinkOnly c c') : SameRoster c c' :=
  .of_same (SameReceive.of_linkOnly h)

theorem sameRoster_openOwn {head : Bytes} {trim : Bool} (hp : p ∈ ownStreams) (h : TableInv c) :
    SameRoster c (c.openOwn p head trim) := by
  rcases openOwn_cases c p head trim with hq | ⟨k, id, maxSend, hk, -, hq⟩
  · exact .of_quiet hq
  have hck := SameReceive.of_quiet hk
  refine (SameRoster.of_quiet hk).trans (SameRoster.trans ⟨?_, Grows.modify k p _⟩ (.of_quiet hq))
  refine roster_congr rfl fun q hm => ?_
  rw [streams_modify_of_ne k _]
  intro he
  rw [hck.active] at hm
  exact h.active_not_own (he ▸ hm) hp

/-- A new client stream: its id was neither open nor known, and joins the open ones. -/
structure OpensStream (id : Nat) (c c' : Conn) : Prop where
  client : streamIsClient id = true
  below : id / 4 < c.advertised (streamIsBidi id)
  unopened : id ∉ c.roster
  unknown : c.knownClosed (streamIsBidi id) (id / 4) = false
  roster : c'.roster = c.roster ++ [id]
  grows : Grows c c'

variable {k : Conn}

theorem OpensStream.andThen {id : Nat} (h : OpensStream id c k) (h' : SameRoster k c') :
    OpensStream id c c' :=
  ⟨h.client, h.below, h.unopened, h.unknown, h'.roster.trans h.roster, h.grows.trans h'.grows⟩

theorem openStream_opens {id : Nat} (h : TableInv c) (hc : streamIsClient id = true)
    (hf : c.findStream id = none) (hl : id / 4 < c.advertised (streamIsBidi id))
    (hk : c.knownClosed (streamIsBidi id) (id / 4) = false) : OpensStream id c (c.openStream id).1 := by
  have hspec := openStream_spec id h
  refine ⟨hc, hl, fun hm => ?_, hk, ?_, hspec.grows⟩
  · obtain ⟨q, hq, hid⟩ := List.mem_map.mp hm
    exact h.id_ne hf hq hid
  · unfold roster
    rw [hspec.active, List.map_append, List.map_singleton, hspec.id_eq]
    congr 1
    refine List.map_congr_left fun q hq => ?_
    have hne : q ≠ (c.openStream id).2 := fun he => hspec.fresh.1 (he ▸ hq)
    exact congrArg StreamView.id (hspec.others q hne)

/-! ## §3. Calls of `on_new_stream`. -/

/-- `incoming_stream` calls `on_new_stream` for this id. -/
def incomingOpens (c : Conn) (id : Nat) : Option Nat :=
  if streamIsClient id ∧ id / 4 < c.advertised (streamIsBidi id) ∧ c.findStream id = none ∧
      c.knownClosed (streamIsBidi id) (id / 4) = false then some id
  else none

def sendOpens (c : Conn) (id : Nat) : Option Nat :=
  if streamIsClient id then c.incomingOpens id else none

/-- The stream `handle_frame` opens. -/
def frameOpens (c : Conn) (f : Frame) (sec : Int) : Option Nat :=
  match f with
  | .resetStream id _ _ =>
    match c.countReset sec with
    | (_, false) => none
    | (c₁, true) => c₁.incomingOpens id
  | .stopSending id _ =>
    if streamIsClient id && !streamIsBidi id then none
    else
      match c.countReset sec with
      | (_, false) => none
      | (c₁, true) => c₁.sendOpens id
  | .maxStreamData id _ => if streamIsClient id && !streamIsBidi id then none else c.sendOpens id
  | .stream id _ _ _ => c.incomingOpens id
  | _ => none

/-- What a frame does to the open streams: nothing, or one is opened. -/
inductive Admits (c c' : Conn) : Option Nat → Prop where
  | same (h : SameRoster c c') : Admits c c' none
  | opens {id : Nat} (h : OpensStream id c c') : Admits c c' (some id)

theorem Admits.andThen {o : Option Nat} (h : Admits c k o) (h' : SameRoster k c') : Admits c c' o := by
  cases h with
  | same h => exact .same (h.trans h')
  | opens h => exact .opens (h.andThen h')

theorem incomingStream_admits (h : TableInv c) (id : Nat) :
    Admits c (c.incomingStream id).1 (c.incomingOpens id) := by
  unfold incomingOpens incomingStream
  by_cases hc : streamIsClient id = true
  · rw [if_neg (by simp [hc])]
    by_cases hl : id / 4 < c.advertised (streamIsBidi id)
    · rw [if_neg (Nat.not_le.mpr hl)]
      cases hf : c.findStream id with
      | some p =>
        dsimp only
        rw [if_neg fun hx => Option.some_ne_none p hx.2.2.1]
        exact .same (.of_quiet (Quiet.refl c))
      | none =>
        cases hk : c.knownClosed (streamIsBidi id) (id / 4) with
        | true =>
          rw [if_pos rfl, if_neg (by simp)]
          exact .same (.of_quiet (Quiet.refl c))
        | false =>
          rw [if_neg Bool.false_ne_true, if_pos ⟨hc, hl, rfl, rfl⟩]
          exact .opens (openStream_opens h hc hf hl hk)
    · rw [if_pos (Nat.not_lt.mp hl), if_neg fun hx => hl hx.2.1]
      exact .same (.of_quiet (quiet_fail ..))
  · rw [if_pos (by simpa using hc), if_neg fun hx => hc hx.1]
    exact .same (.of_quiet (quiet_fail ..))

theorem sendStream_admits (h : TableInv c) (id : Nat) : Admits c (c.sendStream id).1 (c.sendOpens id) := by
  unfold sendStream sendOpens
  split
  · exact incomingStream_admits h id
  · exact .same (.of_quiet (Quiet.refl c))

theorem Admits.after {o : Option Nat} (hn : Noted c k) (h : Admits k c' o) : Admits c c' o := by
  have hs : SameRoster c k := .of_quiet hn.quiet
  cases h with
  | same h => exact .same (hs.trans h)
  | opens h =>
    refine .opens ⟨h.client, ?_, ?_, ?_, h.roster.trans (by rw [hs.roster]), hs.grows.trans h.grows⟩
    · rw [← hn.advertised]
      exact h.below
    · rw [← hs.roster]
      exact h.unopened
    · rw [← hn.knownClosed]
      exact h.unknown

/-- **A frame of the peer** opens the stream `frameOpens` names, and no other. -/
theorem handleFrame_admits (h : TableInv c) (f : Frame) (sec : Int) :
    Admits c (c.handleFrame f sec) (c.frameOpens f sec) := by
  cases f with
  | resetStream id code finalSize =>
    unfold handleFrame frameOpens
    have hcount := quiet_countReset c sec
    cases hr : c.countReset sec with
    | mk c₁ go =>
      rw [hr] at hcount
      cases go with
      | false => exact .same (.of_quiet hcount)
      | true =>
        dsimp only
        have hn := countReset_noted hr
        have hin := incomingStream_admits (table_of_same (SameReceive.of_quiet hn.quiet) h) id
        cases hi : c₁.incomingStream id with
        | mk c₂ r =>
          rw [hi] at hin
          cases r with
          | none => exact hin.after hn
          | some p => exact (hin.andThen (.of_receive ((receive_walk _).applyReset ..))).after hn
  | stopSending id code =>
    unfold handleFrame frameOpens
    dsimp only
    split
    · exact .same (.of_quiet (quiet_fail ..))
    have hcount := quiet_countReset c sec
    cases hr : c.countReset sec with
    | mk c₁ go =>
      rw [hr] at hcount
      cases go with
      | false => exact .same (.of_quiet hcount)
      | true =>
        dsimp only
        have hn := countReset_noted hr
        have hin := sendStream_admits (table_of_same (SameReceive.of_quiet hn.quiet) h) id
        cases hi : c₁.sendStream id with
        | mk c₂ r =>
          rw [hi] at hin
          cases r with
          | none => exact hin.after hn
          | some p =>
            dsimp only
            split
            · exact hin.after hn
            · exact (hin.andThen (.of_quiet (Quiet.modify c₂ p _ rfl))).after hn
  | maxData v =>
    unfold handleFrame frameOpens
    dsimp only
    split
    · have hset : Quiet c (c.setPeerMaxData v) :=
        Quiet.of_eq rfl rfl rfl (fun _ => rfl) fun _ => rfl
      exact .same ((SameRoster.of_quiet hset).trans (.of_same (wakeBlocked_sameReceive _)))
    · exact .same (.of_quiet (quiet_glitch c))
  | maxStreamData id v =>
    unfold handleFrame frameOpens
    dsimp only
    split
    · exact .same (.of_quiet (quiet_fail ..))
    have hin := sendStream_admits h id
    cases hi : c.sendStream id with
    | mk c₁ r =>
      rw [hi] at hin
      cases r with
      | none => exact hin
      | some p =>
        dsimp only
        split
        · have htouch := hin.andThen (.of_quiet (Quiet.modify c₁ p
            (fun s => { s with maxSend := v, blockedReported := false }) rfl))
          split
          · exact htouch.andThen (.of_linkOnly (enqueue_linkOnly ..))
          · exact htouch
        · exact hin.andThen (.of_quiet (quiet_glitch c₁))
  | maxStreamsBidi v =>
    unfold handleFrame frameOpens
    dsimp only
    split
    · exact .same (.of_quiet (quiet_fail ..))
    split
    · exact .same (.of_quiet (Quiet.of_eq rfl rfl rfl (fun _ => rfl) fun _ => rfl))
    · exact .same (.of_quiet (quiet_glitch c))
  | maxStreamsUni v =>
    unfold handleFrame frameOpens
    dsimp only
    split
    · exact .same (.of_quiet (quiet_fail ..))
    split
    · exact .same (.of_quiet (Quiet.of_eq rfl rfl rfl (fun _ => rfl) fun _ => rfl))
    · exact .same (.of_quiet (quiet_glitch c))
  | stream id offset data fin =>
    unfold handleFrame frameOpens
    dsimp only
    have hin := incomingStream_admits h id
    cases hi : c.incomingStream id with
    | mk c₁ r =>
      rw [hi] at hin
      cases r with
      | none => exact hin
      | some p => exact hin.andThen (.of_receive ((receive_walk _).applyStreamFrame ..))
  | connectionClose =>
    exact .same ⟨rfl, Grows.of_eq (fun _ => rfl) fun _ => rfl⟩

/-- `close_stream`: the stream leaves the open ones, and its id is known as closed. -/
structure ClosesStream (id : Nat) (c c' : Conn) : Prop where
  mem : id ∈ c.roster
  roster : c'.roster.Perm (c.roster.erase id)
  known : c'.knownClosed (streamIsBidi id) (id / 4) = true
  grows : Grows c c'

theorem roster_nodup (h : TableInv c) : c.roster.Nodup :=
  h.active_nodup.map_on fun p hp q hq he => h.active_ids p hp q hq he

theorem closeStream_closes (h : TableInv c) (hp : p ∈ c.active) :
    ClosesStream (c.streams p).id c (c.closeStream p) := by
  obtain ⟨hclosed, -, hknown⟩ := closeStream_spec hp h
  refine ⟨List.mem_map_of_mem hp, ?_, hknown, hclosed.grows⟩
  have hperm : c.active.Perm (p :: c.active.erase p) := List.perm_cons_erase hp
  have hkeep : (c.closeStream p).roster.Perm ((c.active.erase p).map fun q => (c.streams q).id) := by
    refine (hclosed.active.map _).trans (List.Perm.of_eq (List.map_congr_left fun q hq => ?_))
    exact hclosed.id_others q ((h.active_nodup.mem_erase_iff).mp hq).1
  refine hkeep.trans ?_
  have hall : c.roster.Perm ((c.streams p).id :: (c.active.erase p).map fun q => (c.streams q).id) :=
    hperm.map _
  exact (List.perm_cons _).mp (hall.symm.trans (List.perm_cons_erase (List.mem_map_of_mem hp)))

/-- **What a step does to the open streams.** -/
theorem step_roster {op : Op} (h : TableInv c) (hs : c.step op = some c') :
    SameRoster c c' ∨ (∃ f sec, op = .frame f sec) ∨ ∃ p ∈ c.active, op = .closeStream p := by
  cases step_effect hs with
  | quiet hq => exact .inl (.of_quiet hq)
  | establish _ => exact .inl ⟨rfl, Grows.of_eq (fun _ => rfl) fun _ => rfl⟩
  | finish _ => exact .inl ⟨rfl, Grows.of_eq (fun _ => rfl) fun _ => rfl⟩
  | openOwn hp _ => exact .inl (sameRoster_openOwn hp h)
  | ready => exact .inl (.of_linkOnly (enqueue_linkOnly ..))
  | consumed _ _ _ => exact .inl (.of_receive (streamConsumed_receive ..))
  | window _ => exact .inl (.of_receive (streamWindow_receive ..))
  | reset _ => exact .inl (.of_same (streamReset_sameReceive ..))
  | closeStream hp _ => exact .inr (.inr ⟨_, hp, rfl⟩)
  | frame _ _ => exact .inr (.inl ⟨_, _, rfl⟩)
  | lost _ he =>
    cases he with
    | quiet hq => exact .inl (.of_quiet hq)
    | queue hq => exact .inl ((SameRoster.of_quiet hq).trans (.of_linkOnly (enqueue_linkOnly ..)))
    | grant _ => exact .inl (.of_receive (grant_receive ..))
  | unqueue hq => exact .inl ((SameRoster.of_quiet hq).trans (.of_linkOnly (dequeue_linkOnly ..)))
  | turn he => exact .inl (.of_same (streamEffect_sameReceive he))

end Conn

/-! ## §4. Histories. -/

/-- A connection, the calls of `on_new_stream` (the id, and the largest MAX_STREAMS of its kind
    advertised when the call was made) and the largest MAX_STREAMS advertised. -/
structure Admission where
  conn : Conn
  opened : List (Nat × Nat) := []
  told : Bool → Nat

namespace Admission

/-- The handshake advertises the limits themselves. -/
def create (limits : Limits) : Admission where
  conn := Conn.create limits
  told := fun bidi => if bidi then limits.maxStreamsBidi else limits.maxStreamsUni

/-- A MAX_STREAMS frame in a packet, sent whether the packet arrives or is lost. -/
def hear (told : Bool → Nat) : OutFrame → Bool → Nat
  | .maxStreams bidi v => Function.update told bidi (max (told bidi) v)
  | _ => told

theorem hear_maxStreams (told : Bool → Nat) (bidi : Bool) (v : Nat) :
    hear told (.maxStreams bidi v) = Function.update told bidi (max (told bidi) v) := rfl

/-- The calls of `on_new_stream` the step makes. -/
def calls (a : Admission) : Op → List (Nat × Nat)
  | .frame f sec => ((a.conn.frameOpens f sec).map fun id => (id, a.told (streamIsBidi id))).toList
  | _ => []

/-- The MAX_STREAMS frames the step writes. -/
def announced (a : Admission) : Op → List OutFrame
  | .maxStreamsTurn room eliciting => (a.conn.maxStreamsTurn room eliciting).frames
  | _ => []

/-- A step of the connection, with the calls and announcements it makes. -/
def step (a : Admission) (op : Op) : Option Admission :=
  (a.conn.step op).map fun c =>
    { conn := c, opened := a.opened ++ a.calls op, told := (a.announced op).foldl hear a.told }

/-- The ids `on_new_stream` was called for. -/
def ids (a : Admission) : List Nat := a.opened.map Prod.fst

end Admission

/-- The ids of one kind. -/
def ofKind (bidi : Bool) (ids : List Nat) : List Nat := ids.filter fun id => streamIsBidi id == bidi

/-- Client ids of one kind are told apart by their index. -/
theorem client_id_inj {id id' : Nat} (hc : streamIsClient id = true) (hc' : streamIsClient id' = true)
    (hb : streamIsBidi id = streamIsBidi id') (hi : id / 4 = id' / 4) : id = id' := by
  have hlow : ∀ n : Nat, streamIsClient n = true →
      n % 4 = if streamIsBidi n then 0 else 2 := by
    intro n hn
    -- only the two low bits are read
    have hmod : ∀ m, m < 4 → (n &&& m) = (n % 4 &&& m) := by
      intro m hm
      have hle : n &&& m ≤ m := Nat.and_le_right
      have hand := Nat.and_mod_two_pow (a := n) (b := m) (n := 2)
      rwa [Nat.mod_eq_of_lt (show n &&& m < 2 ^ 2 by omega),
        Nat.mod_eq_of_lt (show m < 2 ^ 2 by omega)] at hand
    have hcases : ∀ r : Fin 4, (r.val &&& 1 == 0) = true →
        r.val = if r.val &&& 2 == 0 then 0 else 2 := by decide
    have hr := hcases ⟨n % 4, Nat.mod_lt n (by decide)⟩
    unfold streamIsClient at hn
    rw [hmod 1 (by decide)] at hn
    unfold streamIsBidi
    rw [hmod 2 (by decide)]
    exact hr hn
  have h₁ := hlow id hc
  have h₂ := hlow id' hc'
  rw [hb] at h₁
  omega

/-- Distinct client ids of one kind below an index limit: at most so many. -/
theorem ofKind_length_le {ids : List Nat} {limit : Nat} (hnd : ids.Nodup)
    (hc : ∀ id ∈ ids, streamIsClient id = true)
    (hl : ∀ id ∈ ids, streamIsBidi id = bidi → id / 4 < limit) : (ofKind bidi ids).length ≤ limit := by
  have hmem : ∀ id ∈ ofKind bidi ids, id ∈ ids ∧ streamIsBidi id = bidi := by
    intro id hid
    obtain ⟨hin, hkind⟩ := List.mem_filter.mp hid
    exact ⟨hin, by simpa using hkind⟩
  have hindex : ((ofKind bidi ids).map (· / 4)).Nodup := by
    refine (hnd.filter _).map_on fun id hid id' hid' he => ?_
    obtain ⟨hin, hkind⟩ := hmem id hid
    obtain ⟨hin', hkind'⟩ := hmem id' hid'
    exact client_id_inj (hc id hin) (hc id' hin') (hkind.trans hkind'.symm) he
  have hsub : (ofKind bidi ids).map (· / 4) ⊆ List.range limit := by
    intro i hi
    obtain ⟨id, hid, rfl⟩ := List.mem_map.mp hi
    obtain ⟨hin, hkind⟩ := hmem id hid
    exact List.mem_range.mpr (hl id hin hkind)
  have hle := (List.subperm_of_subset hindex hsub).length_le
  rwa [List.length_map, List.length_range] at hle

theorem ofKind_append (bidi : Bool) (ids ids' : List Nat) :
    ofKind bidi (ids ++ ids') = ofKind bidi ids ++ ofKind bidi ids' := List.filter_append ..

theorem ofKind_singleton (bidi : Bool) (id : Nat) :
    (ofKind bidi [id]).length = if bidi = streamIsBidi id then 1 else 0 := by
  unfold ofKind
  by_cases h : bidi = streamIsBidi id
  · simp [h]
  rw [if_neg h, List.length_eq_zero_iff, List.filter_eq_nil_iff]
  intro i hi
  rw [List.mem_singleton.mp hi]
  simpa using Ne.symm h

/-- One id less, of its own kind only. -/
theorem ofKind_erase {ids : List Nat} {id : Nat} (h : id ∈ ids) (bidi : Bool) : (ofKind bidi ids).length =
      (ofKind bidi (ids.erase id)).length + if bidi = streamIsBidi id then 1 else 0 := by
  have hperm : (ofKind bidi ids).Perm (ofKind bidi ([id] ++ ids.erase id)) :=
    (List.perm_cons_erase h).filter _
  rw [hperm.length_eq, ofKind_append, List.length_append, ofKind_singleton]
  omega

/-! ## §5. The invariant. -/

/-- Every stream ever opened is open or known as closed, and the two are counted; no more were
    opened than advertised, and what is advertised exceeds the closed ones by at most the
    limit. -/
structure Admission.Inv (limit : Bool → Nat) (a : Admission) : Prop where
  table : Conn.TableInv a.conn
  sound : a.conn.tally.Sound limit a.told
  nodup : a.ids.Nodup
  client : ∀ id ∈ a.ids, streamIsClient id = true
  below : ∀ e ∈ a.opened, e.1 / 4 < e.2 ∧ e.2 ≤ a.told (streamIsBidi e.1)
  accounted : ∀ id ∈ a.ids, id ∈ a.conn.roster ∨ a.conn.knownClosed (streamIsBidi id) (id / 4) = true
  logged : ∀ id ∈ a.conn.roster, id ∈ a.ids
  counted : ∀ bidi, (ofKind bidi a.ids).length =
    (ofKind bidi a.conn.roster).length + a.conn.tally.closed bidi

namespace Admission

variable {limit told : Bool → Nat} {a a' : Admission} {c : Conn} {id : Nat}

theorem create_inv (limits : Limits) : Inv (Conn.create limits).tally.limit (create limits) where
  table := Conn.create_table limits
  sound := by
    refine ⟨rfl, ?_, fun bidi => ?_, fun bidi => ?_⟩
    · funext bidi
      cases bidi <;> rfl
    · cases bidi <;> exact Nat.le_refl _
    · cases bidi <;> exact (Nat.zero_add _).symm
  nodup := List.nodup_nil
  client := by simp [ids, create]
  below := by simp [create]
  accounted := by simp [ids, create]
  logged := by simp [Conn.roster, create, Conn.create]
  counted := by
    intro bidi
    cases bidi <;> rfl

/-- **The open streams of a kind** stay within the limit. -/
theorem Inv.open_le (h : Inv limit a) (bidi : Bool) : (ofKind bidi a.conn.roster).length ≤ limit bidi := by
  have hindex : ∀ id ∈ a.ids, streamIsBidi id = bidi → id / 4 < a.conn.tally.advertised bidi := by
    intro id hid hkind
    obtain ⟨e, he, rfl⟩ := List.mem_map.mp hid
    obtain ⟨hlt, hle⟩ := h.below e he
    rw [hkind, h.sound.told] at hle
    omega
  have hopened := ofKind_length_le h.nodup h.client hindex
  have hcount := h.counted bidi
  have hadv := h.sound.advertised_le bidi
  have hmax := h.sound.ourMax bidi
  rw [← h.sound.limit]
  omega

/-- No stream is opened or closed, and the peer is told no less. -/
theorem Inv.of_same (h : Inv limit a) (ht : Conn.TableInv c) (hr : Conn.SameRoster a.conn c)
    (hs : c.tally.Sound limit told) (hclosed : c.tally.closed = a.conn.tally.closed)
    (hle : ∀ bidi, a.told bidi ≤ told bidi) : Inv limit { a with conn := c, told := told } where
  table := ht
  sound := hs
  nodup := h.nodup
  client := h.client
  below := fun e he => ⟨(h.below e he).1, Nat.le_trans (h.below e he).2 (hle _)⟩
  accounted := by
    intro id hid
    rw [hr.roster]
    exact (h.accounted id hid).imp_right (hr.grows.closed _ _)
  logged := by
    rw [hr.roster]
    exact h.logged
  counted := by
    intro bidi
    rw [hr.roster, hclosed]
    exact h.counted bidi

/-- A stream opens that never was: it is neither open nor known as closed. -/
theorem Inv.of_open (h : Inv limit a) (ht : Conn.TableInv c) (ho : Conn.OpensStream id a.conn c)
    (hc : c.tally = a.conn.tally) :
    Inv limit { a with conn := c, opened := a.opened ++ [(id, a.told (streamIsBidi id))] } := by
  have hids : ids { a with conn := c, opened := a.opened ++ [(id, a.told (streamIsBidi id))] } =
      a.ids ++ [id] := by
    unfold ids
    rw [List.map_append]
    rfl
  have hnew : id ∉ a.ids := by
    intro hm
    rcases h.accounted id hm with hr | hk
    · exact ho.unopened hr
    rw [ho.unknown] at hk
    exact Bool.false_ne_true hk
  have hbelow : id / 4 < a.told (streamIsBidi id) := by
    rw [h.sound.told]
    exact ho.below
  refine ⟨ht, ?_, ?_, ?_, ?_, ?_, ?_, ?_⟩
  · rw [hc]
    exact h.sound
  · rw [hids]
    exact h.nodup.append (List.nodup_singleton id) (List.disjoint_singleton.mpr hnew)
  · rw [hids]
    intro i hi
    rcases List.mem_append.mp hi with hi | hi
    · exact h.client i hi
    rw [List.mem_singleton.mp hi]
    exact ho.client
  · intro e he
    rcases List.mem_append.mp he with he | he
    · exact h.below e he
    rw [List.mem_singleton.mp he]
    exact ⟨hbelow, Nat.le_refl _⟩
  · rw [hids]
    intro i hi
    rw [ho.roster]
    rcases List.mem_append.mp hi with hi | hi
    · exact (h.accounted i hi).imp (List.mem_append_left [id]) (ho.grows.closed _ _)
    · exact .inl (List.mem_append_right _ hi)
  · rw [hids]
    intro i hi
    rw [show Conn.roster _ = a.conn.roster ++ [id] from ho.roster] at hi
    rcases List.mem_append.mp hi with hi | hi
    · exact List.mem_append_left _ (h.logged i hi)
    · exact List.mem_append_right _ hi
  · intro bidi
    rw [hids]
    rw [ho.roster, hc, ofKind_append, ofKind_append, List.length_append, List.length_append, h.counted bidi]
    omega

/-- A stream closes: one open stream less, one closed stream more. -/
theorem Inv.of_close (h : Inv limit a) (ht : Conn.TableInv c) (hx : Conn.ClosesStream id a.conn c)
    (hc : c.tally = a.conn.tally.close (streamIsBidi id)) : Inv limit { a with conn := c } := by
  have hmem : ∀ i, i ∈ c.roster ↔ i ∈ a.conn.roster.erase id := fun i => hx.roster.mem_iff
  have hnd : a.conn.roster.Nodup := Conn.roster_nodup h.table
  refine ⟨ht, ?_, h.nodup, h.client, h.below, ?_, ?_, ?_⟩
  · rw [hc]
    exact h.sound.close _
  · intro i hi
    rw [hmem]
    by_cases he : i = id
    · rw [he]
      exact .inr hx.known
    rcases h.accounted i hi with hr | hk
    · exact .inl ((hnd.mem_erase_iff).mpr ⟨he, hr⟩)
    · exact .inr (hx.grows.closed _ _ hk)
  · intro i hi
    exact h.logged i (List.mem_of_mem_erase ((hmem i).mp hi))
  · intro bidi
    show (ofKind bidi a.ids).length = (ofKind bidi c.roster).length + c.tally.closed bidi
    have hlen : (ofKind bidi c.roster).length = (ofKind bidi (a.conn.roster.erase id)).length :=
      (hx.roster.filter _).length_eq
    have hcount := h.counted bidi
    have herase := ofKind_erase hx.mem bidi
    rw [hc]
    by_cases hb : bidi = streamIsBidi id
    · rw [if_pos hb] at herase
      rw [hb] at herase hlen hcount ⊢
      rw [Tally.close_closed_self]
      omega
    · rw [if_neg hb] at herase
      rw [Tally.close_closed_other _ hb]
      omega

/-- What MAX_STREAMS tells: the limits themselves, never below what was told before. -/
theorem told_announce (h : Inv limit a) (room : Nat) (eliciting : Bool) :
    ((a.conn.maxStreamsTurn room eliciting).conn.tally = a.conn.tally ∧
      (a.conn.maxStreamsTurn room eliciting).frames.foldl hear a.told = a.told) ∨
    ((a.conn.maxStreamsTurn room eliciting).conn.tally = a.conn.tally.announce ∧
      (a.conn.maxStreamsTurn room eliciting).frames.foldl hear a.told = a.conn.tally.ourMax) := by
  unfold Conn.maxStreamsTurn
  dsimp only
  split
  · refine .inr ⟨by unfold Conn.tally Tally.announce Conn.advertised; rfl, ?_⟩
    have hle : ∀ bidi, a.told bidi ≤ a.conn.tally.ourMax bidi := by
      rw [h.sound.told]
      exact h.sound.advertised_le
    funext bidi
    show hear (hear a.told (.maxStreams true (a.conn.tally.ourMax true)))
      (.maxStreams false (a.conn.tally.ourMax false)) bidi = _
    rw [hear_maxStreams, hear_maxStreams]
    cases bidi with
    | true =>
      rw [Function.update_of_ne (by decide), Function.update_self]
      exact Nat.max_eq_right (hle true)
    | false =>
      rw [Function.update_self, Function.update_of_ne (by decide)]
      exact Nat.max_eq_right (hle false)
  · exact .inl ⟨rfl, rfl⟩

/-- **One step.** -/
theorem step_inv {op : Op} (h : Inv limit a) (hs : a.step op = some a') : Inv limit a' := by
  obtain ⟨c, hc, rfl⟩ := Option.map_eq_some_iff.mp hs
  have htable := Conn.step_table h.table hc
  cases op with
  | frame f sec =>
    have ht : c.tally = a.conn.tally := by
      rcases Conn.step_tally h.table hc with ⟨ht, -⟩ | ⟨⟨_, _, hop⟩, -⟩ | ⟨_, hop, -⟩
      · exact ht
      · cases hop
      · cases hop
    simp only [Conn.step, Option.ite_none_left_eq_some, Option.some.injEq] at hc
    obtain ⟨-, rfl⟩ := hc
    have hadm := Conn.handleFrame_admits h.table f sec
    show Inv limit { conn := _, opened := a.opened ++ Option.toList (Option.map _ _), told := a.told }
    cases hopens : a.conn.frameOpens f sec with
    | none =>
      rw [hopens] at hadm
      cases hadm with
      | same hr =>
        rw [Option.map_none, Option.toList_none, List.append_nil]
        exact h.of_same htable hr (ht ▸ h.sound) (congrArg Tally.closed ht) fun _ => Nat.le_refl _
    | some id =>
      rw [hopens] at hadm
      cases hadm with
      | opens ho => exact h.of_open htable ho ht
  | closeStream p =>
    rcases Conn.step_tally h.table hc with ⟨-, hop⟩ | ⟨⟨_, _, hop⟩, -⟩ | ⟨q, hop, hq, rfl, ht⟩
    · exact absurd rfl (hop p)
    · cases hop
    show Inv limit { conn := _, opened := a.opened ++ [], told := a.told }
    rw [List.append_nil]
    exact h.of_close htable (Conn.closeStream_closes h.table hq) ht
  | maxStreamsTurn room eliciting =>
    simp only [Conn.step, Option.ite_none_left_eq_some, Option.some.injEq] at hc
    obtain ⟨-, rfl⟩ := hc
    have hr : Conn.SameRoster a.conn (a.conn.maxStreamsTurn room eliciting).conn :=
      .of_quiet (Conn.quiet_maxStreamsTurn ..)
    show Inv limit { conn := _, opened := a.opened ++ [], told := List.foldl hear a.told _ }
    rw [List.append_nil]
    rcases told_announce h room eliciting with ⟨ht, htold⟩ | ⟨ht, htold⟩
    · refine h.of_same htable hr ?_ (congrArg Tally.closed ht) fun bidi => ?_
      · rw [ht, announced, htold]
        exact h.sound
      · exact Nat.le_of_eq (by rw [announced, htold])
    · have hclosed : (a.conn.maxStreamsTurn room eliciting).conn.tally.closed =
          a.conn.tally.closed := by
        rw [ht]
        rfl
      refine h.of_same htable hr ?_ hclosed fun bidi => ?_
      · rw [ht, announced, htold]
        exact h.sound.announce
      · rw [announced, htold, h.sound.told]
        exact h.sound.advertised_le bidi
  | _ =>
    have hr : Conn.SameRoster a.conn c := by
      rcases Conn.step_roster h.table hc with hr | ⟨_, _, hop⟩ | ⟨_, _, hop⟩
      · exact hr
      · cases hop
      · cases hop
    have ht : c.tally = a.conn.tally := by
      rcases Conn.step_tally h.table hc with ⟨ht, -⟩ | ⟨⟨_, _, hop⟩, -⟩ | ⟨_, hop, -⟩
      · exact ht
      · cases hop
      · cases hop
    show Inv limit { conn := c, opened := a.opened ++ [], told := a.told }
    rw [List.append_nil]
    exact h.of_same htable hr (ht ▸ h.sound) (congrArg Tally.closed ht) fun _ => Nat.le_refl _

end Admission

/-! ## §6. Every run. -/

/-- The peer's open streams of one kind. -/
def Conn.openOfKind (c : Conn) (bidi : Bool) : List Ptr :=
  c.active.filter fun p => (c.streams p).isOpen && streamIsBidi (c.streams p).id == bidi

/-- **Client streams open once and within the limit.**  In every run `on_new_stream` is called at
    most once for an id, never for an index at or above the largest MAX_STREAMS advertised by
    then, and the open streams of each kind stay within the configured limit. -/
theorem client_streams_open_once (limits : Limits) (ops : List Op) (a : Admission)
    (hrun : run Admission.step (Admission.create limits) ops = some a) :
    a.ids.Nodup ∧ (∀ e ∈ a.opened, e.1 / 4 < e.2) ∧ (a.conn.openOfKind true).length ≤ limits.maxStreamsBidi ∧
      (a.conn.openOfKind false).length ≤ limits.maxStreamsUni := by
  have h : Admission.Inv (Conn.create limits).tally.limit a :=
    run_preserves (fun _ _ _ hi hs => Admission.step_inv hi hs) (Admission.create_inv limits) hrun
  have hkind : ∀ bidi, (a.conn.openOfKind bidi).length ≤ (ofKind bidi a.conn.roster).length := by
    intro bidi
    unfold Conn.openOfKind ofKind Conn.roster
    rw [List.filter_map, List.length_map]
    refine (List.monotone_filter_right a.conn.active fun p hp => ?_).length_le
    exact (Bool.and_eq_true _ _ ▸ hp : _ ∧ _).2
  refine ⟨h.nodup, fun e he => (h.below e he).1, ?_, ?_⟩
  · exact Nat.le_trans (hkind true) (h.open_le true)
  · exact Nat.le_trans (hkind false) (h.open_le false)

/-- Two requests; the first is answered and closed, MAX_STREAMS goes out, a late frame of the
    closed stream arrives, and a third request. -/
def reopenRun : List Op :=
  [.handshakeComplete, .frame (.stream 4 0 (bytes "second") true) 0,
    .frame (.stream 0 0 (bytes "first") true) 0, .closeStream 3, .maxStreamsTurn 100 true,
    .frame (.maxStreamData 4 100) 0, .frame (.stream 8 0 (bytes "third") true) 0]

theorem client_streams_open_once_reopenRun :
    ∃ a, run Admission.step (Admission.create { maxStreamsBidi := 2 }) reopenRun = some a ∧
      a.opened = [(4, 2), (0, 2), (8, 3)] ∧ a.ids.Nodup := by
  have hopened : (run Admission.step (Admission.create { maxStreamsBidi := 2 })
      reopenRun).map Admission.opened = some [(4, 2), (0, 2), (8, 3)] := by decide +kernel
  obtain ⟨a, ha, hopened⟩ := Option.map_eq_some_iff.mp hopened
  exact ⟨a, ha, hopened, (client_streams_open_once _ reopenRun a ha).1⟩

end Agensio.Quic
