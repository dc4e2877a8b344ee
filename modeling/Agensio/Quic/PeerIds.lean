/-
  Agensio.Quic.PeerIds — the connection ids the peer gave us.

  Model of NEW_CONNECTION_ID in `handle_frame` of `quic/connection.hpp`,
  from the frame's bytes (`read_frame` of `quic/frames.hpp`) to the id
  our packets are addressed with, and of RETIRE_CONNECTION_ID on its way
  out: queued, written, queued again when its packet is lost.

  Three fields are HISTORY VARIABLES: `received`, the sequence numbers
  the peer gave (the handshake's 0 included), `queued`, those queued for
  RETIRE_CONNECTION_ID, and `written`, those a packet carried.

  Main result: `peer_ids_consistent`.
-/
import Agensio.Lib.Runs
import Agensio.Quic.Connection
import Agensio.Quic.Varint
import Mathlib.Data.List.Nodup

namespace Agensio.Quic

open Agensio.Lib

/-! ## §1. The frame. -/

def kMaxCidLen : Nat := 20

/-- `kMaxActiveCids`. -/
def kMaxActiveCids : Nat := 4

def errConnectionIdLimit : Nat := 0x09

/-- The type of a NEW_CONNECTION_ID frame. -/
def kNewConnectionId : Nat := 0x18

/-- A connection id is its bytes: `Cid::operator==` compares the length and so many of them. -/
structure NewConnectionId where
  seq : Nat
  retirePriorTo : Nat
  cid : Bytes
  token : Bytes
  deriving DecidableEq

/-- `read_frame` from behind the type: the frame and the bytes after it, `none` on a malformed
    one. -/
def readNewConnectionId (p : Bytes) : Option (NewConnectionId × Bytes) :=
  match readVarint p p.length with
  | none => none
  | some (seq, n) =>
    let p₁ := p.drop n
    match readVarint p₁ p₁.length with
    | none => none
    | some (retirePriorTo, m) =>
      if retirePriorTo > seq then none
      else
        match p₁.drop m with
        | [] => none
        | b :: p₂ =>
          let len := b.toNat
          if len < 1 ∨ len > kMaxCidLen then none
          else if len > p₂.length then none
          else
            let p₃ := p₂.drop len
            if 16 > p₃.length then none
            else some (⟨seq, retirePriorTo, p₂.take len, p₃.take 16⟩, p₃.drop 16)

/-- What is read never demands its own retirement. -/
theorem readNewConnectionId_le {p rest : Bytes} {f : NewConnectionId}
    (h : readNewConnectionId p = some (f, rest)) : f.retirePriorTo ≤ f.seq := by
  unfold readNewConnectionId at h
  split at h
  · simp at h
  dsimp only at h
  split at h
  · simp at h
  split at h
  · simp at h
  next hle =>
  split at h
  · simp at h
  split at h
  · simp at h
  split at h
  · simp at h
  split at h
  · simp at h
  cases h
  exact Nat.not_lt.mp hle

/-! ## §2. The state. -/

/-- `token` is `none` for the handshake's id, which has none. -/
structure PeerCid where
  seq : Nat
  cid : Bytes
  token : Option Bytes
  deriving DecidableEq

/-- `retire_due_` is a vector used at its back: here the back is the head of the list. -/
structure PeerIds where
  state : State := .handshaking
  closeCode : Nat := 0
  closeFrameType : Nat := 0
  closeReason : String := ""
  peerCid : Bytes
  peerCidSeq : Nat := 0
  peerCids : List PeerCid
  peerRetiredBelow : Nat := 0
  retireDue : List Nat := []
  -- history
  received : List Nat := [0]
  queued : List Nat := []
  written : List Nat := []

namespace PeerIds

/-- A connection as its constructor leaves it: the client's first id has sequence number 0. -/
def create (scid : Bytes) : PeerIds where
  peerCid := scid
  peerCids := [⟨0, scid, none⟩]

def ended (k : PeerIds) : Bool := k.state == .closing || k.state == .draining || k.state == .closed

def setState (k : PeerIds) (st : State) : PeerIds := { k with state := st }

def fail (k : PeerIds) (code frameType : Nat) (reason : String) : PeerIds :=
  if k.ended then k
  else { k with
    state := .closing, closeCode := code, closeFrameType := frameType, closeReason := reason }

/-- `queue_retire`: a sequence number is due once. -/
def queueRetire (k : PeerIds) (seq : Nat) : PeerIds :=
  if seq ∈ k.retireDue then k
  else { k with retireDue := seq :: k.retireDue, queued := seq :: k.queued }

/-! ## §3. NEW_CONNECTION_ID. -/

/-- What the walk over `peer_cids_` finds. -/
inductive Clash where
  | retransmission
  | changes
  | repeats
  deriving DecidableEq

def clash (f : NewConnectionId) : List PeerCid → Option Clash
  | [] => none
  | c :: cs =>
    if c.seq = f.seq then
      if c.cid = f.cid ∧ (c.token = none ∨ c.token = some f.token) then some .retransmission
      else some .changes
    else if c.cid = f.cid then some .repeats
    else clash f cs

/-- The ids below the peer's Retire Prior To are queued, in their order, and dropped. -/
def retireBelow (k : PeerIds) (below : Nat) : PeerIds :=
  let k₁ := { k with
    peerRetiredBelow := below
    peerCids := k.peerCids.filter fun c => ¬ c.seq < below }
  (k.peerCids.filter fun c => c.seq < below).foldl (fun k c => k.queueRetire c.seq) k₁

def push (k : PeerIds) (f : NewConnectionId) : PeerIds :=
  { k with peerCids := k.peerCids ++ [⟨f.seq, f.cid, some f.token⟩] }

/-- The lowest sequence number, the first of equals. -/
def lowest (cs : List PeerCid) : Option PeerCid :=
  cs.foldl (fun best c =>
    match best with
    | none => some c
    | some b => if c.seq < b.seq then some c else some b) none

/-- The id our packets are addressed with was retired: the lowest remaining one. -/
def readdress (k : PeerIds) : PeerIds :=
  if k.peerCidSeq < k.peerRetiredBelow then
    match lowest k.peerCids with
    | some c => { k with peerCid := c.cid, peerCidSeq := c.seq }
    | none => k
  else k

/-- `handle_frame` for NEW_CONNECTION_ID. -/
def onNewConnectionId (k : PeerIds) (f : NewConnectionId) : PeerIds :=
  if k.peerCid = [] then
    k.fail errProtocolViolation kNewConnectionId "NEW_CONNECTION_ID from a zero-length id"
  else
    match clash f k.peerCids with
    | some .retransmission => k
    | some .changes =>
      k.fail errProtocolViolation kNewConnectionId "NEW_CONNECTION_ID changes a sequence number"
    | some .repeats =>
      k.fail errProtocolViolation kNewConnectionId "NEW_CONNECTION_ID repeats an id"
    | none =>
      if f.seq < k.peerRetiredBelow then k.queueRetire f.seq
      else
        let k₁ := if f.retirePriorTo > k.peerRetiredBelow then k.retireBelow f.retirePriorTo else k
        if k₁.peerCids.length ≥ kMaxActiveCids then
          k₁.fail errConnectionIdLimit kNewConnectionId "too many connection ids"
        else (k₁.push f).readdress

/-! ## §4. Steps. -/

/-- `newConnectionId` carries the frame's bytes from behind the type; `stop` is every close of the
    connection for a reason not modelled here. -/
inductive Op where
  | handshakeComplete
  | newConnectionId (payload : Bytes)
  | retireTurn
  | retireLost (seq : Nat)
  | stop (code frameType : Nat) (reason : String)
  | peerClose
  | finish
  deriving DecidableEq

/-- The sequence number is the peer's word, whatever becomes of the frame. -/
def receive (k : PeerIds) (seq : Nat) : PeerIds := { k with received := seq :: k.received }

/-- A RETIRE_CONNECTION_ID goes into a packet. -/
def retireTurn (k : PeerIds) : PeerIds :=
  match k.retireDue with
  | [] => k
  | seq :: rest => { k with retireDue := rest, written := seq :: k.written }

def step (k : PeerIds) : Op → Option PeerIds
  | .handshakeComplete => if k.state = .handshaking then some (k.setState .established) else none
  | .newConnectionId payload =>
    if k.ended then none
    else
      match readNewConnectionId payload with
      | none => some (k.fail errFrameEncoding kNewConnectionId "malformed frame")
      | some (f, _) => some ((k.receive f.seq).onNewConnectionId f)
  | .retireTurn => if k.ended then none else some k.retireTurn
  | .retireLost seq => if k.ended ∨ seq ∉ k.written then none else some (k.queueRetire seq)
  | .stop code frameType reason => some (k.fail code frameType reason)
  | .peerClose => if k.ended then none else some (k.setState .draining)
  | .finish => some (k.setState .closed)

/-! ## §5. The invariant. -/

/-- What every step keeps of the ids the peer gave. -/
structure Consistent (k : PeerIds) : Prop where
  few : k.peerCids.length ≤ kMaxActiveCids
  seqs : (k.peerCids.map PeerCid.seq).Nodup
  cids : (k.peerCids.map PeerCid.cid).Nodup
  current : ∀ c ∈ k.peerCids, k.peerRetiredBelow ≤ c.seq
  addressed : ∃ c ∈ k.peerCids, c.cid = k.peerCid ∧ c.seq = k.peerCidSeq
  settled : ∀ s ∈ k.received, s ∈ k.peerCids.map PeerCid.seq ∨ s ∈ k.queued
  due : k.retireDue ⊆ k.queued

/-- The ids are consistent until the connection closes itself. -/
structure Inv (k : PeerIds) : Prop where
  consistent : k.state ≠ .closing → k.state ≠ .closed → k.Consistent

variable {k k' : PeerIds} {f : NewConnectionId}

theorem create_inv (scid : Bytes) : Inv (create scid) where
  consistent := by
    intro _ _
    refine ⟨show 1 ≤ kMaxActiveCids by decide, List.nodup_singleton _, List.nodup_singleton _, ?_, ?_, ?_, ?_⟩
    · exact fun c _ => Nat.zero_le _
    · exact ⟨_, List.mem_singleton_self _, rfl, rfl⟩
    · exact fun s hs => .inl hs
    · exact List.nil_subset _

theorem inv_fail (h : k.Inv) (code frameType : Nat) (reason : String) :
    (k.fail code frameType reason).Inv := by
  unfold fail
  split
  · exact h
  · exact ⟨fun hc _ => absurd rfl hc⟩

/-- A connection that was alive and fails is closing. -/
theorem inv_fail_of_alive (h : k.ended = false) (code frameType : Nat) (reason : String) :
    (k.fail code frameType reason).Inv := by
  unfold fail
  rw [if_neg (by rw [h]; exact Bool.false_ne_true)]
  exact ⟨fun hc _ => absurd rfl hc⟩

theorem Inv.of_alive (h : k.Inv) (ha : k.ended = false) : k.Consistent := by
  have hs : k.state = .handshaking ∨ k.state = .established := by
    unfold ended at ha
    cases hs : k.state <;> simp [hs] at ha ⊢
  exact h.consistent (by rcases hs with h | h <;> simp [h]) (by rcases hs with h | h <;> simp [h])

/-! ## §6. Retirements. -/

/-- Only the queue of retirements changed. -/
structure Queues (k k' : PeerIds) : Prop where
  state : k'.state = k.state
  peerCid : k'.peerCid = k.peerCid
  peerCidSeq : k'.peerCidSeq = k.peerCidSeq
  peerCids : k'.peerCids = k.peerCids
  peerRetiredBelow : k'.peerRetiredBelow = k.peerRetiredBelow
  received : k'.received = k.received
  queued : k.queued ⊆ k'.queued
  due : k.retireDue ⊆ k.queued → k'.retireDue ⊆ k'.queued

theorem Queues.refl (k : PeerIds) : Queues k k :=
  ⟨rfl, rfl, rfl, rfl, rfl, rfl, fun _ h => h, fun h => h⟩

theorem Queues.trans {a b c : PeerIds} (h : Queues a b) (h' : Queues b c) : Queues a c :=
  ⟨h'.state.trans h.state, h'.peerCid.trans h.peerCid, h'.peerCidSeq.trans h.peerCidSeq,
    h'.peerCids.trans h.peerCids, h'.peerRetiredBelow.trans h.peerRetiredBelow,
    h'.received.trans h.received, fun _ hm => h'.queued (h.queued hm), fun hd => h'.due (h.due hd)⟩

theorem queueRetire_queues (k : PeerIds) (seq : Nat) : Queues k (k.queueRetire seq) := by
  unfold queueRetire
  split
  · exact .refl k
  refine ⟨rfl, rfl, rfl, rfl, rfl, rfl, fun s hs => .tail _ hs, fun hd s hs => ?_⟩
  rcases List.mem_cons.mp hs with rfl | hs
  · exact .head _
  · exact .tail _ (hd hs)

theorem queueRetire_mem (hd : k.retireDue ⊆ k.queued) (seq : Nat) : seq ∈ (k.queueRetire seq).queued := by
  unfold queueRetire
  split
  · next h => exact hd h
  · exact .head _

/-- The loop queues what it drops. -/
theorem queueAll_spec (cs : List PeerCid) (k : PeerIds) :
    Queues k (cs.foldl (fun k c => k.queueRetire c.seq) k) ∧ (k.retireDue ⊆ k.queued →
      ∀ c ∈ cs, c.seq ∈ (cs.foldl (fun k c => k.queueRetire c.seq) k).queued) := by
  induction cs generalizing k with
  | nil => exact ⟨.refl k, fun _ c hc => absurd hc (by simp)⟩
  | cons c cs ih =>
    have hq := queueRetire_queues k c.seq
    obtain ⟨hrest, hall⟩ := ih (k.queueRetire c.seq)
    refine ⟨hq.trans hrest, fun hd e he => ?_⟩
    rcases List.mem_cons.mp he with rfl | he
    · exact hrest.queued (queueRetire_mem hd e.seq)
    · exact hall (hq.due hd) e he

theorem Consistent.of_queues (hq : Queues k k') (h : k.Consistent) : k'.Consistent := by
  refine ⟨?_, ?_, ?_, ?_, ?_, ?_, hq.due h.due⟩
  · rw [hq.peerCids]
    exact h.few
  · rw [hq.peerCids]
    exact h.seqs
  · rw [hq.peerCids]
    exact h.cids
  · rw [hq.peerCids, hq.peerRetiredBelow]
    exact h.current
  · rw [hq.peerCids, hq.peerCid, hq.peerCidSeq]
    exact h.addressed
  · rw [hq.peerCids, hq.received]
    exact fun s hs => (h.settled s hs).imp_right fun hm => hq.queued hm

theorem Consistent.receive (h : k.Consistent) {seq : Nat}
    (hs : seq ∈ k.peerCids.map PeerCid.seq ∨ seq ∈ k.queued) : (k.receive seq).Consistent where
  few := h.few
  seqs := h.seqs
  cids := h.cids
  current := h.current
  addressed := h.addressed
  settled := by
    intro s hm
    rcases List.mem_cons.mp hm with rfl | hm
    · exact hs
    · exact h.settled s hm
  due := h.due

theorem queueRetire_receive (k : PeerIds) (seq seq' : Nat) :
    (k.receive seq').queueRetire seq = (k.queueRetire seq).receive seq' := by
  unfold queueRetire
  show (if seq ∈ k.retireDue then _ else _) = _
  split <;> rfl

/-! ## §7. A new id. -/

variable {cs : List PeerCid}

theorem clash_none (h : clash f cs = none) : ∀ c ∈ cs, c.seq ≠ f.seq ∧ c.cid ≠ f.cid := by
  induction cs with
  | nil => exact fun c hc => absurd hc (by simp)
  | cons c cs ih =>
    unfold clash at h
    split at h
    · split at h <;> simp at h
    next hseq =>
    split at h
    · simp at h
    next hcid =>
    intro e he
    rcases List.mem_cons.mp he with rfl | he
    · exact ⟨hseq, hcid⟩
    · exact ih h e he

theorem clash_retransmission (h : clash f cs = some .retransmission) : f.seq ∈ cs.map PeerCid.seq := by
  induction cs with
  | nil => simp [clash] at h
  | cons c cs ih =>
    unfold clash at h
    split at h
    · next hseq =>
      rw [← hseq]
      exact .head _
    · split at h
      · simp at h
      · exact .tail _ (ih h)

/-- `lowest` finds one of them. -/
theorem lowest_mem (h : cs ≠ []) : ∃ c ∈ cs, lowest cs = some c := by
  have hfold : ∀ (cs : List PeerCid) (b : PeerCid), ∃ c ∈ b :: cs,
      cs.foldl (fun best c =>
        match best with
        | none => some c
        | some b => if c.seq < b.seq then some c else some b) (some b) = some c := by
    intro cs
    induction cs with
    | nil => exact fun b => ⟨b, .head _, rfl⟩
    | cons c cs ih =>
      intro b
      rw [List.foldl_cons]
      dsimp only
      split
      · obtain ⟨d, hd, he⟩ := ih c
        exact ⟨d, .tail _ hd, he⟩
      obtain ⟨d, hd, he⟩ := ih b
      refine ⟨d, ?_, he⟩
      rcases List.mem_cons.mp hd with rfl | hd
      · exact .head _
      · exact .tail _ (.tail _ hd)
  cases cs with
  | nil => exact absurd rfl h
  | cons c cs => exact hfold cs c

/-- What holds between the retirements a frame demands and the id it brings, `seq`: as
    `Consistent`, but `seq` is unsettled and the id in use may be gone. -/
structure Pruned (seq : Nat) (k : PeerIds) : Prop where
  seqs : (k.peerCids.map PeerCid.seq).Nodup
  cids : (k.peerCids.map PeerCid.cid).Nodup
  current : ∀ c ∈ k.peerCids, k.peerRetiredBelow ≤ c.seq
  addressed : k.peerRetiredBelow ≤ k.peerCidSeq →
    ∃ c ∈ k.peerCids, c.cid = k.peerCid ∧ c.seq = k.peerCidSeq
  settled : ∀ s ∈ k.received, s = seq ∨ s ∈ k.peerCids.map PeerCid.seq ∨ s ∈ k.queued
  due : k.retireDue ⊆ k.queued

theorem Consistent.pruned (h : k.Consistent) (seq : Nat) : (k.receive seq).Pruned seq where
  seqs := h.seqs
  cids := h.cids
  current := h.current
  addressed := fun _ => h.addressed
  settled := by
    intro s hs
    rcases List.mem_cons.mp hs with rfl | hs
    · exact .inl rfl
    · exact .inr (h.settled s hs)
  due := h.due

/-- The ids below the new Retire Prior To go, each of them queued. -/
theorem Pruned.retireBelow {seq below : Nat} (h : k.Pruned seq) (hle : k.peerRetiredBelow ≤ below) :
    (k.retireBelow below).Pruned seq ∧ (k.retireBelow below).peerRetiredBelow = below ∧
      (k.retireBelow below).peerCids ⊆ k.peerCids ∧ (k.retireBelow below).state = k.state := by
  unfold PeerIds.retireBelow
  -- the list as the loop leaves it, before anything is queued
  have hsub : (k.peerCids.filter fun c => ¬ c.seq < below).Sublist k.peerCids := List.filter_sublist
  have hkept : ∀ c, c ∈ (k.peerCids.filter fun c => ¬ c.seq < below) ↔ c ∈ k.peerCids ∧ below ≤ c.seq := by
    intro c
    rw [List.mem_filter]
    simp
  generalize hk₁ : ({ k with
    peerRetiredBelow := below
    peerCids := k.peerCids.filter fun c => ¬ c.seq < below } : PeerIds) = k₁
  have hcids : k₁.peerCids = k.peerCids.filter fun c => ¬ c.seq < below := by rw [← hk₁]
  have hbelow : k₁.peerRetiredBelow = below := by rw [← hk₁]
  have hdue : k₁.retireDue ⊆ k₁.queued := by
    rw [← hk₁]
    exact h.due
  obtain ⟨hq, hall⟩ := queueAll_spec (k.peerCids.filter fun c => c.seq < below) k₁
  refine ⟨⟨?_, ?_, ?_, ?_, ?_, hq.due hdue⟩, hq.peerRetiredBelow.trans hbelow, ?_, ?_⟩
  · rw [hq.peerCids, hcids]
    exact h.seqs.sublist (hsub.map _)
  · rw [hq.peerCids, hcids]
    exact h.cids.sublist (hsub.map _)
  · rw [hq.peerCids, hq.peerRetiredBelow, hcids, hbelow]
    exact fun c hc => ((hkept c).mp hc).2
  · rw [hq.peerRetiredBelow, hq.peerCidSeq, hq.peerCids, hq.peerCid, hcids, hbelow]
    have hseq : k₁.peerCidSeq = k.peerCidSeq := by rw [← hk₁]
    have hcid : k₁.peerCid = k.peerCid := by rw [← hk₁]
    rw [hseq, hcid]
    intro hge
    obtain ⟨c, hc, he, hes⟩ := h.addressed (Nat.le_trans hle hge)
    exact ⟨c, (hkept c).mpr ⟨hc, hes ▸ hge⟩, he, hes⟩
  · rw [hq.received, hq.peerCids, hcids]
    have hrecv : k₁.received = k.received := by rw [← hk₁]
    have hqueued : k.queued ⊆ k₁.queued := by
      rw [← hk₁]
      exact fun _ hm => hm
    rw [hrecv]
    intro s hs
    refine (h.settled s hs).imp_right fun hor => ?_
    rcases hor with hm | hm
    · obtain ⟨c, hc, rfl⟩ := List.mem_map.mp hm
      by_cases hlt : c.seq < below
      · exact .inr (hall hdue c (List.mem_filter.mpr ⟨hc, by simpa using hlt⟩))
      · exact .inl (List.mem_map_of_mem ((hkept c).mpr ⟨hc, Nat.not_lt.mp hlt⟩))
    · exact .inr (hq.queued (hqueued hm))
  · rw [hq.peerCids, hcids]
    exact hsub.subset
  · rw [hq.state, ← hk₁]

theorem readdress_frame (k : PeerIds) :
    k.readdress.peerCids = k.peerCids ∧ k.readdress.peerRetiredBelow = k.peerRetiredBelow ∧
      k.readdress.received = k.received ∧ k.readdress.queued = k.queued ∧
      k.readdress.retireDue = k.retireDue := by
  unfold readdress
  split
  · split <;> exact ⟨rfl, rfl, rfl, rfl, rfl⟩
  · exact ⟨rfl, rfl, rfl, rfl, rfl⟩

/-- The id in use is the lowest one left when its own was retired. -/
theorem readdress_addressed (hne : k.peerCids ≠ []) (h : k.peerRetiredBelow ≤ k.peerCidSeq →
      ∃ c ∈ k.peerCids, c.cid = k.peerCid ∧ c.seq = k.peerCidSeq) :
    ∃ c ∈ k.peerCids, c.cid = k.readdress.peerCid ∧ c.seq = k.readdress.peerCidSeq := by
  unfold readdress
  split
  · obtain ⟨c, hc, he⟩ := lowest_mem hne
    rw [he]
    exact ⟨c, hc, rfl, rfl⟩
  · next hge => exact h (Nat.not_lt.mp hge)

/-- **The new id joins the others.** -/
theorem Pruned.push (h : k.Pruned f.seq) (hnew : ∀ c ∈ k.peerCids, c.seq ≠ f.seq ∧ c.cid ≠ f.cid)
    (hle : k.peerRetiredBelow ≤ f.seq) (hlen : k.peerCids.length < kMaxActiveCids) :
    (k.push f).readdress.Consistent := by
  obtain ⟨hcids, hbelow, hrecv, hqueued, hdue⟩ := readdress_frame (k.push f)
  have hlist : (k.push f).peerCids = k.peerCids ++ [⟨f.seq, f.cid, some f.token⟩] := rfl
  have haddr := readdress_addressed (k := k.push f) (by simp [hlist]) fun hge => by
    obtain ⟨c, hc, he⟩ := h.addressed hge
    exact ⟨c, List.mem_append_left _ hc, he⟩
  refine ⟨?_, ?_, ?_, ?_, hcids ▸ haddr, ?_, ?_⟩
  · rw [hcids, hlist, List.length_append, List.length_singleton]
    omega
  · rw [hcids, hlist, List.map_append]
    refine h.seqs.append (List.nodup_singleton _) (List.disjoint_singleton.mpr fun hm => ?_)
    obtain ⟨c, hc, he⟩ := List.mem_map.mp hm
    exact (hnew c hc).1 he
  · rw [hcids, hlist, List.map_append]
    refine h.cids.append (List.nodup_singleton _) (List.disjoint_singleton.mpr fun hm => ?_)
    obtain ⟨c, hc, he⟩ := List.mem_map.mp hm
    exact (hnew c hc).2 he
  · rw [hcids, hbelow, hlist]
    intro c hc
    rcases List.mem_append.mp hc with hc | hc
    · exact h.current c hc
    rw [List.mem_singleton.mp hc]
    exact hle
  · rw [hcids, hrecv, hqueued, hlist, List.map_append]
    intro s hs
    rcases h.settled s hs with rfl | hm | hm
    · exact .inl (List.mem_append_right _ (List.mem_singleton_self _))
    · exact .inl (List.mem_append_left _ hm)
    · exact .inr hm
  · rw [hdue, hqueued]
    exact h.due

/-- **One NEW_CONNECTION_ID.** -/
theorem inv_onNewConnectionId (h : k.Consistent) (ha : k.ended = false)
    (hf : f.retirePriorTo ≤ f.seq) : ((k.receive f.seq).onNewConnectionId f).Inv := by
  have hpruned := h.pruned f.seq
  have halive : (k.receive f.seq).ended = false := ha
  unfold onNewConnectionId
  split
  · exact inv_fail_of_alive halive ..
  cases hclash : clash f (k.receive f.seq).peerCids with
  | some v =>
    cases v with
    | retransmission =>
      -- the sequence number is that of an active id
      exact ⟨fun _ _ => h.receive (.inl (clash_retransmission hclash))⟩
    | changes => exact inv_fail_of_alive halive ..
    | repeats => exact inv_fail_of_alive halive ..
  | none =>
    dsimp only
    split
    · -- retired already: queued at once, never active
      have hq := h.of_queues (queueRetire_queues k f.seq)
      rw [queueRetire_receive]
      exact ⟨fun _ _ => hq.receive (.inr (queueRetire_mem h.due f.seq))⟩
    · next hcur =>
      have hnew := clash_none hclash
      split
      · next hgt =>
        obtain ⟨hp, hbelow, hsub, hstate⟩ := hpruned.retireBelow (Nat.le_of_lt hgt)
        split
        · refine inv_fail_of_alive ?_ ..
          unfold ended
          rw [hstate]
          exact ha
        · next hlen =>
          refine ⟨fun _ _ => hp.push (fun c hc => hnew c (hsub hc)) ?_ (Nat.not_le.mp hlen)⟩
          rw [hbelow]
          exact hf
      · split
        · exact inv_fail_of_alive halive ..
        next hlen =>
        exact ⟨fun _ _ => hpruned.push hnew (Nat.not_lt.mp hcur) (Nat.not_le.mp hlen)⟩

/-- **One step.** -/
theorem step_inv {op : Op} (h : k.Inv) (hs : k.step op = some k') : k'.Inv := by
  cases op with
  | handshakeComplete =>
    simp only [step, Option.ite_none_right_eq_some, Option.some.injEq] at hs
    obtain ⟨hst, rfl⟩ := hs
    have hc := h.consistent (by simp [hst]) (by simp [hst])
    exact ⟨fun _ _ => ⟨hc.few, hc.seqs, hc.cids, hc.current, hc.addressed, hc.settled, hc.due⟩⟩
  | newConnectionId payload =>
    unfold step at hs
    dsimp only at hs
    split at hs
    · simp at hs
    next ha =>
    split at hs
    · cases hs
      exact inv_fail h ..
    next f rest hread =>
    cases hs
    have halive : k.ended = false := by simpa using ha
    exact inv_onNewConnectionId (h.of_alive halive) halive (readNewConnectionId_le hread)
  | retireTurn =>
    simp only [step, Option.ite_none_left_eq_some, Option.some.injEq] at hs
    obtain ⟨ha, rfl⟩ := hs
    have hc := h.of_alive (by simpa using ha)
    unfold retireTurn
    split
    · exact h
    next seq rest hdue =>
    refine ⟨fun _ _ => ⟨hc.few, hc.seqs, hc.cids, hc.current, hc.addressed, hc.settled, ?_⟩⟩
    exact fun s hm => hc.due (hdue ▸ .tail _ hm)
  | retireLost seq =>
    simp only [step, Option.ite_none_left_eq_some, Option.some.injEq, not_or] at hs
    obtain ⟨⟨ha, -⟩, rfl⟩ := hs
    have hc := h.of_alive (by simpa using ha)
    exact ⟨fun _ _ => hc.of_queues (queueRetire_queues k seq)⟩
  | stop code frameType reason =>
    cases hs
    exact inv_fail h ..
  | peerClose =>
    simp only [step, Option.ite_none_left_eq_some, Option.some.injEq] at hs
    obtain ⟨ha, rfl⟩ := hs
    have hc := h.of_alive (by simpa using ha)
    exact ⟨fun _ _ => ⟨hc.few, hc.seqs, hc.cids, hc.current, hc.addressed, hc.settled, hc.due⟩⟩
  | finish =>
    cases hs
    exact ⟨fun _ hcl => absurd rfl hcl⟩

end PeerIds

/-! ## §8. Every run. -/

/-- **Peer connection ids stay consistent.**  In every run, until the connection is closing or
    closed: at most four ids are active, with distinct sequence numbers and ids, none below the
    peer's Retire Prior To; packets are addressed with one of them; and every sequence number
    received that is below was queued for RETIRE_CONNECTION_ID. -/
theorem peer_ids_consistent (scid : Bytes) (ops : List PeerIds.Op) (k : PeerIds)
    (hrun : run PeerIds.step (PeerIds.create scid) ops = some k)
    (hopen : k.state ≠ .closing ∧ k.state ≠ .closed) :
    k.peerCids.length ≤ 4 ∧ (k.peerCids.map PeerCid.seq).Nodup ∧
      (k.peerCids.map PeerCid.cid).Nodup ∧ (∀ c ∈ k.peerCids, k.peerRetiredBelow ≤ c.seq) ∧
      (∃ c ∈ k.peerCids, c.cid = k.peerCid ∧ c.seq = k.peerCidSeq) ∧
      ∀ s ∈ k.received, s < k.peerRetiredBelow → s ∈ k.queued := by
  have hinv : k.Inv :=
    run_preserves (fun _ _ _ hi hs => PeerIds.step_inv hi hs) (PeerIds.create_inv scid) hrun
  have h := hinv.consistent hopen.1 hopen.2
  refine ⟨h.few, h.seqs, h.cids, h.current, h.addressed, fun s hs hlt => ?_⟩
  rcases h.settled s hs with hm | hm
  · obtain ⟨c, hc, rfl⟩ := List.mem_map.mp hm
    exact absurd (h.current c hc) (Nat.not_le.mpr hlt)
  · exact hm

/-- The bytes of a NEW_CONNECTION_ID from behind its type, all fields below 64 and the id one
    byte long. -/
def shortNewConnectionId (seq retirePriorTo cid : UInt8) : Bytes :=
  [seq, retirePriorTo, 1, cid] ++ List.replicate 16 0

/-- Ids 2 and 1 arrive in that order, then id 5, which retires all below 2 (the one in use
    among them); one retirement is written and lost; id 1 is repeated. -/
def retireRun : List PeerIds.Op :=
  [.handshakeComplete, .newConnectionId (shortNewConnectionId 2 0 12),
    .newConnectionId (shortNewConnectionId 1 0 11), .newConnectionId (shortNewConnectionId 5 2 15),
    .retireTurn, .retireLost 1, .newConnectionId (shortNewConnectionId 1 0 11)]

theorem peer_ids_consistent_retireRun :
    ∃ k, run PeerIds.step (PeerIds.create [10]) retireRun = some k ∧ k.peerCid = [12] ∧
      k.retireDue = [1, 0] ∧ (∀ s ∈ k.received, s < k.peerRetiredBelow → s ∈ k.queued) := by
  have hfacts : (run PeerIds.step (PeerIds.create [10]) retireRun).map
      (fun k => (k.state, k.peerCid, k.retireDue)) = some (.established, [12], [1, 0]) := by decide
  obtain ⟨k, hk, hfacts⟩ := Option.map_eq_some_iff.mp hfacts
  simp only [Prod.mk.injEq] at hfacts
  obtain ⟨hstate, hcid, hdue⟩ := hfacts
  have hopen : k.state ≠ .closing ∧ k.state ≠ .closed := by
    rw [hstate]
    decide
  exact ⟨k, hk, hcid, hdue, (peer_ids_consistent [10] retireRun k hk hopen).2.2.2.2.2⟩

end Agensio.Quic
