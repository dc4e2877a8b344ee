/-
  Agensio.Quic.Replay — duplicate packets.

  `receive` drops a packet whose number is in the set kept for ACK
  frames, and that set keeps only its highest 33 ranges.  A packet number
  below what was forgotten is taken for a new one.

  Main results:
    * `packets_processed_once` — in every run in which the set never has
      to forget a range, no packet is processed twice;
    * `forgotten_packet_processed_twice` — a run in which it does.
-/
import Agensio.Quic.Link

namespace Agensio.Quic

open Agensio.Lib

namespace Link

/-! ## §1. What leaves the packet numbers alone. -/

/-- The link without its keys and its state: what failing and a key update leave alone. -/
def unkeyed (l : Link) : Link :=
  { l with
    state := .handshaking, closeDue := false
    rxPrev := false, rxNext := false, rxPhase := false, phaseFirstPn := 0
    keyPhase := false, updateAckPending := false }

theorem fail_unkeyed (l : Link) : l.fail.unkeyed = l.unkeyed := by
  unfold fail
  split <;> rfl

variable {l l' : Link}

theorem acks_of_unkeyed (h : l'.unkeyed = l.unkeyed) : l'.acks = l.acks := by
  have := congrArg Link.acks h
  exact this

theorem processed_of_unkeyed (h : l'.unkeyed = l.unkeyed) : l'.processed = l.processed := by
  have := congrArg Link.processed h
  exact this

theorem ended_fail (l : Link) : l.fail.ended = true := by
  unfold fail
  by_cases h : l.ended = true
  · rw [if_pos h]
    exact h
  rw [if_neg h]
  rfl

theorem ended_congr (h : l'.state = l.state) : l'.ended = l.ended := by
  unfold ended
  rw [h]

theorem state_ne_closed (hlive : l.ended = false) : l.state ≠ .closed := by
  intro hc
  unfold ended at hlive
  rw [hc] at hlive
  simp at hlive

theorem loseChallenges_frame (l : Link) (n : Nat) :
    (l.loseChallenges n).acks = l.acks ∧ (l.loseChallenges n).processed = l.processed ∧
      (l.loseChallenges n).state = l.state := by
  induction n generalizing l with
  | zero => exact ⟨rfl, rfl, rfl⟩
  | succ n ih =>
    show (l.loseChallenge.loseChallenges n).acks = _ ∧ _
    obtain ⟨hacks, hproc, hstate⟩ := ih l.loseChallenge
    have hone : l.loseChallenge.acks = l.acks ∧ l.loseChallenge.processed = l.processed ∧
        l.loseChallenge.state = l.state := by
      unfold loseChallenge
      split
      · split <;> exact ⟨rfl, rfl, rfl⟩
      · exact ⟨rfl, rfl, rfl⟩
    exact ⟨hacks.trans hone.1, hproc.trans hone.2.1, hstate.trans hone.2.2⟩

theorem handlePathFrame_frame (l : Link) (b : Bool) (f : PathFrame) :
    (l.handlePathFrame b f).acks = l.acks ∧ (l.handlePathFrame b f).processed = l.processed := by
  cases f with
  | other => exact ⟨rfl, rfl⟩
  | pathResponse ok =>
    unfold handlePathFrame
    dsimp only
    split <;> exact ⟨rfl, rfl⟩
  | pathChallenge =>
    unfold handlePathFrame
    dsimp only
    split <;> exact ⟨rfl, rfl⟩
  | ack lost mtu =>
    cases mtu with
    | none => exact ⟨(loseChallenges_frame l lost).1, (loseChallenges_frame l lost).2.1⟩
    | some n =>
      have h := loseChallenges_frame { l with maxDatagram := n } lost
      exact ⟨h.1, h.2.1⟩
  | crypto keys mtu complete =>
    unfold handlePathFrame
    dsimp only
    cases mtu <;> dsimp only <;> split <;> exact ⟨rfl, rfl⟩
  | failing =>
    exact ⟨acks_of_unkeyed l.fail_unkeyed, processed_of_unkeyed l.fail_unkeyed⟩
  | connectionClose => exact ⟨rfl, rfl⟩

theorem processFrames_frame (l : Link) (b : Bool) (fs : List PathFrame) :
    (l.processFrames b fs).acks = l.acks ∧ (l.processFrames b fs).processed = l.processed := by
  induction fs generalizing l with
  | nil => exact ⟨rfl, rfl⟩
  | cons f fs ih =>
    unfold processFrames
    dsimp only
    have hone := l.handlePathFrame_frame b f
    split
    · exact hone
    have hrest := ih (l.handlePathFrame b f)
    exact ⟨hrest.1.trans hone.1, hrest.2.trans hone.2⟩

theorem updateKeys_unkeyed (l : Link) (p : Packet) (pn : Nat) : (l.updateKeys p pn).unkeyed = l.unkeyed := by
  unfold updateKeys
  split
  · exact l.fail_unkeyed
  dsimp only
  split
  · split
    · exact fail_unkeyed _
    · rfl
  · rfl

theorem state_fail (hlive : l.ended = false) : l.fail.state = .closing := by
  unfold fail
  rw [hlive]
  rfl

/-- An update either goes through or closes the connection. -/
theorem updateKeys_state (hlive : l.ended = false) (p : Packet) (pn : Nat) :
    (l.updateKeys p pn).state = l.state ∨ (l.updateKeys p pn).state = .closing := by
  unfold updateKeys
  split
  · exact .inr (state_fail hlive)
  dsimp only
  split
  · split
    · exact .inr (state_fail hlive)
    · exact .inl rfl
  · exact .inl rfl

theorem produceOne_frame (l : Link) (plan : Plan) :
    (l.produceOne plan).acks = l.acks ∧ (l.produceOne plan).processed = l.processed ∧
      (l.produceOne plan).state = l.state := by
  unfold produceOne
  split
  · exact ⟨rfl, rfl, rfl⟩
  split
  · exact ⟨rfl, rfl, rfl⟩
  split
  · exact ⟨rfl, rfl, rfl⟩
  dsimp only
  split
  · exact ⟨rfl, rfl, rfl⟩
  · split <;> exact ⟨rfl, rfl, rfl⟩

/-! ## §2. The invariant. -/

/-- The packet is opened: its space has keys, and the AEAD accepts it under those of its phase. -/
def opens (l : Link) (p : Packet) : Bool :=
  l.rx p.space &&
    match l.selectKeys p (l.pnOf p) with
    | none => false
    | some k => p.opens k (l.pnOf p)

/-- The packet processed next has room in the set: no range is forgotten for it. -/
def Remembers (l : Link) (p : Packet) : Prop :=
  l.opens p = true → ((l.acks p.space).received.addPoint (l.pnOf p)).length ≤ kMaxAckRanges + 1

instance (l : Link) (p : Packet) : Decidable (l.Remembers p) :=
  inferInstanceAs (Decidable (_ → _))

/-- Each packet that the loop of `receive` reaches. -/
def RemembersAlong (l : Link) (from_ : Addr) (len : Nat) (onPeerPath : Bool) : List Packet → Prop
  | [] => True
  | p :: ps =>
    l.Remembers p ∧
      ((l.receivePacket from_ len onPeerPath p).goesOn = true →
        (l.receivePacket from_ len onPeerPath p).link.RemembersAlong from_ len
          (l.receivePacket from_ len onPeerPath p).onPeerPath ps)

instance RemembersAlong.decidable : ∀ (ps : List Packet) (l : Link) (from_ : Addr) (len : Nat)
    (onPeerPath : Bool), Decidable (l.RemembersAlong from_ len onPeerPath ps)
  | [], _, _, _, _ => isTrue trivial
  | p :: ps, l, from_, len, onPeerPath =>
    have : Decidable ((l.receivePacket from_ len onPeerPath p).link.RemembersAlong from_ len
        (l.receivePacket from_ len onPeerPath p).onPeerPath ps) :=
      RemembersAlong.decidable ps _ _ _ _
    inferInstanceAs (Decidable (_ ∧ (_ → _)))

/-- The condition on a step. -/
def Unforgetting (l : Link) : Label → Prop
  | .receive from_ len ps =>
    (if from_ = l.peer then l.countReceived len else l).RemembersAlong from_ len
      (decide (from_ = l.peer)) ps
  | _ => True

instance (l : Link) : ∀ lb, Decidable (l.Unforgetting lb)
  | .receive from_ len ps => inferInstanceAs (Decidable
      ((if from_ = l.peer then l.countReceived len else l).RemembersAlong from_ len
        (decide (from_ = l.peer)) ps))
  | .produce _ | .mtuProbe _ | .startMtuProbe _ | .sendClose .. | .close | .lossTimer _ | .idleTimer
  | .finish | .keys .. => isTrue trivial

/-- The numbers processed are the numbers in the set, while the connection is not over. -/
structure Once (l : Link) : Prop where
  nodup : l.processed.Nodup
  ordered : ∀ sp, (l.acks sp).received.Above 0
  held : l.ended = false → ∀ x ∈ l.processed, (l.acks x.1).received.Holds x.2

theorem Once.of_frame (h : l.Once) (ha : l'.acks = l.acks)
    (hp : l'.processed = l.processed) (he : l'.ended = false → l.ended = false) : l'.Once := by
  refine ⟨?_, ?_, ?_⟩
  · rw [hp]
    exact h.nodup
  · rw [ha]
    exact h.ordered
  · intro hend x hx
    rw [hp] at hx
    rw [ha]
    exact h.held (he hend) x hx

theorem keepHighest_of_le {r : RangeSet} {n : Nat} (h : r.length ≤ n) : r.keepHighest n = r := by
  unfold RangeSet.keepHighest
  rw [Nat.sub_eq_zero_of_le h, List.drop_zero]

/-- A packet number that is not in the set is processed for the first time. -/
theorem Once.processPacket (h : l.Once) (hlive : l.ended = false) (from_ : Addr)
    (len : Nat) (onPeerPath : Bool) (p : Packet) (pn : Nat)
    (hroom : ((l.acks p.space).received.addPoint pn).length ≤ kMaxAckRanges + 1)
    (hnew : (l.acks p.space).received.containsPoint pn = false) :
    (l.processPacket from_ len onPeerPath p pn).link.Once := by
  obtain ⟨hacks, hproc⟩ := processFrames_frame
    { l with processed := (p.space, pn) :: l.processed } onPeerPath p.frames
  dsimp only at hacks hproc
  have hfresh : (p.space, pn) ∉ l.processed := by
    intro hmem
    have := (RangeSet.containsPoint_iff _ _).mpr (h.held hlive _ hmem)
    rw [hnew] at this
    simp at this
  have hnodup : ((p.space, pn) :: l.processed).Nodup := List.nodup_cons.mpr ⟨hfresh, h.nodup⟩
  unfold Link.processPacket
  dsimp only
  generalize hl₁ : ({ l with processed := (p.space, pn) :: l.processed } : Link).processFrames
    onPeerPath p.frames = l₁ at hacks hproc
  by_cases hclosing : (l₁.state == .closing || l₁.state == .draining) = true
  · -- the frames ended the connection: nothing is processed from here on
    rw [if_pos hclosing]
    refine ⟨?_, ?_, ?_⟩
    · rw [hproc]
      exact hnodup
    · rw [hacks]
      exact h.ordered
    · intro hend
      unfold ended at hend
      rw [hclosing] at hend
      simp at hend
  · rw [if_neg hclosing]
    dsimp only
    obtain ⟨habove, hset⟩ := RangeSet.add_spec (Nat.lt_succ_self pn) (h.ordered p.space)
    have hnote : ((l.acks p.space).note pn).received = (l.acks p.space).received.addPoint pn :=
      keepHighest_of_le hroom
    have hkey : ∀ l' : Link, l'.processed = l₁.processed →
        (l'.acks = fun sp => if sp = p.space then (l₁.acks sp).note pn else l₁.acks sp) →
        l'.Once := by
      intro l' hp' ha'
      refine ⟨?_, ?_, ?_⟩
      · rw [hp', hproc]
        exact hnodup
      · intro sp
        rw [ha', hacks]
        dsimp only
        by_cases hsp : sp = p.space
        · rw [if_pos hsp, hsp, hnote]
          exact habove.mono (Nat.zero_le _)
        rw [if_neg hsp]
        exact h.ordered sp
      · intro _ x hx
        rw [hp', hproc] at hx
        rw [ha', hacks]
        dsimp only
        by_cases hsp : x.1 = p.space
        · rw [if_pos hsp, hsp, hnote]
          apply (hset _).mpr
          rcases List.mem_cons.mp hx with rfl | hx
          · exact .inr ⟨Nat.le_refl _, Nat.lt_succ_self _⟩
          left
          rw [← hsp]
          exact h.held hlive x hx
        · rw [if_neg hsp]
          rcases List.mem_cons.mp hx with rfl | hx
          · exact absurd rfl hsp
          · exact h.held hlive x hx
    by_cases hhs : p.space = .handshake
    · rw [if_pos hhs]
      apply hkey <;> (unfold discardInitial; dsimp only; split <;> rfl)
    rw [if_neg hhs]
    apply hkey <;> (split <;> rfl)

/-- `go` where the opened packet is processed, `out` where it is dropped. -/
def whenOpened {α : Type} (l : Link) (p : Packet) (pn : Nat) (updating : Bool) (out : α) (go : Link → α) : α :=
  let l₁ := if updating then l.updateKeys p pn else l
  if l₁.state == .closing then out
  else if p.reserved then out
  else if (l₁.acks p.space).received.containsPoint pn then out
  else go l₁

/-- The decisions of `receivePacket`. -/
def whenProcessed {α : Type} (l : Link) (p : Packet) (out : α) (go : Link → α) : α :=
  if p.longForm && (!p.version1 || p.type == .retry) then out
  else if p.longForm && p.type == .zeroRtt then out
  else if !p.fixedBit then out
  else if !l.rx p.space then out
  else if !p.sampled then out
  else
    let pn := l.pnOf p
    match l.selectKeys p pn with
    | none => out
    | some k =>
      let l := if k = .next then { l with rxNext := true } else l
      if !p.opens k pn then out else l.whenOpened p pn (decide (k = .next)) out go

/-- What `receivePacket` can do: leave the numbers alone, or process a new packet. -/
theorem receivePacket_cases {α : Type} (l : Link) (from_ : Addr) (len : Nat) (b : Bool) (p : Packet)
    (hlive : l.ended = false) (out : α) (go : Link → α) :
    (∃ (l' : Link) (more : Bool), l.receivePacket from_ len b p = ⟨l', more, b⟩ ∧
      l.whenProcessed p out go = out ∧ l'.unkeyed = l.unkeyed ∧ (l'.state = l.state ∨ l'.ended = true) ∧
      (more = true → l'.ended = false)) ∨
    (∃ l' : Link, l.receivePacket from_ len b p = l'.processPacket from_ len b p (l.pnOf p) ∧
      l.whenProcessed p out go = go l' ∧ l'.unkeyed = l.unkeyed ∧ l'.state = l.state ∧ l.opens p = true ∧
      (l.acks p.space).received.containsPoint (l.pnOf p) = false) := by
  unfold receivePacket whenProcessed
  split
  · exact .inl ⟨l, _, rfl, rfl, rfl, .inl rfl, fun _ => hlive⟩
  split
  · exact .inl ⟨l, _, rfl, rfl, rfl, .inl rfl, fun _ => hlive⟩
  split
  · exact .inl ⟨l, _, rfl, rfl, rfl, .inl rfl, fun _ => hlive⟩
  split
  · exact .inl ⟨l, _, rfl, rfl, rfl, .inl rfl, fun _ => hlive⟩
  next hrx =>
  split
  · exact .inl ⟨l, _, rfl, rfl, rfl, .inl rfl, fun _ => hlive⟩
  dsimp only
  cases hk : l.selectKeys p (l.pnOf p) with
  | none => exact .inl ⟨l, _, rfl, rfl, rfl, .inl rfl, fun _ => hlive⟩
  | some k =>
    dsimp only
    -- deriving the next keys and updating them touch neither the path nor the Initial keys
    obtain ⟨l₁, hl₁, hu₁, hs₁⟩ : ∃ l₁ : Link,
        (if k = .next then { l with rxNext := true } else l) = l₁ ∧
        l₁.unkeyed = l.unkeyed ∧ l₁.state = l.state := by
      split
      · exact ⟨_, rfl, rfl, rfl⟩
      · exact ⟨_, rfl, rfl, rfl⟩
    rw [hl₁]
    have hlive₁ : l₁.ended = false := (ended_congr hs₁).trans hlive
    by_cases hopen : p.opens k (l.pnOf p) = true
    · have hn : ¬ (!p.opens k (l.pnOf p)) = true := by simp [hopen]
      rw [if_neg hn, if_neg hn]
      unfold openedPacket whenOpened
      dsimp only
      obtain ⟨l₂, hl₂, hu₂, hs₂⟩ : ∃ l₂ : Link,
          (if decide (k = .next) = true then l₁.updateKeys p (l.pnOf p) else l₁) = l₂ ∧
          l₂.unkeyed = l.unkeyed ∧ (l₂.state = l₁.state ∨ l₂.state = .closing) := by
        split
        · exact ⟨_, rfl, (updateKeys_unkeyed _ _ _).trans hu₁, updateKeys_state hlive₁ _ _⟩
        · exact ⟨_, rfl, hu₁, .inl rfl⟩
      rw [hl₂]
      by_cases hclosing : (l₂.state == .closing) = true
      · rw [if_pos hclosing, if_pos hclosing]
        refine .inl ⟨l₂, _, rfl, rfl, hu₂, .inr ?_, by simp⟩
        unfold ended
        rw [hclosing]
        rfl
      · rw [if_neg hclosing, if_neg hclosing]
        have hstate₂ : l₂.state = l.state := by
          rcases hs₂ with hs | hs
          · exact hs.trans hs₁
          rw [hs] at hclosing
          exact absurd rfl hclosing
        split
        · exact .inl ⟨_, _, rfl, rfl, l₂.fail_unkeyed.trans hu₂, .inr (ended_fail l₂), by simp⟩
        split
        · exact .inl ⟨l₂, _, rfl, rfl, hu₂, .inl hstate₂,
            fun _ => (ended_congr hstate₂).trans hlive⟩
        next hdup =>
          refine .inr ⟨l₂, rfl, rfl, hu₂, hstate₂, ?_, ?_⟩
          · unfold opens
            rw [hk]
            show (l.rx p.space && p.opens k (l.pnOf p)) = true
            rw [hopen]
            simpa using hrx
          · rw [acks_of_unkeyed hu₂] at hdup
            simpa using hdup
    · have hn : (!p.opens k (l.pnOf p)) = true := by simpa using hopen
      rw [if_pos hn, if_pos hn]
      split
      · exact .inl ⟨_, _, rfl, rfl, l₁.fail_unkeyed.trans hu₁, .inr (ended_fail l₁), by simp⟩
      · exact .inl ⟨l₁, _, rfl, rfl, hu₁, .inl hs₁, fun _ => hlive₁⟩

theorem state_loseChallenges (l : Link) (n : Nat) : (l.loseChallenges n).state = l.state :=
  (l.loseChallenges_frame n).2.2

/-- No frame makes the connection `closed`: only timers do. -/
theorem handlePathFrame_state (l : Link) (b : Bool) (f : PathFrame) (h : l.state ≠ .closed) :
    (l.handlePathFrame b f).state ≠ .closed := by
  cases f with
  | other => exact h
  | pathResponse ok =>
    unfold handlePathFrame
    dsimp only
    split <;> exact h
  | pathChallenge =>
    unfold handlePathFrame
    dsimp only
    split <;> exact h
  | ack lost mtu =>
    cases mtu with
    | none =>
      show (l.loseChallenges lost).state ≠ .closed
      rw [state_loseChallenges]
      exact h
    | some n =>
      show (({ l with maxDatagram := n } : Link).loseChallenges lost).state ≠ .closed
      rw [state_loseChallenges]
      exact h
  | crypto keys mtu complete =>
    unfold handlePathFrame
    dsimp only
    cases mtu <;> dsimp only <;> split <;> first | exact h | simp
  | failing =>
    show l.fail.state ≠ .closed
    unfold fail
    split
    · exact h
    · simp
  | connectionClose =>
    show State.draining ≠ .closed
    simp

theorem processFrames_state (l : Link) (b : Bool) (fs : List PathFrame) (h : l.state ≠ .closed) :
    (l.processFrames b fs).state ≠ .closed := by
  induction fs generalizing l with
  | nil => exact h
  | cons f fs ih =>
    unfold processFrames
    dsimp only
    have hone := l.handlePathFrame_state b f h
    split
    · exact hone
    · exact ih _ hone

/-- The loop goes on only with a connection that is not over. -/
theorem processPacket_live (l : Link) (hlive : l.ended = false) (from_ : Addr) (len : Nat)
    (onPeerPath : Bool) (p : Packet) (pn : Nat)
    (hgo : (l.processPacket from_ len onPeerPath p pn).goesOn = true) :
    (l.processPacket from_ len onPeerPath p pn).link.ended = false := by
  have hclosed : (({ l with processed := (p.space, pn) :: l.processed } : Link).processFrames
      onPeerPath p.frames).state ≠ .closed := by
    apply processFrames_state
    exact state_ne_closed hlive
  revert hgo
  unfold processPacket
  dsimp only
  generalize ({ l with processed := (p.space, pn) :: l.processed } : Link).processFrames
    onPeerPath p.frames = l₁ at hclosed
  split
  · exact nofun
  next hopen =>
    intro _
    have hlive₁ : l₁.ended = false := by
      unfold ended
      rw [Bool.not_eq_true] at hopen
      rw [hopen]
      simpa using hclosed
    -- noting the number, migrating and discarding keys leave the state
    rw [← hlive₁]
    apply ended_congr
    dsimp only
    split <;> split <;> rfl

/-- The loop of `receive`. -/
theorem Once.receiveLoop (h : l.Once) (hlive : l.ended = false) (from_ : Addr) (len : Nat)
    (onPeerPath : Bool) (ps : List Packet) (hok : l.RemembersAlong from_ len onPeerPath ps) :
    (l.receiveLoop from_ len onPeerPath ps).Once := by
  induction ps generalizing l onPeerPath with
  | nil => exact h
  | cons p ps ih =>
    obtain ⟨hp, hps⟩ := hok
    unfold Link.receiveLoop
    split
    · exact h
    dsimp only
    have hstep : (l.receivePacket from_ len onPeerPath p).link.Once ∧
        ((l.receivePacket from_ len onPeerPath p).goesOn = true →
          (l.receivePacket from_ len onPeerPath p).link.ended = false) := by
      rcases l.receivePacket_cases from_ len onPeerPath p hlive () fun _ => () with
        ⟨l', b, heq, -, hu, -, hb⟩ | ⟨l', heq, -, hu, hs, hopen, hnew⟩
      · rw [heq]
        exact ⟨h.of_frame (acks_of_unkeyed hu) (processed_of_unkeyed hu) (fun _ => hlive), hb⟩
      rw [heq]
      have ha := acks_of_unkeyed hu
      have hlive' : l'.ended = false := (ended_congr hs).trans hlive
      have hl' : l'.Once := h.of_frame ha (processed_of_unkeyed hu) (fun _ => hlive)
      refine ⟨hl'.processPacket hlive' from_ len onPeerPath p _ ?_ ?_,
        l'.processPacket_live hlive' from_ len onPeerPath p _⟩
      · rw [ha]
        exact hp hopen
      · rw [ha]
        exact hnew
    split
    next hgo => exact ih hstep.1 (hstep.2 hgo) _ (hps hgo)
    next => exact hstep.1

/-! ## §3. Steps and runs. -/

/-- What `receive` can do: nothing, count a datagram of a closing connection, or open packets. -/
theorem receive_cases (l : Link) (from_ : Addr) (len : Nat) (ps : List Packet) : l.receive from_ len ps = l ∨
    ∃ l₁ : Link, l₁ = (if from_ = l.peer then l.countReceived len else l) ∧ l₁.state = l.state ∧
      ((∃ due n, l.receive from_ len ps = { l₁ with closePackets := n, closeDue := due }) ∨
        l₁.ended = false ∧
          l.receive from_ len ps = l₁.receiveLoop from_ len (decide (from_ = l.peer)) ps) := by
  unfold receive
  split
  · exact .inl rfl
  next hopen =>
    dsimp only
    split
    · exact .inl rfl
    right
    rw [show (if decide (from_ = l.peer) = true then l.countReceived len else l) =
      if from_ = l.peer then l.countReceived len else l by simp only [decide_eq_true_eq]]
    have hstate : (if from_ = l.peer then l.countReceived len else l).state = l.state := by
      split <;> rfl
    generalize (if from_ = l.peer then l.countReceived len else l) = l₁ at hstate
    refine ⟨l₁, rfl, hstate, ?_⟩
    split
    · left
      split
      · exact ⟨true, _, rfl⟩
      · exact ⟨l₁.closeDue, _, rfl⟩
    next hclosing =>
      refine .inr ⟨?_, rfl⟩
      unfold ended
      rw [Bool.not_eq_true] at hopen hclosing
      rw [Bool.or_eq_false_iff] at hopen
      rw [← hstate] at hopen
      rw [hclosing, hopen.1, hopen.2]
      rfl

theorem Once.receive (h : l.Once) (from_ : Addr) (len : Nat) (ps : List Packet)
    (hok : l.Unforgetting (.receive from_ len ps)) : (l.receive from_ len ps).Once := by
  rcases l.receive_cases from_ len ps with heq | ⟨l₁, hl₁, hs, heq⟩
  · rw [heq]
    exact h
  -- counting the bytes touches no packet number
  have hone : l₁.Once := by
    rw [hl₁]
    split
    · exact h.of_frame rfl rfl id
    · exact h
  have hok' : l₁.RemembersAlong from_ len (decide (from_ = l.peer)) ps := hl₁ ▸ hok
  rcases heq with ⟨due, n, heq⟩ | ⟨hlive, heq⟩
  · rw [heq]
    exact hone.of_frame rfl rfl id
  rw [heq]
  exact hone.receiveLoop hlive from_ len _ ps hok'

theorem step_once (lb : Label) (h : l.Once) (hok : l.Unforgetting lb)
    (hstep : l.step lb = some l') : l'.Once := by
  cases lb with
  | receive from_ len ps =>
    cases hstep
    exact h.receive from_ len ps hok
  | produce plan =>
    unfold step at hstep
    dsimp only at hstep
    split at hstep
    · simp at hstep
    next hlive =>
      cases hstep
      obtain ⟨ha, hp, hs⟩ := l.produceOne_frame plan
      exact h.of_frame ha hp (fun he => (ended_congr hs).symm.trans he)
  | mtuProbe n =>
    unfold step probeMtu at hstep
    dsimp only at hstep
    split at hstep
    · simp at hstep
    cases hstep
    split <;> exact h.of_frame rfl rfl id
  | startMtuProbe target =>
    cases hstep
    exact h.of_frame rfl rfl id
  | sendClose initial header frame =>
    unfold step at hstep
    dsimp only at hstep
    split at hstep
    · cases hstep
      exact h.of_frame rfl rfl id
    · simp at hstep
  | close =>
    cases hstep
    refine h.of_frame (acks_of_unkeyed l.fail_unkeyed) (processed_of_unkeyed l.fail_unkeyed) ?_
    intro hend
    rw [ended_fail] at hend
    simp at hend
  | lossTimer lost =>
    unfold step at hstep
    dsimp only at hstep
    split at hstep
    · simp at hstep
    cases hstep
    obtain ⟨ha, hp, hs⟩ := l.loseChallenges_frame lost
    exact h.of_frame ha hp (fun he => (ended_congr hs).symm.trans he)
  | idleTimer =>
    unfold step at hstep
    dsimp only at hstep
    split at hstep
    · simp at hstep
    cases hstep
    exact h.of_frame rfl rfl (fun he => absurd he (by simp [ended]))
  | finish =>
    unfold step at hstep
    dsimp only at hstep
    split at hstep
    · cases hstep
      exact h.of_frame rfl rfl (fun he => absurd he (by simp [ended]))
    · simp at hstep
  | keys prev next pending phase =>
    cases hstep
    exact h.of_frame rfl rfl id

/-- In every run in which the set never has to forget a range, the frames of a packet number of
    a space are processed at most once. -/
theorem packets_processed_once (peer : Addr) (validated : Bool) (lbs : List Label) (l : Link)
    (hrun : run Link.step (create peer validated) lbs = some l)
    (hok : Meets Link.step Unforgetting (create peer validated) lbs) : l.processed.Nodup := by
  have hinit : (create peer validated).Once := by
    refine ⟨List.nodup_nil, ?_, ?_⟩
    · intro sp
      trivial
    · intro _ x hx
      simp [create] at hx
  have hinv : l.Once := run_invariant (I := Once) (fun _ lb _ h hk hs => step_once lb h hk hs)
    hinit hrun hok
  exact hinv.nodup

/-- A handshake, and the packets whose numbers are given, one to a datagram. -/
def arrivals (pns : List Nat) : List Label :=
  .receive 1 1200
    [{ longForm := true, type := .initial, frames := [.crypto [.handshake] none false] }] ::
  .receive 1 1200
    [{ longForm := true, type := .handshake, frames := [.crypto [.application] (some 1452) true] }] ::
  pns.map fun pn => .receive 1 100 [{ truncated := pn }]

theorem packets_processed_once_replayed :
    Meets Link.step Unforgetting (create 1 false) (arrivals [0, 2, 1, 0, 2]) ∧
      (run Link.step (create 1 false) (arrivals [0, 2, 1, 0, 2])).map processed =
        some [(.application, 1), (.application, 2), (.application, 0), (.handshake, 0), (.initial, 0)] ∧
      ∀ l, run Link.step (create 1 false) (arrivals [0, 2, 1, 0, 2]) = some l → l.processed.Nodup := by
  have hok : Meets Link.step Unforgetting (create 1 false) (arrivals [0, 2, 1, 0, 2]) := by
    decide +kernel
  exact ⟨hok, by decide +kernel, fun l hl => packets_processed_once 1 false _ l hl hok⟩

/-- Numbers 0, 2, …, 66 leave 34 ranges, the lowest is forgotten, and packet 0 is new again. -/
theorem forgotten_packet_processed_twice :
    ∃ l, run Link.step (create 1 false) (arrivals ((List.range 34).map (2 * ·) ++ [0])) = some l ∧
      ¬ l.processed.Nodup := by
  have hrun : (run Link.step (create 1 false) (arrivals ((List.range 34).map (2 * ·) ++ [0]))).map
      (fun l => decide l.processed.Nodup) = some false := by
    decide +kernel
  obtain ⟨l, hl, hdup⟩ := Option.map_eq_some_iff.mp hrun
  exact ⟨l, hl, of_decide_eq_false hdup⟩

end Link

end Agensio.Quic
