/-
  Agensio.Quic.Amplification — the limit of an unvalidated address.

  `produce` sends an address that is not validated at most three times
  what arrived from it.  Three paths step over the limit: the size is
  raised to 1,200 bytes again when the congestion window has less room
  than the limit left, `send_close` asks no limit and counts nothing, and
  `revert_path` goes back to an address with the counters of another.

  Main results:
    * `unvalidated_address_limited` — in every run that takes none of the
      three, the limit holds in every state;
    * `close_exceeds_limit` — a close during the handshake that does not.
-/
import Agensio.Quic.Replay

namespace Agensio.Quic

open Agensio.Lib

namespace Link

/-! ## §1. The size of a datagram. -/

theorem buildPacket_le (header pnLen payload cap padTo : Nat) (sealed : Bool) :
    buildPacket header pnLen payload cap padTo sealed ≤ cap := by
  unfold buildPacket
  split
  · exact Nat.zero_le _
  next hcap =>
    dsimp only
    split
    · exact Nat.zero_le _
    -- each of the three sizes of the payload leaves the tag its place
    have hw : header + min payload (cap - header - kAeadTagLen) + kAeadTagLen ≤ cap := by
      omega
    generalize min payload (cap - header - kAeadTagLen) = w at hw
    generalize hn : 4 + kHpSampleLen - kAeadTagLen - pnLen - w = need
    have hw₁ : header + (if pnLen + w + kAeadTagLen < 4 + kHpSampleLen ∧
        header + w + need + kAeadTagLen ≤ cap then w + need else w) + kAeadTagLen ≤ cap := by
      split <;> omega
    generalize (if pnLen + w + kAeadTagLen < 4 + kHpSampleLen ∧
        header + w + need + kAeadTagLen ≤ cap then w + need else w) = w₁ at hw₁
    split
    · split <;> omega
    · exact Nat.zero_le _

theorem fillDatagram_le (plan : Plan) (cap : Nat) (last : Space) (pathFrames : Bool)
    (sps : List Space) (used : Nat) (initial : Bool) (h : used ≤ cap) :
    (fillDatagram plan cap last pathFrames sps (used, initial)).1 ≤ cap := by
  induction sps generalizing used initial with
  | nil => exact h
  | cons sp sps ih =>
    unfold fillDatagram
    split
    · dsimp only
      refine iteInduction (motive := fun x : Nat × Bool => x.1 ≤ cap) ?_ ?_
      · intro _
        exact ih used initial h
      · intro _
        apply ih
        -- the packet is written into what the packets before it left
        exact Nat.add_le_of_le_sub' h (buildPacket_le _ _ _ _ _ _)
    · exact ih used initial h

/-- What a round of `produce` does to the counters: at most one datagram of at most the size. -/
theorem produceOne_cases (l : Link) (plan : Plan) :
    ∃ n, (n = 0 ∨ ∃ cap, l.datagramCap plan.room = some cap ∧ n ≤ cap) ∧
      (l.produceOne plan).addressValidated = l.addressValidated ∧
      (l.produceOne plan).bytesReceived = l.bytesReceived ∧
      (l.produceOne plan).receivedFrom = l.receivedFrom ∧ (l.produceOne plan).bytesSent = l.bytesSent + n ∧
      (l.produceOne plan).sentTo = l.sentTo + n := by
  unfold produceOne
  split
  · exact ⟨0, .inl rfl, rfl, rfl, rfl, rfl, rfl⟩
  next cap hcap =>
    split
    · exact ⟨0, .inl rfl, rfl, rfl, rfl, rfl, rfl⟩
    next last hlast =>
      split
      · exact ⟨0, .inl rfl, rfl, rfl, rfl, rfl, rfl⟩
      dsimp only
      generalize ((l.pathChallengeDue || decide (l.pathResponses > 0)) &&
        (l.addressValidated || decide (l.bytesSent + kMinInitialDatagram ≤ 3 * l.bytesReceived))) =
        pathFrames
      have hle := fillDatagram_le plan cap last pathFrames spaces 0 false (Nat.zero_le _)
      generalize (fillDatagram plan cap last pathFrames spaces (0, false)).1 = n at hle
      split
      · exact ⟨0, .inl rfl, rfl, rfl, rfl, rfl, rfl⟩
      refine ⟨n, .inr ⟨cap, hcap, hle⟩, ?_⟩
      split <;> exact ⟨rfl, rfl, rfl, rfl, rfl⟩

/-! ## §2. The conditions. -/

/-- Losing this many PATH_CHALLENGE frames does not lead back to an unvalidated address. -/
def Anchored (l : Link) (lost : Nat) : Prop :=
  l.pathValidating = true → l.pathTries + lost < 3 ∨ l.prevValidated = true

instance (l : Link) (lost : Nat) : Decidable (l.Anchored lost) :=
  inferInstanceAs (Decidable (_ → _))

/-- The challenges a frame declares lost. -/
def lostChallenges : PathFrame → Nat
  | .ack lost _ => lost
  | _ => 0

/-- Each frame that `process_frames` reaches. -/
def FramesAnchored (l : Link) (onPeerPath : Bool) : List PathFrame → Prop
  | [] => True
  | f :: fs =>
    l.Anchored (lostChallenges f) ∧
      ((l.handlePathFrame onPeerPath f).ended = false →
        (l.handlePathFrame onPeerPath f).FramesAnchored onPeerPath fs)

instance FramesAnchored.decidable : ∀ (fs : List PathFrame) (l : Link) (b : Bool),
    Decidable (l.FramesAnchored b fs)
  | [], _, _ => isTrue trivial
  | f :: fs, l, b =>
    have : Decidable ((l.handlePathFrame b f).FramesAnchored b fs) := FramesAnchored.decidable fs _ _
    inferInstanceAs (Decidable (_ ∧ (_ → _)))

/-- Each packet that the loop of `receive` reaches. -/
def AnchoredAlong (l : Link) (from_ : Addr) (len : Nat) (onPeerPath : Bool) : List Packet → Prop
  | [] => True
  | p :: ps =>
    (l.opens p = true → (l.acks p.space).received.containsPoint (l.pnOf p) = false →
        l.FramesAnchored onPeerPath p.frames) ∧
      ((l.receivePacket from_ len onPeerPath p).goesOn = true →
        (l.receivePacket from_ len onPeerPath p).link.AnchoredAlong from_ len
          (l.receivePacket from_ len onPeerPath p).onPeerPath ps)

instance AnchoredAlong.decidable : ∀ (ps : List Packet) (l : Link) (from_ : Addr) (len : Nat)
    (onPeerPath : Bool), Decidable (l.AnchoredAlong from_ len onPeerPath ps)
  | [], _, _, _, _ => isTrue trivial
  | p :: ps, l, from_, len, onPeerPath =>
    have : Decidable ((l.receivePacket from_ len onPeerPath p).link.AnchoredAlong from_ len
        (l.receivePacket from_ len onPeerPath p).onPeerPath ps) :=
      AnchoredAlong.decidable ps _ _ _ _
    inferInstanceAs (Decidable ((_ → _ → _) ∧ (_ → _)))

/-- The condition on a step: no path back to an unvalidated address, no datagram raised above
    the limit, no close above it. -/
def Restrained (l : Link) : Label → Prop
  | .receive from_ len ps =>
    (if from_ = l.peer then l.countReceived len else l).AnchoredAlong from_ len
      (decide (from_ = l.peer)) ps
  | .produce plan =>
    l.addressValidated = false → plan.room < min l.maxDatagram l.left →
      max plan.room kMinInitialDatagram ≤ l.left
  | .sendClose initial header frame =>
    l.addressValidated = false → l.sentTo + closeSize initial header frame ≤ 3 * l.receivedFrom
  | .lossTimer lost => l.Anchored lost
  | _ => True

instance (l : Link) : ∀ lb, Decidable (l.Restrained lb)
  | .receive from_ len ps => inferInstanceAs (Decidable
      ((if from_ = l.peer then l.countReceived len else l).AnchoredAlong from_ len
        (decide (from_ = l.peer)) ps))
  | .produce plan => inferInstanceAs (Decidable (_ → _ → max plan.room _ ≤ l.left))
  | .sendClose initial header frame => inferInstanceAs (Decidable
      (l.addressValidated = false → l.sentTo + closeSize initial header frame ≤ 3 * l.receivedFrom))
  | .lossTimer lost => inferInstanceAs (Decidable (l.Anchored lost))
  | .mtuProbe _ | .startMtuProbe _ | .close | .idleTimer | .finish | .keys .. => isTrue trivial

/-- The frames see the state of the path only. -/
structure SamePath (l l' : Link) : Prop where
  state : l'.state = l.state
  validating : l'.pathValidating = l.pathValidating
  tries : l'.pathTries = l.pathTries
  prevValidated : l'.prevValidated = l.prevValidated

variable {l l' : Link}

theorem SamePath.anchored (h : l.SamePath l') (n : Nat) : l'.Anchored n ↔ l.Anchored n := by
  unfold Anchored
  rw [h.validating, h.tries, h.prevValidated]

theorem SamePath.loseChallenge (h : l.SamePath l') : l.loseChallenge.SamePath l'.loseChallenge := by
  unfold Link.loseChallenge
  rw [h.validating, h.tries]
  split
  · split
    · exact ⟨h.state, rfl, rfl, h.prevValidated⟩
    · exact ⟨h.state, rfl, rfl, h.prevValidated⟩
  · exact h

theorem SamePath.loseChallenges (h : l.SamePath l') (n : Nat) :
    (l.loseChallenges n).SamePath (l'.loseChallenges n) := by
  induction n generalizing l l' with
  | zero => exact h
  | succ n ih => exact ih h.loseChallenge

theorem SamePath.handlePathFrame (h : l.SamePath l') (b : Bool) (f : PathFrame) :
    (l.handlePathFrame b f).SamePath (l'.handlePathFrame b f) := by
  cases f with
  | other => exact h
  | pathResponse ok =>
    unfold Link.handlePathFrame
    dsimp only
    rw [h.validating]
    split
    · exact ⟨h.state, rfl, h.tries, h.prevValidated⟩
    · exact h
  | pathChallenge =>
    unfold Link.handlePathFrame
    dsimp only
    split <;> split <;> exact ⟨h.state, h.validating, h.tries, h.prevValidated⟩
  | ack lost mtu =>
    have hmtu : ∀ n, SamePath { l with maxDatagram := n } { l' with maxDatagram := n } :=
      fun n => ⟨h.state, h.validating, h.tries, h.prevValidated⟩
    cases mtu with
    | none => exact h.loseChallenges lost
    | some n => exact (hmtu n).loseChallenges lost
  | crypto keys mtu complete =>
    unfold Link.handlePathFrame
    dsimp only
    cases mtu <;> dsimp only <;> rw [h.state] <;> split <;>
      exact ⟨rfl, h.validating, h.tries, h.prevValidated⟩
  | failing =>
    show l.fail.SamePath l'.fail
    unfold fail ended
    rw [h.state]
    split
    · exact h
    · exact ⟨rfl, h.validating, h.tries, h.prevValidated⟩
  | connectionClose => exact ⟨rfl, h.validating, h.tries, h.prevValidated⟩

theorem SamePath.framesAnchored (h : l.SamePath l') (b : Bool) {fs : List PathFrame}
    (ha : l.FramesAnchored b fs) : l'.FramesAnchored b fs := by
  induction fs generalizing l l' with
  | nil => trivial
  | cons f fs ih =>
    have hnext := h.handlePathFrame b f
    refine ⟨(h.anchored _).mpr ha.1, ?_⟩
    intro hlive
    exact ih hnext (ha.2 ((ended_congr hnext.state).symm.trans hlive))

/-! ## §3. The invariant. -/

/-- The counters of an unvalidated address are its own and below the limit. -/
def Limited (l : Link) : Prop :=
  l.addressValidated = false →
    l.bytesReceived = l.receivedFrom ∧ l.sentTo ≤ 3 * l.receivedFrom ∧
      (l.ended = false → l.sentTo = l.bytesSent)

theorem Limited.of_validated (h : l.addressValidated = true) : l.Limited := by
  intro hv
  rw [h] at hv
  simp at hv

/-- What moves no counter keeps the limit. -/
theorem Limited.of_counters (h : l.Limited) (hv : l'.addressValidated = false → l.addressValidated = false)
    (hr : l'.bytesReceived = l.bytesReceived) (hf : l'.receivedFrom = l.receivedFrom)
    (hs : l'.bytesSent = l.bytesSent) (ht : l'.sentTo = l.sentTo)
    (he : l'.ended = false → l.ended = false) : l'.Limited := by
  intro hval
  obtain ⟨h₁, h₂, h₃⟩ := h (hv hval)
  rw [hr, hf, hs, ht]
  exact ⟨h₁, h₂, fun hend => h₃ (he hend)⟩

theorem Limited.of_unkeyed (h : l.Limited) (hu : l'.unkeyed = l.unkeyed)
    (he : l'.ended = false → l.ended = false) : l'.Limited := by
  have hv := congrArg Link.addressValidated hu
  have hr := congrArg Link.bytesReceived hu
  have hf := congrArg Link.receivedFrom hu
  have hs := congrArg Link.bytesSent hu
  have ht := congrArg Link.sentTo hu
  exact h.of_counters (fun hval => Eq.trans (Eq.symm hv) hval) hr hf hs ht he

theorem Limited.fail (h : l.Limited) : l.fail.Limited := by
  apply h.of_unkeyed l.fail_unkeyed
  intro hend
  rw [ended_fail] at hend
  simp at hend

theorem Limited.loseChallenges (h : l.Limited) (n : Nat) (ha : l.Anchored n) :
    (l.loseChallenges n).Limited := by
  induction n generalizing l with
  | zero => exact h
  | succ n ih =>
    show (l.loseChallenge.loseChallenges n).Limited
    unfold loseChallenge
    split
    next hval =>
      split
      next htry =>
        apply ih
        · exact h.of_counters id rfl rfl rfl rfl id
        intro _
        rcases ha hval with hlt | hp
        · left
          show l.pathTries + 1 + n < 3
          omega
        · exact .inr hp
      next htry =>
        -- the third loss: back to the address before, which is validated
        have hprev : l.prevValidated = true := by
          rcases ha hval with hlt | hp
          · omega
          · exact hp
        apply ih
        · exact Limited.of_validated hprev
        · intro hoff
          simp [revertPath] at hoff
    next hval =>
      apply ih h
      intro hon
      exact absurd hon hval

theorem Limited.handlePathFrame (h : l.Limited) (b : Bool) (f : PathFrame)
    (ha : l.Anchored (lostChallenges f)) (hlive : l.ended = false) : (l.handlePathFrame b f).Limited := by
  cases f with
  | other => exact h
  | pathResponse ok =>
    unfold Link.handlePathFrame
    dsimp only
    split
    · exact Limited.of_validated rfl
    · exact h
  | pathChallenge =>
    unfold Link.handlePathFrame
    dsimp only
    split
    · exact h.of_counters id rfl rfl rfl rfl id
    · exact h
  | ack lost mtu =>
    cases mtu with
    | none => exact h.loseChallenges lost ha
    | some n =>
      have hmtu : Limited { l with maxDatagram := n } := h.of_counters id rfl rfl rfl rfl id
      exact hmtu.loseChallenges lost ha
  | crypto keys mtu complete =>
    unfold Link.handlePathFrame
    dsimp only
    cases mtu <;> dsimp only <;> split <;>
      exact h.of_counters id rfl rfl rfl rfl (fun _ => hlive)
  | failing => exact h.fail
  | connectionClose => exact h.of_counters id rfl rfl rfl rfl (fun _ => hlive)

theorem Limited.processFrames (h : l.Limited) (hlive : l.ended = false) (b : Bool)
    (fs : List PathFrame) (ha : l.FramesAnchored b fs) : (l.processFrames b fs).Limited := by
  induction fs generalizing l with
  | nil => exact h
  | cons f fs ih =>
    obtain ⟨hf, hfs⟩ := ha
    have hone := h.handlePathFrame b f hf hlive
    unfold Link.processFrames
    dsimp only
    split
    · exact hone
    next hopen =>
      have hlive' : (l.handlePathFrame b f).ended = false := by
        have hnot := l.handlePathFrame_state b f (state_ne_closed hlive)
        rw [Bool.not_eq_true] at hopen
        unfold ended
        rw [hopen]
        simpa using hnot
      exact ih hone hlive' (hfs hlive')

theorem Limited.processPacket (h : l.Limited) (hlive : l.ended = false) (from_ : Addr)
    (len : Nat) (b : Bool) (p : Packet) (pn : Nat) (ha : l.FramesAnchored b p.frames) :
    (l.processPacket from_ len b p pn).link.Limited := by
  have hstart : Limited { l with processed := (p.space, pn) :: l.processed } :=
    h.of_counters id rfl rfl rfl rfl id
  have hsame : l.SamePath { l with processed := (p.space, pn) :: l.processed } := ⟨rfl, rfl, rfl, rfl⟩
  have hframes := hstart.processFrames hlive b p.frames (hsame.framesAnchored b ha)
  unfold Link.processPacket
  dsimp only
  generalize ({ l with processed := (p.space, pn) :: l.processed } : Link).processFrames b p.frames =
    l₁ at hframes
  split
  · exact hframes
  dsimp only
  split
  · -- a Handshake packet validates the address
    exact Limited.of_validated rfl
  split
  · -- a new address starts with this datagram
    intro _
    exact ⟨rfl, Nat.zero_le _, fun _ => rfl⟩
  · exact hframes.of_counters id rfl rfl rfl rfl id

theorem Limited.receiveLoop (h : l.Limited) (hlive : l.ended = false) (from_ : Addr)
    (len : Nat) (b : Bool) (ps : List Packet) (ha : l.AnchoredAlong from_ len b ps) :
    (l.receiveLoop from_ len b ps).Limited := by
  induction ps generalizing l b with
  | nil => exact h
  | cons p ps ih =>
    obtain ⟨hp, hps⟩ := ha
    unfold Link.receiveLoop
    split
    · exact h
    dsimp only
    have hstep : (l.receivePacket from_ len b p).link.Limited ∧
        ((l.receivePacket from_ len b p).goesOn = true →
          (l.receivePacket from_ len b p).link.ended = false) := by
      rcases l.receivePacket_cases from_ len b p hlive () fun _ => () with
        ⟨l', go, heq, -, hu, -, hgo⟩ | ⟨l', heq, -, hu, hs, hopen, hnew⟩
      · rw [heq]
        exact ⟨h.of_unkeyed hu (fun _ => hlive), hgo⟩
      rw [heq]
      have hlive' : l'.ended = false := (ended_congr hs).trans hlive
      have hsame : l.SamePath l' := by
        have hv := congrArg Link.pathValidating hu
        have ht := congrArg Link.pathTries hu
        have hpv := congrArg Link.prevValidated hu
        exact ⟨hs, hv, ht, hpv⟩
      exact ⟨(h.of_unkeyed hu (fun _ => hlive)).processPacket hlive' from_ len b p _
        (hsame.framesAnchored b (hp hopen hnew)), l'.processPacket_live hlive' from_ len b p _⟩
    split
    next hgo => exact ih hstep.1 (hstep.2 hgo) _ (hps hgo)
    next => exact hstep.1

theorem Limited.countReceived (h : l.Limited) (len : Nat) : (l.countReceived len).Limited := by
  intro hval
  obtain ⟨h₁, h₂, h₃⟩ := h hval
  refine ⟨?_, ?_, h₃⟩
  · show l.bytesReceived + len = l.receivedFrom + len
    rw [h₁]
  · show l.sentTo ≤ 3 * (l.receivedFrom + len)
    omega

theorem Limited.receive (h : l.Limited) (from_ : Addr) (len : Nat) (ps : List Packet)
    (hok : l.Restrained (.receive from_ len ps)) : (l.receive from_ len ps).Limited := by
  rcases l.receive_cases from_ len ps with heq | ⟨l₁, hl₁, hs, heq⟩
  · rw [heq]
    exact h
  have hlim : l₁.Limited := by
    rw [hl₁]
    split
    · exact h.countReceived len
    · exact h
  have hok' : l₁.AnchoredAlong from_ len (decide (from_ = l.peer)) ps := hl₁ ▸ hok
  rcases heq with ⟨due, n, heq⟩ | ⟨hlive, heq⟩
  · rw [heq]
    exact hlim.of_counters id rfl rfl rfl rfl id
  rw [heq]
  exact hlim.receiveLoop hlive from_ len _ ps hok'

/-- A datagram of `produce` is not above what is left. -/
theorem datagramCap_le {room cap : Nat} (hval : l.addressValidated = false)
    (hcap : l.datagramCap room = some cap)
    (hroom : room < min l.maxDatagram l.left → max room kMinInitialDatagram ≤ l.left) : cap ≤ l.left := by
  unfold datagramCap at hcap
  rw [hval] at hcap
  split at hcap
  · simp at hcap
  dsimp only at hcap
  simp only [Bool.not_false, if_true] at hcap
  cases hcap
  split
  next hlt => exact hroom hlt
  next => exact Nat.min_le_right _ _

theorem Limited.produceOne (h : l.Limited) (hlive : l.ended = false) (plan : Plan)
    (hok : l.Restrained (.produce plan)) : (l.produceOne plan).Limited := by
  obtain ⟨n, hn, hv, hr, hf, hs, ht⟩ := l.produceOne_cases plan
  intro hval
  rw [hv] at hval
  obtain ⟨h₁, h₂, h₃⟩ := h hval
  rw [hr, hf, hs, ht]
  refine ⟨h₁, ?_, fun _ => by rw [h₃ hlive]⟩
  rcases hn with rfl | ⟨cap, hcap, hle⟩
  · exact h₂
  have hleft := datagramCap_le hval hcap (hok hval)
  have hsent := h₃ hlive
  unfold left at hleft
  omega

theorem Limited.step {l l' : Link} (lb : Label) (h : l.Limited) (hok : l.Restrained lb)
    (hstep : l.step lb = some l') : l'.Limited := by
  cases lb with
  | receive from_ len ps =>
    cases hstep
    exact h.receive from_ len ps hok
  | produce plan =>
    unfold Link.step at hstep
    dsimp only at hstep
    split at hstep
    · simp at hstep
    next hlive =>
      cases hstep
      exact h.produceOne (by simpa using hlive) plan hok
  | mtuProbe n =>
    unfold Link.step probeMtu at hstep
    dsimp only at hstep
    split at hstep
    · simp at hstep
    cases hstep
    split
    next hprobe =>
      -- only a validated address is probed
      apply Limited.of_validated
      show l.addressValidated = true
      simp only [Bool.and_eq_true] at hprobe
      exact hprobe.1.2
    next => exact h
  | startMtuProbe target =>
    cases hstep
    exact h.of_counters id rfl rfl rfl rfl id
  | sendClose initial header frame =>
    unfold Link.step at hstep
    dsimp only at hstep
    split at hstep
    next hclosing =>
      cases hstep
      intro hval
      obtain ⟨h₁, -, -⟩ := h hval
      refine ⟨h₁, hok hval, ?_⟩
      intro hend
      rw [Bool.and_eq_true] at hclosing
      have hend' : l.ended = false := hend
      unfold ended at hend'
      rw [hclosing.1] at hend'
      simp at hend'
    next => simp at hstep
  | close =>
    cases hstep
    exact h.fail
  | lossTimer lost =>
    unfold Link.step at hstep
    dsimp only at hstep
    split at hstep
    · simp at hstep
    cases hstep
    exact h.loseChallenges lost hok
  | idleTimer =>
    unfold Link.step at hstep
    dsimp only at hstep
    split at hstep
    · simp at hstep
    cases hstep
    exact h.of_counters id rfl rfl rfl rfl (fun he => absurd he (by simp [ended]))
  | finish =>
    unfold Link.step at hstep
    dsimp only at hstep
    split at hstep
    · cases hstep
      exact h.of_counters id rfl rfl rfl rfl (fun he => absurd he (by simp [ended]))
    · simp at hstep
  | keys prev next pending phase =>
    cases hstep
    exact h.of_counters id rfl rfl rfl rfl id

/-- In every run that takes none of the three, an address that is not validated is sent at most
    three times what arrived from it. -/
theorem unvalidated_address_limited (peer : Addr) (validated : Bool) (lbs : List Label) (l : Link)
    (hrun : run Link.step (create peer validated) lbs = some l)
    (hok : Meets Link.step Restrained (create peer validated) lbs)
    (hval : l.addressValidated = false) : l.sentTo ≤ 3 * l.receivedFrom := by
  have hinit : (create peer validated).Limited := by
    intro _
    exact ⟨rfl, Nat.le_refl _, fun _ => rfl⟩
  have hinv : l.Limited := run_invariant (I := Limited) (fun _ lb _ h hk hs => h.step lb hk hs)
    hinit hrun hok
  exact (hinv hval).2.1

/-- A full Initial datagram, in a congestion window with room. -/
def initialPlan : Plan where
  room := 12000
  wants := fun sp => sp == .initial
  header := fun _ => 30
  pnLen := fun _ => 2
  payload := fun _ => 2000
  sealed := fun _ => true

/-- A client's first Initial and the server's answers. -/
def answers (n : Nat) : List Label :=
  .receive 1 1200 [{ longForm := true, type := .initial }] :: List.replicate n (.produce initialPlan)

theorem unvalidated_address_limited_answers : Meets Link.step Restrained (create 1 false) (answers 4) ∧
      (run Link.step (create 1 false) (answers 4)).map
        (fun l => (l.addressValidated, l.sentTo, l.receivedFrom)) = some (false, 3600, 1200) ∧
      ∀ l, run Link.step (create 1 false) (answers 4) = some l → l.addressValidated = false →
        l.sentTo ≤ 3 * l.receivedFrom := by
  have hok : Meets Link.step Restrained (create 1 false) (answers 4) := by
    decide +kernel
  exact ⟨hok, by decide +kernel, fun l hl hv => unvalidated_address_limited 1 false _ l hl hok hv⟩

/-- The limit is used up, the handshake fails, and the close is one more datagram. -/
theorem close_exceeds_limit :
    ∃ l, run Link.step (create 1 false) (answers 3 ++ [.close, .sendClose true 30 20]) = some l ∧
      l.addressValidated = false ∧ ¬ l.sentTo ≤ 3 * l.receivedFrom := by
  have hrun : (run Link.step (create 1 false) (answers 3 ++ [.close, .sendClose true 30 20])).map
      (fun l => (l.addressValidated, decide (l.sentTo ≤ 3 * l.receivedFrom))) =
        some (false, false) := by
    decide +kernel
  obtain ⟨l, hl, hout⟩ := Option.map_eq_some_iff.mp hrun
  obtain ⟨hval, hle⟩ := Prod.ext_iff.mp hout
  exact ⟨l, hl, hval, of_decide_eq_false hle⟩

end Link

end Agensio.Quic
