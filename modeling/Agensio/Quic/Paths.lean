/-
  Agensio.Quic.Paths — the peer's address and how it was validated.

  `Link` moves the peer's address in four places: a packet from a new
  address (`migrate`), the third loss of a PATH_CHALLENGE
  (`revert_path`), a PATH_RESPONSE and a Handshake packet (both validate
  the address in use).  `trace` lists, for a label, which of them happen
  and in which order.

  `Path` is the abstract machine over these events, with its HISTORY:
  the addresses validated and how, the challenges written and to whom,
  and the returns of failed validations beside the address that was
  validated last.  `trace_simulates` connects the two: the machine that
  follows the trace agrees with the link.

  What TLS does is an assumption (`TlsLevels`): the Handshake keys come
  with Initial data and the handshake completes with Handshake data.

  Main result: `falls_back_to_validated`.
-/
import Agensio.Quic.Replay

namespace Agensio.Quic

open Agensio.Lib

/-! ## §1. The abstract machine. -/

inductive PathEvent where
  /-- A Handshake packet from the address was processed. -/
  | handshake (from_ : Addr)
  /-- A PATH_RESPONSE with the data of the current challenge arrived from the address. -/
  | response (from_ : Addr)
  /-- A lost PATH_CHALLENGE is due again. -/
  | again
  | revert
  | migrate (dest : Addr)
  /-- A PATH_CHALLENGE was written, in a datagram to the address in use. -/
  | challenge
  deriving DecidableEq

/-- How an address was validated.  Challenges are numbered by the migration that drew them. -/
inductive Validation where
  | token
  | handshake
  | response (gen : Nat)
  deriving DecidableEq

/-- The addresses of a connection, and how each was validated. -/
structure Path where
  peer : Addr
  prev : Addr := 0
  validated : Bool
  prevValidated : Bool := false
  validating : Bool := false
  due : Bool := false
  -- history
  gen : Nat := 0
  target : Nat → Addr := fun _ => 0
  validations : List (Addr × Validation) := []
  challenges : List (Nat × Addr) := []
  returns : List (Addr × Option Addr) := []

namespace Path

def create (peer : Addr) (validated : Bool) : Path where
  peer := peer
  validated := validated
  validations := if validated then [(peer, .token)] else []

/-- The address validated last. -/
def latest (s : Path) : Option Addr := s.validations.head?.map Prod.fst

/-- What one event does to the addresses. -/
def apply (s : Path) : PathEvent → Path
  | .handshake a => { s with validated := true, validations := (a, .handshake) :: s.validations }
  | .response a =>
    { s with
      validated := true, validating := false
      validations := (a, .response s.gen) :: s.validations }
  | .again => { s with due := true }
  | .revert =>
    { s with
      peer := s.prev, validated := s.prevValidated, validating := false, due := false
      returns := (s.prev, s.latest) :: s.returns }
  | .migrate dest =>
    { s with
      prev := s.peer, prevValidated := s.validated, peer := dest, validated := false
      validating := true, due := true
      gen := s.gen + 1, target := Function.update s.target (s.gen + 1) dest }
  | .challenge => { s with due := false, challenges := (s.gen, s.peer) :: s.challenges }

def applyAll (s : Path) (es : List PathEvent) : Path := es.foldl apply s

/-- When an event can happen. -/
def Possible (s : Path) : PathEvent → Prop
  | .handshake a => a = s.peer ∧ s.validating = false
  | .response a => a = s.peer ∧ s.validating = true
  | .again => s.validating = true
  | .revert => s.validating = true
  | .migrate _ => True
  | .challenge => s.due = true

def PossibleAlong (s : Path) : List PathEvent → Prop
  | [] => True
  | e :: es => s.Possible e ∧ (s.apply e).PossibleAlong es

theorem applyAll_append (s : Path) (es es' : List PathEvent) :
    s.applyAll (es ++ es') = (s.applyAll es).applyAll es' := List.foldl_append ..

variable {es : List PathEvent}

theorem possibleAlong_append {s : Path} {es' : List PathEvent} (h : s.PossibleAlong es)
    (h' : (s.applyAll es).PossibleAlong es') : s.PossibleAlong (es ++ es') := by
  induction es generalizing s with
  | nil => exact h'
  | cons e es ih => exact ⟨h.1, ih h.2 h'⟩

/-- An address in use as validated was validated, and so was the one to fall back to; a challenge
    was written to the address it was drawn for, and only there. -/
structure Sound (s : Path) : Prop where
  peer : s.validated = true → s.peer ∈ s.validations.map Prod.fst
  prev : s.prevValidated = true → s.prev ∈ s.validations.map Prod.fst
  aimed : s.validating = true ∨ s.due = true → s.peer = s.target s.gen
  challenges : ∀ c ∈ s.challenges, c.1 ≤ s.gen ∧ c.2 = s.target c.1
  responses : ∀ a g, (a, Validation.response g) ∈ s.validations → g ≤ s.gen ∧ a = s.target g

theorem create_sound (peer : Addr) (validated : Bool) : (create peer validated).Sound := by
  cases validated with
  | true =>
    refine ⟨fun _ => List.mem_singleton_self _, nofun,
      fun h => ?_, by simp [create], by simp [create]⟩
    rcases h with h | h <;> cases h
  | false =>
    refine ⟨nofun, nofun,
      fun h => ?_, by simp [create], by simp [create]⟩
    rcases h with h | h <;> cases h

theorem Sound.apply {s : Path} (h : s.Sound) {e : PathEvent} (he : s.Possible e) : (s.apply e).Sound := by
  cases e with
  | handshake a =>
    obtain ⟨rfl, -⟩ := he
    refine ⟨fun _ => .head _, fun hp => .tail _ (h.prev hp), h.aimed,
      h.challenges, fun a g hm => ?_⟩
    rcases List.mem_cons.mp hm with heq | hm
    · simp at heq
    · exact h.responses a g hm
  | response a =>
    obtain ⟨rfl, hv⟩ := he
    have haim := h.aimed (.inl hv)
    refine ⟨fun _ => .head _, fun hp => .tail _ (h.prev hp),
      fun _ => haim, h.challenges, fun a g hm => ?_⟩
    rcases List.mem_cons.mp hm with heq | hm
    · simp only [Prod.mk.injEq, Validation.response.injEq] at heq
      obtain ⟨rfl, rfl⟩ := heq
      exact ⟨Nat.le_refl _, haim⟩
    · exact h.responses a g hm
  | again =>
    exact ⟨h.peer, h.prev, fun _ => h.aimed (.inl he), h.challenges, h.responses⟩
  | revert =>
    refine ⟨h.prev, h.prev, fun hv => ?_, h.challenges, h.responses⟩
    rcases hv with hv | hv <;> cases hv
  | migrate dest =>
    -- the new number has no challenge and no response yet
    have hold : ∀ g, g ≤ s.gen → Function.update s.target (s.gen + 1) dest g = s.target g :=
      fun g hg => Function.update_of_ne (by omega) ..
    refine ⟨nofun, h.peer, fun _ => ?_, fun c hc => ?_,
      fun a g hm => ?_⟩
    · show dest = Function.update s.target (s.gen + 1) dest (s.gen + 1)
      rw [Function.update_self]
    · obtain ⟨hle, heq⟩ := h.challenges c hc
      exact ⟨Nat.le_succ_of_le hle, heq.trans (hold c.1 hle).symm⟩
    · obtain ⟨hle, heq⟩ := h.responses a g hm
      exact ⟨Nat.le_succ_of_le hle, heq.trans (hold g hle).symm⟩
  | challenge =>
    refine ⟨h.peer, h.prev, fun hv => ?_, fun c hc => ?_, h.responses⟩
    · rcases hv with hv | hv
      · exact h.aimed (.inl hv)
      · cases hv
    · rcases List.mem_cons.mp hc with rfl | hc
      · exact ⟨Nat.le_refl _, h.aimed (.inr he)⟩
      · exact h.challenges c hc

theorem Sound.applyAll {s : Path} (h : s.Sound) (he : s.PossibleAlong es) : (s.applyAll es).Sound := by
  induction es generalizing s with
  | nil => exact h
  | cons e es ih => exact ih (h.apply he.1) he.2

/-! ## §2. Falling back. -/

/-- A connection moves only from the address validated last. -/
def MovesFromLatest (s : Path) : PathEvent → Prop
  | .migrate _ => s.latest = some s.peer
  | _ => True

instance (s : Path) : ∀ e, Decidable (s.MovesFromLatest e)
  | .migrate _ => inferInstanceAs (Decidable (_ = _))
  | .handshake _ | .response _ | .again | .revert | .challenge => isTrue trivial

def MovesAlong (s : Path) : List PathEvent → Prop
  | [] => True
  | e :: es => s.MovesFromLatest e ∧ (s.apply e).MovesAlong es

instance MovesAlong.decidable : ∀ (es : List PathEvent) (s : Path), Decidable (s.MovesAlong es)
  | [], _ => isTrue trivial
  | e :: es, s =>
    have : Decidable ((s.apply e).MovesAlong es) := MovesAlong.decidable es _
    inferInstanceAs (Decidable (_ ∧ _))

/-- Every failed validation went back to the address validated last, and the one that runs
    would. -/
structure FallsBack (s : Path) : Prop where
  running : s.validating = true → s.latest = some s.prev
  returned : ∀ e ∈ s.returns, e.2 = some e.1

theorem create_fallsBack (peer : Addr) (validated : Bool) : (create peer validated).FallsBack :=
  ⟨nofun, by simp [create]⟩

theorem FallsBack.apply {s : Path} (h : s.FallsBack) {e : PathEvent} (he : s.Possible e)
    (hm : s.MovesFromLatest e) : (s.apply e).FallsBack := by
  cases e with
  | handshake a =>
    refine ⟨fun hv => ?_, h.returned⟩
    rw [show (s.apply (.handshake a)).validating = s.validating from rfl, he.2] at hv
    cases hv
  | response a => exact ⟨nofun, h.returned⟩
  | again => exact ⟨h.running, h.returned⟩
  | revert =>
    refine ⟨nofun, fun e hmem => ?_⟩
    rcases List.mem_cons.mp hmem with rfl | hmem
    · exact h.running he
    · exact h.returned e hmem
  | migrate dest => exact ⟨fun _ => hm, h.returned⟩
  | challenge => exact ⟨h.running, h.returned⟩

theorem FallsBack.applyAll {s : Path} (h : s.FallsBack)
    (he : s.PossibleAlong es) (hm : s.MovesAlong es) : (s.applyAll es).FallsBack := by
  induction es generalizing s with
  | nil => exact h
  | cons e es ih => exact ih (h.apply he.1 hm.1) he.2 hm.2

end Path

/-! ## §3. The events of a label. -/

namespace Link

def loseTrace (l : Link) : List PathEvent :=
  if l.pathValidating then if l.pathTries + 1 < 3 then [.again] else [.revert] else []

def losesTrace (l : Link) : Nat → List PathEvent
  | 0 => []
  | n + 1 => l.loseTrace ++ l.loseChallenge.losesTrace n

def frameTrace (l : Link) (from_ : Addr) (onPeerPath : Bool) : PathFrame → List PathEvent
  | .pathResponse ok => if l.pathValidating && onPeerPath && ok then [.response from_] else []
  | .ack lost _ => l.losesTrace lost
  | _ => []

/-- Each frame that `process_frames` reaches. -/
def framesTrace (l : Link) (from_ : Addr) (onPeerPath : Bool) : List PathFrame → List PathEvent
  | [] => []
  | f :: fs =>
    l.frameTrace from_ onPeerPath f ++
      let l := l.handlePathFrame onPeerPath f
      if l.state == .closing || l.state == .draining then [] else l.framesTrace from_ onPeerPath fs

def processTrace (l : Link) (from_ : Addr) (onPeerPath : Bool) (p : Packet) (pn : Nat) :
    List PathEvent :=
  let prev := l.acks p.space
  let l₀ := { l with processed := (p.space, pn) :: l.processed }
  let l₁ := l₀.processFrames onPeerPath p.frames
  l₀.framesTrace from_ onPeerPath p.frames ++
    if l₁.state == .closing || l₁.state == .draining then []
    else
      let moved := !onPeerPath && !p.longForm && p.nonProbing &&
        (!prev.any || decide (pn > prev.largest))
      (if moved then [.migrate from_] else []) ++
        if p.space = .handshake then [.handshake from_] else []

def openedTrace (l : Link) (from_ : Addr) (onPeerPath : Bool) (p : Packet) (pn : Nat)
    (updating : Bool) : List PathEvent :=
  let l := if updating then l.updateKeys p pn else l
  if l.state == .closing then []
  else if p.reserved then []
  else if (l.acks p.space).received.containsPoint pn then []
  else l.processTrace from_ onPeerPath p pn

/-- One round of the loop of `receive`. -/
def packetTrace (l : Link) (from_ : Addr) (onPeerPath : Bool) (p : Packet) : List PathEvent :=
  if p.longForm && (!p.version1 || p.type == .retry) then []
  else if p.longForm && p.type == .zeroRtt then []
  else if !p.fixedBit then []
  else if !l.rx p.space then []
  else if !p.sampled then []
  else
    let pn := l.pnOf p
    match l.selectKeys p pn with
    | none => []
    | some k =>
      let l := if k = .next then { l with rxNext := true } else l
      if !p.opens k pn then [] else l.openedTrace from_ onPeerPath p pn (decide (k = .next))

def loopTrace (l : Link) (from_ : Addr) (len : Nat) (onPeerPath : Bool) :
    List Packet → List PathEvent
  | [] => []
  | p :: ps =>
    if l.state == .closing then []
    else
      l.packetTrace from_ onPeerPath p ++
        let t := l.receivePacket from_ len onPeerPath p
        if t.goesOn then t.link.loopTrace from_ len t.onPeerPath ps else []

def receiveTrace (l : Link) (from_ : Addr) (len : Nat) (ps : List Packet) : List PathEvent :=
  if l.state == .closed || l.state == .draining then []
  else
    let onPeerPath := decide (from_ = l.peer)
    if !onPeerPath && l.state != .established then []
    else
      let l := if onPeerPath then l.countReceived len else l
      if l.state == .closing then [] else l.loopTrace from_ len onPeerPath ps

/-- A PATH_CHALLENGE that is due goes out with the other PATH frames. -/
def produceTrace (l : Link) (plan : Plan) : List PathEvent :=
  if l.pathChallengeDue && !(l.produceOne plan).pathChallengeDue then [.challenge] else []

/-- **The events of a label**, in their order. -/
def trace (l : Link) : Label → List PathEvent
  | .receive from_ len ps => l.receiveTrace from_ len ps
  | .produce plan => l.produceTrace plan
  | .lossTimer lost => l.losesTrace lost
  | _ => []

/-! ## §4. What TLS does. -/

/-- The Handshake keys come with Initial data, the handshake completes with Handshake data, and
    no level gives the Initial keys again. -/
def TlsFrame (sp : Space) : PathFrame → Prop
  | .crypto keys _ complete =>
    (.handshake ∈ keys → sp = .initial) ∧ .initial ∉ keys ∧ (complete = true → sp = .handshake)
  | _ => True

def TlsLevels : Label → Prop
  | .receive _ _ ps => ∀ p ∈ ps, ∀ f ∈ p.frames, TlsFrame p.space f
  | _ => True

instance (sp : Space) : ∀ f, Decidable (TlsFrame sp f)
  | .crypto _ _ _ => inferInstanceAs (Decidable (_ ∧ _ ∧ _))
  | .other | .pathResponse _ | .pathChallenge | .ack _ _ | .failing | .connectionClose =>
    isTrue trivial

instance : ∀ lb, Decidable (TlsLevels lb)
  | .receive _ _ ps => inferInstanceAs (Decidable (∀ p ∈ ps, ∀ f ∈ p.frames, TlsFrame p.space f))
  | .produce _ | .mtuProbe _ | .startMtuProbe _ | .sendClose .. | .close | .lossTimer _ | .idleTimer
  | .finish | .keys .. => isTrue trivial

/-- Once established, the Initial and the Handshake keys are gone; before, no path is being
    validated. -/
structure Phased (l : Link) : Prop where
  keys : l.state = .established → l.rx .initial = false ∧ l.rx .handshake = false
  still : l.state = .handshaking → l.pathValidating = false

/-- The same inside a packet of the space `sp`: the Initial keys go when a Handshake packet ends. -/
structure PhasedIn (sp : Space) (l : Link) : Prop where
  keys : l.state = .established → l.rx .handshake = false ∧ (sp ≠ .handshake → l.rx .initial = false)
  initial : sp = .initial → l.state ≠ .established
  still : l.state = .handshaking → l.pathValidating = false

end Link

/-! ## §5. The machine follows the link. -/

/-- What link and machine share: the two addresses, whether each is validated, whether a
    validation runs and whether a challenge is due. -/
abbrev PathFields := Addr × Addr × Bool × Bool × Bool × Bool

def Link.pathFields (l : Link) : PathFields :=
  (l.peer, l.prevPeer, l.addressValidated, l.prevValidated, l.pathValidating, l.pathChallengeDue)

def Path.fields (s : Path) : PathFields :=
  (s.peer, s.prev, s.validated, s.prevValidated, s.validating, s.due)

structure Agrees (l : Link) (s : Path) : Prop where
  fields : l.pathFields = s.fields

theorem Agrees.peer {l : Link} {s : Path} (h : Agrees l s) : l.peer = s.peer :=
  congrArg (fun v : PathFields => v.1) h.fields

theorem Agrees.validated {l : Link} {s : Path} (h : Agrees l s) : l.addressValidated = s.validated :=
  congrArg (fun v : PathFields => v.2.2.1) h.fields

theorem Agrees.validating {l : Link} {s : Path} (h : Agrees l s) : l.pathValidating = s.validating :=
  congrArg (fun v : PathFields => v.2.2.2.2.1) h.fields

theorem Agrees.of_fields {l l' : Link} {s : Path} (h : Agrees l s)
    (he : l'.pathFields = l.pathFields) : Agrees l' s := ⟨he.trans h.fields⟩

theorem Agrees.mk' {l : Link} {s : Path} (h₁ : l.peer = s.peer) (h₂ : l.prevPeer = s.prev)
    (h₃ : l.addressValidated = s.validated) (h₄ : l.prevValidated = s.prevValidated)
    (h₅ : l.pathValidating = s.validating) (h₆ : l.pathChallengeDue = s.due) : Agrees l s := by
  refine ⟨?_⟩
  unfold Link.pathFields Path.fields
  rw [h₁, h₂, h₃, h₄, h₅, h₆]

/-- The machine that makes the steps `es` agrees with `l` at the end. -/
structure Follows (l : Link) (s : Path) (es : List PathEvent) : Prop where
  agrees : Agrees l (s.applyAll es)
  possible : s.PossibleAlong es

theorem Follows.nil {l : Link} {s : Path} (h : Agrees l s) : Follows l s [] := ⟨h, trivial⟩

theorem Follows.one {l : Link} {s : Path} {e : PathEvent} (h : Agrees l (s.apply e))
    (he : s.Possible e) : Follows l s [e] := ⟨h, he, trivial⟩

theorem Follows.append {l₁ l₂ : Link} {s : Path} {es es' : List PathEvent} (h : Follows l₁ s es)
    (h' : Follows l₂ (s.applyAll es) es') : Follows l₂ s (es ++ es') := by
  refine ⟨?_, Path.possibleAlong_append h.possible h'.possible⟩
  rw [Path.applyAll_append]
  exact h'.agrees

theorem Follows.of_fields {l l' : Link} {s : Path} {es : List PathEvent} (h : Follows l s es)
    (he : l'.pathFields = l.pathFields) : Follows l' s es :=
  ⟨h.agrees.of_fields he, h.possible⟩

namespace Link

variable {l l' : Link} {s : Path}

theorem loseChallenge_follows (h : Agrees l s) : Follows l.loseChallenge s l.loseTrace := by
  have hv := h.validating
  obtain ⟨h₁, h₂, h₃, h₄, h₅, h₆⟩ : l.peer = s.peer ∧ l.prevPeer = s.prev ∧
      l.addressValidated = s.validated ∧ l.prevValidated = s.prevValidated ∧
      l.pathValidating = s.validating ∧ l.pathChallengeDue = s.due := by
    simpa [pathFields, Path.fields] using h.fields
  unfold loseChallenge loseTrace
  cases hl : l.pathValidating with
  | false => exact .nil h
  | true =>
    rw [hl] at hv
    rw [if_pos rfl, if_pos rfl]
    split
    · exact .one (.mk' h₁ h₂ h₃ h₄ hv rfl) hv.symm
    · exact .one (.mk' h₂ h₂ h₄ h₄ rfl rfl) hv.symm

theorem loseChallenges_follows (n : Nat) (h : Agrees l s) :
    Follows (l.loseChallenges n) s (l.losesTrace n) := by
  induction n generalizing l s with
  | zero => exact .nil h
  | succ n ih =>
    have hone := loseChallenge_follows h
    exact hone.append (ih hone.agrees)

theorem losesTrace_congr (n : Nat) (hv : l'.pathValidating = l.pathValidating)
    (ht : l'.pathTries = l.pathTries) : l'.losesTrace n = l.losesTrace n := by
  induction n generalizing l l' with
  | zero => rfl
  | succ n ih =>
    have hone : l'.loseChallenge.pathValidating = l.loseChallenge.pathValidating ∧
        l'.loseChallenge.pathTries = l.loseChallenge.pathTries := by
      unfold loseChallenge
      rw [hv, ht]
      split
      · split
        · exact ⟨rfl, rfl⟩
        · exact ⟨rfl, rfl⟩
      · exact ⟨hv, ht⟩
    show l'.loseTrace ++ _ = l.loseTrace ++ _
    rw [ih hone.1 hone.2]
    unfold loseTrace
    rw [hv, ht]

variable {from_ : Addr} {b : Bool} {fs : List PathFrame} {sp : Space} {len : Nat}

/-- **A frame.** -/
theorem handlePathFrame_follows (f : PathFrame) (h : Agrees l s)
    (hon : b = true → l.pathValidating = true → from_ = l.peer) :
    Follows (l.handlePathFrame b f) s (l.frameTrace from_ b f) := by
  cases f with
  | other => exact .nil h
  | pathResponse ok =>
    unfold handlePathFrame frameTrace
    dsimp only
    split
    · next hc =>
      simp only [Bool.and_eq_true] at hc
      obtain ⟨⟨hval, hb⟩, -⟩ := hc
      refine .one ⟨?_⟩ ⟨(hon hb hval).trans h.peer, h.validating.symm.trans hval⟩
      have hf := h.fields
      unfold pathFields Path.fields at hf ⊢
      simp only [Prod.mk.injEq] at hf ⊢
      exact ⟨hf.1, hf.2.1, rfl, hf.2.2.2.1, rfl, hf.2.2.2.2.2⟩
    · exact .nil h
  | pathChallenge =>
    unfold handlePathFrame frameTrace
    dsimp only
    split
    · exact .nil (h.of_fields rfl)
    · exact .nil h
  | ack lost mtu =>
    unfold handlePathFrame frameTrace
    dsimp only
    cases mtu with
    | none => exact loseChallenges_follows lost h
    | some n =>
      have hmtu : Agrees { l with maxDatagram := n } s := h.of_fields rfl
      have hsame : ({ l with maxDatagram := n } : Link).losesTrace lost = l.losesTrace lost :=
        losesTrace_congr lost rfl rfl
      rw [← hsame]
      exact loseChallenges_follows lost hmtu
  | crypto keys mtu complete =>
    refine .nil (h.of_fields ?_)
    unfold handlePathFrame
    cases mtu <;> dsimp only <;> split <;> rfl
  | failing =>
    refine .nil (h.of_fields ?_)
    unfold handlePathFrame fail
    dsimp only
    split <;> rfl
  | connectionClose => exact .nil (h.of_fields rfl)

/-- A frame starts no validation, and a validation that runs on is of the same address. -/
theorem handlePathFrame_validating {f : PathFrame} (h : (l.handlePathFrame b f).pathValidating = true) :
    l.pathValidating = true ∧ (l.handlePathFrame b f).peer = l.peer := by
  have hloses : ∀ (n : Nat) (k : Link), (k.loseChallenges n).pathValidating = true →
      k.pathValidating = true ∧ (k.loseChallenges n).peer = k.peer := by
    intro n
    induction n with
    | zero => exact fun k hk => ⟨hk, rfl⟩
    | succ n ih =>
      intro k hk
      obtain ⟨hv, hp⟩ := ih k.loseChallenge hk
      have hone : k.loseChallenge.pathValidating = true →
          k.pathValidating = true ∧ k.loseChallenge.peer = k.peer := by
        unfold loseChallenge
        split
        · next hval =>
          split
          · exact fun _ => ⟨hval, rfl⟩
          · exact nofun
        · exact fun hx => ⟨hx, rfl⟩
      exact ⟨(hone hv).1, hp.trans (hone hv).2⟩
  cases f with
  | other => exact ⟨h, rfl⟩
  | pathResponse ok =>
    unfold handlePathFrame at h ⊢
    dsimp only at h ⊢
    split at h
    · cases h
    next hc =>
    rw [if_neg hc]
    exact ⟨h, rfl⟩
  | pathChallenge =>
    unfold handlePathFrame at h ⊢
    dsimp only at h ⊢
    split at h <;> rename_i hc
    · rw [if_pos hc]
      exact ⟨h, rfl⟩
    · rw [if_neg hc]
      exact ⟨h, rfl⟩
  | ack lost mtu =>
    cases mtu with
    | none => exact hloses lost l h
    | some n => exact hloses lost { l with maxDatagram := n } h
  | crypto keys mtu complete =>
    have hsame : (l.handlePathFrame b (.crypto keys mtu complete)).pathFields = l.pathFields := by
      unfold handlePathFrame
      cases mtu <;> dsimp only <;> split <;> rfl
    have hv := congrArg (fun v : PathFields => v.2.2.2.2.1) hsame
    have hp := congrArg (fun v : PathFields => v.1) hsame
    exact ⟨hv.symm.trans h, hp⟩
  | failing =>
    have hsame : (l.handlePathFrame b .failing).pathFields = l.pathFields := by
      unfold handlePathFrame fail
      dsimp only
      split <;> rfl
    have hv := congrArg (fun v : PathFields => v.2.2.2.2.1) hsame
    have hp := congrArg (fun v : PathFields => v.1) hsame
    exact ⟨hv.symm.trans h, hp⟩
  | connectionClose => exact ⟨h, rfl⟩

/-- **The frames of a packet.** -/
theorem processFrames_follows (fs : List PathFrame) (h : Agrees l s)
    (hon : b = true → l.pathValidating = true → from_ = l.peer) :
    Follows (l.processFrames b fs) s (l.framesTrace from_ b fs) := by
  induction fs generalizing l s with
  | nil => exact .nil h
  | cons f fs ih =>
    have hone := handlePathFrame_follows f h hon
    unfold processFrames framesTrace
    dsimp only
    split
    · rw [List.append_nil]
      exact hone
    refine hone.append (ih hone.agrees fun hb hv => ?_)
    obtain ⟨hv', hp⟩ := handlePathFrame_validating hv
    rw [hp]
    exact hon hb hv'

theorem processFrames_validating (h : (l.processFrames b fs).pathValidating = true) :
    l.pathValidating = true ∧ (l.processFrames b fs).peer = l.peer := by
  induction fs generalizing l with
  | nil => exact ⟨h, rfl⟩
  | cons f fs ih =>
    unfold processFrames at h ⊢
    dsimp only at h ⊢
    split at h <;> rename_i hc
    · rw [if_pos hc]
      exact handlePathFrame_validating h
    · rw [if_neg hc]
      obtain ⟨hv, hp⟩ := ih h
      obtain ⟨hv', hp'⟩ := handlePathFrame_validating hv
      exact ⟨hv', hp.trans hp'⟩

/-! ## §6. Packets and datagrams. -/

theorem loseChallenges_rx (l : Link) (n : Nat) : (l.loseChallenges n).rx = l.rx := by
  induction n generalizing l with
  | zero => rfl
  | succ n ih =>
    have hone : l.loseChallenge.rx = l.rx := by
      unfold loseChallenge
      split
      · split <;> rfl
      · rfl
    exact (ih l.loseChallenge).trans hone

/-- A frame leaves the state and the keys alone, or it is CRYPTO, or it ends the connection. -/
theorem handlePathFrame_keys (l : Link) (b : Bool) (f : PathFrame) :
    ((l.handlePathFrame b f).state = l.state ∧ (l.handlePathFrame b f).rx = l.rx) ∨
      (∃ keys mtu complete, f = .crypto keys mtu complete) ∨ (l.handlePathFrame b f).ended = true := by
  cases f with
  | other => exact .inl ⟨rfl, rfl⟩
  | pathResponse ok =>
    unfold handlePathFrame
    dsimp only
    split <;> exact .inl ⟨rfl, rfl⟩
  | pathChallenge =>
    unfold handlePathFrame
    dsimp only
    split <;> exact .inl ⟨rfl, rfl⟩
  | ack lost mtu =>
    cases mtu with
    | none => exact .inl ⟨state_loseChallenges l lost, loseChallenges_rx l lost⟩
    | some n =>
      exact .inl ⟨state_loseChallenges { l with maxDatagram := n } lost,
        loseChallenges_rx { l with maxDatagram := n } lost⟩
  | crypto keys mtu complete => exact .inr (.inl ⟨keys, mtu, complete, rfl⟩)
  | failing => exact .inr (.inr (ended_fail l))
  | connectionClose => exact .inr (.inr rfl)

theorem PhasedIn.of_ended (h : l.ended = true) : PhasedIn sp l := by
  have hne : l.state ≠ .established ∧ l.state ≠ .handshaking := by
    unfold ended at h
    cases hs : l.state <;> simp [hs] at h ⊢
  exact ⟨fun he => absurd he hne.1, fun _ => hne.1, fun hh => absurd hh hne.2⟩

/-- CRYPTO data: keys, and perhaps the end of the handshake. -/
theorem PhasedIn.crypto {keys : List Space} {mtu : Option Nat}
    {complete : Bool} (h : PhasedIn sp l) (htls : TlsFrame sp (.crypto keys mtu complete)) :
    PhasedIn sp (l.handlePathFrame b (.crypto keys mtu complete)) := by
  obtain ⟨hkeys, hini, hdone⟩ := htls
  -- the state and the keys as they are left, whatever the datagram size
  have hout : ∃ k : Link, l.handlePathFrame b (.crypto keys mtu complete) = k ∧
      k.pathValidating = l.pathValidating ∧
      ((complete = true ∧ l.state = .handshaking ∧ k.state = .established ∧ k.rx .handshake = false) ∨
        (k.state = l.state ∧ ∀ sp', k.rx sp' = (l.rx sp' || keys.contains sp'))) := by
    unfold handlePathFrame
    cases mtu <;> dsimp only <;> split <;> rename_i hc <;> refine ⟨_, rfl, rfl, ?_⟩
    · simp only [Bool.and_eq_true, beq_iff_eq] at hc
      exact .inl ⟨hc.1, hc.2, rfl, by simp⟩
    · exact .inr ⟨rfl, fun _ => rfl⟩
    · simp only [Bool.and_eq_true, beq_iff_eq] at hc
      exact .inl ⟨hc.1, hc.2, rfl, by simp⟩
    · exact .inr ⟨rfl, fun _ => rfl⟩
  obtain ⟨k, hk, hv, hcase⟩ := hout
  rw [hk]
  rcases hcase with ⟨hc, -, hst, hrx⟩ | ⟨hst, hrx⟩
  · have hsp := hdone hc
    refine ⟨fun _ => ⟨hrx, fun hne => absurd hsp hne⟩, fun hi => ?_, fun hh => ?_⟩
    · rw [hsp] at hi
      cases hi
    · rw [hst] at hh
      cases hh
  · refine ⟨fun he => ?_, fun hi => hst ▸ h.initial hi, fun hh => hv ▸ h.still (hst ▸ hh)⟩
    rw [hst] at he
    obtain ⟨hhs, hin⟩ := h.keys he
    -- established, so this is no Initial packet and the Handshake keys stay away
    have hnot : Space.handshake ∉ keys := fun hm => h.initial (hkeys hm) he
    refine ⟨?_, fun hne => ?_⟩
    · rw [hrx, hhs]
      simpa using hnot
    · rw [hrx, hin hne]
      simpa using hini

theorem PhasedIn.handlePathFrame {f : PathFrame} (b : Bool) (h : PhasedIn sp l)
    (htls : TlsFrame sp f) : PhasedIn sp (l.handlePathFrame b f) := by
  rcases handlePathFrame_keys l b f with ⟨hst, hrx⟩ | ⟨keys, mtu, complete, rfl⟩ | hend
  · refine ⟨?_, ?_, fun hh => ?_⟩
    · rw [hst, hrx]
      exact h.keys
    · rw [hst]
      exact h.initial
    · rw [hst] at hh
      rw [← Bool.not_eq_true]
      intro hv
      have := h.still hh
      rw [(handlePathFrame_validating hv).1] at this
      simp at this
  · exact h.crypto htls
  · exact .of_ended hend

theorem PhasedIn.processFrames (b : Bool) (h : PhasedIn sp l)
    (htls : ∀ f ∈ fs, TlsFrame sp f) : PhasedIn sp (l.processFrames b fs) := by
  induction fs generalizing l with
  | nil => exact h
  | cons f fs ih =>
    have hone := h.handlePathFrame b (htls f List.mem_cons_self)
    unfold Link.processFrames
    dsimp only
    split
    · exact hone
    · exact ih hone fun f' hf' => htls f' (.tail _ hf')

/-- No validation runs: no frame touches the path. -/
theorem handlePathFrame_idle (b : Bool) (f : PathFrame) (h : l.pathValidating = false) :
    (l.handlePathFrame b f).pathFields = l.pathFields := by
  have hloses : ∀ (n : Nat) (k : Link), k.pathValidating = false → k.loseChallenges n = k := by
    intro n
    induction n with
    | zero => exact fun k _ => rfl
    | succ n ih =>
      intro k hk
      have hone : k.loseChallenge = k := by
        unfold loseChallenge
        rw [hk, if_neg Bool.false_ne_true]
      show k.loseChallenge.loseChallenges n = k
      rw [hone]
      exact ih k hk
  cases f with
  | other => rfl
  | pathResponse ok =>
    unfold handlePathFrame
    dsimp only
    rw [if_neg (by simp [h])]
  | pathChallenge =>
    unfold handlePathFrame
    dsimp only
    split <;> rfl
  | ack lost mtu =>
    unfold handlePathFrame
    dsimp only
    cases mtu with
    | none => rw [hloses lost l h]
    | some n =>
      rw [hloses lost { l with maxDatagram := n } h]
      rfl
  | crypto keys mtu complete =>
    unfold handlePathFrame
    cases mtu <;> dsimp only <;> split <;> rfl
  | failing =>
    unfold handlePathFrame fail
    dsimp only
    split <;> rfl
  | connectionClose => rfl

theorem processFrames_idle (b : Bool) (fs : List PathFrame) (h : l.pathValidating = false) :
    (l.processFrames b fs).pathFields = l.pathFields := by
  induction fs generalizing l with
  | nil => rfl
  | cons f fs ih =>
    have hone := handlePathFrame_idle b f h
    have hv : (l.handlePathFrame b f).pathValidating = false :=
      (congrArg (fun v : PathFields => v.2.2.2.2.1) hone).trans h
    unfold processFrames
    dsimp only
    split
    · exact hone
    · exact (ih hv).trans hone

theorem processFrames_handshaking
    (h : (l.processFrames b fs).state = .handshaking) : l.state = .handshaking := by
  have hone : ∀ (k : Link) (f : PathFrame), (k.handlePathFrame b f).state = .handshaking →
      k.state = .handshaking := by
    intro k f hk
    rcases handlePathFrame_keys k b f with ⟨hst, -⟩ | ⟨keys, mtu, complete, rfl⟩ | hend
    · exact hst.symm.trans hk
    · unfold handlePathFrame at hk
      cases mtu <;> dsimp only at hk <;> split at hk <;>
        first | exact hk | (cases hk)
    · unfold ended at hend
      rw [hk] at hend
      cases hend
  induction fs generalizing l with
  | nil => exact h
  | cons f fs ih =>
    unfold processFrames at h
    dsimp only at h
    split at h
    · exact hone l f h
    · exact hone l f (ih h)

/-- The loop of `receive` is on the peer's path when it says so, and always during the
    handshake. -/
structure OnPath (from_ : Addr) (b : Bool) (l : Link) : Prop where
  still : l.state = .handshaking → b = true ∧ from_ = l.peer
  onPath : b = true → l.pathValidating = true → from_ = l.peer

theorem live_cases (h : l.ended = false) : l.state = .handshaking ∨ l.state = .established := by
  unfold ended at h
  cases hs : l.state <;> simp [hs] at h ⊢

/-- What holds around the packets of a datagram: before a packet, and after one that lets the
    loop go on. -/
structure Steady (from_ : Addr) (b : Bool) (l : Link) (s : Path) : Prop where
  agrees : Agrees l s
  phased : Phased l
  onPath : OnPath from_ b l

/-- The frames of a packet took `l` to `l₁`. -/
structure FramesDone (sp : Space) (l l₁ : Link) (s : Path) (es : List PathEvent) : Prop where
  follows : Follows l₁ s es
  phased : PhasedIn sp l₁
  idle : l.pathValidating = false → l₁.pathFields = l.pathFields
  validating : l₁.pathValidating = true → l.pathValidating = true ∧ l₁.peer = l.peer
  handshaking : l₁.state = .handshaking → l.state = .handshaking

theorem processFrames_done (h : Agrees l s) (hon : b = true → l.pathValidating = true → from_ = l.peer)
    (hp : PhasedIn sp l) (htls : ∀ f ∈ fs, TlsFrame sp f) :
    FramesDone sp l (l.processFrames b fs) s (l.framesTrace from_ b fs) :=
  ⟨processFrames_follows fs h hon, hp.processFrames b htls, processFrames_idle b fs,
    processFrames_validating, processFrames_handshaking⟩

/-- **A packet that is processed.** -/
theorem processPacket_follows {p : Packet} {pn : Nat}
    (hlive : l.ended = false) (h : Steady from_ b l s) (hrx : l.rx p.space = true)
    (htls : ∀ f ∈ p.frames, TlsFrame p.space f) :
    Follows (l.processPacket from_ len b p pn).link s (l.processTrace from_ b p pn) ∧
      Phased (l.processPacket from_ len b p pn).link ∧ ((l.processPacket from_ len b p pn).goesOn = true →
        OnPath from_ (l.processPacket from_ len b p pn).onPeerPath
          (l.processPacket from_ len b p pn).link) := by
  obtain ⟨hagree, hphase, hon⟩ := h
  have hstart : PhasedIn p.space l := by
    refine ⟨fun he => ⟨(hphase.keys he).2, fun _ => (hphase.keys he).1⟩, fun hi he => ?_, hphase.still⟩
    rw [hi, (hphase.keys he).1] at hrx
    cases hrx
  unfold processPacket processTrace
  dsimp only
  have hdone₀ := processFrames_done (l := { l with processed := (p.space, pn) :: l.processed })
    (hagree.of_fields rfl) hon.onPath ⟨hstart.keys, hstart.initial, hstart.still⟩ htls
  have hdone : FramesDone p.space l
      ({ l with processed := (p.space, pn) :: l.processed }.processFrames b p.frames) s
      ({ l with processed := (p.space, pn) :: l.processed }.framesTrace from_ b p.frames) :=
    ⟨hdone₀.follows, hdone₀.phased, hdone₀.idle, hdone₀.validating, hdone₀.handshaking⟩
  clear hdone₀
  generalize ({ l with processed := (p.space, pn) :: l.processed } : Link).processFrames b p.frames =
    l₁ at hdone ⊢
  generalize ({ l with processed := (p.space, pn) :: l.processed } : Link).framesTrace from_ b
    p.frames = es at hdone ⊢
  obtain ⟨hfollow, hin, hidle, hval, hhand⟩ := hdone
  split
  · next hend =>
    rw [List.append_nil]
    refine ⟨hfollow, ⟨fun he => ?_, fun hh => hin.still hh⟩, nofun⟩
    rw [he] at hend
    cases hend
  · by_cases hmoved : (!b && !p.longForm && p.nonProbing &&
        (!(l.acks p.space).any || decide (pn > (l.acks p.space).largest))) = true
    · -- the peer moved: a short packet, and not during the handshake
      simp only [if_pos hmoved]
      simp only [Bool.and_eq_true, Bool.not_eq_true'] at hmoved
      obtain ⟨⟨⟨hb, hshort⟩, -⟩, -⟩ := hmoved
      have hspace : p.space = .application := by
        unfold Packet.space
        rw [hshort]
        rfl
      have hne : p.space ≠ .handshake := by
        rw [hspace]
        decide
      rw [if_neg hne, if_neg hne, List.append_nil]
      refine ⟨hfollow.append (.one ?_ trivial), ⟨fun he => ?_, fun hh => ?_⟩, fun hgo => ?_⟩
      · exact .mk' rfl hfollow.agrees.peer rfl hfollow.agrees.validated rfl rfl
      · exact ⟨(hin.keys he).2 hne, (hin.keys he).1⟩
      · have := (hon.still (hhand hh)).1
        rw [hb] at this
        cases this
      · rw [hshort] at hgo
        cases hgo
    · simp only [if_neg hmoved, List.nil_append]
      by_cases hsp : p.space = .handshake
      · -- a Handshake packet: the handshake runs, so the datagram is on the peer's path
        have hstate : l.state = .handshaking := by
          rcases live_cases hlive with hs | hs
          · exact hs
          rw [hsp, (hphase.keys hs).2] at hrx
          cases hrx
        obtain ⟨hb, hfrom⟩ := hon.still hstate
        have hquiet := hphase.still hstate
        have hfields := hidle hquiet
        have hpeer : l₁.peer = l.peer := congrArg (fun v : PathFields => v.1) hfields
        have hstill : l₁.pathValidating = false :=
          (congrArg (fun v : PathFields => v.2.2.2.2.1) hfields).trans hquiet
        rw [if_pos hsp, if_pos hsp]
        refine ⟨hfollow.append (.one ⟨?_⟩ ⟨?_, ?_⟩), ⟨fun he => ?_, fun _ => hstill⟩, fun _ => ?_⟩
        · have hf := hfollow.agrees.fields
          unfold pathFields Path.fields at hf ⊢
          simp only [Prod.mk.injEq] at hf ⊢
          exact ⟨hf.1, hf.2.1, rfl, hf.2.2.2.1, hf.2.2.2.2.1, hf.2.2.2.2.2⟩
        · exact hfrom.trans (hpeer.symm.trans hfollow.agrees.peer)
        · exact hfollow.agrees.validating.symm.trans hstill
        · exact ⟨by simp [discardInitial], by simp [discardInitial, (hin.keys he).1]⟩
        · refine ⟨fun _ => ⟨?_, hfrom.trans hpeer.symm⟩, fun _ hv => ?_⟩
          · rw [hb]
            rfl
          · rw [show ({ l₁ with
              acks := _, addressValidated := true } : Link).discardInitial.pathValidating =
                l₁.pathValidating from rfl, hstill] at hv
            cases hv
      · rw [if_neg hsp, if_neg hsp, List.append_nil]
        refine ⟨hfollow.of_fields rfl, ⟨fun he => ?_, fun hh => hin.still hh⟩,
          fun _ => ⟨fun hh => ?_, fun hb hv => ?_⟩⟩
        · exact ⟨(hin.keys he).2 hsp, (hin.keys he).1⟩
        · have hs := hhand hh
          obtain ⟨hb, hfrom⟩ := hon.still hs
          have hpeer : l₁.peer = l.peer :=
            congrArg (fun v : PathFields => v.1) (hidle (hphase.still hs))
          refine ⟨?_, hfrom.trans hpeer.symm⟩
          rw [hb]
          rfl
        · obtain ⟨hv', hpeer⟩ := hval hv
          have hb' : b = true := by
            rw [Bool.not_eq_true] at hmoved
            rw [hmoved, Bool.or_false] at hb
            exact hb
          exact (hon.onPath hb' hv').trans hpeer.symm

theorem pathFields_of_unkeyed (h : l'.unkeyed = l.unkeyed) : l'.pathFields = l.pathFields := by
  have := congrArg pathFields h
  exact this

theorem rx_of_unkeyed (h : l'.unkeyed = l.unkeyed) : l'.rx = l.rx := by
  have := congrArg Link.rx h
  exact this

/-- Keys and state apart nothing changed. -/
theorem Steady.of_unkeyed (h : Steady from_ b l s)
    (hu : l'.unkeyed = l.unkeyed) (hs : l'.state = l.state) : Steady from_ b l' s := by
  have hfields := pathFields_of_unkeyed hu
  have hrx := rx_of_unkeyed hu
  have hv : l'.pathValidating = l.pathValidating :=
    congrArg (fun v : PathFields => v.2.2.2.2.1) hfields
  have hp : l'.peer = l.peer := congrArg (fun v : PathFields => v.1) hfields
  refine ⟨h.agrees.of_fields hfields, ⟨?_, ?_⟩, ⟨?_, ?_⟩⟩
  · rw [hs, hrx]
    exact h.phased.keys
  · rw [hs, hv]
    exact h.phased.still
  · rw [hs, hp]
    exact h.onPath.still
  · rw [hv, hp]
    exact h.onPath.onPath

theorem Phased.of_ended (h : l.ended = true) : Phased l := by
  have hne : l.state ≠ .established ∧ l.state ≠ .handshaking := by
    unfold ended at h
    cases hs : l.state <;> simp [hs] at h ⊢
  exact ⟨fun he => absurd he hne.1, fun hh => absurd hh hne.2⟩

theorem packetTrace_eq (p : Packet) : l.packetTrace from_ b p =
    l.whenProcessed p [] fun l' => l'.processTrace from_ b p (l.pnOf p) := rfl

/-- **The packets of a datagram.** -/
theorem receiveLoop_follows (ps : List Packet) (hlive : l.ended = false) (h : Steady from_ b l s)
    (htls : ∀ p ∈ ps, ∀ f ∈ p.frames, TlsFrame p.space f) :
    Follows (l.receiveLoop from_ len b ps) s (l.loopTrace from_ len b ps) ∧
      Phased (l.receiveLoop from_ len b ps) := by
  induction ps generalizing l b s with
  | nil => exact ⟨.nil h.agrees, h.phased⟩
  | cons p ps ih =>
    have hrest : ∀ q ∈ ps, ∀ f ∈ q.frames, TlsFrame q.space f :=
      fun q hq => htls q (.tail _ hq)
    unfold receiveLoop loopTrace
    split
    · exact ⟨.nil h.agrees, h.phased⟩
    dsimp only
    rw [packetTrace_eq]
    rcases l.receivePacket_cases from_ len b p hlive [] fun l' => l'.processTrace from_ b p (l.pnOf p) with
      ⟨l', go, heq, htr, hu, hst, hgo⟩ | ⟨l', heq, htr, hu, hst, hopen, -⟩
    · rw [heq, htr, List.nil_append]
      have hfields := pathFields_of_unkeyed hu
      split
      · next hgoes =>
        have hlive' := hgo hgoes
        have hst' : l'.state = l.state := by
          rcases hst with hst | hend
          · exact hst
          rw [hlive'] at hend
          cases hend
        exact ih hlive' (h.of_unkeyed hu hst') hrest
      · refine ⟨.nil (h.agrees.of_fields hfields), ?_⟩
        rcases hst with hst | hend
        · exact (h.of_unkeyed hu hst).phased
        · exact .of_ended hend
    · have hst' := h.of_unkeyed hu hst
      have hlive' : l'.ended = false := (ended_congr hst).trans hlive
      have hrx' : l'.rx p.space = true := by
        rw [rx_of_unkeyed hu]
        exact (Bool.and_eq_true_iff.mp hopen).1
      obtain ⟨hfollow, hphase, hon⟩ := processPacket_follows hlive' hst' hrx' (htls p List.mem_cons_self)
      rw [heq, htr]
      split
      · next hgoes =>
        obtain ⟨hf, hp⟩ := ih (l'.processPacket_live hlive' from_ len b p _ hgoes)
          ⟨hfollow.agrees, hphase, hon hgoes⟩ hrest
        exact ⟨hfollow.append hf, hp⟩
      · rw [List.append_nil]
        exact ⟨hfollow, hphase⟩

/-- **A datagram.** -/
theorem receive_follows (ps : List Packet) (h : Agrees l s)
    (hp : Phased l) (htls : ∀ p ∈ ps, ∀ f ∈ p.frames, TlsFrame p.space f) :
    Follows (l.receive from_ len ps) s (l.receiveTrace from_ len ps) ∧ Phased (l.receive from_ len ps) := by
  unfold receive receiveTrace
  split
  · exact ⟨.nil h, hp⟩
  next hopen =>
  dsimp only
  split
  · exact ⟨.nil h, hp⟩
  next hpath =>
  -- the datagram is counted before anything else
  have hcount : Agrees (if decide (from_ = l.peer) = true then l.countReceived len else l) s ∧
      Phased (if decide (from_ = l.peer) = true then l.countReceived len else l) ∧
      (if decide (from_ = l.peer) = true then l.countReceived len else l).state = l.state ∧
      (if decide (from_ = l.peer) = true then l.countReceived len else l).peer = l.peer := by
    split
    · exact ⟨h.of_fields rfl, ⟨hp.keys, hp.still⟩, rfl, rfl⟩
    · exact ⟨h, hp, rfl, rfl⟩
  generalize (if decide (from_ = l.peer) = true then l.countReceived len else l) = l₁ at hcount ⊢
  obtain ⟨hagree, hphase, hstate, hpeer⟩ := hcount
  split
  · refine ⟨.nil ?_, ?_⟩
    · split <;> exact hagree.of_fields rfl
    · split <;> exact ⟨hphase.keys, hphase.still⟩
  · next hclosing =>
    have hlive : l₁.ended = false := by
      unfold ended
      rw [Bool.not_eq_true] at hclosing
      rw [hclosing, hstate]
      simp only [Bool.or_eq_true, not_or, Bool.not_eq_true] at hopen
      rw [hopen.1, hopen.2]
      rfl
    refine receiveLoop_follows ps hlive ⟨hagree, hphase, ⟨fun hh => ?_, fun hb _ => ?_⟩⟩ htls
    · rw [hstate] at hh
      by_cases hf : from_ = l.peer
      · exact ⟨decide_eq_true hf, hf.trans hpeer.symm⟩
      refine absurd ?_ hpath
      rw [decide_eq_false hf, hh]
      rfl
    · rw [hpeer]
      exact of_decide_eq_true hb

/-- The path after one round of `produce`: at most the challenge went out. -/
theorem produceOne_path (l : Link) (plan : Plan) :
    (l.produceOne plan).peer = l.peer ∧ (l.produceOne plan).prevPeer = l.prevPeer ∧
      (l.produceOne plan).addressValidated = l.addressValidated ∧
      (l.produceOne plan).prevValidated = l.prevValidated ∧
      (l.produceOne plan).pathValidating = l.pathValidating ∧
      ((l.produceOne plan).pathChallengeDue = l.pathChallengeDue ∨
        (l.produceOne plan).pathChallengeDue = false) ∧
      (l.produceOne plan).state = l.state ∧ (l.produceOne plan).rx = l.rx := by
  unfold produceOne
  split
  · exact ⟨rfl, rfl, rfl, rfl, rfl, .inl rfl, rfl, rfl⟩
  split
  · exact ⟨rfl, rfl, rfl, rfl, rfl, .inl rfl, rfl, rfl⟩
  split
  · exact ⟨rfl, rfl, rfl, rfl, rfl, .inl rfl, rfl, rfl⟩
  dsimp only
  split
  · exact ⟨rfl, rfl, rfl, rfl, rfl, .inl rfl, rfl, rfl⟩
  split
  · exact ⟨rfl, rfl, rfl, rfl, rfl, .inr rfl, rfl, rfl⟩
  · exact ⟨rfl, rfl, rfl, rfl, rfl, .inl rfl, rfl, rfl⟩

theorem produceOne_follows (plan : Plan) (h : Agrees l s) :
    Follows (l.produceOne plan) s (l.produceTrace plan) := by
  obtain ⟨hp, hpp, hv, hpv, hval, hdue, -, -⟩ := produceOne_path l plan
  obtain ⟨h₁, h₂, h₃, h₄, h₅, h₆⟩ : l.peer = s.peer ∧ l.prevPeer = s.prev ∧
      l.addressValidated = s.validated ∧ l.prevValidated = s.prevValidated ∧
      l.pathValidating = s.validating ∧ l.pathChallengeDue = s.due := by
    simpa [pathFields, Path.fields] using h.fields
  unfold produceTrace
  split
  · next hc =>
    simp only [Bool.and_eq_true, Bool.not_eq_true'] at hc
    exact .one (.mk' (hp.trans h₁) (hpp.trans h₂) (hv.trans h₃) (hpv.trans h₄) (hval.trans h₅) hc.2)
      (h₆.symm.trans hc.1)
  · next hc =>
    refine .nil (.mk' (hp.trans h₁) (hpp.trans h₂) (hv.trans h₃) (hpv.trans h₄) (hval.trans h₅) ?_)
    rw [← h₆]
    rcases hdue with hd | hd
    · exact hd
    rw [hd]
    simp only [hd, Bool.not_false, Bool.and_true, Bool.not_eq_true] at hc
    exact hc.symm

/-- **The machine that follows the trace agrees with the link**, label after label. -/
theorem trace_simulates {lb : Label} (h : Agrees l s) (hp : Phased l) (htls : TlsLevels lb)
    (hs : l.step lb = some l') : Follows l' s (l.trace lb) ∧ Phased l' := by
  cases lb with
  | receive from_ len ps =>
    cases hs
    exact receive_follows ps h hp htls
  | produce plan =>
    simp only [step, Option.ite_none_left_eq_some, Option.some.injEq] at hs
    obtain ⟨-, rfl⟩ := hs
    obtain ⟨-, -, -, -, hval, -, hst, hrx⟩ := produceOne_path l plan
    refine ⟨produceOne_follows plan h, ⟨?_, ?_⟩⟩
    · rw [hst, hrx]
      exact hp.keys
    · rw [hst, hval]
      exact hp.still
  | lossTimer lost =>
    simp only [step, Option.ite_none_left_eq_some, Option.some.injEq] at hs
    obtain ⟨-, rfl⟩ := hs
    refine ⟨loseChallenges_follows lost h, ⟨?_, fun hh => ?_⟩⟩
    · rw [state_loseChallenges, loseChallenges_rx]
      exact hp.keys
    · rw [state_loseChallenges] at hh
      have hidle : (l.handlePathFrame true (.ack lost none)).pathFields = l.pathFields :=
        handlePathFrame_idle true (.ack lost none) (hp.still hh)
      exact (congrArg (fun v : PathFields => v.2.2.2.2.1) hidle).trans (hp.still hh)
  | mtuProbe n =>
    simp only [step, Option.ite_none_left_eq_some, Option.some.injEq] at hs
    obtain ⟨-, rfl⟩ := hs
    unfold probeMtu
    split
    · exact ⟨.nil (h.of_fields rfl), ⟨hp.keys, hp.still⟩⟩
    · exact ⟨.nil h, hp⟩
  | startMtuProbe target =>
    cases hs
    exact ⟨.nil (h.of_fields rfl), ⟨hp.keys, hp.still⟩⟩
  | sendClose initial header frame =>
    simp only [step, Option.ite_none_right_eq_some, Option.some.injEq] at hs
    obtain ⟨-, rfl⟩ := hs
    exact ⟨.nil (h.of_fields rfl), ⟨hp.keys, hp.still⟩⟩
  | close =>
    cases hs
    refine ⟨.nil (h.of_fields ?_), .of_ended (ended_fail l)⟩
    unfold fail
    split <;> rfl
  | idleTimer =>
    simp only [step, Option.ite_none_left_eq_some, Option.some.injEq] at hs
    obtain ⟨-, rfl⟩ := hs
    exact ⟨.nil (h.of_fields rfl), .of_ended rfl⟩
  | finish =>
    simp only [step, Option.ite_none_right_eq_some, Option.some.injEq] at hs
    obtain ⟨-, rfl⟩ := hs
    exact ⟨.nil (h.of_fields rfl), .of_ended rfl⟩
  | keys prev next pending phase =>
    cases hs
    exact ⟨.nil (h.of_fields rfl), ⟨hp.keys, hp.still⟩⟩

end Link

/-! ## §7. Every run. -/

/-- The link and the machine that follows it. -/
structure Paths where
  link : Link
  path : Path

namespace Paths

/-- A connection as its constructor leaves it; a Retry token may have validated the address. -/
def create (peer : Addr) (validated : Bool) : Paths where
  link := Link.create peer validated
  path := Path.create peer validated

/-- A step of the connection, and what it means for its addresses. -/
def step (s : Paths) (lb : Link.Label) : Option Paths :=
  (s.link.step lb).map fun l => { link := l, path := s.path.applyAll (s.link.trace lb) }

/-- The condition on a step: the connection moves to a new address only from the address
    validated last. -/
def MovesFromValidated (s : Paths) (lb : Link.Label) : Prop := s.path.MovesAlong (s.link.trace lb)

instance (s : Paths) (lb : Link.Label) : Decidable (s.MovesFromValidated lb) :=
  inferInstanceAs (Decidable (Path.MovesAlong _ _))

/-- What every step keeps. -/
structure Inv (s : Paths) : Prop where
  agrees : Agrees s.link s.path
  phased : s.link.Phased
  sound : s.path.Sound

theorem create_inv (peer : Addr) (validated : Bool) : (create peer validated).Inv where
  agrees := ⟨rfl⟩
  phased := ⟨fun h => absurd h (by simp [create, Link.create]), fun _ => rfl⟩
  sound := Path.create_sound peer validated

theorem step_inv {s s' : Paths} {lb : Link.Label} (h : s.Inv) (htls : Link.TlsLevels lb)
    (hs : s.step lb = some s') : s'.Inv ∧ s.path.PossibleAlong (s.link.trace lb) := by
  obtain ⟨l, hl, rfl⟩ := Option.map_eq_some_iff.mp hs
  obtain ⟨hfollow, hphase⟩ := Link.trace_simulates h.agrees h.phased htls hl
  exact ⟨⟨hfollow.agrees, hphase, h.sound.applyAll hfollow.possible⟩, hfollow.possible⟩

end Paths

/-- **Path validation falls back to a validated address.**  In every run an address used as
    validated was validated: by a Retry token, by a Handshake packet from it, or by a
    PATH_RESPONSE from it to a challenge that was written to it alone.  And in every run in which
    the connection moves only from the address validated last, every validation that fails
    returns to the address validated last. -/
theorem falls_back_to_validated (peer : Addr) (validated : Bool) (lbs : List Link.Label) (s : Paths)
    (hrun : run Paths.step (Paths.create peer validated) lbs = some s)
    (htls : ∀ lb ∈ lbs, Link.TlsLevels lb) :
    (s.link.addressValidated = true → ∃ how, (s.link.peer, how) ∈ s.path.validations) ∧
      (∀ a g, (a, Validation.response g) ∈ s.path.validations → ∀ c ∈ s.path.challenges, c.1 = g → c.2 = a) ∧
      (Meets Paths.step Paths.MovesFromValidated (Paths.create peer validated) lbs →
        ∀ e ∈ s.path.returns, e.2 = some e.1) := by
  have htls' : Meets Paths.step (fun _ lb => Link.TlsLevels lb) (Paths.create peer validated) lbs :=
    meets_of_forall htls
  have hinv : s.Inv :=
    run_invariant (fun _ _ _ h ho hs => (Paths.step_inv h ho hs).1) (Paths.create_inv peer validated)
      hrun htls'
  refine ⟨fun hv => ?_, fun a g hm c hc hg => ?_, fun hmoves => ?_⟩
  · rw [hinv.agrees.validated] at hv
    obtain ⟨⟨a, how⟩, hm, ha⟩ := List.mem_map.mp (hinv.sound.peer hv)
    rw [hinv.agrees.peer, ← show a = s.path.peer from ha]
    exact ⟨how, hm⟩
  · rw [(hinv.sound.challenges c hc).2, hg]
    exact (hinv.sound.responses a g hm).2.symm
  · have hboth : s.Inv ∧ s.path.FallsBack := by
      refine run_invariant (I := fun s => s.Inv ∧ s.path.FallsBack) ?_
        ⟨Paths.create_inv peer validated, Path.create_fallsBack peer validated⟩ hrun
        (meets_and htls' hmoves)
      rintro t lb t' ⟨hi, hf⟩ ⟨hl, hm⟩ hs
      obtain ⟨hi', hposs⟩ := Paths.step_inv hi hl hs
      obtain ⟨l, -, rfl⟩ := Option.map_eq_some_iff.mp hs
      exact ⟨hi', hf.applyAll hposs hm⟩
    exact hboth.2.returned

/-- The handshake of a client at address 1: Initial data gives the Handshake keys, Handshake data
    completes it. -/
def handshakeAt1 : List Link.Label :=
  [.receive 1 1200 [{ longForm := true, frames := [.crypto [.handshake] none false] }],
    .receive 1 1200 [{ longForm := true, type := .handshake, frames := [.crypto [.application] none true] }]]

/-- A short packet from an address. -/
def packetFrom (from_ : Addr) (pn : Nat) (frames : List PathFrame) : Link.Label :=
  .receive from_ 100 [{ truncated := pn, frames := frames }]

/-- A PATH_CHALLENGE and nothing else. -/
def challengePlan : Link.Plan where
  room := 12000
  wants := fun sp => sp == .application
  header := fun _ => 11
  pnLen := fun _ => 2
  payload := fun _ => 9
  sealed := fun _ => true
  pathWritten := true

/-- The three challenges a validation has, each of them lost. -/
def challengesLost : List Link.Label :=
  [.produce challengePlan, .lossTimer 1, .produce challengePlan, .lossTimer 1,
    .produce challengePlan, .lossTimer 1]

/-- The client moves to address 2 and answers the challenge there; then a packet comes from
    address 3, which never answers. -/
def rebindRun : List Link.Label :=
  handshakeAt1 ++ [packetFrom 2 0 [.other], .produce challengePlan,
    packetFrom 2 1 [.pathResponse true], packetFrom 3 2 [.other]] ++ challengesLost

theorem falls_back_to_validated_rebindRun :
    ∃ s, run Paths.step (Paths.create 1 false) rebindRun = some s ∧ s.link.peer = 2 ∧
      s.link.addressValidated = true ∧ (∃ how, (s.link.peer, how) ∈ s.path.validations) ∧
      s.path.returns = [(2, some 2)] ∧ ∀ e ∈ s.path.returns, e.2 = some e.1 := by
  have hfacts : (run Paths.step (Paths.create 1 false) rebindRun).map
      (fun s => (s.link.peer, s.link.addressValidated, s.path.returns)) =
        some (2, true, [(2, some 2)]) := by
    decide +kernel
  obtain ⟨s, hs, hout⟩ := Option.map_eq_some_iff.mp hfacts
  simp only [Prod.mk.injEq] at hout
  obtain ⟨hpeer, hval, hret⟩ := hout
  obtain ⟨hmem, -, hback⟩ := falls_back_to_validated 1 false rebindRun s hs (by decide)
  exact ⟨s, hs, hpeer, hval, hmem hval, hret, hback (by decide +kernel)⟩

/-- The client at address 1, validated by the handshake; one packet from address 2, one from
    address 3, and the challenges to address 3 are lost. -/
def twoMovesRun : List Link.Label :=
  handshakeAt1 ++ [packetFrom 2 0 [.other], packetFrom 3 1 [.other]] ++ challengesLost

/-- After it the connection is back at address 2, which was never validated, and not at
    address 1. -/
theorem reverts_to_unvalidated : ∃ s, run Paths.step (Paths.create 1 false) twoMovesRun = some s ∧
      (∀ lb ∈ twoMovesRun, Link.TlsLevels lb) ∧ s.link.state = .established ∧ s.link.peer = 2 ∧
      s.path.latest = some 1 ∧ ¬ ∀ e ∈ s.path.returns, e.2 = some e.1 := by
  have hfacts : (run Paths.step (Paths.create 1 false) twoMovesRun).map
      (fun s => (s.link.state, s.link.peer, s.path.latest, s.path.returns)) =
        some (.established, 2, some 1, [(2, some 1)]) := by
    decide +kernel
  obtain ⟨s, hs, hout⟩ := Option.map_eq_some_iff.mp hfacts
  simp only [Prod.mk.injEq] at hout
  obtain ⟨hstate, hpeer, hlatest, hret⟩ := hout
  refine ⟨s, hs, by decide, hstate, hpeer, hlatest, ?_⟩
  rw [hret]
  decide

end Agensio.Quic
