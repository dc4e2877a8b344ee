/-
  Agensio.Quic.KeyUpdate — the generations of the 1-RTT keys.

  The server has one send key and three receive keys: the current one,
  the previous one (until a timer clears it) and the next one (derived on
  demand).  A `Keys` is its GENERATION here, the number of times its
  secret was advanced; a packet opens under the generation and the packet
  number it was sealed with, and under no other.

  The other party is an honest client, RFC 9001 section 6: it follows an
  update of ours before it acknowledges anything sent under it, and it
  starts one of its own only when a packet of its current phase was
  acknowledged.  Both directions keep every packet ever sent, and a
  delivery picks any of them: packets are reordered, lost and duplicated
  at will.  A system starts when both 1-RTT keys are installed: until
  then `receive` drops the packets of that space, which is a loss.

  Main results:
    * `generations_agree` — every run.
-/
import Agensio.Quic.Link

namespace Agensio.Quic.KeyUpdate

open Agensio.Lib

/-! ## §1. Keys and packets. -/

inductive Suite where
  | aes128gcm
  | aes256gcm
  | chacha20
  deriving DecidableEq

/-- Packets one key may protect before an update is due, and forgeries it may see. -/
def confidentialityLimit : Suite → Nat
  | .chacha20 => 2 ^ 62
  | _ => 2 ^ 23

def integrityLimit : Suite → Nat
  | .chacha20 => 2 ^ 36
  | _ => 2 ^ 52

structure Keys where
  gen : Nat := 0
  sealed : Nat := 0
  failures : Nat := 0
  deriving DecidableEq

/-- `install_next`: the secret advanced once, the counters at zero. -/
def Keys.installNext (current : Keys) : Keys := { gen := current.gen + 1 }

/-- The key phase bit of a generation. -/
def phaseOf (gen : Nat) : Bool := gen % 2 == 1

/-- A packet of the client.  `ack` is the largest packet number of its ACK frame. -/
structure Packet where
  gen : Nat
  phase : Bool
  pn : Nat
  pnLen : Nat
  ack : Option Nat
  deriving DecidableEq

/-- A packet of ours.  `ack` are the ranges of its ACK frame. -/
structure Sent where
  gen : Nat
  phase : Bool
  pn : Nat
  ack : Option RangeSet
  deriving DecidableEq

/-- `Keys::open`: the AEAD accepts the packet under the key and the nonce it was sealed with. -/
def Keys.opens (k : Keys) (p : Packet) (pn : Nat) : Bool := k.gen == p.gen && pn == p.pn

/-! ## §2. The server. -/

inductive Ended where
  | keyUpdate
  | aeadLimitReached
  | protocolViolation
  | internal
  | closed
  deriving DecidableEq

/-- The server's keys and what it decides an update by. -/
structure Server where
  suite : Suite
  tx : Keys := {}
  rx : Keys := {}
  rxPrev : Option Keys := none
  rxNext : Option Keys := none
  keyPhase : Bool := false
  rxPhase : Bool := false
  updateAckPending : Bool := false
  phaseFirstPn : Nat := 0
  txPhaseFirstPn : Nat := 0
  -- the application space
  nextPn : Nat := 0
  anyAcked : Bool := false
  largestAcked : Nat := 0
  acks : AckState := {}
  ended : Option Ended := none

namespace Server

def fail (s : Server) (e : Ended) : Server := { s with ended := some e }

/-- `next_tx`. -/
def nextTx (s : Server) : Server :=
  { s with tx := s.tx.installNext, keyPhase := !s.keyPhase, txPhaseFirstPn := s.nextPn }

/-- The packet number, from its truncated form. -/
def pnOf (s : Server) (p : Packet) : Nat :=
  decodePn s.acks.largest s.acks.any (p.pn % 2 ^ (8 * p.pnLen)) (8 * p.pnLen)

/-- The keys of the packet's phase (RFC 9001 6.5): the current ones; the previous for a packet
    reordered from before an update; the next for a peer's update. -/
def selectKeys (s : Server) (p : Packet) (pn : Nat) : KeySel :=
  if p.phase != s.rxPhase then
    if s.rxPrev.isSome && decide (pn < s.phaseFirstPn) then .previous else .next
  else .current

/-- `if (!rx_next_.valid() && !derive_next_rx())`: the next keys, derived when they are asked for. -/
def withNext (s : Server) (sel : KeySel) (derives : Bool) : Server :=
  if sel = .next ∧ s.rxNext = none ∧ derives then { s with rxNext := some s.rx.installNext } else s

def keys (s : Server) : KeySel → Option Keys
  | .current => some s.rx
  | .previous => s.rxPrev
  | .next => s.rxNext

/-- The packet did not open: the failure is counted on the key, and the count has a limit. -/
def refused (s : Server) (sel : KeySel) : Server :=
  let count := fun k : Keys => { k with failures := k.failures + 1 }
  let s₁ := match sel with
    | .current => { s with rx := count s.rx }
    | .previous => { s with rxPrev := s.rxPrev.map count }
    | .next => { s with rxNext := s.rxNext.map count }
  match s₁.keys sel with
  | some k => if k.failures > integrityLimit s.suite then s₁.fail .aeadLimitReached else s₁
  | none => s₁

/-- The peer's update, or the peer following ours.  Our send keys follow before any
    acknowledgement (RFC 9001 6.2). -/
def updateKeys (s : Server) (next : Keys) (pn : Nat) (derives : Bool) : Server :=
  if s.updateAckPending then s.fail .keyUpdate
  else
    let s₁ := { s with
      rxPrev := some s.rx, rx := next, rxNext := none, rxPhase := !s.rxPhase, phaseFirstPn := pn }
    if s₁.keyPhase != s₁.rxPhase then
      if !derives then s₁.fail .internal else { s₁.nextTx with updateAckPending := true }
    else s₁

/-- The frames of a packet that is not a duplicate, as far as they touch the keys, then
    `on_packet_received`. -/
def processFrames (s : Server) (p : Packet) (pn : Nat) : Server :=
  match p.ack with
  | none => { s with acks := s.acks.note pn }
  | some a =>
    if a ≥ s.nextPn then s.fail .protocolViolation
    else
      { s with
        largestAcked := if !s.anyAcked || decide (a > s.largestAcked) then a else s.largestAcked
        anyAcked := true
        acks := s.acks.note pn }

/-- An opened packet. -/
def opened (s : Server) (p : Packet) (pn : Nat) (sel : KeySel) (k : Keys) (derives : Bool) : Server :=
  let s₁ := if sel = .next then s.updateKeys k pn derives else s
  if s₁.ended.isSome then s₁
  else if s₁.acks.received.containsPoint pn then s₁
  else s₁.processFrames p pn

/-- `receive`, one 1-RTT packet.  `derives` is the answer of the library that derives keys. -/
def receive (s : Server) (p : Packet) (derives : Bool) : Server :=
  if s.ended.isSome then s
  else
    let pn := s.pnOf p
    let sel := s.selectKeys p pn
    let s₁ := s.withNext sel derives
    match s₁.keys sel with
    | none => s₁
    | some k => if k.opens p pn then s₁.opened p pn sel k derives else s₁.refused sel

/-- The key `receive` opens the packet with, if it opens. -/
def openedWith (s : Server) (p : Packet) (derives : Bool) : Option Keys :=
  let pn := s.pnOf p
  let sel := s.selectKeys p pn
  ((s.withNext sel derives).keys sel).filter fun k => k.opens p pn

/-- `maybe_update_keys`: our own update, at the key's confidentiality limit.  `elapsed`: three
    PTOs passed since the last one. -/
def maybeUpdateKeys (s : Server) (elapsed derives : Bool) : Server :=
  if s.tx.sealed + 4096 < confidentialityLimit s.suite ∨ s.updateAckPending then s
  else if s.anyAcked = false ∨ s.largestAcked < s.txPhaseFirstPn then
    if s.tx.sealed ≥ confidentialityLimit s.suite then s.fail .aeadLimitReached else s
  else if !elapsed then s
  else if !derives then s
  else { s.nextTx with rxNext := some s.rx.installNext }

/-- The packet that is built now. -/
def packet (s : Server) (ack : Bool) : Sent where
  gen := s.tx.gen
  phase := s.keyPhase
  pn := s.nextPn
  ack := if ack then some s.acks.received else none

/-- The packet is sealed and its number used up. -/
def sealPacket (s : Server) : Server :=
  { s with tx := { s.tx with sealed := s.tx.sealed + 1 }, nextPn := s.nextPn + 1 }

/-- `build_packet`, after the packet is sealed: an ACK under the new keys completes an update. -/
def buildPacket (s : Server) (ack elapsed derives : Bool) : Server :=
  let s₁ := s.sealPacket
  let s₂ := if ack then { s₁ with updateAckPending := false } else s₁
  s₂.maybeUpdateKeys elapsed derives

end Server

/-! ## §3. The client and the network. -/

/-- `heard` are the packets of ours it opened. -/
structure Client where
  tx : Nat := 0
  rx : Nat := 0
  nextPn : Nat := 0
  heard : List Sent := []

/-- The parties, and every packet each of them ever sent. -/
structure System where
  server : Server
  client : Client := {}
  sent : List Sent := []
  packets : List Packet := []

/-- What may happen next, on either side. -/
inductive Label where
  -- the client
  | clientSend (pn pnLen : Nat) (ack : Option Nat)
  | clientUpdate
  | clientReceive (i : Nat)
  -- the server
  | receive (i : Nat) (derives : Bool)
  | buildPacket (ack elapsed derives : Bool)
  | sendClose
  | prevKeysEnd
  | close
  deriving DecidableEq

/-- The derivations of keys in the step succeed. -/
def Label.derives : Label → Bool
  | .receive _ d => d
  | .buildPacket _ _ d => d
  | _ => true

namespace System

def start (suite : Suite) : System where
  server := { suite := suite }

/-- A packet of the client's current phase was acknowledged. -/
def updatable (s : System) : Bool :=
  s.packets.any fun p => p.gen == s.client.tx && s.client.heard.any fun x =>
    match x.ack with
    | some r => r.containsPoint p.pn
    | none => false

/-- The client opens a packet of ours: its receive keys, and with them its send keys, follow. -/
def clientHears (s : System) (x : Sent) : Client :=
  let rx := max s.client.rx x.gen
  { s.client with rx := rx, tx := max s.client.tx rx, heard := s.client.heard ++ [x] }

/-- One step of the system; `none` where it cannot happen. -/
def step (s : System) : Label → Option System
  -- packet numbers go up, with gaps; it acknowledges what it opened
  | .clientSend pn pnLen ack =>
    if s.client.nextPn ≤ pn ∧ (∀ a ∈ ack, s.client.heard.any fun x => x.pn == a) then
      some { s with
        client := { s.client with nextPn := pn + 1 }
        packets := s.packets ++ [{
          gen := s.client.tx, phase := phaseOf s.client.tx, pn := pn, pnLen := pnLen, ack := ack }] }
    else none
  | .clientUpdate =>
    if s.updatable then some { s with client := { s.client with tx := s.client.tx + 1 } } else none
  -- it has no keys for what is two generations ahead
  | .clientReceive i =>
    match s.sent[i]? with
    | some x => if x.gen ≤ s.client.rx + 1 then some { s with client := s.clientHears x } else none
    | none => none
  | .receive i derives =>
    match s.packets[i]? with
    | some p => some { s with server := s.server.receive p derives }
    | none => none
  | .buildPacket ack elapsed derives =>
    if s.server.ended = none then
      some { s with
        server := s.server.buildPacket ack elapsed derives
        sent := s.sent ++ [s.server.packet ack] }
    else none
  -- the close goes out under the send keys of that time
  | .sendClose =>
    if s.server.ended.isSome then
      some { s with server := s.server.sealPacket, sent := s.sent ++ [s.server.packet false] }
    else none
  | .prevKeysEnd => some { s with server := { s.server with rxPrev := none } }
  | .close =>
    if s.server.ended = none then some { s with server := s.server.fail .closed } else none

end System

/-! ## §4. The invariant. -/

theorem phaseOf_succ (gen : Nat) : phaseOf (gen + 1) = !phaseOf gen := by
  unfold phaseOf
  rcases Nat.mod_two_eq_zero_or_one gen with h | h
  · rw [show (gen + 1) % 2 = 1 by omega, h]
    rfl
  rw [show (gen + 1) % 2 = 0 by omega, h]
  rfl

theorem phaseOf_succ_bne (gen : Nat) : (phaseOf (gen + 1) != phaseOf gen) = true := by
  rw [phaseOf_succ]
  cases phaseOf gen <;> rfl

/-- The values of a set were numbers of packets of the client, of generations up to `gen`. -/
def Received (s : System) (r : RangeSet) (gen : Nat) : Prop :=
  ∀ v, r.Holds v → v < s.client.nextPn ∧ ∀ p ∈ s.packets, p.pn = v → p.gen ≤ gen

/-- What every step keeps. -/
structure Inv (s : System) : Prop where
  -- the keys of the server
  txPhase : s.server.keyPhase = phaseOf s.server.tx.gen
  rxPhase : s.server.rxPhase = phaseOf s.server.rx.gen
  low : s.server.rx.gen ≤ s.server.tx.gen
  high : s.server.tx.gen ≤ s.server.rx.gen + 1
  prev : ∀ k, s.server.rxPrev = some k → k.gen + 1 = s.server.rx.gen
  next : ∀ k, s.server.rxNext = some k → k.gen = s.server.rx.gen + 1
  -- the packets of the client
  phase : ∀ p ∈ s.packets, p.phase = phaseOf p.gen
  client : ∀ p ∈ s.packets, p.gen ≤ s.client.tx ∧ p.pn < s.client.nextPn
  order : ∀ p ∈ s.packets, ∀ q ∈ s.packets, p.gen < q.gen → p.pn < q.pn
  acks : ∀ p ∈ s.packets, ∀ a, p.ack = some a → ∃ x ∈ s.sent, x.pn = a ∧ x.gen ≤ p.gen
  first : s.server.rxPrev.isSome = true →
    ∃ p ∈ s.packets, p.gen = s.server.rx.gen ∧ p.pn = s.server.phaseFirstPn
  -- our packets
  sent : ∀ x ∈ s.sent, x.phase = phaseOf x.gen ∧ x.gen ≤ s.server.tx.gen ∧ x.pn < s.server.nextPn ∧
    (s.server.txPhaseFirstPn ≤ x.pn → x.gen = s.server.tx.gen)
  heard : ∀ x ∈ s.client.heard, x ∈ s.sent ∧ x.gen ≤ s.client.rx
  -- who is ahead of whom
  follows : s.client.rx ≤ s.client.tx
  ahead : s.client.tx ≤ s.server.rx.gen + 1
  pending : s.server.updateAckPending = true →
    s.server.tx.gen = s.server.rx.gen ∧ s.client.tx ≤ s.server.rx.gen
  -- what was received and what was acknowledged
  ranges : RangeSet.Above 0 s.server.acks.received
  received : Received s s.server.acks.received s.server.rx.gen
  acked : ∀ x ∈ s.sent, ∀ r, x.ack = some r → Received s r s.server.rx.gen ∧
    (s.server.updateAckPending = true → ∀ p ∈ s.packets, r.Holds p.pn → p.gen < s.server.rx.gen)
  confirmed : s.server.anyAcked = true → s.server.largestAcked < s.server.nextPn ∧
    (s.server.txPhaseFirstPn ≤ s.server.largestAcked → s.server.tx.gen ≤ s.server.rx.gen)
  error : s.server.ended ≠ some .keyUpdate

variable {s s' : System}

theorem start_inv (suite : Suite) : Inv (System.start suite) where
  txPhase := rfl
  rxPhase := rfl
  low := Nat.le_refl _
  high := Nat.zero_le _
  prev := fun _ hk => absurd hk (by simp [System.start])
  next := fun _ hk => absurd hk (by simp [System.start])
  phase := fun _ hp => absurd hp List.not_mem_nil
  client := fun _ hp => absurd hp List.not_mem_nil
  order := fun _ hp => absurd hp List.not_mem_nil
  acks := fun _ hp => absurd hp List.not_mem_nil
  first := fun hf => absurd hf (by simp [System.start])
  sent := fun _ hx => absurd hx List.not_mem_nil
  heard := fun _ hx => absurd hx List.not_mem_nil
  follows := Nat.le_refl _
  ahead := Nat.zero_le _
  pending := fun hp => absurd hp (by simp [System.start])
  ranges := trivial
  received := fun v hv => absurd hv (RangeSet.holds_nil v)
  acked := fun _ hx => absurd hx List.not_mem_nil
  confirmed := fun ha => absurd ha (by simp [System.start])
  error := by simp [System.start]

/-- More packets were received under a later generation. -/
theorem Received.mono {r : RangeSet} {gen gen' : Nat} (h : Received s r gen) (hle : gen ≤ gen') :
    Received s r gen' := by
  intro v hv
  obtain ⟨hlt, hgen⟩ := h v hv
  exact ⟨hlt, fun p hp he => Nat.le_trans (hgen p hp he) hle⟩

/-! ## §5. The client's steps. -/

/-- A packet of the client: its number is new, its generation no older than any. -/
theorem Inv.clientSend (h : Inv s) {pn pnLen : Nat} {ack : Option Nat} (hpn : s.client.nextPn ≤ pn)
    (hack : ∀ a ∈ ack, (s.client.heard.any fun x => x.pn == a) = true) :
    Inv { s with
      client := { s.client with nextPn := pn + 1 }
      packets := s.packets ++ [{
        gen := s.client.tx, phase := phaseOf s.client.tx, pn := pn, pnLen := pnLen, ack := ack }] } := by
  have hreceived : ∀ {r : RangeSet} {gen : Nat}, Received s r gen →
      ∀ v, r.Holds v → v < pn + 1 ∧ ∀ p ∈ s.packets ++ [{
        gen := s.client.tx, phase := phaseOf s.client.tx, pn := pn, pnLen := pnLen, ack := ack }],
        p.pn = v → p.gen ≤ gen := by
    intro r gen hr v hv
    obtain ⟨hlt, hgen⟩ := hr v hv
    refine ⟨by omega, fun p hp he => ?_⟩
    rcases List.mem_append.mp hp with hp | hp
    · exact hgen p hp he
    -- the new number was not received
    rw [List.mem_singleton.mp hp] at he
    have he : pn = v := he
    omega
  refine { h with
    phase := ?_, client := ?_, order := ?_, acks := ?_, first := ?_, received := hreceived h.received
    acked := ?_ }
  · intro p hp
    rcases List.mem_append.mp hp with hp | hp
    · exact h.phase p hp
    · rw [List.mem_singleton.mp hp]
  · intro p hp
    show p.gen ≤ s.client.tx ∧ p.pn < pn + 1
    rcases List.mem_append.mp hp with hp | hp
    · obtain ⟨hg, hlt⟩ := h.client p hp
      exact ⟨hg, by omega⟩
    rw [List.mem_singleton.mp hp]
    exact ⟨Nat.le_refl _, Nat.lt_succ_self pn⟩
  · intro p hp q hq hlt
    rcases List.mem_append.mp hp with hp | hp <;> rcases List.mem_append.mp hq with hq | hq
    · exact h.order p hp q hq hlt
    · obtain ⟨-, hp⟩ := h.client p hp
      rw [List.mem_singleton.mp hq]
      show p.pn < pn
      omega
    · obtain ⟨hg, -⟩ := h.client q hq
      rw [List.mem_singleton.mp hp] at hlt
      have hlt : s.client.tx < q.gen := hlt
      omega
    · rw [List.mem_singleton.mp hp, List.mem_singleton.mp hq] at hlt
      exact absurd hlt (Nat.lt_irrefl _)
  · intro p hp a ha
    rcases List.mem_append.mp hp with hp | hp
    · exact h.acks p hp a ha
    -- what the client acknowledges it opened, under keys it follows
    rw [List.mem_singleton.mp hp] at ha ⊢
    obtain ⟨x, hx, he⟩ := List.any_eq_true.mp (hack a ha)
    obtain ⟨hmem, hgen⟩ := h.heard x hx
    exact ⟨x, hmem, beq_iff_eq.mp he, Nat.le_trans hgen h.follows⟩
  · intro hs
    obtain ⟨p, hp, hgen⟩ := h.first hs
    exact ⟨p, List.mem_append_left _ hp, hgen⟩
  · intro x hx r hr
    obtain ⟨hrec, hpend⟩ := h.acked x hx r hr
    refine ⟨hreceived hrec, fun hp p hm hv => ?_⟩
    rcases List.mem_append.mp hm with hm | hm
    · exact hpend hp p hm hv
    rw [List.mem_singleton.mp hm] at hv
    obtain ⟨hlt, -⟩ := hrec _ hv
    have hlt : pn < s.client.nextPn := hlt
    omega

/-- **The client starts an update**: a packet of its phase was acknowledged, so we received it. -/
theorem Inv.clientUpdate (h : Inv s) (hu : s.updatable = true) :
    Inv { s with client := { s.client with tx := s.client.tx + 1 } } := by
  unfold System.updatable at hu
  obtain ⟨p, hp, hu⟩ := List.any_eq_true.mp hu
  obtain ⟨hgen, hu⟩ := Bool.and_eq_true_iff.mp hu
  have hgen : p.gen = s.client.tx := beq_iff_eq.mp hgen
  obtain ⟨x, hx, hr⟩ := List.any_eq_true.mp hu
  obtain ⟨hmem, -⟩ := h.heard x hx
  have hheld : ∃ r, x.ack = some r ∧ r.Holds p.pn := by
    cases ha : x.ack with
    | none =>
      rw [ha] at hr
      exact absurd hr Bool.false_ne_true
    | some r =>
      rw [ha] at hr
      exact ⟨r, rfl, (RangeSet.containsPoint_iff r p.pn).mp hr⟩
  obtain ⟨r, ha, hv⟩ := hheld
  obtain ⟨hrec, hpend⟩ := h.acked x hmem r ha
  have hle := (hrec p.pn hv).2 p hp rfl
  refine { h with client := ?_, follows := ?_, ahead := ?_, pending := ?_ }
  · intro q hq
    obtain ⟨hg, hlt⟩ := h.client q hq
    exact ⟨Nat.le_succ_of_le hg, hlt⟩
  · exact Nat.le_succ_of_le h.follows
  · show s.client.tx + 1 ≤ s.server.rx.gen + 1
    omega
  · -- while an update waits for its acknowledgement, no packet of its phase has one
    intro hp'
    have hlt := hpend hp' p hp hv
    refine ⟨(h.pending hp').1, ?_⟩
    show s.client.tx + 1 ≤ s.server.rx.gen
    omega

/-- **The client opens a packet of ours**, and follows its generation. -/
theorem Inv.clientHears (h : Inv s) {x : Sent} (hx : x ∈ s.sent) :
    Inv { s with client := s.clientHears x } := by
  obtain ⟨-, hgen, -⟩ := h.sent x hx
  have hhigh := h.high
  have hahead := h.ahead
  have hfollows := h.follows
  refine { h with client := ?_, heard := ?_, follows := ?_, ahead := ?_, pending := ?_ }
  · intro p hp
    obtain ⟨hg, hlt⟩ := h.client p hp
    refine ⟨?_, hlt⟩
    show p.gen ≤ max s.client.tx (max s.client.rx x.gen)
    omega
  · intro y hy
    show y ∈ s.sent ∧ y.gen ≤ max s.client.rx x.gen
    rcases List.mem_append.mp hy with hy | hy
    · obtain ⟨hm, hg⟩ := h.heard y hy
      exact ⟨hm, by omega⟩
    rw [List.mem_singleton.mp hy]
    exact ⟨hx, by omega⟩
  · show max s.client.rx x.gen ≤ max s.client.tx (max s.client.rx x.gen)
    omega
  · show max s.client.tx (max s.client.rx x.gen) ≤ s.server.rx.gen + 1
    omega
  · intro hp
    obtain ⟨heq, hle⟩ := h.pending hp
    refine ⟨heq, ?_⟩
    show max s.client.tx (max s.client.rx x.gen) ≤ s.server.rx.gen
    omega

/-! ## §6. The server receives. -/

/-- The number of a received packet joins the set; the lowest ranges may leave it. -/
theorem holds_note {a : AckState} {pn v : Nat} (h : RangeSet.Above 0 a.received)
    (hv : (a.note pn).received.Holds v) : a.received.Holds v ∨ v = pn := by
  obtain ⟨-, hset⟩ := RangeSet.add_spec (Nat.lt_succ_self pn) h
  obtain ⟨x, hx, hin⟩ := hv
  rcases (hset v).mp ⟨x, List.mem_of_mem_drop hx, hin⟩ with hv | hv
  · exact .inl hv
  · exact .inr (by omega)

theorem above_drop {lo : Nat} {r : RangeSet} (h : RangeSet.Above lo r) (n : Nat) :
    RangeSet.Above lo (r.drop n) := by
  induction n generalizing lo r with
  | zero => exact h
  | succ n ih =>
    cases r with
    | nil => trivial
    | cons x xs =>
      obtain ⟨hlo, hx, hxs⟩ := h
      exact ih (hxs.mono (by omega))

variable {p : Packet}

/-- Two packets of one number are of one generation. -/
theorem Inv.gen_of_pn (h : Inv s) {q : Packet} (hp : p ∈ s.packets) (hq : q ∈ s.packets)
    (he : p.pn = q.pn) : p.gen = q.gen := by
  rcases Nat.lt_trichotomy p.gen q.gen with hlt | heq | hlt
  · have := h.order p hp q hq hlt
    omega
  · exact heq
  have := h.order q hq p hp hlt
  omega

/-- The generation of the next keys is the one they are derived for. -/
theorem Inv.withNext (h : Inv s) (sel : KeySel) (derives : Bool) :
    Inv { s with server := s.server.withNext sel derives } := by
  unfold Server.withNext
  split
  · refine { h with next := ?_ }
    intro k hk
    cases hk
    rfl
  · exact h

/-- A packet that does not open leaves every generation alone. -/
theorem Inv.refused (h : Inv s) (sel : KeySel) : Inv { s with server := s.server.refused sel } := by
  have hlimit : ∀ (t : Server) (o : Option Keys), Inv { s with server := t } →
      Inv { s with server := match o with
        | some k => if k.failures > integrityLimit s.server.suite then t.fail .aeadLimitReached else t
        | none => t } := by
    intro t o ht
    cases o with
    | none => exact ht
    | some k =>
      dsimp only
      split
      · exact { ht with error := by simp [Server.fail] }
      · exact ht
  unfold Server.refused
  refine hlimit _ _ ?_
  cases sel with
  | current => exact { h with }
  | previous =>
    refine { h with prev := ?_, first := ?_ }
    · intro k hk
      obtain ⟨k', hk', rfl⟩ := Option.map_eq_some_iff.mp hk
      exact h.prev k' hk'
    · intro hs
      exact h.first (by simpa using hs)
  | next =>
    refine { h with next := ?_ }
    intro k hk
    obtain ⟨k', hk', rfl⟩ := Option.map_eq_some_iff.mp hk
    exact h.next k' hk'

/-- **The receive keys move on**, with a packet of the next generation, and our send keys with them. -/
theorem Inv.updateKeys (h : Inv s) {k : Keys} (hp : p ∈ s.packets)
    (hgen : p.gen = s.server.rx.gen + 1) (hk : k.gen = s.server.rx.gen + 1)
    (hlive : s.server.ended = none) : Inv { s with server := s.server.updateKeys k p.pn true } ∧
      (s.server.updateKeys k p.pn true).rx.gen = s.server.rx.gen + 1 ∧
      (s.server.updateKeys k p.pn true).ended = none := by
  have htx := (h.client p hp).1
  have hnot : s.server.updateAckPending = false := by
    by_contra hpend
    have := (h.pending (by simpa using hpend)).2
    omega
  have hlow := h.low
  have hhigh := h.high
  have hahead := h.ahead
  have hphase : (s.server.keyPhase != !s.server.rxPhase) = true ↔
      s.server.tx.gen = s.server.rx.gen := by
    rw [h.txPhase, h.rxPhase, ← phaseOf_succ]
    constructor
    · intro hne
      by_contra hgen
      rw [show s.server.tx.gen = s.server.rx.gen + 1 by omega] at hne
      simp at hne
    · intro heq
      rw [heq, bne_comm]
      exact phaseOf_succ_bne _
  have hrx : (!s.server.rxPhase) = phaseOf k.gen := by
    rw [h.rxPhase, hk, phaseOf_succ]
  have hprev : ∀ k', some s.server.rx = some k' → k'.gen + 1 = k.gen := by
    intro k' hk'
    rw [← Option.some.inj hk', hk]
  have hnone : ∀ k', (none : Option Keys) = some k' → k'.gen = k.gen + 1 :=
    fun _ hk' => absurd hk' (by simp)
  have hfirst : ∃ q ∈ s.packets, q.gen = k.gen ∧ q.pn = p.pn := ⟨p, hp, hgen.trans hk.symm, rfl⟩
  have hreceived : ∀ {r : RangeSet}, Received s r s.server.rx.gen → Received s r k.gen :=
    fun hr => hr.mono (by omega)
  unfold Server.updateKeys
  rw [hnot, if_neg (by decide)]
  dsimp only
  split
  · next hne =>
    -- our send keys follow: no packet of the new phase was sent, let alone acknowledged
    have heq := hphase.mp hne
    rw [if_neg (by decide)]
    refine ⟨{ h with
      txPhase := ?_, rxPhase := hrx, low := ?_, high := ?_, prev := hprev, next := hnone
      first := fun _ => hfirst, sent := ?_, ahead := ?_, pending := ?_, received := hreceived h.received
      acked := ?_, confirmed := ?_ }, hk, hlive⟩
    · show (!s.server.keyPhase) = phaseOf (s.server.tx.gen + 1)
      rw [h.txPhase, phaseOf_succ]
    · show k.gen ≤ s.server.tx.gen + 1
      omega
    · show s.server.tx.gen + 1 ≤ k.gen + 1
      omega
    · intro x hx
      obtain ⟨hph, hle, hpn, -⟩ := h.sent x hx
      refine ⟨hph, Nat.le_succ_of_le hle, hpn, fun hge => ?_⟩
      have hge : s.server.nextPn ≤ x.pn := hge
      omega
    · show s.client.tx ≤ k.gen + 1
      omega
    · intro _
      show s.server.tx.gen + 1 = k.gen ∧ s.client.tx ≤ k.gen
      omega
    · intro x hx r hr
      obtain ⟨hrec, -⟩ := h.acked x hx r hr
      refine ⟨hreceived hrec, fun _ q hq hv => ?_⟩
      have hle := (hrec q.pn hv).2 q hq rfl
      show q.gen < k.gen
      omega
    · intro ha
      obtain ⟨hlt, -⟩ := h.confirmed ha
      refine ⟨hlt, fun hge => ?_⟩
      have hge : s.server.nextPn ≤ s.server.largestAcked := hge
      omega
  · next hne =>
    -- the client follows our update
    have hgt : s.server.tx.gen ≠ s.server.rx.gen := fun he => hne (hphase.mpr he)
    refine ⟨{ h with
      rxPhase := hrx, low := ?_, high := ?_, prev := hprev, next := hnone, first := fun _ => hfirst
      ahead := ?_, pending := ?_, received := hreceived h.received, acked := ?_, confirmed := ?_ }, hk, hlive⟩
    · show k.gen ≤ s.server.tx.gen
      omega
    · show s.server.tx.gen ≤ k.gen + 1
      omega
    · show s.client.tx ≤ k.gen + 1
      omega
    · exact nofun
    · intro x hx r hr
      exact ⟨hreceived (h.acked x hx r hr).1, nofun⟩
    · intro ha
      obtain ⟨hlt, -⟩ := h.confirmed ha
      refine ⟨hlt, fun _ => ?_⟩
      show s.server.tx.gen ≤ k.gen
      omega

/-- **The frames of a packet** of a generation that we have the keys of, or had. -/
theorem Inv.processFrames (h : Inv s) (hp : p ∈ s.packets)
    (hgen : p.gen ≤ s.server.rx.gen) : Inv { s with server := s.server.processFrames p p.pn } := by
  have hranges : RangeSet.Above 0 (s.server.acks.note p.pn).received :=
    above_drop ((RangeSet.add_spec (Nat.lt_succ_self p.pn) h.ranges).1.mono (Nat.zero_le _)) _
  have hreceived : Received s (s.server.acks.note p.pn).received s.server.rx.gen := by
    intro v hv
    rcases holds_note h.ranges hv with hv | rfl
    · exact h.received v hv
    refine ⟨(h.client p hp).2, fun q hq he => ?_⟩
    rw [h.gen_of_pn hq hp he]
    exact hgen
  unfold Server.processFrames
  split
  · exact { h with ranges := hranges, received := hreceived }
  next a ha =>
  split
  · exact { h with error := by simp [Server.fail] }
  next hlt =>
  refine { h with ranges := hranges, received := hreceived, confirmed := ?_ }
  intro _
  -- what is acknowledged was opened by the client, so its packet has our generation at least
  obtain ⟨x, hx, hpn, hle⟩ := h.acks p hp a ha
  obtain ⟨-, -, -, hfirst⟩ := h.sent x hx
  have hnew : a < s.server.nextPn ∧ (s.server.txPhaseFirstPn ≤ a →
      s.server.tx.gen ≤ s.server.rx.gen) := by
    refine ⟨Nat.lt_of_not_le hlt, fun hge => ?_⟩
    omega
  split
  · exact hnew
  next hold =>
  simp only [Bool.or_eq_true, Bool.not_eq_true', not_or, Bool.not_eq_false] at hold
  exact h.confirmed hold.1

/-- The next keys, once asked for. -/
theorem withNext_next (t : Server) (hn : ∀ k, t.rxNext = some k → k.gen = t.rx.gen + 1) :
    ∃ k, (t.withNext .next true).keys .next = some k ∧ k.gen = t.rx.gen + 1 := by
  unfold Server.withNext
  cases hr : t.rxNext with
  | none =>
    rw [if_pos ⟨rfl, rfl, rfl⟩]
    exact ⟨_, rfl, rfl⟩
  | some k =>
    rw [if_neg (by simp)]
    exact ⟨k, hr, hn k hr⟩

theorem withNext_rx (t : Server) (sel : KeySel) (derives : Bool) :
    (t.withNext sel derives).rx = t.rx ∧ (t.withNext sel derives).rxPrev = t.rxPrev ∧
      (t.withNext sel derives).ended = t.ended := by
  unfold Server.withNext
  split <;> exact ⟨rfl, rfl, rfl⟩

/-- The generation a choice stands for, `rx` being the current one. -/
def Stands (rx : Nat) : KeySel → Nat → Prop
  | .current, gen => gen = rx
  | .previous, gen => gen + 1 = rx
  | .next, gen => gen = rx + 1

/-- The generation of each of the three keys. -/
theorem Inv.keys_gen (h : Inv s) {sel : KeySel} {k : Keys} (hk : s.server.keys sel = some k) :
    Stands s.server.rx.gen sel k.gen := by
  cases sel with
  | current =>
    cases hk
    rfl
  | previous => exact h.prev k hk
  | next => exact h.next k hk

/-- **A packet of the client arrives.** -/
theorem Inv.receive (h : Inv s) (hp : p ∈ s.packets) :
    Inv { s with server := s.server.receive p true } := by
  unfold Server.receive
  split
  · exact h
  next hlive =>
  have hlive : s.server.ended = none := by simpa using hlive
  dsimp only
  generalize hsel : s.server.selectKeys p (s.server.pnOf p) = sel
  have h₁ := h.withNext sel true
  have hrx := withNext_rx s.server sel true
  generalize s.server.withNext sel true = t at h₁ hrx
  cases hk : t.keys sel with
  | none => exact h₁
  | some k =>
    dsimp only
    split
    · next ho =>
      obtain ⟨hgen, hpn⟩ := Bool.and_eq_true_iff.mp ho
      have hgen : k.gen = p.gen := beq_iff_eq.mp hgen
      have hpn : s.server.pnOf p = p.pn := beq_iff_eq.mp hpn
      rw [hpn]
      have hkeys : Stands t.rx.gen sel k.gen := h₁.keys_gen hk
      -- what `processFrames` needs: the packet is no newer than the receive keys
      have hopened : Inv { s with server := if sel = .next then t.updateKeys k p.pn true else t } ∧
          p.gen ≤ (if sel = .next then t.updateKeys k p.pn true else t).rx.gen := by
        cases sel with
        | current =>
          rw [if_neg (by decide)]
          have hkeys : k.gen = t.rx.gen := hkeys
          exact ⟨h₁, by omega⟩
        | previous =>
          rw [if_neg (by decide)]
          have hkeys : k.gen + 1 = t.rx.gen := hkeys
          exact ⟨h₁, by omega⟩
        | next =>
          rw [if_pos rfl]
          have hkeys : k.gen = t.rx.gen + 1 := hkeys
          obtain ⟨hinv, hrx', -⟩ := h₁.updateKeys hp (by show p.gen = t.rx.gen + 1; omega) hkeys
            (hrx.2.2.trans hlive)
          have hrx' : (t.updateKeys k p.pn true).rx.gen = t.rx.gen + 1 := hrx'
          exact ⟨hinv, by omega⟩
      unfold Server.opened
      dsimp only
      generalize (if sel = .next then t.updateKeys k p.pn true else t) = t' at hopened ⊢
      split
      · exact hopened.1
      split
      · exact hopened.1
      · exact hopened.1.processFrames hp hopened.2
    · exact h₁.refused sel

/-! ## §7. The server sends. -/

/-- The packet built now: the phase of its generation, and what was received. -/
theorem Inv.sealPacket (h : Inv s) (ack : Bool) (hack : ack = true → s.server.updateAckPending = false) :
    Inv { s with server := s.server.sealPacket, sent := s.sent ++ [s.server.packet ack] } := by
  refine { h with acks := ?_, sent := ?_, heard := ?_, acked := ?_, confirmed := ?_ }
  · intro p hp a ha
    obtain ⟨x, hx, hpn⟩ := h.acks p hp a ha
    exact ⟨x, List.mem_append_left _ hx, hpn⟩
  · intro x hx
    show x.phase = phaseOf x.gen ∧ x.gen ≤ s.server.tx.gen ∧ x.pn < s.server.nextPn + 1 ∧
      (s.server.txPhaseFirstPn ≤ x.pn → x.gen = s.server.tx.gen)
    rcases List.mem_append.mp hx with hx | hx
    · obtain ⟨hph, hle, hpn, hfirst⟩ := h.sent x hx
      exact ⟨hph, hle, by omega, hfirst⟩
    rw [List.mem_singleton.mp hx]
    exact ⟨h.txPhase, Nat.le_refl _, Nat.lt_succ_self _, fun _ => rfl⟩
  · intro x hx
    obtain ⟨hm, hg⟩ := h.heard x hx
    exact ⟨List.mem_append_left _ hm, hg⟩
  · intro x hx r hr
    rcases List.mem_append.mp hx with hx | hx
    · exact h.acked x hx r hr
    -- no ACK is written while an update waits for one
    rw [List.mem_singleton.mp hx] at hr
    have hr : (if ack then some s.server.acks.received else none) = some r := hr
    cases ack with
    | false => simp at hr
    | true =>
      cases hr
      refine ⟨h.received, fun hpend => ?_⟩
      rw [show s.server.updateAckPending = true from hpend] at hack
      cases hack rfl
  · intro ha
    obtain ⟨hlt, hconf⟩ := h.confirmed ha
    exact ⟨Nat.lt_succ_of_lt hlt, hconf⟩

/-- An ACK completes the update: the condition on what was acknowledged falls away. -/
theorem Inv.ackWritten (h : Inv s) :
    Inv { s with server := { s.server with updateAckPending := false } } := by
  refine { h with pending := ?_, acked := ?_ }
  · exact nofun
  · intro x hx r hr
    exact ⟨(h.acked x hx r hr).1, nofun⟩

/-- **Our own update**: the client acknowledged a packet of the phase, so it has followed. -/
theorem Inv.maybeUpdateKeys (h : Inv s) (elapsed derives : Bool) :
    Inv { s with server := s.server.maybeUpdateKeys elapsed derives } := by
  unfold Server.maybeUpdateKeys
  split
  · exact h
  next hdue =>
  split
  · split
    · exact { h with error := by simp [Server.fail] }
    · exact h
  · next hconf =>
    split
    · exact h
    split
    · exact h
    have hpend : s.server.updateAckPending = false := by
      rcases not_or.mp hdue with ⟨-, hp⟩
      simpa using hp
    rcases not_or.mp hconf with ⟨hany, hge⟩
    obtain ⟨hlt, hle⟩ := h.confirmed (by simpa using hany)
    have hlow := h.low
    refine { h with
      txPhase := ?_, low := ?_, high := ?_, next := ?_, sent := ?_, pending := ?_
      confirmed := ?_ }
    · show (!s.server.keyPhase) = phaseOf (s.server.tx.gen + 1)
      rw [h.txPhase, phaseOf_succ]
    · exact Nat.le_succ_of_le hlow
    · show s.server.tx.gen + 1 ≤ s.server.rx.gen + 1
      omega
    · intro k hk
      cases hk
      rfl
    · intro x hx
      obtain ⟨hph, hle, hpn, -⟩ := h.sent x hx
      refine ⟨hph, Nat.le_succ_of_le hle, hpn, fun hge => ?_⟩
      have hge : s.server.nextPn ≤ x.pn := hge
      omega
    · intro hp
      have hp : s.server.updateAckPending = true := hp
      rw [hpend] at hp
      exact absurd hp Bool.false_ne_true
    · intro _
      refine ⟨hlt, fun hge => ?_⟩
      have hge : s.server.nextPn ≤ s.server.largestAcked := hge
      omega

theorem Inv.buildPacket (h : Inv s) (ack elapsed derives : Bool) :
    Inv { s with
      server := s.server.buildPacket ack elapsed derives
      sent := s.sent ++ [s.server.packet ack] } := by
  unfold Server.buildPacket
  dsimp only
  cases ack with
  | false =>
    rw [if_neg (by decide)]
    exact (h.sealPacket false nofun).maybeUpdateKeys elapsed derives
  | true =>
    rw [if_pos rfl]
    exact (h.ackWritten.sealPacket true fun _ => rfl).maybeUpdateKeys elapsed derives

/-! ## §8. Every step. -/

/-- **The step lemma.** -/
theorem Inv.step {l : Label} (h : Inv s) (hd : l.derives = true) (hs : s.step l = some s') : Inv s' := by
  cases l with
  | clientSend pn pnLen ack =>
    unfold System.step at hs
    dsimp only at hs
    split at hs
    · next hg =>
      cases hs
      exact h.clientSend hg.1 hg.2
    · simp at hs
  | clientUpdate =>
    unfold System.step at hs
    dsimp only at hs
    split at hs
    · next hu =>
      cases hs
      exact h.clientUpdate hu
    · simp at hs
  | clientReceive i =>
    unfold System.step at hs
    dsimp only at hs
    split at hs
    · next x hx =>
      split at hs
      · cases hs
        exact h.clientHears (List.mem_of_getElem? hx)
      · simp at hs
    · simp at hs
  | receive i derives =>
    unfold System.step at hs
    dsimp only at hs
    split at hs
    · next p hp =>
      cases hs
      obtain rfl : derives = true := hd
      exact h.receive (List.mem_of_getElem? hp)
    · simp at hs
  | buildPacket ack elapsed derives =>
    unfold System.step at hs
    dsimp only at hs
    split at hs
    · cases hs
      exact h.buildPacket ack elapsed derives
    · simp at hs
  | sendClose =>
    unfold System.step at hs
    dsimp only at hs
    split at hs
    · cases hs
      exact h.sealPacket false nofun
    · simp at hs
  | prevKeysEnd =>
    cases hs
    refine { h with prev := ?_, first := ?_ }
    · exact fun _ hk => absurd hk (by simp)
    · exact nofun
  | close =>
    unfold System.step at hs
    dsimp only at hs
    split at hs
    · cases hs
      exact { h with error := by simp [Server.fail] }
    · simp at hs

/-- The run lemma. -/
theorem run_inv {suite : Suite} {ls : List Label} (hd : ∀ l ∈ ls, l.derives = true)
    (hrun : run System.step (System.start suite) ls = some s) : Inv s :=
  run_invariant (fun _ _ _ h hd hs => h.step hd hs) (start_inv suite) hrun (meets_of_forall hd)

/-- **The key of a packet.**  Its generation is current, next, or previous and still held, and its
    number is decoded: the key chosen is its generation's, and it opens. -/
theorem Inv.opened_with (h : Inv s) (hp : p ∈ s.packets) (hpn : s.server.pnOf p = p.pn)
    (hgen : p.gen = s.server.rx.gen ∨ p.gen = s.server.rx.gen + 1 ∨
      ∃ k, s.server.rxPrev = some k ∧ k.gen = p.gen) :
    ∃ k, s.server.openedWith p true = some k ∧ k.gen = p.gen := by
  unfold Server.openedWith
  dsimp only
  rw [hpn]
  have hopens : ∀ k : Keys, k.gen = p.gen → k.opens p p.pn = true := by
    intro k hk
    unfold Keys.opens
    rw [hk]
    simp
  have hchosen : ∃ k, (s.server.withNext (s.server.selectKeys p p.pn) true).keys
      (s.server.selectKeys p p.pn) = some k ∧ k.gen = p.gen := by
    unfold Server.selectKeys
    rw [h.phase p hp, h.rxPhase]
    rcases hgen with hgen | hgen | ⟨k, hk, hgen⟩
    · -- the current phase
      rw [hgen, if_neg (by simp)]
      exact ⟨s.server.rx, by rw [show (s.server.withNext .current true).keys .current =
        some (s.server.withNext .current true).rx from rfl, (withNext_rx s.server _ _).1], rfl⟩
    · -- the next one: no packet of it comes before one of the current phase
      rw [hgen, if_pos (phaseOf_succ_bne _)]
      have hnot : (s.server.rxPrev.isSome && decide (p.pn < s.server.phaseFirstPn)) = false := by
        cases hprev : s.server.rxPrev.isSome with
        | false => rfl
        | true =>
          obtain ⟨q, hq, hqgen, hqpn⟩ := h.first hprev
          have := h.order q hq p hp (by omega)
          simp only [Bool.true_and, decide_eq_false_iff_not]
          omega
      rw [hnot, if_neg (by decide)]
      exact withNext_next s.server h.next
    · -- the previous one: all of its packets come before those of the current phase
      have hsucc := h.prev k hk
      have hsome : s.server.rxPrev.isSome = true := by rw [hk]; rfl
      obtain ⟨q, hq, hqgen, hqpn⟩ := h.first hsome
      have hlt := h.order p hp q hq (by omega)
      rw [show s.server.rx.gen = p.gen + 1 by omega, if_pos (by rw [bne_comm]; exact phaseOf_succ_bne _),
        hsome, if_pos (by simp only [Bool.true_and, decide_eq_true_eq]; omega)]
      refine ⟨k, ?_, hgen⟩
      rw [show (s.server.withNext .previous true).keys .previous =
        (s.server.withNext .previous true).rxPrev from rfl, (withNext_rx s.server _ _).2.1, hk]
  obtain ⟨k, hk, hgen⟩ := hchosen
  refine ⟨k, ?_, hgen⟩
  rw [hk, Option.filter_some, if_pos (hopens k hgen)]

/-! ## §9. Every run. -/

/-- **The generations agree.**  In every run with an honest client, whatever is reordered, lost or
    duplicated: the phase bit of each packet built is the parity of its generation; the send
    generation is the receive generation or one ahead; `rx_prev` and `rx_next`, where they are
    held, are one below and one above; a packet whose number is decoded is opened with the key of
    its generation when that is the current one, the next one, or the previous one while it is
    held; and the connection is never failed with KEY_UPDATE_ERROR. -/
theorem generations_agree (suite : Suite) (ls : List Label) (s : System)
    (hrun : run System.step (System.start suite) ls = some s) (hd : ∀ l ∈ ls, l.derives = true) :
    (∀ x ∈ s.sent, x.phase = phaseOf x.gen) ∧
    (s.server.rx.gen ≤ s.server.tx.gen ∧ s.server.tx.gen ≤ s.server.rx.gen + 1) ∧
    (∀ k, s.server.rxPrev = some k → k.gen + 1 = s.server.rx.gen) ∧
    (∀ k, s.server.rxNext = some k → k.gen = s.server.rx.gen + 1) ∧ (∀ p ∈ s.packets, s.server.pnOf p = p.pn →
      (p.gen = s.server.rx.gen ∨ p.gen = s.server.rx.gen + 1 ∨
        ∃ k, s.server.rxPrev = some k ∧ k.gen = p.gen) →
      ∃ k, s.server.openedWith p true = some k ∧ k.gen = p.gen) ∧ s.server.ended ≠ some .keyUpdate := by
  have h : Inv s := run_inv hd hrun
  exact ⟨fun x hx => (h.sent x hx).1, ⟨h.low, h.high⟩, h.prev, h.next,
    fun p hp hpn hgen => h.opened_with hp hpn hgen, h.error⟩

/-- The client's update, and a packet from before it that is still on its way. -/
def lateRun : List Label :=
  [.clientSend 0 1 none, .clientSend 1 1 none, .receive 0 true, .buildPacket true false true,
    .clientReceive 0, .clientUpdate, .clientSend 200 2 (some 0), .receive 2 true]

theorem generations_agree_lateRun :
    ∃ s, run System.step (System.start .aes128gcm) lateRun = some s ∧ s.server.rx.gen = 1 ∧
      s.server.tx.gen = 1 ∧ s.server.ended ≠ some .keyUpdate := by
  have hstate : (run System.step (System.start .aes128gcm) lateRun).map (fun s =>
      (s.server.rx.gen, s.server.tx.gen)) = some (1, 1) := by decide
  obtain ⟨s, hs, he⟩ := Option.map_eq_some_iff.mp hstate
  obtain ⟨hrx, htx⟩ := Prod.mk.inj he
  obtain ⟨-, -, -, -, -, herr⟩ := generations_agree .aes128gcm lateRun s hs (by decide)
  exact ⟨s, hs, hrx, htx, herr⟩

/-- The second packet arrives late: the previous keys are held, but its one-byte number is decoded
    as 257, so the next keys are tried and it is not opened. -/
theorem late_packet_not_opened : ∃ s, run System.step (System.start .aes128gcm) lateRun = some s ∧
      ∃ p ∈ s.packets, (∃ k, s.server.rxPrev = some k ∧ k.gen = p.gen) ∧
        s.server.pnOf p = 257 ∧ s.server.selectKeys p (s.server.pnOf p) = .next ∧
        s.server.openedWith p true = none := by
  have hstate : (run System.step (System.start .aes128gcm) lateRun).map (fun s =>
      (s.packets[1]?, s.server.rxPrev.map Keys.gen,
        (s.packets[1]?).map fun p => (s.server.pnOf p, s.server.selectKeys p (s.server.pnOf p),
          s.server.openedWith p true))) =
      some (some { gen := 0, phase := false, pn := 1, pnLen := 1, ack := none }, some 0,
        some (257, .next, none)) := by rfl
  obtain ⟨s, hs, he⟩ := Option.map_eq_some_iff.mp hstate
  simp only [Prod.mk.injEq] at he
  obtain ⟨hp, hprev, hopen⟩ := he
  rw [hp, Option.map_some, Option.some.injEq] at hopen
  simp only [Prod.mk.injEq] at hopen
  obtain ⟨k, hk, hgen⟩ := Option.map_eq_some_iff.mp hprev
  exact ⟨s, hs, _, List.mem_of_getElem? hp, ⟨k, hk, hgen⟩, hopen⟩

end Agensio.Quic.KeyUpdate
