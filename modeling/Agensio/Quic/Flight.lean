/-
  Agensio.Quic.Flight — what is in flight, and the books on it.

  Model of `PnSpace` and `Recovery` (`quic/recovery.hpp`) with the bytes of
  every packet, the counters of a space and of the connection, the RTT
  estimate and the congestion window.  `Quic.Recovery` follows what the
  packets carry; here it is how much of it counts as in flight.

  Times are nanoseconds; 0 stands for a time that is not set, as in the
  source.  Two HISTORY VARIABLES: `reported`, the packets reported as
  acknowledged or lost, and `underflow`, that a counter was to go below
  zero (the source stops two of them at zero).

  Main results:
    * `accounting_balances` — in every state, and that no counter ever had
      to be stopped.
-/
import Agensio.Lib.SeqRing
import Agensio.Quic.Recovery

namespace Agensio.Quic.Flight

open Agensio.Lib

/-! ## §1. A packet number space. -/

/-- `SentPacket`. -/
structure Packet where
  time : Int := 0
  bytes : Nat := 0
  ackEliciting : Bool := false
  inFlight : Bool := false
  items : List Item := []
  deriving DecidableEq

/-- A packet number space with the bytes of its packets. -/
structure PnSpace where
  nextPn : Nat := 0
  anyAcked : Bool := false
  largestAcked : Nat := 0
  lossTime : Int := 0
  lastElicitingSent : Int := 0
  elicitingInFlight : Nat := 0
  discarded : Bool := false
  ring : SeqRing Packet := List.replicate 64 none
  count : Nat := 0
  oldest : Nat := 0

namespace PnSpace

def find (s : PnSpace) (pn : Nat) : Option Packet := s.ring.find pn

/-- `record`, the slot as the packetiser fills it. -/
def record (s : PnSpace) (pn : Nat) (p : Packet) : PnSpace :=
  { s with
    ring := s.ring.insert pn p
    oldest := if s.count = 0 then pn else if pn < s.oldest then pn else s.oldest
    count := s.count + 1 }

/-- The loop of `forget`: the lowest number that may still be in flight moves up. -/
def skipForgotten (ring : SeqRing Packet) (nextPn : Nat) : (fuel oldest : Nat) → Nat
  | 0, oldest => oldest
  | fuel + 1, oldest =>
    if oldest < nextPn ∧ (ring.find oldest).isNone then skipForgotten ring nextPn fuel (oldest + 1) else oldest

def forget (s : PnSpace) (pn : Nat) : PnSpace :=
  let ring := s.ring.erase pn
  let count := s.count - 1
  { s with
    ring, count
    oldest := if count = 0 then s.oldest else skipForgotten ring s.nextPn (s.nextPn - s.oldest) s.oldest }

def clear (s : PnSpace) : PnSpace :=
  { s with ring := List.replicate s.ring.length none, count := 0, oldest := s.nextPn }

end PnSpace

/-! ## §2. Recovery. -/

def kGranularity : Int := 1000000
def kInitialRtt : Int := 333000000
def kPersistentCongestionThreshold : Int := 3
/-- `TimePoint::max()`. -/
def timeMax : Int := 2 ^ 63 - 1
/-- No slow start threshold yet, `~std::uint64_t{0}`. -/
def noThreshold : Nat := 2 ^ 64 - 1

/-- The recovery of a connection: its spaces, the RTT and the window. -/
structure Recovery where
  spaces : Space → PnSpace := fun _ => {}
  acked : List Item := []
  lost : List Item := []
  maxDatagram : Nat := 1200
  maxAckDelay : Int := 25000000
  ackDelayExponent : Nat := 3
  probes : Space → Nat := fun _ => 0
  handshakeConfirmed : Bool := false
  cwnd : Nat := 12000
  bytesInFlight : Nat := 0
  ssthresh : Nat := noThreshold
  recoveryStart : Int := 0
  latestRtt : Int := 0
  smoothedRtt : Int := kInitialRtt
  rttvar : Int := kInitialRtt / 2
  minRtt : Int := 0
  hasRtt : Bool := false
  ptoCount : Nat := 0
  reported : List (Space × Nat) := []
  underflow : Bool := false

namespace Recovery

/-- One space changes. -/
def setSpace (r : Recovery) (sp : Space) (s : PnSpace) : Recovery :=
  { r with spaces := Function.update r.spaces sp s }

def minimumWindow (r : Recovery) : Nat := 2 * r.maxDatagram

/-- The packet goes out: `record`, `++next_pn` and `on_packet_sent`. -/
def onPacketSent (r : Recovery) (sp : Space) (p : Packet) (now : Int) : Recovery :=
  let s := (r.spaces sp).record (r.spaces sp).nextPn { p with time := now }
  let s := { s with nextPn := s.nextPn + 1 }
  if p.inFlight then
    let s := if p.ackEliciting then
        { s with lastElicitingSent := now, elicitingInFlight := s.elicitingInFlight + 1 }
      else s
    { r.setSpace sp s with bytesInFlight := r.bytesInFlight + p.bytes }
  else r.setSpace sp s

/-- A packet that is not sent after all: recorded and forgotten again. -/
def unsent (r : Recovery) (sp : Space) (p : Packet) : Recovery :=
  let s := (r.spaces sp).record (r.spaces sp).nextPn p
  { r.setSpace sp (s.forget s.nextPn) with underflow := r.underflow || decide (s.count = 0) }

def updateRtt (r : Recovery) (sample ackDelay : Int) : Recovery :=
  let r := { r with latestRtt := sample }
  if !r.hasRtt then { r with hasRtt := true, minRtt := sample, smoothedRtt := sample, rttvar := sample.tdiv 2 }
  else
    let minRtt := min r.minRtt sample
    let adjusted := if sample ≥ minRtt + ackDelay then sample - ackDelay else sample
    let diff := if r.smoothedRtt > adjusted then r.smoothedRtt - adjusted else adjusted - r.smoothedRtt
    { r with
      minRtt
      rttvar := (r.rttvar * 3).tdiv 4 + diff.tdiv 4
      smoothedRtt := (r.smoothedRtt * 7).tdiv 8 + adjusted.tdiv 8 }

def ccOnAcked (r : Recovery) (bytes : Nat) : Recovery :=
  if r.cwnd < r.ssthresh then { r with cwnd := r.cwnd + bytes }
  else { r with cwnd := r.cwnd + r.maxDatagram * bytes / r.cwnd }

def ccOnLost (r : Recovery) (lastLost firstLost now : Int) : Recovery :=
  let r := if lastLost > r.recoveryStart then
      { r with
        recoveryStart := now, ssthresh := max (r.cwnd / 2) r.minimumWindow
        cwnd := max (r.cwnd / 2) r.minimumWindow }
    else r
  if r.hasRtt && decide (lastLost > firstLost) then
    let threshold := (r.smoothedRtt + max (r.rttvar * 4) kGranularity + r.maxAckDelay) * kPersistentCongestionThreshold
    if lastLost - firstLost > threshold then { r with cwnd := r.minimumWindow } else r
  else r

/-- The bytes of a packet leave the count. -/
def dropBytes (r : Recovery) (p : Packet) : Recovery :=
  { r with
    bytesInFlight := r.bytesInFlight - min r.bytesInFlight p.bytes
    underflow := r.underflow || decide (r.bytesInFlight < p.bytes) }

/-- The packet is no longer one of the ack-eliciting ones in flight. -/
def dropEliciting (r : Recovery) (sp : Space) (p : Packet) : Recovery :=
  let s := r.spaces sp
  if p.ackEliciting then
    { r.setSpace sp (if s.elicitingInFlight ≠ 0 then { s with elicitingInFlight := s.elicitingInFlight - 1 } else s) with
      underflow := r.underflow || decide (s.elicitingInFlight = 0) }
  else r

/-- `s.forget(*p)`. -/
def forget (r : Recovery) (sp : Space) (pn : Nat) : Recovery :=
  { r.setSpace sp ((r.spaces sp).forget pn) with
    underflow := r.underflow || decide ((r.spaces sp).count = 0) }

/-- What the loop of `on_ack_received` keeps: whether a packet was met, and the largest. -/
structure Newly where
  newly : Bool := false
  largest : Nat := 0
  time : Int := 0
  eliciting : Bool := false

/-- A packet that is acknowledged. -/
def ackPacket (r : Recovery) (w : Newly) (sp : Space) (pn : Nat) (p : Packet) : Recovery × Newly :=
  let w := if !w.newly || decide (pn > w.largest) then { w with largest := pn, time := p.time, eliciting := p.ackEliciting }
    else w
  let r := if p.inFlight then
      let r := (r.dropBytes p).dropEliciting sp p
      if p.time > r.recoveryStart then r.ccOnAcked p.bytes else r
    else r
  let r := { r with acked := r.acked ++ p.items, reported := (sp, pn) :: r.reported }
  (r.forget sp pn, { w with newly := true })

/-- One range of an ACK frame, `n` numbers from `b` on, from its top down. -/
def ackRange (sp : Space) (b : Nat) : (n : Nat) → Recovery → Newly → Recovery × Newly
  | 0, r, w => (r, w)
  | n + 1, r, w =>
    if b + n < (r.spaces sp).oldest then (r, w)
    else
      match (r.spaces sp).find (b + n) with
      | none => ackRange sp b n r w
      | some p =>
        let t := r.ackPacket w sp (b + n) p
        ackRange sp b n t.1 t.2

def ackRanges (sp : Space) : List (Nat × Nat) → Recovery → Newly → Recovery × Newly
  | [], r, w => (r, w)
  | (b, e) :: rest, r, w =>
    let t := ackRange sp b (e - b) r w
    ackRanges sp rest t.1 t.2

/-- What the loop of `detect_lost` keeps: the first and the last time of a packet lost in flight. -/
structure Losses where
  any : Bool := false
  first : Int := 0
  last : Int := 0

/-- A packet that is declared lost. -/
def losePacket (r : Recovery) (l : Losses) (sp : Space) (pn : Nat) (p : Packet) : Recovery × Losses :=
  let l := if p.inFlight then
      { any := true
        first := if !l.any || decide (p.time < l.first) then p.time else l.first
        last := if !l.any || decide (p.time > l.last) then p.time else l.last }
    else l
  let r := if p.inFlight then (r.dropBytes p).dropEliciting sp p else r
  let r := { r with lost := r.lost ++ p.items, reported := (sp, pn) :: r.reported }
  (r.forget sp pn, l)

/-- The time at which a packet that is not lost yet will be. -/
def noteLossTime (r : Recovery) (sp : Space) (t : Int) : Recovery :=
  let s := r.spaces sp
  if s.lossTime = 0 ∨ t < s.lossTime then r.setSpace sp { s with lossTime := t } else r

/-- The loop of `detect_lost` over `n` numbers from `pn` on. -/
def lostLoop (sp : Space) (lossDelay now : Int) : (n pn : Nat) → Recovery → Losses → Recovery × Losses
  | 0, _, r, l => (r, l)
  | n + 1, pn, r, l =>
    match (r.spaces sp).find pn with
    | none => lostLoop sp lossDelay now n (pn + 1) r l
    | some p =>
      if p.time ≤ now - lossDelay ∨ (r.spaces sp).largestAcked ≥ pn + kPacketThreshold then
        let t := r.losePacket l sp pn p
        lostLoop sp lossDelay now n (pn + 1) t.1 t.2
      else lostLoop sp lossDelay now n (pn + 1) (r.noteLossTime sp (p.time + lossDelay)) l

def lossDelay (r : Recovery) : Int := max kGranularity ((max r.latestRtt r.smoothedRtt * 9).tdiv 8)

def detectLost (r : Recovery) (sp : Space) (now : Int) : Recovery :=
  let r := r.setSpace sp { r.spaces sp with lossTime := 0 }
  let s := r.spaces sp
  if !s.anyAcked then r
  else
    let t := lostLoop sp r.lossDelay now (s.largestAcked - s.oldest) s.oldest r {}
    if t.2.any then t.1.ccOnLost t.2.last t.2.first now else t.1

/-- An ACK frame. -/
structure Ack where
  largestAck : Nat
  ackDelay : Nat
  ranges : List (Nat × Nat)

/-- The peer's delay, bounded before it becomes a duration. -/
def ackDelay (r : Recovery) (f : Ack) : Int :=
  let cap := 2 ^ 30
  let raw := if f.ackDelay > cap >>> r.ackDelayExponent then cap else f.ackDelay <<< r.ackDelayExponent
  let delay : Int := raw * 1000
  if r.handshakeConfirmed then min delay r.maxAckDelay else delay

/-- `on_ack_received`; nothing for an acknowledgement of a packet never sent. -/
def onAckReceived (r : Recovery) (sp : Space) (f : Ack) (now : Int) : Option Recovery :=
  let r := { r with acked := [], lost := [] }
  if f.largestAck ≥ (r.spaces sp).nextPn then none
  else
    let t := ackRanges sp f.ranges r {}
    if !t.2.newly then some t.1
    else
      let s := t.1.spaces sp
      let r := if !s.anyAcked || decide (f.largestAck > s.largestAcked) then
          t.1.setSpace sp { s with anyAcked := true, largestAcked := f.largestAck }
        else t.1
      let r := if t.2.largest = f.largestAck ∧ t.2.eliciting then r.updateRtt (now - t.2.time) (r.ackDelay f) else r
      some { r.detectLost sp now with ptoCount := 0 }

/-- The spaces in their order. -/
def order : List Space := [.initial, .handshake, .application]

def ptoDuration (r : Recovery) (sp : Space) : Int :=
  let d := r.smoothedRtt + max (r.rttvar * 4) kGranularity
  let d := if sp = .application && r.handshakeConfirmed then d + r.maxAckDelay else d
  d * 2 ^ min r.ptoCount 12

/-- The space whose probe timeout is the earliest. -/
def ptoSpace (r : Recovery) : Option Space :=
  (order.foldl (fun (best : Int × Option Space) sp =>
    let s := r.spaces sp
    if s.discarded || s.elicitingInFlight = 0 then best
    else
      let t := s.lastElicitingSent + r.ptoDuration sp
      if t < best.1 then (t, some sp) else best) (timeMax, none)).2

/-- `on_timeout`. -/
def onTimeout (r : Recovery) (now : Int) : Recovery :=
  match order.find? fun sp =>
      !(r.spaces sp).discarded && decide ((r.spaces sp).lossTime ≠ 0 ∧ (r.spaces sp).lossTime ≤ now) with
  | some sp => r.detectLost sp now
  | none =>
    match r.ptoSpace with
    | none => r
    | some sp => { r with probes := Function.update r.probes sp 2, ptoCount := r.ptoCount + 1 }

/-- The loop of `discard_space` over `n` numbers from `pn` on. -/
def discardLoop (sp : Space) : (n pn : Nat) → Recovery → Recovery
  | 0, _, r => r
  | n + 1, pn, r =>
    match (r.spaces sp).find pn with
    | none => discardLoop sp n (pn + 1) r
    | some p => discardLoop sp n (pn + 1) ((if p.inFlight then r.dropBytes p else r).forget sp pn)

/-- `discard_space`. -/
def discardSpace (r : Recovery) (sp : Space) : Recovery :=
  let s := r.spaces sp
  let r := discardLoop sp (s.nextPn - s.oldest) s.oldest r
  { r.setSpace sp { (r.spaces sp).clear with elicitingInFlight := 0, lossTime := 0, discarded := true } with
    probes := Function.update r.probes sp 0, ptoCount := 0 }

end Recovery

/-! ## §3. The books of a space. -/

/-- The bytes a packet counts for. -/
def flying (p : Packet) : Nat := if p.inFlight then p.bytes else 0

/-- Whether a packet counts as ack-eliciting in flight. -/
def eliciting (p : Packet) : Nat := if p.inFlight && p.ackEliciting then 1 else 0

namespace PnSpace

/-- The sum of `f` over the packets on record. -/
def sum (s : PnSpace) (f : Packet → Nat) : Nat := s.ring.tally f s.nextPn

/-- The records, their number and the lowest one. -/
structure Sound (s : PnSpace) : Prop where
  window : SeqRing.Window s.ring s.nextPn
  oldest : ∀ pn p, s.find pn = some p → s.oldest ≤ pn
  count : s.count = s.sum fun _ => 1

theorem sound_new : Sound {} where
  window := SeqRing.window_empty (by decide) 0
  oldest := by
    intro pn p _
    exact Nat.zero_le _
  count := (SeqRing.tally_empty 64 (fun _ => 1) 0).symm

/-- The lowest number moves past nothing that is on record. -/
theorem skipForgotten_le (ring : SeqRing Packet) (nextPn : Nat) :
    ∀ (fuel oldest : Nat), (∀ pn p, ring.find pn = some p → oldest ≤ pn) →
      ∀ pn p, ring.find pn = some p → skipForgotten ring nextPn fuel oldest ≤ pn := by
  intro fuel
  induction fuel with
  | zero => exact fun oldest h => h
  | succ fuel ih =>
    intro oldest h
    unfold skipForgotten
    split
    · next hskip =>
      refine ih (oldest + 1) fun pn p hp => ?_
      have hle := h pn p hp
      have hne : pn ≠ oldest := by
        rintro rfl
        rw [hp] at hskip
        exact absurd hskip.2 (by simp)
      omega
    · exact h

/-- A packet that leaves takes its part of every sum along. -/
theorem Sound.forget {s : PnSpace} (h : s.Sound) {pn : Nat} {p : Packet} (hp : s.find pn = some p) :
    (s.forget pn).Sound ∧ 0 < s.count ∧ (∀ f, s.sum f = (s.forget pn).sum f + f p) ∧
      ∀ k, (s.forget pn).find k = if k = pn then none else s.find k := by
  obtain ⟨hwindow, hfind⟩ := SeqRing.erase_spec h.window hp
  have hsum : ∀ f, s.sum f = (s.forget pn).sum f + f p := fun f => SeqRing.tally_erase h.window hp f
  have hone := hsum fun _ => 1
  have hcount := h.count
  have hkept : ∀ k q, (s.ring.erase pn).find k = some q → s.oldest ≤ k := by
    intro k q hq
    rw [hfind] at hq
    split at hq
    · cases hq
    · exact h.oldest k q hq
  refine ⟨⟨hwindow, ?_, ?_⟩, by omega, hsum, hfind⟩
  · unfold PnSpace.forget
    dsimp only
    split
    · exact hkept
    · exact skipForgotten_le _ _ _ _ hkept
  · show s.count - 1 = _
    omega

/-- The space with the next packet on record. -/
def sent (s : PnSpace) (p : Packet) : PnSpace := { s.record s.nextPn p with nextPn := s.nextPn + 1 }

/-- The next packet goes on record beside all others. -/
theorem Sound.sent {s : PnSpace} (h : s.Sound) (p : Packet) :
    (s.sent p).Sound ∧ (∀ f, (s.sent p).sum f = s.sum f + f p) ∧
      ∀ k, (s.sent p).find k = if k = s.nextPn then some p else s.find k := by
  obtain ⟨hwindow, hfind⟩ := SeqRing.insert_spec h.window p
  have hsum : ∀ f, (s.sent p).sum f = s.sum f + f p := fun f => SeqRing.tally_insert h.window p f
  refine ⟨⟨hwindow, ?_, ?_⟩, hsum, hfind⟩
  · show ∀ k q, (s.ring.insert s.nextPn p).find k = some q → _
    intro k q hq
    show (if s.count = 0 then s.nextPn else if s.nextPn < s.oldest then s.nextPn else s.oldest) ≤ k
    rw [hfind] at hq
    by_cases hk : k = s.nextPn
    · split
      · omega
      split
      · omega
      · omega
    · rw [if_neg hk] at hq
      -- a packet on record counts
      have hone := SeqRing.le_tally h.window hq fun _ => 1
      have hcount : s.count = s.ring.tally (fun _ => 1) s.nextPn := h.count
      have hle := h.oldest k q hq
      rw [if_neg (by omega)]
      split
      · omega
      · exact hle
  · show s.count + 1 = _
    rw [hsum, h.count]

/-- Nothing is on record after `clear`. -/
theorem Sound.clear {s : PnSpace} (h : s.Sound) : s.clear.Sound ∧ ∀ f, s.clear.sum f = 0 := by
  have hzero : ∀ f, s.clear.sum f = 0 := fun f => SeqRing.tally_empty _ f _
  have hwindow := SeqRing.window_empty (α := Packet) h.window.pos s.nextPn
  refine ⟨⟨hwindow, ?_, (hzero _).symm⟩, hzero⟩
  intro pn p hp
  have := SeqRing.le_tally hwindow hp fun _ => 1
  rw [SeqRing.tally_empty] at this
  omega

end PnSpace

/-- The records of a space are the same. -/
structure SameRecords (s s' : PnSpace) : Prop where
  ring : s'.ring = s.ring
  nextPn : s'.nextPn = s.nextPn
  count : s'.count = s.count
  oldest : s'.oldest = s.oldest

namespace SameRecords

variable {s s' : PnSpace}

theorem refl (s : PnSpace) : SameRecords s s := ⟨rfl, rfl, rfl, rfl⟩

theorem trans {t : PnSpace} (h : SameRecords s s') (h' : SameRecords s' t) : SameRecords s t :=
  ⟨h'.ring.trans h.ring, h'.nextPn.trans h.nextPn, h'.count.trans h.count, h'.oldest.trans h.oldest⟩

theorem find (h : SameRecords s s') (pn : Nat) : s'.find pn = s.find pn := by
  unfold PnSpace.find
  rw [h.ring]

theorem sum (h : SameRecords s s') (f : Packet → Nat) : s'.sum f = s.sum f := by
  unfold PnSpace.sum
  rw [h.ring, h.nextPn]

theorem sound (h : SameRecords s s') (hs : s.Sound) : s'.Sound where
  window := by rw [h.ring, h.nextPn]; exact hs.window
  oldest := by
    intro pn p hp
    rw [h.find] at hp
    rw [h.oldest]
    exact hs.oldest pn p hp
  count := by rw [h.count, h.sum]; exact hs.count

theorem forget (h : SameRecords s s') (pn : Nat) : SameRecords (s.forget pn) (s'.forget pn) := by
  unfold PnSpace.forget
  rw [h.ring, h.nextPn, h.count, h.oldest]
  exact ⟨rfl, rfl, rfl, rfl⟩

end SameRecords

/-! ## §4. The books of the connection. -/

/-- The bytes of the packets in flight, over all spaces. -/
def flightBytes (r : Recovery) : Nat := (Recovery.order.map fun sp => (r.spaces sp).sum flying).sum

variable {r r' : Recovery}

/-- A change of one space changes the sum by that space's part. -/
theorem flightBytes_update {q : Recovery} (sp : Space)
    (h : ∀ x, x ≠ sp → (q.spaces x).sum flying = (r.spaces x).sum flying) :
    flightBytes q + (r.spaces sp).sum flying = flightBytes r + (q.spaces sp).sum flying := by
  unfold flightBytes Recovery.order
  simp only [List.map_cons, List.map_nil, List.sum_cons, List.sum_nil]
  cases sp with
  | initial =>
    rw [h .handshake (by simp), h .application (by simp)]
    omega
  | handshake =>
    rw [h .initial (by simp), h .application (by simp)]
    omega
  | application =>
    rw [h .initial (by simp), h .handshake (by simp)]
    omega

/-- The part of one space. -/
theorem sum_le_flightBytes (r : Recovery) (sp : Space) : (r.spaces sp).sum flying ≤ flightBytes r := by
  unfold flightBytes Recovery.order
  simp only [List.map_cons, List.map_nil, List.sum_cons, List.sum_nil]
  cases sp <;> omega

/-- The counters are what the records say, and no packet that was reported is on record. -/
structure Books (r : Recovery) : Prop where
  sound : ∀ sp, (r.spaces sp).Sound
  eliciting : ∀ sp, (r.spaces sp).elicitingInFlight = (r.spaces sp).sum eliciting
  bytes : r.bytesInFlight = flightBytes r
  resolved : ∀ x ∈ r.reported, x.2 < (r.spaces x.1).nextPn ∧ (r.spaces x.1).find x.2 = none
  once : r.reported.Nodup
  exact : r.underflow = false

/-- The books are the same. -/
structure SameBooks (r r' : Recovery) : Prop where
  records : ∀ x, SameRecords (r.spaces x) (r'.spaces x)
  eliciting : ∀ x, (r'.spaces x).elicitingInFlight = (r.spaces x).elicitingInFlight
  bytes : r'.bytesInFlight = r.bytesInFlight
  reported : r'.reported = r.reported
  underflow : r'.underflow = r.underflow

theorem SameBooks.refl (r : Recovery) : SameBooks r r :=
  ⟨fun _ => .refl _, fun _ => rfl, rfl, rfl, rfl⟩

/-- What lies outside the spaces and the counters is free to change. -/
theorem SameBooks.of_eq (hs : r'.spaces = r.spaces) (hb : r'.bytesInFlight = r.bytesInFlight)
    (hr : r'.reported = r.reported) (hu : r'.underflow = r.underflow) : SameBooks r r' :=
  ⟨fun x => by rw [hs]; exact .refl _, fun x => by rw [hs], hb, hr, hu⟩

/-- …and so are the times of a space and the largest number it saw acknowledged. -/
theorem SameBooks.setSpace (r : Recovery) (sp : Space) {s : PnSpace} (h : SameRecords (r.spaces sp) s)
    (he : s.elicitingInFlight = (r.spaces sp).elicitingInFlight) : SameBooks r (r.setSpace sp s) := by
  have hx : ∀ x, (r.setSpace sp s).spaces x = if x = sp then s else r.spaces x := fun x =>
    Function.update_apply ..
  refine ⟨fun x => ?_, fun x => ?_, rfl, rfl, rfl⟩
  · rw [hx]
    split
    · next he => rw [he]; exact h
    · exact .refl _
  · rw [hx]
    split
    · next hsp => rw [hsp]; exact he
    · rfl

theorem Books.same (h : Books r) (hs : SameBooks r r') : Books r' where
  sound := fun sp => (hs.records sp).sound (h.sound sp)
  eliciting := fun sp => by rw [hs.eliciting, (hs.records sp).sum]; exact h.eliciting sp
  bytes := by
    rw [hs.bytes, h.bytes]
    unfold flightBytes
    congr 1
    exact List.map_congr_left fun sp _ => ((hs.records sp).sum flying).symm
  resolved := by
    rw [hs.reported]
    intro x hx
    rw [(hs.records x.1).nextPn, (hs.records x.1).find]
    exact h.resolved x hx
  once := by rw [hs.reported]; exact h.once
  exact := hs.underflow.trans h.exact

/-! ## §5. A packet that is acknowledged or lost. -/

/-- The packet `pn` no longer counts as in flight, and is reported; its record is still there. -/
structure Landed (r q : Recovery) (sp : Space) (pn : Nat) (p : Packet) : Prop where
  records : ∀ x, SameRecords (r.spaces x) (q.spaces x)
  others : ∀ x, x ≠ sp → (q.spaces x).elicitingInFlight = (r.spaces x).elicitingInFlight
  here : (q.spaces sp).elicitingInFlight = (r.spaces sp).elicitingInFlight - eliciting p
  bytes : q.bytesInFlight = r.bytesInFlight - flying p
  reported : q.reported = (sp, pn) :: r.reported
  underflow : q.underflow = true →
    r.underflow = true ∨ r.bytesInFlight < flying p ∨ (r.spaces sp).elicitingInFlight < eliciting p

namespace Recovery

theorem ccOnAcked_same (r : Recovery) (bytes : Nat) : SameBooks r (r.ccOnAcked bytes) := by
  unfold ccOnAcked
  split <;> exact SameBooks.of_eq rfl rfl rfl rfl

theorem ccOnLost_same (r : Recovery) (lastLost firstLost now : Int) :
    SameBooks r (r.ccOnLost lastLost firstLost now) := by
  unfold ccOnLost
  dsimp only
  repeat' split
  all_goals exact SameBooks.of_eq rfl rfl rfl rfl

theorem updateRtt_same (r : Recovery) (sample ackDelay : Int) : SameBooks r (r.updateRtt sample ackDelay) := by
  unfold updateRtt
  dsimp only
  split <;> exact SameBooks.of_eq rfl rfl rfl rfl

theorem noteLossTime_same (r : Recovery) (sp : Space) (t : Int) : SameBooks r (r.noteLossTime sp t) := by
  unfold noteLossTime
  dsimp only
  split
  · exact SameBooks.setSpace r sp ⟨rfl, rfl, rfl, rfl⟩ rfl
  · exact SameBooks.refl r

variable {p : Packet}

/-- The counter of the space. -/
theorem dropEliciting_spec (r : Recovery) (sp : Space) (hf : p.inFlight = true) :
    (∀ x, SameRecords (r.spaces x) ((r.dropEliciting sp p).spaces x)) ∧
      (∀ x, x ≠ sp → ((r.dropEliciting sp p).spaces x).elicitingInFlight = (r.spaces x).elicitingInFlight) ∧
      ((r.dropEliciting sp p).spaces sp).elicitingInFlight = (r.spaces sp).elicitingInFlight - eliciting p ∧
      (r.dropEliciting sp p).bytesInFlight = r.bytesInFlight ∧
      (r.dropEliciting sp p).reported = r.reported ∧ ((r.dropEliciting sp p).underflow = true →
        r.underflow = true ∨ (r.spaces sp).elicitingInFlight < eliciting p) := by
  unfold dropEliciting
  cases he : p.ackEliciting with
  | false =>
    have hzero : eliciting p = 0 := by
      unfold eliciting
      rw [he, Bool.and_false, if_neg (by simp)]
    rw [if_neg (by simp), hzero]
    exact ⟨fun x => .refl _, fun _ _ => rfl, rfl, rfl, rfl, .inl⟩
  | true =>
    have hone : eliciting p = 1 := by
      unfold eliciting
      rw [he, hf]
      rfl
    rw [if_pos rfl, hone]
    -- the space with the counter moved
    generalize hs : (if (r.spaces sp).elicitingInFlight ≠ 0 then
      { r.spaces sp with elicitingInFlight := (r.spaces sp).elicitingInFlight - 1 } else r.spaces sp) = s
    have hspace : ∀ x, (r.setSpace sp s).spaces x = if x = sp then s else r.spaces x := fun x =>
      Function.update_apply ..
    have hmoved : SameRecords (r.spaces sp) s ∧ s.elicitingInFlight = (r.spaces sp).elicitingInFlight - 1 := by
      rw [← hs]
      split
      · exact ⟨⟨rfl, rfl, rfl, rfl⟩, rfl⟩
      · exact ⟨.refl _, by omega⟩
    refine ⟨fun x => ?_, fun x hx => ?_, ?_, rfl, rfl, ?_⟩
    · rw [hspace]
      split
      · next hx => rw [hx]; exact hmoved.1
      · exact .refl _
    · rw [hspace, if_neg hx]
    · rw [hspace, if_pos rfl]
      exact hmoved.2
    · intro hu
      rw [Bool.or_eq_true, decide_eq_true_eq] at hu
      exact hu.imp id fun h => by omega

/-- The two lines that the acknowledgement and the loss of a packet share. -/
theorem drop_landed (r : Recovery) (sp : Space) (pn : Nat) (hf : p.inFlight = true)
    {q : Recovery} (hq : SameBooks ((r.dropBytes p).dropEliciting sp p) q) {q' : Recovery}
    (hs : q'.spaces = q.spaces) (hb : q'.bytesInFlight = q.bytesInFlight)
    (hr : q'.reported = (sp, pn) :: q.reported) (hu : q'.underflow = q.underflow) : Landed r q' sp pn p := by
  obtain ⟨hrec, hothers, hhere, hbytes, hrep, hunder⟩ := dropEliciting_spec (r.dropBytes p) sp hf
  have hfly : flying p = p.bytes := by
    unfold flying
    rw [if_pos hf]
  have hdrop : (r.dropBytes p).bytesInFlight = r.bytesInFlight - flying p := by
    show r.bytesInFlight - min r.bytesInFlight p.bytes = _
    omega
  refine ⟨fun x => ?_, fun x hx => ?_, ?_, ?_, ?_, fun h => ?_⟩
  · rw [hs]
    exact (hrec x).trans (hq.records x)
  · rw [hs, hq.eliciting]
    exact hothers x hx
  · rw [hs, hq.eliciting]
    exact hhere
  · rw [hb, hq.bytes, hbytes, hdrop]
  · rw [hr, hq.reported, hrep]
    rfl
  · rw [hu, hq.underflow] at h
    rcases hunder h with h | h
    · have h : (r.underflow || decide (r.bytesInFlight < p.bytes)) = true := h
      rw [Bool.or_eq_true, decide_eq_true_eq] at h
      exact h.imp id fun h => .inl (by omega)
    · exact .inr (.inr h)

/-- A packet outside the congestion window counts for nothing. -/
theorem idle_landed (r : Recovery) (sp : Space) (pn : Nat) (hf : p.inFlight = false) {q : Recovery}
    (hs : q.spaces = r.spaces) (hb : q.bytesInFlight = r.bytesInFlight)
    (hr : q.reported = (sp, pn) :: r.reported) (hu : q.underflow = r.underflow) : Landed r q sp pn p := by
  have hfly : flying p = 0 := by
    unfold flying
    rw [hf, if_neg (by simp)]
  have helic : eliciting p = 0 := by
    unfold eliciting
    rw [hf, Bool.false_and, if_neg (by simp)]
  refine ⟨fun x => by rw [hs]; exact .refl _, fun x _ => by rw [hs], by rw [hs, helic]; rfl, by rw [hb, hfly]; rfl, hr, ?_⟩
  intro hq
  exact .inl (hu.symm.trans hq)

end Recovery

/-- A packet on record leaves: the books are right again. -/
theorem Books.leave {q : Recovery} (h : Books r) {sp : Space} {pn : Nat} {p : Packet}
    (hp : (r.spaces sp).find pn = some p) (hl : Landed r q sp pn p) : Books (q.forget sp pn) := by
  obtain ⟨hsound, hpos, hsum, hfind⟩ := (h.sound sp).forget hp
  have hspace : ∀ x, (q.forget sp pn).spaces x = if x = sp then (q.spaces sp).forget pn else q.spaces x := fun x =>
    Function.update_apply ..
  have hhere : SameRecords ((r.spaces sp).forget pn) ((q.forget sp pn).spaces sp) := by
    rw [hspace, if_pos rfl]
    exact (hl.records sp).forget pn
  have hthere : ∀ x, x ≠ sp → SameRecords (r.spaces x) ((q.forget sp pn).spaces x) := by
    intro x hx
    rw [hspace, if_neg hx]
    exact hl.records x
  -- what the packet counted for was counted
  have helic := h.eliciting sp
  have hflight := flightBytes_update (r := r) (q := q.forget sp pn) sp fun x hx => (hthere x hx).sum flying
  have hle := sum_le_flightBytes r sp
  rw [hhere.sum, hsum flying] at hflight
  rw [hsum flying] at hle
  rw [hsum Flight.eliciting] at helic
  refine ⟨fun x => ?_, fun x => ?_, ?_, ?_, ?_, ?_⟩
  · by_cases hx : x = sp
    · rw [hx]
      exact hhere.sound hsound
    · exact (hthere x hx).sound (h.sound x)
  · by_cases hx : x = sp
    · rw [hx, hhere.sum]
      have : ((q.forget sp pn).spaces sp).elicitingInFlight = (q.spaces sp).elicitingInFlight := by
        rw [hspace, if_pos rfl]
        rfl
      rw [this, hl.here]
      omega
    · rw [(hthere x hx).sum, ← h.eliciting x, ← hl.others x hx, hspace, if_neg hx]
  · show q.bytesInFlight = _
    rw [hl.bytes, h.bytes]
    omega
  · show ∀ x ∈ q.reported, _
    rw [hl.reported]
    intro x hx
    rcases List.mem_cons.mp hx with rfl | hx
    · rw [hhere.nextPn, hhere.find, hfind, if_pos rfl]
      exact ⟨(h.sound sp).window.below pn p hp, rfl⟩
    obtain ⟨hlt, hnone⟩ := h.resolved x hx
    by_cases hs : x.1 = sp
    · rw [hs] at hlt hnone ⊢
      rw [hhere.nextPn, hhere.find, hfind]
      refine ⟨hlt, ?_⟩
      split
      · rfl
      · exact hnone
    · rw [(hthere _ hs).nextPn, (hthere _ hs).find]
      exact ⟨hlt, hnone⟩
  · show q.reported.Nodup
    rw [hl.reported, List.nodup_cons]
    refine ⟨fun hmem => ?_, h.once⟩
    have hnone := (h.resolved _ hmem).2
    rw [hp] at hnone
    cases hnone
  · show (q.underflow || decide ((q.spaces sp).count = 0)) = false
    have hcount := (hl.records sp).count
    rw [Bool.or_eq_false_iff, decide_eq_false_iff_not]
    refine ⟨?_, by omega⟩
    cases hu : q.underflow with
    | false => rfl
    | true =>
      rcases hl.underflow hu with hbad | hbad | hbad
      · rw [h.exact] at hbad
        cases hbad
      · rw [h.bytes] at hbad
        omega
      · omega

namespace Recovery

variable {sp : Space}

theorem ackPacket_books {r : Recovery} (h : Books r) (w : Newly) {pn : Nat} {p : Packet}
    (hp : (r.spaces sp).find pn = some p) : Books (r.ackPacket w sp pn p).1 := by
  refine h.leave hp ?_
  cases hf : p.inFlight with
  | false => exact idle_landed r sp pn hf rfl rfl rfl rfl
  | true =>
    rw [if_pos rfl]
    refine drop_landed r sp pn hf (q := if p.time > ((r.dropBytes p).dropEliciting sp p).recoveryStart then
      ((r.dropBytes p).dropEliciting sp p).ccOnAcked p.bytes else (r.dropBytes p).dropEliciting sp p)
      ?_ rfl rfl rfl rfl
    split
    · exact ccOnAcked_same _ _
    · exact SameBooks.refl _

theorem losePacket_books {r : Recovery} (h : Books r) (l : Losses) {pn : Nat} {p : Packet}
    (hp : (r.spaces sp).find pn = some p) : Books (r.losePacket l sp pn p).1 := by
  refine h.leave hp ?_
  cases hf : p.inFlight with
  | false => exact idle_landed r sp pn hf rfl rfl rfl rfl
  | true =>
    rw [if_pos rfl]
    exact drop_landed r sp pn hf (SameBooks.refl _) rfl rfl rfl rfl

theorem ackRange_books {b : Nat} :
    ∀ (n : Nat) (r : Recovery) (w : Newly), Books r → Books (ackRange sp b n r w).1 := by
  intro n
  induction n with
  | zero => exact fun r w h => h
  | succ n ih =>
    intro r w h
    unfold ackRange
    split
    · exact h
    split
    · exact ih r w h
    · next p hp => exact ih _ _ (ackPacket_books h w hp)

theorem ackRanges_books :
    ∀ (ranges : List (Nat × Nat)) (r : Recovery) (w : Newly), Books r → Books (ackRanges sp ranges r w).1 := by
  intro ranges
  induction ranges with
  | nil => exact fun r w h => h
  | cons x rest ih =>
    intro r w h
    obtain ⟨b, e⟩ := x
    exact ih _ _ (ackRange_books (e - b) r w h)

theorem lostLoop_books {lossDelay now : Int} :
    ∀ (n pn : Nat) (r : Recovery) (l : Losses), Books r → Books (lostLoop sp lossDelay now n pn r l).1 := by
  intro n
  induction n with
  | zero => exact fun pn r l h => h
  | succ n ih =>
    intro pn r l h
    unfold lostLoop
    split
    · exact ih _ r l h
    next p hp =>
    split
    · exact ih _ _ _ (losePacket_books h l hp)
    · exact ih _ _ l (h.same (noteLossTime_same r sp _))

theorem detectLost_books {r : Recovery} (h : Books r) (sp : Space) (now : Int) : Books (r.detectLost sp now) := by
  have hreset : Books (r.setSpace sp { r.spaces sp with lossTime := 0 }) :=
    h.same (SameBooks.setSpace r sp ⟨rfl, rfl, rfl, rfl⟩ rfl)
  unfold detectLost
  dsimp only
  split
  · exact hreset
  split
  · exact (lostLoop_books _ _ _ _ hreset).same (ccOnLost_same _ _ _ _)
  · exact lostLoop_books _ _ _ _ hreset

theorem onAckReceived_books {r r' : Recovery} (h : Books r) {f : Ack} {now : Int}
    (hr : r.onAckReceived sp f now = some r') : Books r' := by
  unfold onAckReceived at hr
  dsimp only at hr
  split at hr
  · cases hr
  have hacks : Books (ackRanges sp f.ranges { r with acked := [], lost := [] } {}).1 :=
    ackRanges_books _ _ _ (h.same (SameBooks.of_eq rfl rfl rfl rfl))
  split at hr
  · exact Option.some.inj hr ▸ hacks
  have hr := Option.some.inj hr
  rw [← hr]
  refine Books.same (detectLost_books ?_ sp now) (SameBooks.of_eq rfl rfl rfl rfl)
  have hlargest : ∀ r : Recovery, Books r →
      Books (if !(r.spaces sp).anyAcked || decide (f.largestAck > (r.spaces sp).largestAcked) then
        r.setSpace sp { r.spaces sp with anyAcked := true, largestAcked := f.largestAck } else r) := by
    intro r h
    split
    · exact h.same (SameBooks.setSpace r sp ⟨rfl, rfl, rfl, rfl⟩ rfl)
    · exact h
  split
  · exact (hlargest _ hacks).same (updateRtt_same _ _ _)
  · exact hlargest _ hacks

theorem onTimeout_books {r : Recovery} (h : Books r) (now : Int) : Books (r.onTimeout now) := by
  unfold onTimeout
  split
  · exact detectLost_books h _ now
  split
  · exact h
  · exact h.same (SameBooks.of_eq rfl rfl rfl rfl)

/-! ## §6. A packet that is sent, a space that is discarded. -/

/-- The spaces after a packet went out. -/
theorem onPacketSent_spaces (r : Recovery) (sp : Space) (p : Packet) (now : Int) :
    (∀ x, x ≠ sp → (r.onPacketSent sp p now).spaces x = r.spaces x) ∧
      SameRecords ((r.spaces sp).sent { p with time := now }) ((r.onPacketSent sp p now).spaces sp) ∧
      ((r.onPacketSent sp p now).spaces sp).elicitingInFlight = (r.spaces sp).elicitingInFlight + eliciting p ∧
      (r.onPacketSent sp p now).bytesInFlight = r.bytesInFlight + flying p := by
  have hupdate : ∀ s x, (r.setSpace sp s).spaces x = if x = sp then s else r.spaces x := fun s x =>
    Function.update_apply ..
  unfold onPacketSent eliciting flying
  cases hf : p.inFlight with
  | false =>
    rw [if_neg (by simp)]
    refine ⟨fun x hx => by rw [hupdate, if_neg hx], ?_, ?_, rfl⟩
    · rw [hupdate, if_pos rfl]
      exact ⟨rfl, rfl, rfl, rfl⟩
    · rw [hupdate, if_pos rfl]
      rfl
  | true =>
    rw [if_pos rfl]
    refine ⟨fun x hx => ?_, ?_, ?_, rfl⟩
    · rw [hupdate, if_neg hx]
    · rw [hupdate, if_pos rfl]
      split <;> exact ⟨rfl, rfl, rfl, rfl⟩
    · rw [hupdate, if_pos rfl]
      cases p.ackEliciting <;> rfl

theorem onPacketSent_books {r : Recovery} (h : Books r) (sp : Space) (p : Packet) (now : Int) :
    Books (r.onPacketSent sp p now) := by
  obtain ⟨hthere, hhere, helic, hbytes⟩ := onPacketSent_spaces r sp p now
  obtain ⟨hsound, hsum, hfind⟩ := (h.sound sp).sent { p with time := now }
  have hflight := flightBytes_update (r := r) (q := r.onPacketSent sp p now) sp fun x hx => by rw [hthere x hx]
  rw [hhere.sum, hsum] at hflight
  have hsame : flying { p with time := now } = flying p := rfl
  have hrep : (r.onPacketSent sp p now).reported = r.reported ∧ (r.onPacketSent sp p now).underflow = r.underflow := by
    unfold onPacketSent
    split <;> exact ⟨rfl, rfl⟩
  refine ⟨fun x => ?_, fun x => ?_, ?_, ?_, ?_, ?_⟩
  · by_cases hx : x = sp
    · rw [hx]
      exact hhere.sound hsound
    rw [hthere x hx]
    exact h.sound x
  · by_cases hx : x = sp
    · rw [hx, helic, hhere.sum, hsum, h.eliciting sp]
      rfl
    rw [hthere x hx]
    exact h.eliciting x
  · rw [hbytes, h.bytes]
    omega
  · rw [hrep.1]
    intro x hx
    obtain ⟨hlt, hnone⟩ := h.resolved x hx
    by_cases hs : x.1 = sp
    · rw [hs] at hlt hnone ⊢
      rw [hhere.nextPn, hhere.find, hfind, if_neg (by omega)]
      exact ⟨Nat.lt_succ_of_lt hlt, hnone⟩
    · rw [hthere _ hs]
      exact ⟨hlt, hnone⟩
  · rw [hrep.1]
    exact h.once
  · rw [hrep.2]
    exact h.exact

/-- A packet recorded and forgotten again: the records are what they were. -/
theorem unsent_sound {s : PnSpace} (h : s.Sound) (p : Packet) :
    ((s.record s.nextPn p).forget s.nextPn).Sound ∧
      (∀ k, ((s.record s.nextPn p).forget s.nextPn).find k = s.find k) ∧
      ∀ f, ((s.record s.nextPn p).forget s.nextPn).sum f = s.sum f := by
  obtain ⟨hwindow, hfind⟩ := SeqRing.insert_spec h.window p
  have hlast : (s.ring.insert s.nextPn p).find s.nextPn = some p := by rw [hfind, if_pos rfl]
  have hnew : s.find s.nextPn = none := by
    by_contra hc
    obtain ⟨q, hq⟩ := Option.ne_none_iff_exists'.mp hc
    exact Nat.lt_irrefl _ (h.window.below _ q hq)
  have hsame : ∀ k, ((s.record s.nextPn p).forget s.nextPn).find k = s.find k := by
    intro k
    show ((s.ring.insert s.nextPn p).erase s.nextPn).find k = _
    rw [(SeqRing.erase_spec hwindow hlast).2, hfind]
    split
    · next hk => rw [hk, hnew]
    · rfl
  have hsum : ∀ f, ((s.record s.nextPn p).forget s.nextPn).sum f = s.sum f := fun f =>
    SeqRing.tally_congr hsame f _
  refine ⟨⟨SeqRing.erase_last hwindow hlast, ?_, ?_⟩, hsame, hsum⟩
  · intro k q hq
    rw [hsame] at hq
    have hone := SeqRing.le_tally h.window hq fun _ => 1
    have hcount : s.count = s.ring.tally (fun _ => 1) s.nextPn := h.count
    have hlow : ∀ j c, ((s.ring.insert s.nextPn p).erase s.nextPn).find j = some c →
        (s.record s.nextPn p).oldest ≤ j := by
      intro j c hj
      have hj : s.find j = some c := (hsame j).symm.trans hj
      have := h.oldest j c hj
      show (if s.count = 0 then s.nextPn else if s.nextPn < s.oldest then s.nextPn else s.oldest) ≤ j
      rw [if_neg (by omega)]
      split <;> omega
    show (if s.count + 1 - 1 = 0 then _ else _) ≤ k
    rw [if_neg (by omega)]
    exact PnSpace.skipForgotten_le _ _ _ _ hlow k q ((hsame k).trans hq)
  · rw [hsum, ← h.count]
    rfl

theorem unsent_books {r : Recovery} (h : Books r) (sp : Space) (p : Packet) : Books (r.unsent sp p) := by
  obtain ⟨hsound, hfind, hsum⟩ := unsent_sound (h.sound sp) p
  have hspace : ∀ x, (r.unsent sp p).spaces x = if x = sp then
      ((r.spaces sp).record (r.spaces sp).nextPn p).forget (r.spaces sp).nextPn else r.spaces x := fun x =>
    Function.update_apply ..
  have hflight := flightBytes_update (r := r) (q := r.unsent sp p) sp fun x hx => by rw [hspace, if_neg hx]
  rw [hspace, if_pos rfl, hsum] at hflight
  refine ⟨fun x => ?_, fun x => ?_, ?_, ?_, h.once, ?_⟩
  · rw [hspace]
    split
    · exact hsound
    · exact h.sound x
  · rw [hspace]
    split
    · next hx =>
      rw [hsum, ← h.eliciting sp]
      rfl
    · exact h.eliciting x
  · have := h.bytes
    show r.bytesInFlight = _
    omega
  · intro x hx
    obtain ⟨hlt, hnone⟩ := h.resolved x hx
    rw [hspace]
    split
    · next hs =>
      rw [hs] at hlt hnone
      rw [hfind]
      exact ⟨hlt, hnone⟩
    · exact ⟨hlt, hnone⟩
  · show (r.underflow || decide ((r.spaces sp).count + 1 = 0)) = false
    rw [h.exact]
    simp

/-! ## §7. Discarding a space. -/

/-- The space `sp` on its way out: what was flying there and is gone from its records is gone from
the count of the bytes too. -/
structure Emptied (r q : Recovery) (sp : Space) (pn : Nat) : Prop where
  others : ∀ x, x ≠ sp → q.spaces x = r.spaces x
  sound : (q.spaces sp).Sound
  nextPn : (q.spaces sp).nextPn = (r.spaces sp).nextPn
  passed : ∀ k p, (q.spaces sp).find k = some p → pn ≤ k ∧ (r.spaces sp).find k = some p
  bytes : q.bytesInFlight = flightBytes q
  reported : q.reported = r.reported
  underflow : q.underflow = false

theorem discardLoop_emptied {r : Recovery} :
    ∀ (n pn : Nat) (q : Recovery), Emptied r q sp pn → Emptied r (discardLoop sp n pn q) sp (pn + n) := by
  intro n
  induction n with
  | zero => exact fun pn q h => h
  | succ n ih =>
    intro pn q h
    unfold discardLoop
    have hsucc : pn + (n + 1) = pn + 1 + n := by omega
    rw [hsucc]
    split
    · next hnone =>
      refine ih (pn + 1) q ⟨h.others, h.sound, h.nextPn, fun k p hp => ?_, h.bytes, h.reported, h.underflow⟩
      obtain ⟨hle, hr⟩ := h.passed k p hp
      have hne : k ≠ pn := by
        rintro rfl
        rw [hp] at hnone
        cases hnone
      exact ⟨by omega, hr⟩
    · next p hp =>
      refine ih (pn + 1) _ ?_
      obtain ⟨hsound, hpos, hsum, hfind⟩ := h.sound.forget hp
      -- the bytes are dropped first, then the record goes
      obtain ⟨q₁, hq₁⟩ : ∃ q₁, q₁ = (if p.inFlight then q.dropBytes p else q) := ⟨_, rfl⟩
      have hspaces : q₁.spaces = q.spaces ∧ q₁.reported = q.reported ∧
          q₁.bytesInFlight = q.bytesInFlight - flying p ∧
          (q₁.underflow = true → q.underflow = true ∨ q.bytesInFlight < flying p) := by
        rw [hq₁]
        unfold flying
        split
        · refine ⟨rfl, rfl, ?_, fun hu => ?_⟩
          · show q.bytesInFlight - min q.bytesInFlight p.bytes = _
            omega
          · have hu : (q.underflow || decide (q.bytesInFlight < p.bytes)) = true := hu
            simpa using hu
        · exact ⟨rfl, rfl, rfl, .inl⟩
      rw [← hq₁]
      obtain ⟨hs, hrep, hbytes, hunder⟩ := hspaces
      have hspace : ∀ x, (q₁.forget sp pn).spaces x = if x = sp then (q.spaces sp).forget pn else q.spaces x := by
        intro x
        show (q₁.setSpace sp ((q₁.spaces sp).forget pn)).spaces x = _
        unfold setSpace
        rw [hs]
        exact Function.update_apply ..
      have hflight := flightBytes_update (r := q) (q := q₁.forget sp pn) sp fun x hx => by
        rw [hspace, if_neg hx]
      have hle := sum_le_flightBytes q sp
      rw [hspace, if_pos rfl, hsum flying] at hflight
      rw [hsum flying] at hle
      have hold := h.bytes
      refine ⟨fun x hx => ?_, ?_, ?_, fun k c hc => ?_, ?_, hrep.trans h.reported, ?_⟩
      · rw [hspace, if_neg hx]
        exact h.others x hx
      · rw [hspace, if_pos rfl]
        exact hsound
      · rw [hspace, if_pos rfl]
        exact h.nextPn
      · rw [hspace, if_pos rfl, hfind] at hc
        split at hc
        · cases hc
        next hne =>
        obtain ⟨hle, hr⟩ := h.passed k c hc
        exact ⟨by omega, hr⟩
      · show q₁.bytesInFlight = _
        rw [hbytes]
        omega
      · show (q₁.underflow || decide ((q₁.spaces sp).count = 0)) = false
        rw [hs, Bool.or_eq_false_iff, decide_eq_false_iff_not]
        refine ⟨?_, by omega⟩
        cases hu : q₁.underflow with
        | false => rfl
        | true =>
          rcases hunder hu with hbad | hbad
          · rw [h.underflow] at hbad
            cases hbad
          · omega

theorem discardSpace_books {r : Recovery} (h : Books r) (sp : Space) : Books (r.discardSpace sp) := by
  have hstart : Emptied r r sp (r.spaces sp).oldest :=
    ⟨fun _ _ => rfl, h.sound sp, rfl, fun k p hp => ⟨(h.sound sp).oldest k p hp, hp⟩, h.bytes, rfl, h.exact⟩
  have hend := discardLoop_emptied ((r.spaces sp).nextPn - (r.spaces sp).oldest) _ r hstart
  obtain ⟨q, hq⟩ : ∃ q, q = discardLoop sp ((r.spaces sp).nextPn - (r.spaces sp).oldest) (r.spaces sp).oldest r :=
    ⟨_, rfl⟩
  rw [← hq] at hend
  -- the loop reached every record
  have hnone : ∀ k, (q.spaces sp).find k = none := by
    intro k
    by_contra hc
    obtain ⟨p, hp⟩ := Option.ne_none_iff_exists'.mp hc
    have hle := (hend.passed k p hp).1
    have hlt := hend.sound.window.below k p hp
    rw [hend.nextPn] at hlt
    omega
  obtain ⟨hclear, hzero⟩ := hend.sound.clear
  have hspace : ∀ x, (r.discardSpace sp).spaces x = if x = sp then
      { (q.spaces sp).clear with elicitingInFlight := 0, lossTime := 0, discarded := true } else q.spaces x := by
    intro x
    rw [hq]
    exact Function.update_apply ..
  have hhere : SameRecords (q.spaces sp).clear ((r.discardSpace sp).spaces sp) := by
    rw [hspace, if_pos rfl]
    exact ⟨rfl, rfl, rfl, rfl⟩
  have hflight := flightBytes_update (r := q) (q := r.discardSpace sp) sp fun x hx => by
    rw [hspace, if_neg hx]
  have hempty : (q.spaces sp).sum flying = 0 := SeqRing.tally_of_none hnone _ _
  rw [hhere.sum, hzero, hempty] at hflight
  have hbytes : (r.discardSpace sp).bytesInFlight = q.bytesInFlight := by rw [hq]; rfl
  have hrep : (r.discardSpace sp).reported = q.reported := by rw [hq]; rfl
  have hunder : (r.discardSpace sp).underflow = q.underflow := by rw [hq]; rfl
  have hold := hend.bytes
  refine ⟨fun x => ?_, fun x => ?_, ?_, ?_, ?_, hunder.trans hend.underflow⟩
  · by_cases hx : x = sp
    · rw [hx]
      exact hhere.sound hclear
    rw [hspace, if_neg hx, hend.others x hx]
    exact h.sound x
  · by_cases hx : x = sp
    · rw [hx, hhere.sum, hzero, hspace, if_pos rfl]
    rw [hspace, if_neg hx, hend.others x hx]
    exact h.eliciting x
  · rw [hbytes]
    omega
  · rw [hrep, hend.reported]
    intro x hx
    obtain ⟨hlt, hgone⟩ := h.resolved x hx
    by_cases hs : x.1 = sp
    · rw [hs] at hlt ⊢
      rw [hhere.nextPn, hhere.find]
      refine ⟨hend.nextPn.symm ▸ hlt, ?_⟩
      by_contra hc
      obtain ⟨p, hp⟩ := Option.ne_none_iff_exists'.mp hc
      have hone := SeqRing.le_tally hclear.window hp fun _ => 1
      have := hzero fun _ => 1
      unfold PnSpace.sum at this
      omega
    · rw [hspace, if_neg hs, hend.others _ hs]
      exact ⟨hlt, hgone⟩
  · rw [hrep, hend.reported]
    exact h.once

end Recovery

/-! ## §8. Every state. -/

/-- The states of `Recovery`: packets sent or not sent after all, ACK frames with any ranges, the
timer, spaces discarded, and anything that leaves the records and the counters alone (the peer's
parameters, a new path, the items taken, a probe spent). -/
inductive Reachable : Recovery → Prop
  | start : Reachable {}
  | sent {r : Recovery} (h : Reachable r) (sp : Space) (p : Packet) (now : Int) :
    Reachable (r.onPacketSent sp p now)
  | unsent {r : Recovery} (h : Reachable r) (sp : Space) (p : Packet) : Reachable (r.unsent sp p)
  | ack {r r' : Recovery} (h : Reachable r) (sp : Space) (f : Recovery.Ack) (now : Int)
      (hr : r.onAckReceived sp f now = some r') : Reachable r'
  | timeout {r : Recovery} (h : Reachable r) (now : Int) : Reachable (r.onTimeout now)
  | discard {r : Recovery} (h : Reachable r) (sp : Space) : Reachable (r.discardSpace sp)
  | elsewhere {r r' : Recovery} (h : Reachable r) (hs : r'.spaces = r.spaces)
      (hb : r'.bytesInFlight = r.bytesInFlight) (hr : r'.reported = r.reported)
      (hu : r'.underflow = r.underflow) : Reachable r'

theorem reachable_books (h : Reachable r) : Books r := by
  induction h with
  | start =>
    refine ⟨fun _ => PnSpace.sound_new, fun _ => ?_, ?_, nofun, List.nodup_nil, rfl⟩
    · exact (SeqRing.tally_empty 64 _ 0).symm
    · unfold flightBytes PnSpace.sum
      simp only [Recovery.order, List.map_cons, List.map_nil, List.sum_cons, List.sum_nil]
      rw [SeqRing.tally_empty]
      rfl
  | sent _ sp p now ih => exact Recovery.onPacketSent_books ih sp p now
  | unsent _ sp p ih => exact Recovery.unsent_books ih sp p
  | ack _ sp f now hr ih => exact Recovery.onAckReceived_books ih hr
  | timeout _ now ih => exact Recovery.onTimeout_books ih now
  | discard _ sp ih => exact Recovery.discardSpace_books ih sp
  | elsewhere _ hs hb hr hu ih => exact ih.same (SameBooks.of_eq hs hb hr hu)

/-- A packet that goes out displaces no record, whether or not the ring grows. -/
theorem sent_keeps (h : Reachable r) (sp : Space) (p : Packet) (now : Int) (x : Space) {pn : Nat}
    {q : Packet} (hq : (r.spaces x).find pn = some q) :
    ((r.onPacketSent sp p now).spaces x).find pn = some q := by
  have hbooks := reachable_books h
  obtain ⟨hthere, hhere, -, -⟩ := Recovery.onPacketSent_spaces r sp p now
  by_cases hx : x = sp
  · subst hx
    obtain ⟨-, -, hfind⟩ := (hbooks.sound x).sent { p with time := now }
    have hlt := (hbooks.sound x).window.below pn q hq
    rw [hhere.find, hfind, if_neg (by omega)]
    exact hq
  · rw [hthere x hx]
    exact hq

/-- In every state the counters are what the records say. -/
theorem accounting_balances (r : Recovery) (h : Reachable r) : r.bytesInFlight = flightBytes r ∧
    (∀ sp, (r.spaces sp).elicitingInFlight = (r.spaces sp).sum eliciting) ∧
    (∀ (sp : Space) (p : Packet) (now : Int) (x : Space) (pn : Nat) (q : Packet),
      (r.spaces x).find pn = some q → ((r.onPacketSent sp p now).spaces x).find pn = some q) ∧
    r.reported.Nodup ∧ r.underflow = false := by
  have hbooks := reachable_books h
  exact ⟨hbooks.bytes, hbooks.eliciting, fun sp p now x pn q hq => sent_keeps h sp p now x hq, hbooks.once,
    hbooks.exact⟩

/-- `n` packets of 1200 bytes, one each millisecond, every tenth of them a bare ACK. -/
def sendMany (sp : Space) : (n : Nat) → Recovery → Recovery
  | 0, r => r
  | n + 1, r =>
    (sendMany sp n r).onPacketSent sp { bytes := 1200, ackEliciting := n % 10 ≠ 9, inFlight := n % 10 ≠ 9 }
      (1000000 * n)

theorem sendMany_reachable (sp : Space) (n : Nat) (h : Reachable r) : Reachable (sendMany sp n r) := by
  induction n with
  | zero => exact h
  | succ n ih => exact .sent ih _ _ _

/-- Two Initial packets and 70 of the application, of which an ACK names six, in two ranges. -/
def gapAck : Option Recovery :=
  (sendMany .application 70 (sendMany .initial 2 {})).onAckReceived .application
    { largestAck := 23, ackDelay := 0, ranges := [(20, 24), (3, 5)] } 80000000

/-- The timer runs out, which asks for probes of the Initial space; then that space is discarded. -/
def afterTimeout (r : Recovery) : Recovery := (r.onTimeout 800000000).discardSpace .initial

set_option maxRecDepth 20000 in
/-- The ring has grown; six packets are acknowledged, eighteen below them lost by their numbers, and
those left are counted. -/
theorem accounting_balances_lossy : ∃ r, gapAck = some r ∧ flightBytes (afterTimeout r) = 49200 ∧
      ((afterTimeout r).spaces .application).sum eliciting = 41 ∧ (afterTimeout r).reported.length = 24 ∧
      (afterTimeout r).reported.Nodup := by
  have heval : gapAck.map (fun r => ((r.onTimeout 800000000).probes .initial,
      (r.spaces .application).ring.length, (afterTimeout r).bytesInFlight,
      ((afterTimeout r).spaces .application).elicitingInFlight, (afterTimeout r).reported.length)) =
        some (2, 128, 49200, 41, 24) := by decide +kernel
  obtain ⟨r, hr, hvalues⟩ := Option.map_eq_some_iff.mp heval
  simp only [Prod.mk.injEq] at hvalues
  obtain ⟨-, -, hbytes, heliciting, hreported⟩ := hvalues
  have hacked : Reachable r :=
    .ack (sendMany_reachable .application 70 (sendMany_reachable .initial 2 .start)) _ _ _ hr
  obtain ⟨hflight, hcount, -, honce, -⟩ := accounting_balances _ (.discard (.timeout hacked 800000000) .initial)
  exact ⟨r, hr, hflight.symm.trans hbytes, (hcount .application).symm.trans heliciting, hreported, honce⟩

/-- An MTU probe is ack-eliciting and outside the congestion window: it is on record and not counted. -/
theorem probe_not_counted : ¬∀ (r : Recovery), Reachable r →
      ∀ sp, (r.spaces sp).elicitingInFlight = (r.spaces sp).sum fun p => if p.ackEliciting then 1 else 0 := by
  intro hall
  have h := hall _ (.sent .start .application { bytes := 1400, ackEliciting := true } 5) .application
  cases h

end Agensio.Quic.Flight
