/-
  Agensio.Quic.Padding — the size of a datagram with an Initial packet.

  Model of `produce`, `build_packet` and `send_close` (`quic/connection.hpp`)
  as far as sizes go: which spaces want to send, the frames of an Initial or
  Handshake packet (ACK, CRYPTO, PING) in the room there is, the padding, and
  the datagrams the batch is given.  The frames of a 1-RTT packet come with
  the label, as a size for every room; so do the size of an ACK frame and
  whether the AEAD seals.  What else happens to the connection (arrivals, TLS
  output, losses, probes) is a label that leaves any state of the spaces.

  `sent` is a HISTORY VARIABLE: the datagrams committed, each with the size
  that was reserved for it.

  Main results:
    * `initial_datagrams_full` — in every run whose rounds meet `Behind`, every
      datagram with an ack-eliciting Initial has 1,200 bytes, and in every run
      no datagram is longer than what was reserved;
    * `initial_cut_short` — an Initial that leaves the Handshake packet it
      counts on no room.
-/
import Agensio.Quic.Amplification
import Agensio.Quic.Transport

namespace Agensio.Quic

namespace Padding

open Link (buildPacket spaces)

/-! ## §1. The spaces. -/

/-- What one packet number space has to send. -/
structure Flight where
  valid : Bool := false
  discarded : Bool := false
  /-- The bytes TLS has written at this level. -/
  size : Nat := 0
  crypto : CryptoOut := {}
  probes : Nat := 0
  elicitingUnacked : Nat := 0
  /-- `ack_now`, or the delay is over. -/
  ackNow : Bool := false
  nextPn : Nat := 0
  largestAcked : Nat := 0
  anyAcked : Bool := false
  deriving DecidableEq

/-- `pn_length`. -/
def pnLength (pn largestAcked : Nat) (anyAcked : Bool) : Nat :=
  let unacked := if anyAcked then pn - largestAcked else pn + 1
  let range := unacked * 2 + 1
  if range < 2 ^ 8 then 1 else if range < 2 ^ 16 then 2 else if range < 2 ^ 24 then 3 else 4

namespace Flight

def pnLen (f : Flight) : Nat := pnLength f.nextPn f.largestAcked f.anyAcked

def ackDue (f : Flight) : Bool := f.elicitingUnacked > 0 && f.ackNow

/-- `wants_to_send`, with what only the application space may want. -/
def wants (f : Flight) (appWants : Bool) : Bool :=
  f.valid && !f.discarded &&
    (f.ackDue || f.probes > 0 || !f.crypto.lost.isEmpty || f.crypto.sent < f.size || appWants)

end Flight

/-- What a round is given: the room of the congestion window, the sizes of the ACK frames, the
    1-RTT frames (bytes written into a room, ack-eliciting or not) and the AEAD's answers. -/
structure Round where
  cwndRoom : Nat
  ackSize : Space → Nat := fun _ => 0
  appWants : Bool := false
  appFrames : Nat → Nat := fun _ => 0
  appEliciting : Bool := false
  seals : Space → Bool := fun _ => true

structure Sent where
  size : Nat
  reserved : Nat
  /-- An ack-eliciting Initial packet is in it. -/
  initial : Bool
  deriving DecidableEq

/-- What a connection wants to send, and the datagrams it committed. -/
structure Sender where
  flight : Space → Flight := fun _ => {}
  peerCidLen : Nat := 8
  addressValidated : Bool := false
  bytesReceived : Nat := 0
  bytesSent : Nat := 0
  maxDatagram : Nat := kMinInitialDatagram
  mtuTarget : Nat := kMinInitialDatagram
  /-- `path_challenge_due_ || path_responses_ > 0`. -/
  pathDue : Bool := false
  sent : List Sent := []

/-- The length of our ids. -/
def kScidLen : Nat := 8

/-! ## §2. One packet. -/

/-- The header up to and with the packet number. -/
def headerSize (s : Sender) (sp : Space) : Nat :=
  let pnLen := (s.flight sp).pnLen
  match sp with
  | .application => 1 + s.peerCidLen + pnLen
  | .handshake => 1 + 4 + 1 + s.peerCidLen + 1 + kScidLen + 2 + pnLen
  | .initial => 1 + 4 + 1 + s.peerCidLen + 1 + kScidLen + 1 + 2 + pnLen

/-- The CRYPTO loop: the bytes written so far, and whether it wrote any. -/
def cryptoLoop (size room : Nat) : Nat → CryptoOut × Nat × Bool → CryptoOut × Nat × Bool
  | 0, acc => acc
  | guard + 1, (co, w, any) =>
    match co.turn size (room - w) with
    | none => (co, w, any)
    | some (co', b, take) =>
      -- the header has the length that is taken, the test before had the one that is due
      cryptoLoop size room guard (co', w + (1 + varintSize b + varintSize take) + take, true)

structure Payload where
  bytes : Nat
  eliciting : Bool
  ackWritten : Bool
  flight : Flight

/-- The frames of a packet of the space in `room` bytes. -/
def frames (f : Flight) (sp : Space) (r : Round) (room : Nat) : Payload :=
  let ack := if f.elicitingUnacked > 0 && r.ackSize sp ≤ room then r.ackSize sp else 0
  let c := cryptoLoop f.size room 8 (f.crypto, ack, false)
  let app := if sp = .application then min (r.appFrames (room - c.2.1)) (room - c.2.1) else 0
  let w := c.2.1 + app
  let eliciting := c.2.2 || (decide (app > 0) && r.appEliciting)
  -- a probe needs an ack-eliciting packet: PING when nothing else is
  let ping := if f.probes > 0 && !eliciting && w < room then 1 else 0
  let eliciting := eliciting || decide (ping > 0)
  { bytes := w + ping, eliciting := eliciting, ackWritten := decide (ack > 0)
    flight := { f with
      crypto := c.1
      probes := if f.probes > 0 && eliciting then f.probes - 1 else f.probes } }

/-- The room for frames in `cap` bytes. -/
def roomIn (s : Sender) (sp : Space) (cap : Nat) : Nat := cap - headerSize s sp - kAeadTagLen

structure Built where
  size : Nat
  eliciting : Bool
  flight : Flight

/-- `build_packet`. -/
def build (s : Sender) (sp : Space) (r : Round) (cap padTo : Nat) : Built :=
  let f := s.flight sp
  if cap < headerSize s sp + kAeadTagLen + 1 then ⟨0, false, f⟩
  else
    let p := frames f sp r (roomIn s sp cap)
    let n := buildPacket (headerSize s sp) f.pnLen p.bytes cap padTo (r.seals sp)
    if n = 0 then ⟨0, false, p.flight⟩
    else
      let f := { p.flight with nextPn := f.nextPn + 1 }
      ⟨n, p.eliciting, if p.ackWritten then { f with elicitingUnacked := 0, ackNow := false } else f⟩

/-! ## §3. One datagram. -/

def setFlight (s : Sender) (sp : Space) (f : Flight) : Sender :=
  { s with flight := fun x => if x = sp then f else s.flight x }

/-- The spaces from `sps` on: the sender, the bytes used, whether there is an Initial, and
    whether it is ack-eliciting. -/
structure Filled where
  sender : Sender
  used : Nat
  initial : Bool
  eliciting : Bool

/-- `pad_to`: where the datagram is to end, for the packet of this space. -/
def padTarget (cap : Nat) (last : Space) (pathFrames : Bool) (a : Filled) (sp : Space) : Nat :=
  let padTo := if (a.initial || sp == .initial) && sp == last then kMinInitialDatagram else 0
  if sp == .application && pathFrames && decide (padTo < kMinInitialDatagram) then
    min kMinInitialDatagram cap
  else padTo

/-- The packet of one space, behind what is there. -/
def fillOne (r : Round) (cap : Nat) (last : Space) (pathFrames : Bool) (a : Filled) (sp : Space) :
    Filled :=
  -- nothing to pad once the target is behind
  let b := build a.sender sp r (cap - a.used) (padTarget cap last pathFrames a sp - a.used)
  let s := setFlight a.sender sp b.flight
  if b.size = 0 then { a with sender := s }
  else
    { sender := s
      used := a.used + b.size
      initial := a.initial || sp == .initial
      eliciting := a.eliciting || (sp == .initial && b.eliciting) }

def wantsSpace (s : Sender) (r : Round) (sp : Space) : Bool :=
  (s.flight sp).wants (sp == .application && r.appWants)

/-- The spaces that send in this round, in order. -/
def wanting (s : Sender) (r : Round) : List Space := spaces.filter (wantsSpace s r)

/-- The size of the next datagram; `none` at the amplification limit. -/
def datagramCap (s : Sender) (r : Round) : Option Nat :=
  let left := 3 * s.bytesReceived - s.bytesSent
  if !s.addressValidated && decide (left < 64) then none
  else
    let cap := if !s.addressValidated then min s.maxDatagram left else s.maxDatagram
    some (if r.cwndRoom < cap then max r.cwndRoom kMinInitialDatagram else cap)

def pathFrames (s : Sender) : Bool :=
  s.pathDue &&
    (s.addressValidated || decide (s.bytesSent + kMinInitialDatagram ≤ 3 * s.bytesReceived))

def empty (s : Sender) : Filled := ⟨s, 0, false, false⟩

/-- `batch.commit`. -/
def commit (s : Sender) (d : Sent) : Sender :=
  { s with sent := s.sent ++ [d], bytesSent := s.bytesSent + d.size }

/-- One round of the loop of `produce`. -/
def produceOne (s : Sender) (r : Round) : Sender :=
  match datagramCap s r with
  | none => s
  | some cap =>
    match (wanting s r).getLast? with
    | none => s
    | some last =>
      if wantsSpace s r .initial && decide (cap < kMinInitialDatagram) then s
      else
        let a := (wanting s r).foldl (fillOne r cap last (pathFrames s)) (empty s)
        if a.used = 0 then a.sender
        else commit a.sender ⟨a.used, cap, a.eliciting⟩

/-- The path MTU probe: one 1-RTT packet in a datagram of the target size. -/
def probeMtu (s : Sender) (r : Round) : Sender :=
  if !s.addressValidated || !(s.flight .application).valid then s
  else
    let n := buildPacket (headerSize s .application) (s.flight .application).pnLen
      (min (r.appFrames (roomIn s .application s.mtuTarget)) (roomIn s .application s.mtuTarget))
      s.mtuTarget s.mtuTarget (r.seals .application)
    if n = 0 then s else commit s ⟨n, s.mtuTarget, false⟩

/-- `send_close` in a space: CONNECTION_CLOSE, of `frame` bytes, asks for no acknowledgement.
    Its packet number takes four bytes; it is not counted in `bytes_sent_`. -/
def sendClose (s : Sender) (sp : Space) (frame : Nat) : Sender :=
  let pos := headerSize s sp - (s.flight sp).pnLen + 4
  if frame = 0 || s.maxDatagram - pos - kAeadTagLen < frame then s
  else
    let n := pos + frame + kAeadTagLen
    let n := if sp == .initial && decide (n < kMinInitialDatagram) then kMinInitialDatagram else n
    { s with sent := s.sent ++ [⟨n, s.maxDatagram, false⟩] }

/-! ## §4. Runs. -/

inductive Label where
  | produce (r : Round)
  | probe (r : Round)
  | close (sp : Space) (frame : Nat)
  /-- Arrivals, TLS output, losses and timers leave any state of the spaces and of the path. -/
  | change (flight : Space → Flight) (received : Nat) (validated pathDue : Bool)
  /-- The peer's parameters; a `max_udp_payload_size` below 1,200 is refused. -/
  | peerParams (maxUdpPayload : Nat)
  /-- The peer's id, its address, the size of the path. -/
  | peerCid (len : Nat)
  | migrate (received : Nat)
  | startProbe (target : Nat)
  | probeAcked

/-- `Limits::max_datagram`. -/
def limitsMaxDatagram : Nat := 1200

/-- One step; `none` where it cannot happen. -/
def step (s : Sender) : Label → Option Sender
  | .produce r => some (produceOne s r)
  | .probe r => some (probeMtu s r)
  | .close sp frame => some (sendClose s sp frame)
  | .change flight received validated pathDue =>
    some { s with
      flight := flight, bytesReceived := s.bytesReceived + received
      addressValidated := validated, pathDue := pathDue }
  | .peerParams n =>
    if n < 1200 then none else some { s with maxDatagram := min limitsMaxDatagram n }
  | .peerCid len => if len ≤ 20 then some { s with peerCidLen := len } else none
  | .migrate received =>
    some { s with
      addressValidated := false, bytesReceived := received, bytesSent := 0
      maxDatagram := kMinInitialDatagram }
  | .startProbe target => some { s with mtuTarget := target }
  | .probeAcked => some (if s.mtuTarget > s.maxDatagram then { s with maxDatagram := s.mtuTarget } else s)

/-! ## §5. The packets of a datagram. -/

/-- A packet that is built reaches what it is to be padded to. -/
theorem padTo_le_buildPacket {header pnLen payload cap padTo : Nat} {sealed : Bool}
    (h : buildPacket header pnLen payload cap padTo sealed ≠ 0) (hp : padTo ≤ cap) :
    padTo ≤ buildPacket header pnLen payload cap padTo sealed := by
  unfold buildPacket at h ⊢
  split
  · rename_i hc
    rw [if_pos hc] at h
    exact absurd rfl h
  rename_i hc
  rw [if_neg hc] at h
  dsimp only at h ⊢
  split
  · rename_i hw
    rw [if_pos hw] at h
    exact absurd rfl h
  rename_i hw
  rw [if_neg hw] at h
  generalize (if pnLen + min payload (cap - header - kAeadTagLen) + kAeadTagLen < 4 + kHpSampleLen ∧
    header + min payload (cap - header - kAeadTagLen) +
      (4 + kHpSampleLen - kAeadTagLen - pnLen - min payload (cap - header - kAeadTagLen)) +
        kAeadTagLen ≤ cap then _ else _) = w at h ⊢
  cases sealed with
  | false => exact absurd rfl h
  | true =>
    rw [if_pos rfl]
    split <;> omega

/-- With room, a frame and a key there is a packet. -/
theorem buildPacket_ne_zero {header pnLen payload cap padTo : Nat}
    (hc : header + kAeadTagLen + 1 ≤ cap) (hw : 0 < payload) :
    buildPacket header pnLen payload cap padTo true ≠ 0 := by
  unfold buildPacket
  rw [if_neg (by omega)]
  rw [if_neg (by omega), if_pos rfl]
  have : 0 < kAeadTagLen := by decide
  omega

variable {s s' : Sender} {r : Round} {sp last : Space} {cap padTo : Nat}

theorem build_le : (build s sp r cap padTo).size ≤ cap := by
  unfold build
  dsimp only
  split
  · exact Nat.zero_le _
  split
  · exact Nat.zero_le _
  · exact Link.buildPacket_le ..

theorem padTo_le_build (h : (build s sp r cap padTo).size ≠ 0) (hp : padTo ≤ cap) :
    padTo ≤ (build s sp r cap padTo).size := by
  unfold build at h ⊢
  dsimp only at h ⊢
  split
  · rename_i hc
    rw [if_pos hc] at h
    exact absurd rfl h
  rename_i hc
  rw [if_neg hc] at h
  split
  · rename_i hn
    rw [if_pos hn] at h
    exact absurd rfl h
  · rename_i hn
    exact padTo_le_buildPacket hn hp

theorem build_ne_zero (hc : headerSize s sp + kAeadTagLen + 1 ≤ cap)
    (hw : 0 < (frames (s.flight sp) sp r (roomIn s sp cap)).bytes) (hs : r.seals sp = true) :
    (build s sp r cap padTo).size ≠ 0 := by
  unfold build
  rw [if_neg (by omega), hs, if_neg (buildPacket_ne_zero hc hw)]
  exact buildPacket_ne_zero hc hw

/-! ## §6. The datagram. -/

variable {path : Bool} {a : Filled}

/-- The packet `fillOne` asks for. -/
def packetOf (r : Round) (cap : Nat) (last : Space) (path : Bool) (a : Filled) (sp : Space) : Built :=
  build a.sender sp r (cap - a.used) (padTarget cap last path a sp - a.used)

/-- All that one packet more does. -/
theorem fillOne_cases :
    ((packetOf r cap last path a sp).size = 0 ∧ (fillOne r cap last path a sp).used = a.used ∧
      (fillOne r cap last path a sp).initial = a.initial ∧
      (fillOne r cap last path a sp).eliciting = a.eliciting) ∨ ((packetOf r cap last path a sp).size ≠ 0 ∧
      (fillOne r cap last path a sp).used = a.used + (packetOf r cap last path a sp).size ∧
      (fillOne r cap last path a sp).initial = (a.initial || sp == .initial) ∧
      (fillOne r cap last path a sp).eliciting =
        (a.eliciting || (sp == .initial && (packetOf r cap last path a sp).eliciting))) := by
  unfold fillOne packetOf
  by_cases h : (build a.sender sp r (cap - a.used) (padTarget cap last path a sp - a.used)).size = 0
  · rw [if_pos h]
    exact .inl ⟨h, rfl, rfl, rfl⟩
  rw [if_neg h]
  exact .inr ⟨h, rfl, rfl, rfl⟩

theorem fillOne_le (h : a.used ≤ cap) : (fillOne r cap last path a sp).used ≤ cap := by
  rcases @fillOne_cases r sp last cap path a with ⟨_, hu, _, _⟩ | ⟨_, hu, _, _⟩
  · omega
  have := @build_le a.sender r sp (cap - a.used) (padTarget cap last path a sp - a.used)
  unfold packetOf at hu
  omega

theorem fill_le (sps : List Space) (h : a.used ≤ cap) :
    (sps.foldl (fillOne r cap last path) a).used ≤ cap := by
  induction sps generalizing a with
  | nil => exact h
  | cons sp sps ih => exact ih (fillOne_le h)

/-- An ack-eliciting Initial is an Initial. -/
def Marked (a : Filled) : Prop := a.eliciting = true → a.initial = true

theorem Marked.fillOne (h : Marked a) : Marked (fillOne r cap last path a sp) := by
  intro he
  rcases @fillOne_cases r sp last cap path a with ⟨_, _, hi, he'⟩ | ⟨_, _, hi, he'⟩
  · rw [hi]
    exact h (he' ▸ he)
  rw [he', Bool.or_eq_true, Bool.and_eq_true] at he
  rw [hi, Bool.or_eq_true]
  exact he.imp h And.left

theorem Marked.fill (sps : List Space) (h : Marked a) : Marked (sps.foldl (Padding.fillOne r cap last path) a) := by
  induction sps generalizing a with
  | nil => exact h
  | cons sp sps ih => exact ih h.fillOne

/-- **The last packet fills the datagram** when it is built behind an Initial, or is one. -/
theorem fillOne_full (hcap : kMinInitialDatagram ≤ cap) (hi : a.initial = true ∨ last = .initial)
    (hn : (fillOne r cap last path a last).used ≠ a.used) :
    kMinInitialDatagram ≤ (fillOne r cap last path a last).used := by
  have hpad : padTarget cap last path a last = kMinInitialDatagram := by
    unfold padTarget
    have hfirst : ((a.initial || last == .initial) && last == last) = true := by
      rcases hi with hi | hi <;> rw [hi] <;> simp
    rw [if_pos hfirst]
    rw [if_neg (by simp)]
  rcases @fillOne_cases r last last cap path a with ⟨_, hu, _, _⟩ | ⟨hz, hu, _, _⟩
  · exact absurd hu hn
  unfold packetOf at hz hu
  rw [hpad] at hz hu
  have := padTo_le_build hz (by omega)
  omega

/-- Later packets only add. -/
theorem le_fillOne : a.used ≤ (fillOne r cap last path a sp).used := by
  rcases @fillOne_cases r sp last cap path a with ⟨_, hu, _, _⟩ | ⟨_, hu, _, _⟩ <;> omega

/-- A packet of a higher space is no Initial. -/
theorem fillOne_eliciting (hsp : sp ≠ .initial) : (fillOne r cap last path a sp).eliciting = a.eliciting := by
  rcases @fillOne_cases r sp last cap path a with ⟨_, _, _, he⟩ | ⟨_, _, _, he⟩
  · exact he
  · rw [he, beq_eq_false_iff_ne.mpr hsp, Bool.false_and, Bool.or_false]

/-- Only a packet makes an Initial ack-eliciting. -/
theorem fillOne_used_ne (h : (fillOne r cap last path a sp).eliciting ≠ a.eliciting) :
    (fillOne r cap last path a sp).used ≠ a.used := by
  rcases @fillOne_cases r sp last cap path a with ⟨_, _, _, he⟩ | ⟨hz, hu, _, _⟩
  · exact absurd he h
  · omega

/-! ## §7. The condition, and every run. -/

/-- What the datagram holds when the highest space's turn comes. -/
def below (s : Sender) (r : Round) (cap : Nat) (last : Space) : Filled :=
  (wanting s r).dropLast.foldl (fillOne r cap last (pathFrames s)) (empty s)

/-- Where an ack-eliciting Initial counts on a higher space for its padding, the packets below
    reach 1,200 bytes by themselves, or the highest space has a frame that fits behind them.  A round
    that stops before its first packet counts on nothing. -/
def behind (s : Sender) : Label → Bool
  | .produce r =>
    match datagramCap s r, (wanting s r).getLast? with
    | some cap, some last =>
      let a := below s r cap last
      (wantsSpace s r .initial && decide (cap < kMinInitialDatagram)) || last == .initial ||
        !a.eliciting || decide (kMinInitialDatagram ≤ a.used) ||
        (decide (headerSize a.sender last + kAeadTagLen + 1 ≤ cap - a.used) &&
          decide (0 < (frames (a.sender.flight last) last r (roomIn a.sender last (cap - a.used))).bytes) &&
          r.seals last)
    | _, _ => true
  | _ => true

abbrev Behind (s : Sender) (l : Label) : Prop := behind s l = true

/-- The Initial space comes first. -/
theorem wanting_initial (h : (wanting s r).getLast? = some .initial) :
    (wanting s r).dropLast = [] ∧ wantsSpace s r .initial = true := by
  unfold wanting spaces at h ⊢
  cases hi : wantsSpace s r .initial <;> cases hh : wantsSpace s r .handshake <;>
    cases ha : wantsSpace s r .application <;> simp [List.filter, hi, hh, ha] at h ⊢

theorem below_initial_wanted (h : (below s r cap last).eliciting = true) :
    wantsSpace s r .initial = true := by
  by_contra hw
  have hno : ∀ sp ∈ (wanting s r).dropLast, sp ≠ Space.initial := by
    intro sp hsp he
    have := List.dropLast_subset _ hsp
    unfold wanting at this
    rw [List.mem_filter, he] at this
    exact hw this.2
  have hfalse : ∀ (sps : List Space) (a : Filled), (∀ sp ∈ sps, sp ≠ Space.initial) →
      a.eliciting = false → (sps.foldl (fillOne r cap last (pathFrames s)) a).eliciting = false := by
    intro sps
    induction sps with
    | nil => intro a _ ha; exact ha
    | cons sp sps ih =>
      intro a hne ha
      apply ih _ fun x hx => hne x (.tail _ hx)
      rw [fillOne_eliciting (hne sp List.mem_cons_self), ha]
  unfold below at h
  rw [hfalse _ _ hno rfl] at h
  cases h

/-- **A round that meets the condition fills its datagram.** -/
theorem fill_full (hcap : datagramCap s r = some cap) (hlast : (wanting s r).getLast? = some last)
    (hmin : wantsSpace s r .initial = true → kMinInitialDatagram ≤ cap) (hb : behind s (.produce r) = true)
    (he : ((wanting s r).foldl (fillOne r cap last (pathFrames s)) (empty s)).eliciting = true) :
    kMinInitialDatagram ≤ ((wanting s r).foldl (fillOne r cap last (pathFrames s)) (empty s)).used := by
  have hsplit : (wanting s r).foldl (fillOne r cap last (pathFrames s)) (empty s) =
      fillOne r cap last (pathFrames s) (below s r cap last) last := by
    unfold below
    conv_lhs => rw [← List.dropLast_append_getLast? last hlast]
    rw [List.foldl_append]
    rfl
  rw [hsplit] at he ⊢
  by_cases hl : last = .initial
  · subst hl
    obtain ⟨hnil, hw⟩ := wanting_initial hlast
    have hempty : below s r cap .initial = empty s := by
      unfold below
      rw [hnil]
      rfl
    rw [hempty] at he ⊢
    apply fillOne_full (hmin hw) (.inr rfl)
    apply fillOne_used_ne
    rw [he]
    exact nofun
  · rw [fillOne_eliciting hl] at he
    have hmarked : Marked (below s r cap last) := Marked.fill _ (nofun)
    have hcap' := hmin (below_initial_wanted he)
    have hgoes : ¬ cap < kMinInitialDatagram := Nat.not_lt.mpr hcap'
    unfold behind at hb
    dsimp only at hb
    rw [hcap, hlast] at hb
    simp only [Bool.or_eq_true, Bool.and_eq_true, decide_eq_true_eq, beq_iff_eq, Bool.not_eq_true',
      he, Bool.true_eq_false, or_false, hl, hgoes, and_false, false_or] at hb
    rcases hb with hfull | ⟨⟨hroom, hframe⟩, hseal⟩
    · exact Nat.le_trans hfull le_fillOne
    apply fillOne_full hcap' (.inl (hmarked he))
    rcases @fillOne_cases r last last cap (pathFrames s) (below s r cap last) with
      ⟨hz, _, _, _⟩ | ⟨hz, hu, _, _⟩
    · exact absurd hz (build_ne_zero hroom hframe hseal)
    · omega

/-! ## §8. Runs. -/

/-- What every run keeps. -/
structure Inv (s : Sender) : Prop where
  reach : kMinInitialDatagram ≤ s.maxDatagram
  fits : ∀ d ∈ s.sent, d.size ≤ d.reserved

/-- Every datagram with an ack-eliciting Initial is of full size. -/
def Full (s : Sender) : Prop := ∀ d ∈ s.sent, d.initial = true → kMinInitialDatagram ≤ d.size

/-- The datagrams so far and at most one more, whose room was reserved. -/
structure Sends (s s' : Sender) (P : Sent → Prop) : Prop where
  maxDatagram : s'.maxDatagram = s.maxDatagram
  sent : s'.sent = s.sent ∨ ∃ d, s'.sent = s.sent ++ [d] ∧ d.size ≤ d.reserved ∧ P d

theorem Sends.inv {P : Sent → Prop} (h : Sends s s' P) (hi : Inv s) : Inv s' := by
  refine ⟨h.maxDatagram ▸ hi.reach, ?_⟩
  rcases h.sent with hs | ⟨d, hs, hd, _⟩
  · rw [hs]
    exact hi.fits
  intro x hx
  rw [hs] at hx
  rcases List.mem_append.mp hx with hx | hx
  · exact hi.fits x hx
  · exact List.mem_singleton.mp hx ▸ hd

theorem Sends.full (h : Sends s s' fun d => d.initial = true → kMinInitialDatagram ≤ d.size)
    (hf : Full s) : Full s' := by
  rcases h.sent with hs | ⟨d, hs, _, hd⟩
  · unfold Full
    rw [hs]
    exact hf
  · intro x hx
    rw [hs] at hx
    rcases List.mem_append.mp hx with hx | hx
    · exact hf x hx
    · exact List.mem_singleton.mp hx ▸ hd

/-- Filling a datagram leaves the rest of the sender alone. -/
theorem fill_frame (sps : List Space) :
    (sps.foldl (fillOne r cap last path) a).sender.maxDatagram = a.sender.maxDatagram ∧
      (sps.foldl (fillOne r cap last path) a).sender.sent = a.sender.sent := by
  induction sps generalizing a with
  | nil => exact ⟨rfl, rfl⟩
  | cons sp sps ih =>
    have hone : (fillOne r cap last path a sp).sender.maxDatagram = a.sender.maxDatagram ∧
        (fillOne r cap last path a sp).sender.sent = a.sender.sent := by
      unfold fillOne
      exact iteInduction (motive := fun x : Filled => x.sender.maxDatagram = a.sender.maxDatagram ∧
        x.sender.sent = a.sender.sent) (fun _ => ⟨rfl, rfl⟩) fun _ => ⟨rfl, rfl⟩
    rw [List.foldl_cons]
    exact ⟨ih.1.trans hone.1, ih.2.trans hone.2⟩

/-- **One round of `produce`.** -/
theorem produceOne_sends : Sends s (produceOne s r) fun d =>
    behind s (.produce r) = true → d.initial = true → kMinInitialDatagram ≤ d.size := by
  unfold produceOne
  split
  · exact ⟨rfl, .inl rfl⟩
  rename_i cap hcap
  split
  · exact ⟨rfl, .inl rfl⟩
  rename_i last hlast
  split
  · exact ⟨rfl, .inl rfl⟩
  rename_i hmin
  have hframe := @fill_frame r last cap (pathFrames s) (empty s) (wanting s r)
  have hle := @fill_le r last cap (pathFrames s) (empty s) (wanting s r) (Nat.zero_le _)
  have hfull : behind s (.produce r) = true →
      ((wanting s r).foldl (fillOne r cap last (pathFrames s)) (empty s)).eliciting = true →
      kMinInitialDatagram ≤
        ((wanting s r).foldl (fillOne r cap last (pathFrames s)) (empty s)).used := by
    intro hb he
    refine fill_full hcap hlast (fun hw => ?_) hb he
    rw [hw, Bool.true_and, decide_eq_true_eq] at hmin
    omega
  dsimp only
  generalize (wanting s r).foldl (fillOne r cap last (pathFrames s)) (empty s) = a at *
  split
  · exact ⟨hframe.1, .inl hframe.2⟩
  refine ⟨hframe.1, .inr ⟨⟨a.used, cap, a.eliciting⟩, ?_, hle, hfull⟩⟩
  show a.sender.sent ++ _ = _
  rw [hframe.2]
  rfl

theorem probeMtu_sends : Sends s (probeMtu s r) fun d => d.initial = false := by
  unfold probeMtu
  split
  · exact ⟨rfl, .inl rfl⟩
  dsimp only
  split
  · exact ⟨rfl, .inl rfl⟩
  · exact ⟨rfl, .inr ⟨_, rfl, Link.buildPacket_le .., rfl⟩⟩

theorem sendClose_sends {frame : Nat} (hi : Inv s) :
    Sends s (sendClose s sp frame) fun d => d.initial = false := by
  have hreach := hi.reach
  unfold sendClose
  dsimp only
  split
  · exact ⟨rfl, .inl rfl⟩
  rename_i hroom
  simp only [Bool.or_eq_true, decide_eq_true_eq, not_or, Nat.not_lt] at hroom
  refine ⟨rfl, .inr ⟨_, rfl, ?_, rfl⟩⟩
  dsimp only
  split
  · exact hreach
  · omega

/-- One step, with the condition where it is met. -/
theorem step_sends {l : Label} (hi : Inv s) (hs : step s l = some s') :
    (Inv s' ∧ (behind s l = true → Full s → Full s')) := by
  have hnone : ∀ {t : Sender}, Sends s t (fun d => d.initial = false) →
      Inv t ∧ (behind s l = true → Full s → Full t) := by
    intro t ht
    refine ⟨ht.inv hi, fun _ hf => Sends.full ⟨ht.maxDatagram, ?_⟩ hf⟩
    rcases ht.sent with h | ⟨d, h, hd, hno⟩
    · exact .inl h
    · exact .inr ⟨d, h, hd, fun hyes => by rw [hno] at hyes; cases hyes⟩
  -- the labels that only change what is due, or the size
  have hquiet : ∀ {t : Sender}, t.sent = s.sent → kMinInitialDatagram ≤ t.maxDatagram →
      Inv t ∧ (behind s l = true → Full s → Full t) := by
    intro t ht hm
    refine ⟨⟨hm, by rw [ht]; exact hi.fits⟩, fun _ hf => ?_⟩
    unfold Full
    rw [ht]
    exact hf
  cases l with
  | produce r =>
    cases hs
    have hp := @produceOne_sends s r
    refine ⟨hp.inv hi, fun hb hf => ?_⟩
    apply Sends.full ⟨hp.maxDatagram, ?_⟩ hf
    rcases hp.sent with h | ⟨d, h, hd, hfull⟩
    · exact .inl h
    · exact .inr ⟨d, h, hd, hfull hb⟩
  | probe r =>
    cases hs
    exact hnone probeMtu_sends
  | close sp frame =>
    cases hs
    exact hnone (sendClose_sends hi)
  | change flight received validated pathDue =>
    cases hs
    exact hquiet rfl hi.reach
  | peerParams n =>
    unfold step at hs
    dsimp only at hs
    split at hs
    · cases hs
    rename_i hn
    cases hs
    have hm : kMinInitialDatagram ≤ min limitsMaxDatagram n := by
      unfold kMinInitialDatagram limitsMaxDatagram
      omega
    exact hquiet rfl hm
  | peerCid len =>
    unfold step at hs
    dsimp only at hs
    split at hs
    · cases hs
      exact hquiet rfl hi.reach
    · cases hs
  | migrate received =>
    cases hs
    exact hquiet rfl le_rfl
  | startProbe target =>
    cases hs
    exact hquiet rfl hi.reach
  | probeAcked =>
    cases hs
    split
    · rename_i hlt
      have hm : kMinInitialDatagram ≤ s.mtuTarget := Nat.le_of_lt (Nat.lt_of_le_of_lt hi.reach hlt)
      exact hquiet rfl hm
    · exact ⟨hi, fun _ => id⟩

/-- A connection that has sent nothing. -/
def start : Sender := {}

theorem start_inv : Inv start := ⟨le_rfl, fun _ h => nomatch h⟩

/-- **Datagrams with an ack-eliciting Initial are of full size in every run that meets the
    condition, and in every run no datagram is longer than what was reserved for it.** -/
theorem initial_datagrams_full {ls : List Label} (hrun : Lib.run step start ls = some s) :
    (∀ d ∈ s.sent, d.size ≤ d.reserved) ∧
      (Lib.Meets step Behind start ls → ∀ d ∈ s.sent, d.initial = true → kMinInitialDatagram ≤ d.size) := by
  have hany : Lib.Meets step (fun _ _ => True) start ls := Lib.meets_of_forall fun _ _ => trivial
  have hall : Inv s :=
    Lib.run_invariant (fun _ _ _ h _ hs => (step_sends h hs).1) start_inv hrun hany
  refine ⟨hall.fits, fun hok => ?_⟩
  have hstart : Inv start ∧ Full start := ⟨start_inv, fun _ h => nomatch h⟩
  have hboth := Lib.run_invariant (I := fun s => Inv s ∧ Full s)
    (fun _ _ _ h hb hs => ⟨(step_sends h.1 hs).1, (step_sends h.1 hs).2 hb h.2⟩) hstart hrun hok
  exact hboth.2

/-! ## §9. The run that falls short. -/

/-- A server's first flight: a ServerHello of 1,178 bytes and Handshake messages of 4,000. -/
def firstFlight : Space → Flight
  | .initial => { valid := true, size := 1178, elicitingUnacked := 1, ackNow := true }
  | .handshake => { valid := true, size := 4000 }
  | .application => {}

/-- The probe timer of the Initial space fired after two Initial packets and a Handshake packet:
    the first packet's bytes are due again. -/
def probeFlight : Space → Flight
  | .initial =>
    { valid := true, size := 1178, crypto := { sent := 1178, lost := [(0, 1148)] }, probes := 2
      nextPn := 2 }
  | .handshake => { valid := true, size := 4000, crypto := { sent := 1077 }, nextPn := 1 }
  | .application => {}

/-- ACK frames of five bytes and an open window. -/
def openRound : Round := { cwndRoom := 12000, ackSize := fun _ => 5 }

/-- The first flight, then the probe. -/
def probeRun : List Label :=
  [.change firstFlight 1200 false false, .produce openRound, .produce openRound,
   .change probeFlight 1200 false false, .produce openRound]

/-- **An ack-eliciting Initial in a datagram of 1,195 bytes**: without the ACK that its first
    copy carried, the probe leaves five bytes, and no Handshake packet to do the padding. -/
theorem initial_cut_short : ¬ ∀ ls s, Lib.run step start ls = some s →
      ∀ d ∈ s.sent, d.initial = true → kMinInitialDatagram ≤ d.size := by
  intro h
  have hrun : ∃ s, Lib.run step start probeRun = some s ∧
      s.sent = [⟨1200, 1200, true⟩, ⟨1200, 1200, true⟩, ⟨1195, 1200, true⟩] :=
    ⟨_, rfl, by decide +kernel⟩
  obtain ⟨s, hrun, hsent⟩ := hrun
  have := h probeRun s hrun ⟨1195, 1200, true⟩ (by rw [hsent]; decide) rfl
  exact absurd this (by decide)

/-- The first flight alone: a full Initial, then one with the Handshake packet behind it. -/
theorem initial_datagrams_full_first :
    ∃ s, Lib.run step start (probeRun.take 3) = some s ∧ s.sent.length = 2 ∧
      ∀ d ∈ s.sent, d.initial = true → kMinInitialDatagram ≤ d.size :=
  ⟨_, rfl, by decide +kernel, (@initial_datagrams_full _ (probeRun.take 3) rfl).2 (by decide +kernel)⟩

end Padding

end Agensio.Quic
