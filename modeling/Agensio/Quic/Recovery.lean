/-
  Agensio.Quic.Recovery — the packets sent, and what they carried.

  Model of `PnSpace` and of the part of `Recovery` (`quic/recovery.hpp`)
  that moves items: a packet is recorded in a ring under its number, and
  leaves it when an ACK names it (`on_ack_received`) or when it is
  declared lost (`detect_lost`); its items are handed over then.  A probe
  (`probe_with_data` of `quic/connection.hpp`) hands items over WITHOUT
  taking the packet out.

  The RTT estimate and the congestion window decide when things happen,
  not to which items; the time before which a packet counts as lost
  (`now - loss_delay`) therefore comes with the call.

  Main results: `ackRanges_hands`, `detectLost_hands`, `record_spec` — a
  packet never leaves the ring but by handing its items over, ring growth
  included.
-/
import Agensio.Lib.SeqRing
import Agensio.Quic.Link

namespace Agensio.Quic

open Agensio.Lib

/-! ## §1. A packet number space. -/

/-- `SentItem`: what concerns streams and credit, CRYPTO bytes of a space, HANDSHAKE_DONE, and the
    kinds that carry nothing this model reads (ids, paths, PING, the MTU probe). -/
inductive Item where
  | conn (it : Conn.SentItem)
  | crypto (space : Space) (offset len : Nat)
  | handshakeDone
  | other
  deriving DecidableEq

/-- The kinds `probe_with_data` sends again. -/
def Item.probes : Item → Bool
  | .conn (.stream ..) => true
  | .crypto .. => true
  | .handshakeDone => true
  | _ => false

structure SentPacket where
  time : Int := 0
  ackEliciting : Bool := false
  inFlight : Bool := false
  items : List Item := []
  deriving DecidableEq

def kPacketThreshold : Nat := 3

/-- A packet number space, by what its packets carry. -/
structure PnSpace where
  nextPn : Nat := 0
  anyAcked : Bool := false
  largestAcked : Nat := 0
  discarded : Bool := false
  ring : SeqRing SentPacket := List.replicate 64 none
  count : Nat := 0
  oldest : Nat := 0

namespace PnSpace

def find (ps : PnSpace) (pn : Nat) : Option SentPacket := ps.ring.find pn

/-- A slot for the packet about to be sent. -/
def record (ps : PnSpace) (pn : Nat) : PnSpace :=
  { ps with
    ring := ps.ring.insert pn {}
    oldest := if ps.count = 0 then pn else if pn < ps.oldest then pn else ps.oldest
    count := ps.count + 1 }

/-- The loop of `forget`: the lowest number that may still be in flight moves up. -/
def skipForgotten (ring : SeqRing SentPacket) (nextPn : Nat) : Nat → Nat → Nat
  | 0, oldest => oldest
  | n + 1, oldest =>
    if oldest < nextPn ∧ (ring.find oldest).isNone then skipForgotten ring nextPn n (oldest + 1)
    else oldest

def forget (ps : PnSpace) (pn : Nat) : PnSpace :=
  let ring := ps.ring.erase pn
  let count := ps.count - 1
  { ps with
    ring := ring
    count := count
    oldest := if count = 0 then ps.oldest
      else skipForgotten ring ps.nextPn (ps.nextPn - ps.oldest) ps.oldest }

/-- `clear`, and the flag of `discard_space`. -/
def discard (ps : PnSpace) : PnSpace :=
  { ps with
    ring := List.replicate ps.ring.length none, count := 0, oldest := ps.nextPn, discarded := true }

/-- The record of the packet being built, changed (`rec.items.push_back`, `rec.time = …`). -/
def amend (ps : PnSpace) (pn : Nat) (f : SentPacket → SentPacket) : PnSpace :=
  match ps.find pn with
  | some pkt => { ps with ring := ps.ring.put pn (f pkt) }
  | none => ps

/-! ## §2. Acknowledgements, losses, probes. -/

/-- What a walk over packet numbers leaves: the space, the items handed over, whether any packet
    was met. -/
structure Settled where
  space : PnSpace
  items : List Item := []
  newly : Bool := false

/-- One range of an ACK frame, `n` numbers from `b` on, from its top down. -/
def ackRange (ps : PnSpace) (b : Nat) : Nat → Settled
  | 0 => { space := ps }
  | n + 1 =>
    if b + n < ps.oldest then { space := ps }
    else
      match ps.find (b + n) with
      | none => ackRange ps b n
      | some pkt =>
        let t := ackRange (ps.forget (b + n)) b n
        { space := t.space, items := pkt.items ++ t.items, newly := true }

def ackRanges (ps : PnSpace) : List (Nat × Nat) → Settled
  | [] => { space := ps }
  | (b, e) :: rest =>
    let t := ps.ackRange b (e - b)
    let u := t.space.ackRanges rest
    { space := u.space, items := t.items ++ u.items, newly := t.newly || u.newly }

def noteLargest (ps : PnSpace) (largestAck : Nat) : PnSpace :=
  if !ps.anyAcked || largestAck > ps.largestAcked then
    { ps with anyAcked := true, largestAcked := largestAck }
  else ps

/-- The loop of `detect_lost` over `n` numbers from `pn` on. -/
def lostLoop (ps : PnSpace) (lostSendTime : Int) : Nat → Nat → PnSpace × List Item
  | _, 0 => (ps, [])
  | pn, n + 1 =>
    match ps.find pn with
    | none => lostLoop ps lostSendTime (pn + 1) n
    | some pkt =>
      if pkt.time ≤ lostSendTime ∨ ps.largestAcked ≥ pn + kPacketThreshold then
        let r := lostLoop (ps.forget pn) lostSendTime (pn + 1) n
        (r.1, pkt.items ++ r.2)
      else lostLoop ps lostSendTime (pn + 1) n

def detectLost (ps : PnSpace) (lostSendTime : Int) : PnSpace × List Item :=
  if !ps.anyAcked then (ps, [])
  else ps.lostLoop lostSendTime ps.oldest (ps.largestAcked - ps.oldest)

/-- `on_ack_received`: the space, the items acknowledged and the items lost; `none` for an
    acknowledgement of a packet never sent. -/
def onAckReceived (ps : PnSpace) (ranges : List (Nat × Nat)) (largestAck : Nat)
    (lostSendTime : Int) : Option (PnSpace × List Item × List Item) :=
  if largestAck ≥ ps.nextPn then none
  else
    let t := ps.ackRanges ranges
    if !t.newly then some (t.space, t.items, [])
    else
      let d := (t.space.noteLargest largestAck).detectLost lostSendTime
      some (d.1, t.items, d.2)

/-- The loop of `probe_with_data` over `n` numbers from `pn` on: the items of the oldest packet in
    flight that carries any. -/
def probeFrom (ps : PnSpace) : Nat → Nat → List Item
  | _, 0 => []
  | pn, n + 1 =>
    match ps.find pn with
    | none => probeFrom ps (pn + 1) n
    | some pkt =>
      let items := pkt.items.filter Item.probes
      if pkt.inFlight && pkt.ackEliciting && !items.isEmpty then items
      else probeFrom ps (pn + 1) n

def probeItems (ps : PnSpace) : List Item := ps.probeFrom ps.oldest (ps.nextPn - ps.oldest)

/-! ## §3. What is recorded. -/

/-- A packet of the ring carries the item. -/
def Recorded (ps : PnSpace) (it : Item) : Prop := ∃ pn pkt, ps.find pn = some pkt ∧ it ∈ pkt.items

/-- The numbers in the ring lie below `n`, and the ring spans them. -/
def Window (ps : PnSpace) (n : Nat) : Prop := SeqRing.Window ps.ring n

/-- `ps'` is `ps` after some packets left the ring, and `items` are what these carried. -/
structure Hands (ps ps' : PnSpace) (items : List Item) : Prop where
  window : ∀ n, ps.Window n → ps'.Window n
  nextPn : ps'.nextPn = ps.nextPn
  discarded : ps'.discarded = ps.discarded
  kept : ∀ it, ps.Recorded it → ps'.Recorded it ∨ it ∈ items
  back : ∀ it, ps'.Recorded it ∨ it ∈ items → ps.Recorded it

theorem Hands.refl (ps : PnSpace) : Hands ps ps [] where
  window := fun _ h => h
  nextPn := rfl
  discarded := rfl
  kept := fun _ h => .inl h
  back := fun _ h => h.resolve_right List.not_mem_nil

theorem Hands.trans {a b c : PnSpace} {is js : List Item} (h : Hands a b is) (h' : Hands b c js) :
    Hands a c (is ++ js) where
  window := fun n hw => h'.window n (h.window n hw)
  nextPn := h'.nextPn.trans h.nextPn
  discarded := h'.discarded.trans h.discarded
  kept := by
    intro it hr
    rcases h.kept it hr with hb | hi
    · rcases h'.kept it hb with hc | hj
      · exact .inl hc
      · exact .inr (List.mem_append_right is hj)
    · exact .inr (List.mem_append_left js hi)
  back := by
    rintro it (hc | hm)
    · exact h.back it (.inl (h'.back it (.inl hc)))
    · rcases List.mem_append.mp hm with hi | hj
      · exact h.back it (.inr hi)
      · exact h.back it (.inl (h'.back it (.inr hj)))

variable {ps : PnSpace} {pn n : Nat} {pkt : SentPacket}

/-- A packet that is forgotten hands its items over. -/
theorem forget_hands (h : ps.find pn = some pkt) : Hands ps (ps.forget pn) pkt.items where
  window := fun _ hw => (SeqRing.erase_spec hw h).1
  nextPn := rfl
  discarded := rfl
  kept := by
    rintro it ⟨k, q, hq, hm⟩
    by_cases hk : k = pn
    · rw [hk, h] at hq
      cases hq
      exact .inr hm
    · refine .inl ⟨k, q, ?_, hm⟩
      exact (SeqRing.find_erase h k).trans ((if_neg hk).trans hq)
  back := by
    rintro it (⟨k, q, hq, hm⟩ | hm)
    · refine ⟨k, q, ?_, hm⟩
      have hq' : (ps.ring.erase pn).find k = some q := hq
      rw [SeqRing.find_erase h] at hq'
      split at hq'
      · simp at hq'
      · exact hq'
    · exact ⟨pn, pkt, h, hm⟩

theorem ackRange_hands (ps : PnSpace) (b n : Nat) :
    Hands ps (ps.ackRange b n).space (ps.ackRange b n).items := by
  induction n generalizing ps with
  | zero => exact Hands.refl ps
  | succ n ih =>
    unfold ackRange
    split
    · exact Hands.refl ps
    cases hf : ps.find (b + n) with
    | none => exact ih ps
    | some pkt => exact (forget_hands hf).trans (ih _)

theorem ackRanges_hands (ps : PnSpace) (ranges : List (Nat × Nat)) :
    Hands ps (ps.ackRanges ranges).space (ps.ackRanges ranges).items := by
  induction ranges generalizing ps with
  | nil => exact Hands.refl ps
  | cons r rest ih =>
    obtain ⟨b, e⟩ := r
    exact (ackRange_hands ps b (e - b)).trans (ih _)

theorem lostLoop_hands (ps : PnSpace) (lostSendTime : Int) (pn n : Nat) :
    Hands ps (ps.lostLoop lostSendTime pn n).1 (ps.lostLoop lostSendTime pn n).2 := by
  induction n generalizing ps pn with
  | zero => exact Hands.refl ps
  | succ n ih =>
    unfold lostLoop
    cases hf : ps.find pn with
    | none => exact ih ps (pn + 1)
    | some pkt =>
      dsimp only
      split
      · exact (forget_hands hf).trans (ih _ (pn + 1))
      · exact ih ps (pn + 1)

theorem detectLost_hands (ps : PnSpace) (lostSendTime : Int) :
    Hands ps (ps.detectLost lostSendTime).1 (ps.detectLost lostSendTime).2 := by
  unfold detectLost
  split
  · exact Hands.refl ps
  · exact lostLoop_hands ..

theorem noteLargest_hands (ps : PnSpace) (largestAck : Nat) : Hands ps (ps.noteLargest largestAck) [] := by
  unfold noteLargest
  split
  · exact ⟨fun _ h => h, rfl, rfl, fun _ h => .inl h, fun _ h => h.resolve_right List.not_mem_nil⟩
  · exact Hands.refl ps

/-- An ACK hands over what it acknowledges and what it shows to be lost, and nothing else
    leaves. -/
theorem onAckReceived_hands {ps' : PnSpace} {ranges : List (Nat × Nat)} {largestAck : Nat}
    {lostSendTime : Int} {acked lost : List Item}
    (h : ps.onAckReceived ranges largestAck lostSendTime = some (ps', acked, lost)) :
    Hands ps ps' (acked ++ lost) := by
  unfold onAckReceived at h
  split at h
  · simp at h
  dsimp only at h
  have hacks := ackRanges_hands ps ranges
  split at h
  · obtain ⟨rfl, hrest⟩ := Prod.mk.inj (Option.some.inj h)
    cases hrest
    exact hacks.trans (Hands.refl _)
  · obtain ⟨rfl, hrest⟩ := Prod.mk.inj (Option.some.inj h)
    cases hrest
    exact hacks.trans ((noteLargest_hands _ largestAck).trans (detectLost_hands _ _))

/-- A probe hands over what is recorded, and it stays recorded. -/
theorem recorded_of_probe {it : Item} (h : it ∈ ps.probeItems) : ps.Recorded it := by
  have hloop : ∀ n pn, it ∈ ps.probeFrom pn n → ps.Recorded it := by
    intro n
    induction n with
    | zero => exact fun pn hm => absurd hm List.not_mem_nil
    | succ n ih =>
      intro pn hm
      unfold probeFrom at hm
      cases hf : ps.find pn with
      | none =>
        rw [hf] at hm
        exact ih (pn + 1) hm
      | some pkt =>
        rw [hf] at hm
        dsimp only at hm
        split at hm
        · exact ⟨pn, pkt, hf, (List.mem_filter.mp hm).1⟩
        · exact ih (pn + 1) hm
  exact hloop _ _ h

/-- **A packet is recorded next to all others**, whether or not the ring had to grow. -/
theorem record_spec (h : ps.Window ps.nextPn) : (ps.record ps.nextPn).Window (ps.nextPn + 1) ∧
      (∀ pn, (ps.record ps.nextPn).find pn = if pn = ps.nextPn then some {} else ps.find pn) :=
  SeqRing.insert_spec h {}

theorem record_recorded (h : ps.Window ps.nextPn) (it : Item) :
    (ps.record ps.nextPn).Recorded it ↔ ps.Recorded it := by
  obtain ⟨-, hfind⟩ := record_spec h
  have hnew : ps.find ps.nextPn = none := by
    by_contra hne
    obtain ⟨pkt, hp⟩ := Option.ne_none_iff_exists'.mp hne
    exact Nat.lt_irrefl _ (h.below _ _ hp)
  constructor
  · rintro ⟨pn, pkt, hp, hm⟩
    rw [hfind] at hp
    split at hp
    · cases hp
      cases hm
    · exact ⟨pn, pkt, hp, hm⟩
  · rintro ⟨pn, pkt, hp, hm⟩
    refine ⟨pn, pkt, ?_, hm⟩
    rw [hfind, if_neg]
    · exact hp
    · intro he
      rw [he, hnew] at hp
      simp at hp

theorem amend_nextPn (ps : PnSpace) (pn : Nat) (f : SentPacket → SentPacket) :
    (ps.amend pn f).nextPn = ps.nextPn := by
  unfold amend
  split <;> rfl

theorem amend_discarded (ps : PnSpace) (pn : Nat) (f : SentPacket → SentPacket) :
    (ps.amend pn f).discarded = ps.discarded := by
  unfold amend
  split <;> rfl

/-- The record of a packet, amended. -/
theorem amend_spec (h : ps.Window n) (hp : ps.find pn = some pkt) (f : SentPacket → SentPacket) :
    (ps.amend pn f).Window n ∧ (ps.amend pn f).find pn = some (f pkt) ∧
      ∀ k, k ≠ pn → (ps.amend pn f).find k = ps.find k := by
  unfold amend
  rw [hp]
  obtain ⟨hw, hfind⟩ := SeqRing.replace_spec h hp (f pkt)
  refine ⟨hw, ?_, fun k hk => ?_⟩
  · exact (hfind pn).trans (if_pos rfl)
  · exact (hfind k).trans (if_neg hk)

/-- Items pushed on the packet are recorded with the others. -/
theorem amend_recorded (h : ps.Window n)
    (hp : ps.find pn = some pkt) {f : SentPacket → SentPacket} {items : List Item}
    (hf : (f pkt).items = pkt.items ++ items) (it : Item) :
    (ps.amend pn f).Recorded it ↔ ps.Recorded it ∨ it ∈ items := by
  obtain ⟨-, hself, hothers⟩ := amend_spec h hp f
  constructor
  · rintro ⟨k, q, hq, hm⟩
    by_cases hk : k = pn
    · rw [hk, hself] at hq
      cases hq
      rw [hf] at hm
      exact (List.mem_append.mp hm).imp (fun hm => ⟨pn, pkt, hp, hm⟩) fun hm => hm
    · rw [hothers k hk] at hq
      exact .inl ⟨k, q, hq, hm⟩
  · rintro (⟨k, q, hq, hm⟩ | hm)
    · by_cases hk : k = pn
      · rw [hk, hp] at hq
        cases hq
        refine ⟨pn, _, hself, ?_⟩
        rw [hf]
        exact List.mem_append_left items hm
      · refine ⟨k, q, ?_, hm⟩
        rw [hothers k hk]
        exact hq
    · refine ⟨pn, _, hself, ?_⟩
      rw [hf]
      exact List.mem_append_right _ hm

/-- The packet last recorded, forgotten again: its number is free. -/
theorem forget_last (h : ps.Window (n + 1)) (hp : ps.find n = some pkt) : (ps.forget n).Window n := by
  obtain ⟨hw, hfind⟩ := SeqRing.erase_spec h hp
  refine ⟨hw.pos, hw.placed, fun k a hk => ?_, fun k a hk => ?_⟩
  · have hlt := hw.below k a hk
    have hne : k ≠ n := by
      intro he
      have hk : (ps.ring.erase n).find k = some a := hk
      rw [hfind, if_pos he] at hk
      simp at hk
    omega
  · have hspan := hw.spans k a hk
    have hspan : n + 1 ≤ k + (ps.ring.erase n).length := hspan
    show n ≤ k + (ps.ring.erase n).length
    omega

/-- Nothing is on record in a space that was discarded. -/
theorem discard_spec {m : Nat} (h : ps.Window m) (n : Nat) :
    ps.discard.Window n ∧ ∀ it, ¬ ps.discard.Recorded it := by
  refine ⟨SeqRing.window_empty h.pos n, ?_⟩
  rintro it ⟨pn, pkt, hp, -⟩
  have hlt := (SeqRing.window_empty (α := SentPacket) h.pos 0).below pn pkt hp
  omega

end PnSpace

end Agensio.Quic
