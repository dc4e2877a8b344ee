/-
  Agensio.Quic.Trimming — long-lived streams drop their head, and resend.

  A control or QPACK stream drops the bytes that are acknowledged in
  order (`head_base` moves up); `lost` and the records of the packets
  keep absolute offsets.  `apply_acked` moves `head_base` without a look
  at `lost`, and `apply_lost` adds a range without a look at `head_base`.
  A probe puts the bytes of a packet into `lost` while the packet stays
  on record, so the packet can be acknowledged, and its bytes dropped,
  before they are sent again: `copy_stream_bytes` then fails and the
  stream is reset.

  `Keeps` is the condition on a step under which this does not happen:
  no head is dropped past bytes in `lost`, and no bytes below `head_base`
  are put there.

  Main result: `trimmed_streams_resend`.
-/
import Agensio.Quic.Accounting

namespace Agensio.Quic

open Agensio.Lib

/-! ## §1. The condition. -/

namespace Conn

/-- Where the bytes acknowledged in order end, this item's among them. -/
def trimPoint (s : QuicStream) (offset len : Nat) (fin : Bool) : Nat :=
  (noteAcked s offset len fin).acked.contiguousFrom s.headBase

/-- The acknowledged item drops no head past bytes that wait to be sent again. -/
def ackKeeps (c : Conn) : SentItem → Bool
  | .stream id offset len fin =>
    match c.findStream id with
    | none => true
    | some p =>
      let s := c.streams p
      let upto := trimPoint s offset len fin
      -- the branch of `apply_acked` that erases from `head`
      if s.trimHead = true ∧ upto > s.headBase + 16384 ∧ upto ≤ s.headEnd then
        s.lost.all fun x => decide (upto ≤ x.1)
      else true
  | _ => true

/-- The lost item has no bytes that were dropped. -/
def lostKeeps (c : Conn) : SentItem → Bool
  | .stream id offset len _ =>
    match c.findStream id with
    | none => true
    | some p =>
      let s := c.streams p
      s.sendDone || s.resetSent || len == 0 || decide (s.headBase ≤ offset)
  | _ => true

end Conn

namespace Transport

/-- The items of an ACK, one by one, with the application's calls in between. -/
def ackedKeep (t : Transport) : List Item → List (List Op) → Bool
  | [], _ => true
  | it :: items, calls =>
    (match it with
      | .conn it => t.conn.ackKeeps it
      | _ => true) &&
      match run Conn.call (t.applyAcked it).conn (calls.headD []) with
      | none => true
      | some c => ((t.applyAcked it).setConn c).ackedKeep items calls.tail

/-- The items declared lost or probed, one by one. -/
def lostKeep (t : Transport) : List Item → Bool
  | [] => true
  | it :: items =>
    (match it with
      | .conn it => t.conn.lostKeeps it
      | _ => true) && (t.applyLost it).lostKeep items

/-- **The condition**: an ACK drops no head past bytes in `lost`, and neither it nor the loss timer
    puts bytes there that were dropped. -/
def Keeps (t : Transport) : Label → Bool
  | .ack sp ranges largestAck lostSendTime calls =>
    match (t.space sp).onAckReceived ranges largestAck lostSendTime with
    | none => true
    | some (ps, acked, lost) =>
      (t.setSpace sp ps).ackedKeep acked calls &&
        match (t.setSpace sp ps).applyAckedAll acked calls with
        | none => true
        | some t' => t'.lostKeep lost
  | .timer none probed => t.lostKeep (probed.flatMap fun sp => (t.space sp).probeItems)
  | .timer (some (sp, lostSendTime)) probed =>
    let d := (t.space sp).detectLost lostSendTime
    let t₁ := t.setSpace sp d.1
    t₁.lostKeep (d.2 ++ probed.flatMap fun sp => (t₁.space sp).probeItems)
  | _ => true

end Transport

/-! ## §2. One stream. -/

/-- What is lost was not dropped; only bytes that were sent are acknowledged or dropped. -/
structure SendSide.Anchored (s : SendSide) : Prop where
  lost : ∀ v, s.lost.Holds v → s.headBase ≤ v
  acked : ∀ v, s.acked.Holds v → v < s.next
  base : s.headBase ≤ s.next

namespace SendSide

variable {s s' : SendSide}

theorem Blank.anchored (h : s.Blank) : s.Anchored where
  lost := fun v hv => absurd (h.lost ▸ hv) (RangeSet.holds_nil v)
  acked := fun v hv => absurd (h.acked ▸ hv) (RangeSet.holds_nil v)
  base := by rw [h.headBase]; exact Nat.zero_le _

/-- The fields read here are as before. -/
theorem Anchored.of_eq (h : s.Anchored) (hn : s'.next = s.next) (hb : s'.headBase = s.headBase)
    (ha : s'.acked = s.acked) (hl : s'.lost = s.lost) : s'.Anchored where
  lost := by rw [hl, hb]; exact h.lost
  acked := by rw [ha, hn]; exact h.acked
  base := by rw [hb, hn]; exact h.base

/-- Framing takes bytes out of `lost`, or sends new ones. -/
theorem Anchored.framed {c : Conn} {b take n : Nat} {fin : Bool} (h : s.Anchored) (hok : s.Ok)
    (hf : Conn.Framing c s b take s' n) :
    SendSide.Anchored { s' with finSent := s'.finSent || fin } := by
  cases hf with
  | resent hl ht =>
    obtain ⟨-, hset⟩ := @RangeSet.remove_spec 0 b (b + take) s.lost hok.lost
    exact ⟨fun v hv => h.lost v ((hset v).mp hv).1, h.acked, h.base⟩
  | fresh hl hn ht hm hd =>
    refine ⟨h.lost, fun v hv => ?_, ?_⟩
    · have hlt := h.acked v hv
      show v < s.next + take
      omega
    · have hle := h.base
      show s.headBase ≤ s.next + take
      omega
  | bare hl hn hf hs => exact ⟨h.lost, h.acked, h.base⟩

/-- A range set whose every value is at `b` or above begins there. -/
theorem first_le {r : RangeSet} {b : Nat} (ha : RangeSet.Above 0 r) (h : ∀ v, r.Holds v → b ≤ v) :
    ∀ x ∈ r, b ≤ x.1 := by
  intro x hx
  have hlt := RangeSet.Above.lt_of_mem ha hx
  exact h x.1 ⟨x, hx, le_rfl, hlt⟩

end SendSide

/-- **An acknowledgement**, the head dropped with it or not. -/
theorem settleAcked_anchored {s : QuicStream} {offset len : Nat} {fin : Bool}
    (h : s.sendSide.Anchored) (hok : s.sendSide.Ok) (hin : offset + len ≤ s.next)
    (hk : s.trimHead = true → Conn.trimPoint s offset len fin > s.headBase + 16384 →
      Conn.trimPoint s offset len fin ≤ s.headEnd → ∀ x ∈ s.lost, Conn.trimPoint s offset len fin ≤ x.1) :
    (Conn.settleAcked (Conn.noteAcked s offset len fin)).sendSide.Anchored := by
  obtain ⟨habove, hset⟩ := Conn.ackedWith_spec hok.acked offset len
  have hacked : ∀ v, (Conn.ackedWith s.sendSide offset len).Holds v → v < s.next := by
    intro v hv
    rcases (hset v).mp hv with hv | hv
    · exact h.acked v hv
    · omega
  have hnoted : (Conn.noteAcked s offset len fin).sendSide.Anchored := ⟨h.lost, hacked, h.base⟩
  unfold Conn.settleAcked
  split
  · next ht =>
    unfold Conn.trimAcked
    dsimp only
    split
    · next hu =>
      -- the head is dropped up to the point where the acknowledged bytes end
      have hupto := hk ht hu.1 hu.2
      obtain ⟨-, hcut⟩ := @RangeSet.removeBelow_spec 0 (Conn.trimPoint s offset len fin) _ habove
      refine ⟨fun v hv => ?_, fun v hv => hacked v ((hcut v).mp hv).1, ?_⟩
      · obtain ⟨x, hx, hle, -⟩ := hv
        exact Nat.le_trans (hupto x hx) hle
      · -- the last byte dropped is an acknowledged one
        have hgt : s.headBase + 16384 < Conn.trimPoint s offset len fin := hu.1
        have hlast : Conn.trimPoint s offset len fin - 1 < s.next := by
          refine hacked _ (@RangeSet.holds_of_contiguousFrom _ s.headBase _ ⟨by omega, ?_⟩)
          show _ < Conn.trimPoint s offset len fin
          omega
        show Conn.trimPoint s offset len fin ≤ s.next
        omega
    · exact hnoted
  · split
    · exact ⟨hnoted.lost, hnoted.acked, hnoted.base⟩
    · exact hnoted

/-! ## §3. Every stream of a connection. -/

namespace Conn

variable {c c' : Conn} {p : Ptr} {out : Carried}

def Anchored (c : Conn) : Prop := ∀ p, (c.side p).isOpen = true → (c.side p).Anchored

/-- One stream changes. -/
theorem Anchored.turned (h : c.Anchored) (ho : ∀ q, q ≠ p → c'.side q = c.side q)
    (hp : (c'.side p).isOpen = true → (c'.side p).Anchored) : c'.Anchored := by
  intro q hq
  by_cases hqp : q = p
  · rw [hqp] at hq ⊢
    exact hp hq
  rw [ho q hqp] at hq ⊢
  exact h q hq

theorem Anchored.same (h : c.Anchored) (hs : ∀ q, c'.side q = c.side q) : c'.Anchored := by
  intro p ho
  rw [hs] at ho ⊢
  exact h p ho

/-- Every effect but an acknowledgement and a loss. -/
theorem Anchored.effect {fs : List OutFrame} (ha : c.Anchored) (h : SendInv c out)
    (he : SendEffect c c' fs) : c'.Anchored := by
  cases he with
  | same hs => exact ha.same hs.side
  | credit _ hs => exact ha.same hs.side
  | params _ => exact ha.same fun _ => rfl
  | @change c' p ho ht hs =>
    obtain ⟨-, -, hnext, hlost, hacked, hbase, -⟩ := hs.keeps
    exact ha.turned ht.others fun _ => (ha p ho).of_eq hnext hbase hacked hlost
  | @prepared c' p ho ht hs =>
    obtain ⟨_, _, hs⟩ := hs
    refine ha.turned ht.others fun hc => ?_
    rw [hs, ho] at hc
    cases hc
  | @opened c' id p ho hp hc hnew ht hs hb =>
    exact ha.turned ht.others fun _ => (hb (h.blank p ho)).anchored
  | @own c' p ho hp ht hs =>
    -- what is opened was blank, and none of the fields is set
    have hb := h.blank p ho
    obtain ⟨_, _, _, hs⟩ := hs
    refine ha.turned ht.others fun _ => ?_
    rw [hs hb.headBase]
    exact hb.anchored.of_eq rfl rfl rfl rfl
  | @closed c' p hp ho hb hk hm ht =>
    refine ha.turned ht.others fun hc => ?_
    rw [ho] at hc
    cases hc
  | @framed c' p b take n s data fin hf hd hfin ht hs =>
    have ho : (c.side p).isOpen = true := by
      by_contra hne
      exact hf.not_blank (h.blank p (by simpa using hne))
    refine ha.turned ht.others fun _ => ?_
    rw [hs]
    exact (ha p ho).framed (h.side p ho) hf
  | @reset c' p code hr ht hs =>
    refine ha.turned ht.others fun hc => ?_
    rw [hs] at hc ⊢
    exact (ha p hc).of_eq rfl rfl rfl rfl

theorem Anchored.effects {fs : List OutFrame} (ha : c.Anchored) (h : SendInv c out)
    (he : Effects c c' fs) : c'.Anchored := by
  induction he with
  | none => exact ha
  | snoc hs he ih => exact ih.effect (h.effects hs) he

/-- **An item is acknowledged.** -/
theorem Anchored.ackedItem {it : SentItem} (ha : c.Anchored) (h : SendInv c out)
    (hit : ∀ id offset len fin, it = .stream id offset len fin → out id offset len fin)
    (hk : c.ackKeeps it = true) : (c.applyAcked it).Anchored := by
  cases it with
  | stream id offset len fin =>
    unfold applyAcked
    unfold ackKeeps at hk
    dsimp only at hk ⊢
    cases hf : c.findStream id with
    | none => exact ha
    | some p =>
      rw [hf] at hk
      dsimp only at hk ⊢
      obtain ⟨-, ho, hid⟩ := findStream_some hf
      rw [ho, if_neg (by decide)]
      have hc := hit id offset len fin rfl
      rw [← hid] at hc
      obtain ⟨hin, -⟩ := h.within p ho offset len fin hc
      refine ha.turned (Touch.modify c p _).others fun _ => ?_
      rw [side_modify_self]
      refine settleAcked_anchored (ha p ho) (h.side p ho) hin fun ht hu hle x hx => ?_
      rw [if_pos ⟨ht, hu, hle⟩] at hk
      exact of_decide_eq_true (List.all_eq_true.mp hk x hx)
  | _ => exact ha

/-- The bytes of a lost frame join `lost`; none of them was dropped. -/
theorem noteLost_anchored {s : QuicStream} {offset len : Nat} {fin : Bool}
    (h : s.sendSide.Anchored) (hok : s.sendSide.Ok) (hk : len ≠ 0 → s.headBase ≤ offset) :
    (noteLost s offset len fin).sendSide.Anchored := by
  obtain ⟨-, hset⟩ := lostWith_spec hok.lost offset len
  refine ⟨fun v hv => ?_, h.acked, h.base⟩
  rcases (hset v).mp hv with hv | hv
  · exact h.lost v hv
  have hle := hk (by omega)
  show s.headBase ≤ v
  omega

/-- **An item is lost**, or its packet is probed. -/
theorem Anchored.lostItem {it : SentItem} (ha : c.Anchored) (h : SendInv c out)
    (hk : c.lostKeeps it = true) : (c.applyLost it).Anchored := by
  have hother : (∀ id o l f, it ≠ .stream id o l f) → (c.applyLost it).Anchored := by
    intro hn
    have he := applyLost_send c it
    generalize c.applyLost it = c' at he
    cases he with
    | other _ he => exact ha.effect h he
    | gone _ => exact ha
    | past _ _ => exact ha
    | again _ _ _ _ => exact absurd rfl (hn _ _ _ _)
  cases it with
  | stream id offset len fin =>
    unfold applyLost
    unfold lostKeeps at hk
    dsimp only at hk ⊢
    cases hf : c.findStream id with
    | none => exact ha
    | some p =>
      rw [hf] at hk
      dsimp only at hk ⊢
      obtain ⟨-, ho, -⟩ := findStream_some hf
      split
      · exact ha
      next hd =>
      simp only [Bool.or_eq_true, not_or, Bool.not_eq_true, Bool.not_eq_false'] at hd
      rw [hd.1.2, hd.2] at hk
      have hbase : len ≠ 0 → (c.streams p).headBase ≤ offset := by
        intro hl
        simpa [hl] using hk
      have hnote : (c.modify p fun s => noteLost s offset len fin).Anchored := by
        refine ha.turned (Touch.modify c p _).others fun _ => ?_
        rw [side_modify_self]
        exact noteLost_anchored (ha p ho) (h.side p ho) hbase
      split
      · exact hnote.same (SameSend.of_linkOnly (enqueue_linkOnly _ p)).side
      · exact hnote
  | _ => exact hother (by simp)

end Conn

/-! ## §4. Every step. -/

namespace Transport

variable {t t' : Transport} {out out' : Outstanding}

theorem anchored_calls {ops : List Op} {c' : Conn} (ha : t.conn.Anchored) (h : Sound t out)
    (hrun : run Conn.call t.conn ops = some c') : c'.Anchored := by
  induction ops generalizing t with
  | nil =>
    cases hrun
    exact ha
  | cons op ops ih =>
    obtain ⟨m, hm, hrest⟩ := step_of_run_cons hrun
    obtain ⟨heff, -⟩ := Conn.call_effects h.table hm
    have hone : run Conn.call t.conn [op] = some m := by
      rw [run_cons_of_step hm]
      rfl
    have hanchored : (t.setConn m).conn.Anchored := ha.effects h.send heff
    exact ih hanchored (h.calls hone) hrest

/-- **`apply_acked` as a whole.** -/
theorem anchored_ackedAll {base : Outstanding} {acked rest : List Item} {calls : List (List Op)}
    (ha : t.conn.Anchored) (h : Sound t (base.plus (acked ++ rest)))
    (hk : t.ackedKeep acked calls = true) (hr : t.applyAckedAll acked calls = some t') :
    t'.conn.Anchored := by
  induction acked generalizing t calls with
  | nil =>
    cases hr
    exact ha
  | cons it acked ih =>
    obtain ⟨c, hrun, hr⟩ := applyAckedAll_cons hr
    unfold ackedKeep at hk
    obtain ⟨hkeep, hk⟩ := Bool.and_eq_true_iff.mp hk
    have hit : Sound (t.applyAcked it) (base.plus (acked ++ rest)) :=
      h.acked (leaves_head base it (acked ++ rest)) fun _ _ _ _ _ => .inr (.head _)
    have hone : (t.applyAcked it).conn.Anchored := by
      cases it with
      | conn it =>
        refine ha.ackedItem h.send (fun id o l f he => ?_) hkeep
        subst he
        exact .inr (.head _)
      | _ => exact ha
    rw [hrun] at hk
    exact ih (anchored_calls hone hit hrun) (hit.calls hrun) hk hr

/-- **`apply_lost` as a whole.** -/
theorem anchored_lostAll {base : Outstanding} {lost : List Item} (ha : t.conn.Anchored)
    (h : Sound t (base.plus lost)) (hk : t.lostKeep lost = true) : (t.applyLostAll lost).conn.Anchored := by
  induction lost generalizing t with
  | nil => exact ha
  | cons it lost ih =>
    unfold lostKeep at hk
    obtain ⟨hkeep, hk⟩ := Bool.and_eq_true_iff.mp hk
    have hit : Sound (t.applyLost it) (base.plus lost) :=
      h.lost (leaves_head base it lost) fun _ _ => .inr (.head _)
    refine ih ?_ hit hk
    cases it with
    | conn it => exact ha.lostItem h.send hkeep
    | crypto s o l =>
      unfold applyLost
      dsimp only
      split <;> exact ha
    | _ => exact ha

theorem anchored_ack {sp : Space} {ranges : List (Nat × Nat)} {largestAck : Nat} {lostSendTime : Int}
    {calls : List (List Op)} (ha : t.conn.Anchored) (h : Inv t)
    (hk : t.Keeps (.ack sp ranges largestAck lostSendTime calls) = true)
    (hr : t.onAck sp ranges largestAck lostSendTime calls = some t') : t'.conn.Anchored := by
  rcases onAck_cases hr with rfl | ⟨ps, acked, lost, t₁, hrec, haa, rfl⟩
  · exact ha.same ((Conn.same_walk 0).fail ..).side
  unfold Keeps at hk
  dsimp only at hk
  rw [hrec] at hk
  obtain ⟨hacks, hlosts⟩ := Bool.and_eq_true_iff.mp hk
  rw [haa] at hlosts
  have hout := h.handed hrec
  have hafter : t₁.conn.Anchored := @anchored_ackedAll (t.setSpace sp ps) _ _ _ _ _ ha hout hacks haa
  exact anchored_lostAll hafter (hout.ackedAll haa).1 hlosts

theorem keeps_timer (detect : Option (Space × Int)) (probed : List Space) :
    t.Keeps (.timer detect probed) = (t.detected detect).1.lostKeep (t.expired detect probed) := by
  cases detect <;> rfl

theorem anchored_timer {detect : Option (Space × Int)} {probed : List Space}
    (ha : t.conn.Anchored) (h : Inv t) (hn : t.building = none)
    (hk : t.Keeps (.timer detect probed) = true) : (t.onTimer detect probed).conn.Anchored := by
  rw [keeps_timer] at hk
  rw [onTimer_eq]
  have ha' : (t.detected detect).1.conn.Anchored := by
    rw [(t.detected_kept detect).1]
    exact ha
  exact anchored_lostAll ha' (h.expired hn detect probed).2 hk

/-- **The step lemma.** -/
theorem step_anchored {l : Label} (h : Inv t) (ha : t.conn.Anchored) (hk : t.Keeps l = true)
    (hs : t.step l = some t') : t'.conn.Anchored := by
  cases stepped hs with
  | call hc => exact ha.effects h.sound.send (Conn.call_effects h.sound.table hc).1
  | @frame f sec => exact ha.effects h.sound.send (Conn.frame_effect h.sound.table f sec)
  | ack hi hack => exact anchored_ack ha h hk hack
  | timer hi => exact anchored_timer ha h (idle_iff.mp hi).1 hk
  | turn hb hr =>
    obtain ⟨hround, -⟩ := Conn.turn_round h.sound.table h.sound.send hr
    exact ha.effects h.sound.send hround.effects
  | cryptoTurn hb => rwa [conn_cryptoTurn]
  -- the other labels leave the connection alone
  | _ => exact ha

/-- The run lemma. -/
theorem run_anchored {limits : Limits} {ls : List Label} (hrun : run step (start limits) ls = some t)
    (hk : Meets step (fun t l => t.Keeps l = true) (start limits) ls) : Inv t ∧ t.conn.Anchored := by
  refine run_invariant (I := fun t : Transport => Inv t ∧ t.conn.Anchored) ?_ ?_ hrun hk
  · rintro t l t' ⟨hinv, ha⟩ hk hs
    exact ⟨step_inv hinv hs, step_anchored hinv ha hk hs⟩
  · refine ⟨start_inv limits, fun p ho => ?_⟩
    cases ho

end Transport

/-! ## §5. The bytes are there. -/

/-- All bytes of the stream are in its own buffers: the head and a body in memory. -/
def QuicStream.buffered (s : QuicStream) : Prop := s.total ≤ s.headEnd + s.mem.length

instance (s : QuicStream) : Decidable s.buffered := inferInstanceAs (Decidable (_ ≤ _))

/-- From `head_base` on, every byte of the buffers is copied. -/
theorem QuicStream.copyLoop_isSome (read : ReadAt) (s : QuicStream) {fuel at_ want : Nat} {out : Bytes}
    (hf : want ≤ fuel) (hb : s.headBase ≤ at_) (he : at_ + want ≤ s.headEnd + s.mem.length) :
    (copyLoop read fuel s at_ want out).isSome = true := by
  induction fuel generalizing at_ want out with
  | zero =>
    obtain rfl := Nat.le_zero.mp hf
    unfold copyLoop
    rfl
  | succ fuel ih =>
    cases want with
    | zero =>
      unfold copyLoop
      rfl
    | succ n =>
      -- a piece of a buffer has at least one byte, and at most as many as are wanted
      have hpiece : ∀ (src : Bytes) (k : Nat), k < src.length →
          0 < ((src.drop k).take (n + 1)).length ∧ ((src.drop k).take (n + 1)).length ≤ n + 1 := by
        intro src k hk
        rw [List.length_take, List.length_drop]
        omega
      have hgo : ∀ (src : Bytes) (k : Nat), k < src.length →
          (copyLoop read fuel s (at_ + ((src.drop k).take (n + 1)).length)
            (n + 1 - ((src.drop k).take (n + 1)).length) (out ++ (src.drop k).take (n + 1))).isSome
            = true := by
        intro src k hk
        obtain ⟨hpos, hle⟩ := hpiece src k hk
        exact ih (by omega) (by omega) (by omega)
      unfold copyLoop
      dsimp only
      split
      · next hin =>
        rw [if_neg (by omega)]
        refine hgo s.head _ ?_
        unfold QuicStream.headEnd at hin
        omega
      · next hin =>
        have hmem : s.mem ≠ [] := by
          intro hm
          rw [hm, List.length_nil] at he
          omega
        rw [if_pos hmem, if_neg (by omega)]
        exact hgo s.mem _ (by omega)

/-- What the packetiser picks lies at `head_base` or above, and below `total`. -/
theorem Conn.pick_range {c : Conn} {s : QuicStream} {avail b take : Nat} {resend : Bool}
    (ha : s.sendSide.Anchored) (hok : s.sendSide.Ok) (hp : c.pick s avail = .send b take resend) :
    take ≠ 0 → s.headBase ≤ b ∧ b + take ≤ s.total := by
  intro hne
  have hnext : s.next ≤ s.total := hok.ordered
  have hbase : s.headBase ≤ s.next := ha.base
  unfold Conn.pick at hp
  split at hp
  · next b' e rest hl =>
    obtain ⟨rfl, rfl, -⟩ := Conn.Pick.send.inj hp
    have hmem : (b', e) ∈ s.lost := by
      rw [hl]
      exact .head _
    have hlt : b' < e := RangeSet.Above.lt_of_mem hok.lost hmem
    have hlast : e - 1 < s.next := hok.lost_below (e - 1) ⟨_, hmem, by dsimp only; omega⟩
    exact ⟨ha.lost b' ⟨_, hmem, by dsimp only; omega⟩, by omega⟩
  · split at hp
    · split at hp
      · simp at hp
      obtain ⟨rfl, rfl, -⟩ := Conn.Pick.send.inj hp
      refine ⟨hbase, ?_⟩
      have hle : c.allowed s ≤ s.total - s.next := by
        unfold Conn.allowed
        omega
      omega
    · split at hp
      · obtain ⟨-, rfl, -⟩ := Conn.Pick.send.inj hp
        exact absurd rfl hne
      · simp at hp

theorem Conn.pick_copied {c : Conn} {s : QuicStream} {avail b take : Nat} {resend : Bool}
    (read : ReadAt) (ha : s.sendSide.Anchored) (hok : s.sendSide.Ok) (hs : s.buffered)
    (hp : c.pick s avail = .send b take resend) : (s.copyStreamBytes read b take).isSome = true := by
  unfold QuicStream.copyStreamBytes
  by_cases hne : take = 0
  · subst hne
    unfold QuicStream.copyLoop
    rfl
  · obtain ⟨hb, he⟩ := Conn.pick_range ha hok hp hne
    exact QuicStream.copyLoop_isSome read s le_rfl hb (he.trans hs)

/-! ## §6. Every run. -/

/-- **Trimmed streams can resend.**  In every run in which no head is dropped past bytes in `lost`
    and no dropped bytes are put there: each lost range of an open stream lies at `head_base` or
    above; whatever range the packetiser picks of a stream whose bytes are in its own buffers is
    copied; so no round resets a control or QPACK stream for want of its bytes. -/
theorem trimmed_streams_resend (limits : Limits) (ls : List Label) (t : Transport)
    (hrun : run Transport.step (Transport.start limits) ls = some t)
    (hk : Meets Transport.step (fun t l => t.Keeps l = true) (Transport.start limits) ls) :
    (∀ p, (t.conn.streams p).isOpen = true →
      ∀ x ∈ (t.conn.streams p).lost, (t.conn.streams p).headBase ≤ x.1) ∧
    (∀ p, (t.conn.streams p).isOpen = true → (t.conn.streams p).buffered →
      ∀ avail b take resend read, t.conn.pick (t.conn.streams p) avail = .send b take resend →
        ((t.conn.streams p).copyStreamBytes read b take).isSome = true) ∧
    ∀ p ∈ ownStreams, (t.conn.streams p).isOpen = true →
      ∀ room read, t.conn.sourceFails p room read = false := by
  obtain ⟨hinv, ha⟩ := Transport.run_anchored hrun hk
  have hok : ∀ p, (t.conn.streams p).isOpen = true → (t.conn.streams p).sendSide.Ok :=
    hinv.sound.send.side
  refine ⟨fun p ho => SendSide.first_le (hok p ho).lost (ha p ho).lost,
    fun p ho hs avail b take resend read hp => Conn.pick_copied read (ha p ho) (hok p ho) hs hp,
    fun p hm ho room read => ?_⟩
  obtain ⟨-, htotal, -⟩ := hinv.sound.send.own p hm ho
  have hs : (t.conn.streams p).buffered :=
    Nat.le_trans htotal.le (Nat.le_add_right _ _)
  unfold Conn.sourceFails
  dsimp only
  split
  · next b take resend hp =>
    have hc := Conn.pick_copied read (ha p ho) (hok p ho) hs hp
    rw [Option.isNone_eq_false_iff.mpr hc, Bool.and_false]
  · rfl

/-- The peer's parameters, and a stream of our own with `head` to send. -/
def openedRun (head : Bytes) : List Label :=
  [.call (.peerParams { initialMaxData := 100000, initialMaxStreamDataUni := 100000
                        initialMaxStreamsUni := 3 }), .call .handshakeComplete, .install .application,
    .call (.openUniStream 0 head true), .call (.streamReady 0)]

/-- A packet with one STREAM frame of at most `room` bytes. -/
def packetRound (room : Nat) : List Label :=
  [.beginPacket .application, .turn (.streamTurn room fun _ _ => []), .sendPacket 0 true true]

/-- A probe puts the bytes of the first packet into `lost`; then the ACK of the second comes. -/
def probedRun : List Label :=
  openedRun (bytes "settings") ++ packetRound 12 ++ packetRound 1150 ++
    [.timer none [.application], .ack .application [(1, 2)] 1 0 []]

theorem trimmed_streams_resend_probedRun : ∃ t, run Transport.step (Transport.start {}) probedRun = some t ∧
      (t.conn.streams 0).isOpen = true ∧ (t.conn.streams 0).lost = [(0, 5)] ∧
      ∀ room read, t.conn.sourceFails 0 room read = false := by
  have hstate : (run Transport.step (Transport.start {}) probedRun).map (fun t =>
      ((t.conn.streams 0).isOpen, (t.conn.streams 0).lost)) = some (true, [(0, 5)]) := by decide
  obtain ⟨t, ht, hstate⟩ := Option.map_eq_some_iff.mp hstate
  obtain ⟨ho, hl⟩ := Prod.mk.inj hstate
  obtain ⟨-, -, hown⟩ := trimmed_streams_resend {} probedRun t ht (by decide)
  exact ⟨t, ht, ho, hl, hown 0 (by decide) ho⟩

/-- A stream of 16,385 bytes in three packets; the first one is probed, then all three are
    acknowledged. -/
def trimmedRun : List Label :=
  openedRun (List.replicate 16385 0) ++ packetRound 5800 ++ packetRound 5800 ++ packetRound 5800 ++
    [.timer none [.application], .ack .application [(0, 3)] 2 0 []]

set_option maxRecDepth 100000 in
/-- The head is dropped with bytes of it in `lost`: the next round resets the stream. -/
theorem trimmed_away : ∃ t, run Transport.step (Transport.start {}) trimmedRun = some t ∧
      (t.conn.streams 0).isOpen = true ∧ (t.conn.streams 0).headBase = 16385 ∧
      (t.conn.streams 0).lost = [(0, 5790)] ∧ t.conn.sourceFails 0 1150 (fun _ _ => []) = true := by
  have hstate : (run Transport.step (Transport.start {}) trimmedRun).map (fun t =>
      ((t.conn.streams 0).isOpen, (t.conn.streams 0).headBase, (t.conn.streams 0).lost,
        t.conn.sourceFails 0 1150 fun _ _ => [])) = some (true, 16385, [(0, 5790)], true) := by
    decide +kernel
  obtain ⟨t, ht, he⟩ := Option.map_eq_some_iff.mp hstate
  simp only [Prod.mk.injEq] at he
  exact ⟨t, ht, he⟩

end Agensio.Quic
