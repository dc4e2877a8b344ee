/-
  Agensio.Quic.Outgoing — the send sides and what is out.

  `SendInv` says what every run keeps about the send sides of the streams
  and the STREAM items that are out, in packets on record or in an ACK
  that is being applied: an item stays within what its stream has sent,
  and its id is never that of another stream — a stream opens only with
  an id that no item can bear.

  Every obligation is about the one stream that changed (`Turned`), so
  each effect of `Sending`, each acknowledgement (`AckEffect`) and each
  loss (`LostEffect`) is a short case.

  Main results: `SendInv.effects`, `SendInv.acked`, `SendInv.lost`.
-/
import Agensio.Quic.Transport

namespace Agensio.Quic

open Agensio.Lib

/-! ## §1. What is out. -/

/-- The STREAM items that are out: id, offset, length, FIN. -/
abbrev Carried := Nat → Nat → Nat → Bool → Prop

/-- The STREAM frames just written are out as well. -/
def Carried.add (out : Carried) (fs : List OutFrame) : Carried := fun id offset len fin =>
  out id offset len fin ∨ ∃ data, OutFrame.stream id offset data fin ∈ fs ∧ data.length = len

theorem Carried.add_nil (out : Carried) : out.add [] = out := by
  funext id offset len fin
  unfold Carried.add
  simp

/-- What holds of the send side of every open stream. -/
structure SendSide.Ok (s : SendSide) : Prop where
  ordered : s.next ≤ s.total
  lost : RangeSet.Above 0 s.lost
  lost_below : ∀ v, s.lost.Holds v → v < s.next
  acked : RangeSet.Above 0 s.acked
  finAcked : s.finAcked = true → s.fin = true
  done : s.sendDone = true → s.resetSent = false →
    s.trimHead = false ∧ s.finAcked = true ∧ ∀ v < s.total, s.acked.Holds v

theorem SendSide.Blank.ok {s : SendSide} (h : s.Blank) : s.Ok where
  ordered := by rw [h.next]; exact Nat.zero_le _
  lost := by rw [h.lost]; trivial
  lost_below := fun v hv => absurd (h.lost ▸ hv) (RangeSet.holds_nil v)
  acked := by rw [h.acked]; trivial
  finAcked := fun hf => absurd (h.finAcked ▸ hf) Bool.false_ne_true
  done := fun hd => absurd (h.sendDone ▸ hd) Bool.false_ne_true

namespace Conn

/-- What every operation keeps of the sending sides. -/
structure SendInv (c : Conn) (out : Carried) : Prop where
  blank : ∀ q, (c.side q).isOpen = false → (c.side q).Blank
  side : ∀ p, (c.side p).isOpen = true → (c.side p).Ok
  apart : ∀ p ∈ ownStreams, p ∉ c.active
  waiting : ∀ p ∈ c.active, (c.side p).fin = false → (c.side p).total = 0
  own : ∀ p ∈ ownStreams, (c.side p).isOpen = true → (c.side p).fin = false ∧
    (c.side p).total = (c.side p).headEnd ∧ ∃ k < c.nextUniIndex, (c.side p).id = k * 4 + 3
  client : ∀ p, p ∉ ownStreams → (c.side p).isOpen = true → streamIsClient (c.side p).id = true
  ids : ∀ p q, (c.side p).isOpen = true → (c.side q).isOpen = true →
    (c.side p).id = (c.side q).id → p = q
  known : ∀ id offset len fin, out id offset len fin → Known c id
  within : ∀ p, (c.side p).isOpen = true → ∀ offset len fin, out (c.side p).id offset len fin →
    offset + len ≤ (c.side p).next ∧ (fin = true → (c.side p).fin = true)

variable {c c' : Conn} {p : Ptr} {out out' : Carried}

theorem create_sendInv (limits : Limits) : SendInv (create limits) fun _ _ _ _ => False where
  blank := fun _ _ => ⟨rfl, rfl, rfl, rfl, rfl, rfl, rfl, rfl, rfl, rfl, rfl⟩
  side := fun _ h => absurd h Bool.false_ne_true
  apart := fun _ _ => List.not_mem_nil
  waiting := fun _ h => absurd h List.not_mem_nil
  own := fun _ _ h => absurd h Bool.false_ne_true
  client := fun _ _ h => absurd h Bool.false_ne_true
  ids := fun _ _ h => absurd h Bool.false_ne_true
  known := fun _ _ _ _ h => absurd h (fun hf => hf)
  within := fun _ h => absurd h Bool.false_ne_true

/-- Fewer items are out. -/
theorem SendInv.mono (h : SendInv c out) (hle : ∀ id o l f, out' id o l f → out id o l f) : SendInv c out' :=
  { h with
    known := fun id o l f hc => h.known id o l f (hle id o l f hc)
    within := fun p ho o l f hc => h.within p ho o l f (hle _ o l f hc) }

/-- What stays known when one stream changes and none is closed. -/
theorem known_of_touch (hg : Grows c c') (ho : ∀ q, q ≠ p → c'.side q = c.side q)
    (hp : (c.side p).isOpen = true → Known c' (c.side p).id) {id : Nat} (h : Known c id) : Known c' id := by
  rcases h with ⟨q, hq, hid⟩ | ⟨hc, hk⟩
  · by_cases hqp : q = p
    · rw [hqp] at hq hid
      exact hid ▸ hp hq
    · exact .inl ⟨q, by rw [ho q hqp]; exact hq, by rw [ho q hqp]; exact hid⟩
  · exact .inr ⟨hc, hg.closed _ _ hk⟩

/-- One stream changes.  What is to be said of it, when it is open afterwards, and of the items
    that are new. -/
structure Turned (p : Ptr) (c c' : Conn) (out out' : Carried) : Prop where
  blank : (c'.side p).isOpen = false → (c'.side p).Blank
  side : (c'.side p).isOpen = true → (c'.side p).Ok
  apart : p ∈ ownStreams → p ∉ c'.active
  waiting : p ∈ c'.active → (c'.side p).fin = false → (c'.side p).total = 0
  own : p ∈ ownStreams → (c'.side p).isOpen = true → (c'.side p).fin = false ∧
    (c'.side p).total = (c'.side p).headEnd ∧ ∃ k < c'.nextUniIndex, (c'.side p).id = k * 4 + 3
  client : p ∉ ownStreams → (c'.side p).isOpen = true → streamIsClient (c'.side p).id = true
  ids : (c'.side p).isOpen = true → ∀ q, q ≠ p → (c.side q).isOpen = true →
    (c.side q).id ≠ (c'.side p).id
  known : (c.side p).isOpen = true → Known c' (c.side p).id
  fresh : ∀ id o l f, out' id o l f → out id o l f ∨
    ((c'.side p).isOpen = true ∧ id = (c'.side p).id ∧ o + l ≤ (c'.side p).next ∧
      (f = true → (c'.side p).fin = true))
  within : (c'.side p).isOpen = true → ∀ o l f, out (c'.side p).id o l f →
    o + l ≤ (c'.side p).next ∧ (f = true → (c'.side p).fin = true)

/-- **The step lemma.**  All obligations of the invariant are about the stream that changed. -/
theorem SendInv.turned (h : SendInv c out) (ho : ∀ q, q ≠ p → c'.side q = c.side q)
    (ha : ∀ q ∈ c'.active, q ≠ p → q ∈ c.active) (hn : c.nextUniIndex ≤ c'.nextUniIndex)
    (hg : Grows c c') (ht : Turned p c c' out out') : SendInv c' out' where
  blank := by
    intro q hq
    by_cases hqp : q = p
    · rw [hqp] at hq ⊢
      exact ht.blank hq
    rw [ho q hqp] at hq ⊢
    exact h.blank q hq
  side := by
    intro q hq
    by_cases hqp : q = p
    · rw [hqp] at hq ⊢
      exact ht.side hq
    rw [ho q hqp] at hq ⊢
    exact h.side q hq
  apart := by
    intro q hm hq
    by_cases hqp : q = p
    · exact ht.apart (hqp ▸ hm) (hqp ▸ hq)
    · exact h.apart q hm (ha q hq hqp)
  waiting := by
    intro q hq
    by_cases hqp : q = p
    · rw [hqp] at hq ⊢
      exact ht.waiting hq
    rw [ho q hqp]
    exact h.waiting q (ha q hq hqp)
  own := by
    intro q hm hq
    by_cases hqp : q = p
    · rw [hqp] at hm hq ⊢
      exact ht.own hm hq
    rw [ho q hqp] at hq ⊢
    obtain ⟨hf, ht, k, hk, hid⟩ := h.own q hm hq
    exact ⟨hf, ht, k, hk.trans_le hn, hid⟩
  client := by
    intro q hm hq
    by_cases hqp : q = p
    · rw [hqp] at hm hq ⊢
      exact ht.client hm hq
    rw [ho q hqp] at hq ⊢
    exact h.client q hm hq
  ids := by
    intro q r hq hr he
    by_cases hqp : q = p
    · by_cases hrp : r = p
      · rw [hqp, hrp]
      rw [hqp] at hq he
      rw [ho r hrp] at hr he
      exact absurd he.symm (ht.ids hq r hrp hr)
    · by_cases hrp : r = p
      · rw [hrp] at hr he
        rw [ho q hqp] at hq he
        exact absurd he (ht.ids hr q hqp hq)
      · rw [ho q hqp] at hq he
        rw [ho r hrp] at hr he
        exact h.ids q r hq hr he
  known := by
    intro id o l f hc
    rcases ht.fresh id o l f hc with hold | ⟨hp, hid, -, -⟩
    · exact known_of_touch hg ho ht.known (h.known id o l f hold)
    · exact .inl ⟨p, hp, hid.symm⟩
  within := by
    intro q hq o l f hc
    by_cases hqp : q = p
    · rw [hqp] at hq hc ⊢
      rcases ht.fresh _ o l f hc with hold | ⟨-, -, hle, hfin⟩
      · exact ht.within hq o l f hold
      · exact ⟨hle, hfin⟩
    · rw [ho q hqp] at hq hc ⊢
      rcases ht.fresh _ o l f hc with hold | ⟨hp, hid, -, -⟩
      · exact h.within q hq o l f hold
      · exact absurd hid (ht.ids hp q hqp hq)

/-- Nothing that sending reads changes, but for credit. -/
theorem SendInv.same (h : SendInv c out) (hs : ∀ q, c'.side q = c.side q)
    (ha : c'.active = c.active) (hn : c'.nextUniIndex = c.nextUniIndex) (hg : Grows c c') :
    SendInv c' out where
  blank := fun q => by rw [hs]; exact h.blank q
  side := fun q => by rw [hs]; exact h.side q
  apart := fun q => by rw [ha]; exact h.apart q
  waiting := fun q => by rw [hs, ha]; exact h.waiting q
  own := fun q => by rw [hs, hn]; exact h.own q
  client := fun q => by rw [hs]; exact h.client q
  ids := fun q r => by rw [hs, hs]; exact h.ids q r
  known := fun id o l f hc => known_of_touch (p := 0) hg (fun q _ => hs q)
    (fun ho => .inl ⟨0, by rw [hs]; exact ho, by rw [hs]⟩) (h.known id o l f hc)
  within := fun q => by rw [hs]; exact h.within q

/-! ## §2. What every effect keeps. -/

/-- A call or a frame keeps a send side in order. -/
theorem Change.ok {s s' : SendSide} (h : SendInv c out) (ho : (c.side p).isOpen = true)
    (hs : c.side p = s) (hch : Change c p s s') : s'.Ok := by
  have hok : s.Ok := hs ▸ h.side p ho
  cases hch with
  | answered n headEnd ha hf hb =>
    have htotal : s.total = 0 := by
      rw [← hs] at hf ⊢
      exact h.waiting p ha hf
    have hnext : s.next = 0 := Nat.le_zero.mp (htotal ▸ hok.ordered)
    refine ⟨?_, hok.lost, hok.lost_below, hok.acked, fun _ => rfl, fun hd hr => ?_⟩
    · rw [hnext]
      exact Nat.zero_le n
    · -- a stream that is not answered has no FIN to be acknowledged
      obtain ⟨-, hfa, -⟩ := hok.done hd hr
      have := hok.finAcked hfa
      rw [hf] at this
      cases this
  | appended n hown =>
    obtain ⟨hfin, htotal, -⟩ := h.own p hown ho
    rw [hs] at hfin htotal
    refine ⟨?_, hok.lost, hok.lost_below, hok.acked, hok.finAcked, fun hd hr => ?_⟩
    · show s.next ≤ s.headEnd + n
      have := hok.ordered
      omega
    · obtain ⟨-, hfa, -⟩ := hok.done hd hr
      have := hok.finAcked hfa
      rw [hfin] at this
      cases this
  | raised v _ => exact ⟨hok.ordered, hok.lost, hok.lost_below, hok.acked, hok.finAcked, hok.done⟩
  | due => exact ⟨hok.ordered, hok.lost, hok.lost_below, hok.acked, hok.finAcked, hok.done⟩
  | done hr =>
    refine ⟨hok.ordered, hok.lost, hok.lost_below, hok.acked, hok.finAcked, fun _ hr' => ?_⟩
    rw [hr] at hr'
    cases hr'

variable {s s' : SendSide} {fs : List OutFrame}

/-- What a call or a frame leaves alone. -/
theorem Change.keeps (hch : Change c p s s') :
    s'.isOpen = s.isOpen ∧ s'.id = s.id ∧ s'.next = s.next ∧ s'.lost = s.lost ∧ s'.acked = s.acked ∧
      s'.headBase = s.headBase ∧ s'.finSent = s.finSent ∧ s'.finAcked = s.finAcked ∧
      s'.resetSent = s.resetSent ∧ (s.fin = true → s'.fin = true) := by
  cases hch with
  | answered => exact ⟨rfl, rfl, rfl, rfl, rfl, rfl, rfl, rfl, rfl, fun _ => rfl⟩
  | _ => exact ⟨rfl, rfl, rfl, rfl, rfl, rfl, rfl, rfl, rfl, fun h => h⟩

/-- What a call or a frame makes of an application's own stream, and of one not answered yet. -/
theorem Change.shape (hch : Change c p s s') (hn : p ∈ ownStreams → p ∉ c.active) :
    (p ∈ ownStreams → s.fin = false → s.total = s.headEnd → s'.fin = false ∧ s'.total = s'.headEnd) ∧
    (p ∉ ownStreams → s'.fin = false → s.fin = false ∧ s'.total = s.total) := by
  cases hch with
  | answered n headEnd ha hf hb =>
    exact ⟨fun ho => absurd ha (hn ho), fun _ h => absurd h (by simp)⟩
  | appended n ho => exact ⟨fun _ hf _ => ⟨hf, rfl⟩, fun hno => absurd ho hno⟩
  | raised => exact ⟨fun _ hf ht => ⟨hf, ht⟩, fun _ hf => ⟨hf, rfl⟩⟩
  | due => exact ⟨fun _ hf ht => ⟨hf, ht⟩, fun _ hf => ⟨hf, rfl⟩⟩
  | done => exact ⟨fun _ hf ht => ⟨hf, ht⟩, fun _ hf => ⟨hf, rfl⟩⟩

/-- The stream an effect is about keeps its identity: the obligations that follow. -/
theorem SendInv.turned_of_keeps (h : SendInv c out) (ho : (c.side p).isOpen = true)
    (hopen : (c'.side p).isOpen = (c.side p).isOpen) (hid : (c'.side p).id = (c.side p).id)
    (hok : (c'.side p).Ok) (hact : c'.active = c.active) (hwait : p ∈ c'.active → (c'.side p).fin = false → (c'.side p).total = 0)
    (hown : p ∈ ownStreams → (c'.side p).fin = false ∧ (c'.side p).total = (c'.side p).headEnd)
    (hidx : c'.nextUniIndex = c.nextUniIndex) (hnext : (c.side p).next ≤ (c'.side p).next)
    (hfin : (c.side p).fin = true → (c'.side p).fin = true)
    (hfresh : ∀ id o l f, out' id o l f → out id o l f ∨
      (id = (c'.side p).id ∧ o + l ≤ (c'.side p).next ∧ (f = true → (c'.side p).fin = true))) :
    Turned p c c' out out' := by
  have ho' : (c'.side p).isOpen = true := hopen.trans ho
  refine ⟨fun hc => ?_, fun _ => hok, fun hm => hact ▸ h.apart p hm, hwait, fun hm _ => ?_, fun hm _ => ?_, fun _ q hqp hq he => ?_,
    fun _ => .inl ⟨p, ho', hid⟩, fun id o l f hc => ?_, fun _ o l f hc => ?_⟩
  · rw [ho'] at hc
    cases hc
  · obtain ⟨-, -, k, hk, hk'⟩ := h.own p hm ho
    exact ⟨(hown hm).1, (hown hm).2, k, hidx ▸ hk, hid.trans hk'⟩
  · rw [hid]
    exact h.client p hm ho
  · exact hqp (h.ids q p hq ho (he.trans hid))
  · exact (hfresh id o l f hc).imp (fun hc => hc) fun hn => ⟨ho', hn⟩
  · rw [hid] at hc
    obtain ⟨hle, hf⟩ := h.within p ho o l f hc
    exact ⟨hle.trans hnext, fun ht => hfin (hf ht)⟩

/-- What framing makes of a send side. -/
theorem Framing.ok {s s' : SendSide} {b take n : Nat} (hf : Framing c s b take s' n) (h : s.Ok)
    (fin : Bool) : SendSide.Ok { s' with finSent := s'.finSent || fin } := by
  cases hf with
  | resent hl ht =>
    obtain ⟨habove, hset⟩ := RangeSet.remove_spec h.lost
    refine ⟨h.ordered, habove, fun v hv => ?_, h.acked, h.finAcked, h.done⟩
    exact h.lost_below v ((hset v).mp hv).1
  | fresh hl hn ht hm hd =>
    refine ⟨ht, h.lost, fun v hv => ?_, h.acked, h.finAcked, h.done⟩
    exact absurd (hl ▸ hv) (RangeSet.holds_nil v)
  | bare hl hn hf hs => exact ⟨h.ordered, h.lost, h.lost_below, h.acked, h.finAcked, h.done⟩

/-- What framing leaves alone, and where the bytes framed lie. -/
theorem Framing.keeps {b take n : Nat} (hf : Framing c s b take s' n)
    (h : s.Ok) : s'.isOpen = s.isOpen ∧ s'.id = s.id ∧ s'.fin = s.fin ∧ s'.total = s.total ∧
      s'.headEnd = s.headEnd ∧ s.next ≤ s'.next ∧ b + take ≤ s'.next := by
  cases hf with
  | @resent b e take rest hl ht =>
    refine ⟨rfl, rfl, rfl, rfl, rfl, le_rfl, ?_⟩
    -- the last byte framed is a lost one, or none is
    have habove := h.lost
    rw [hl] at habove
    have hlast : s.lost.Holds (e - 1) := by
      rw [hl]
      exact ⟨(b, e), .head _, by have := habove.2.1; dsimp only at this ⊢; omega⟩
    have := h.lost_below _ hlast
    have hlt := habove.2.1
    show b + take ≤ s.next
    omega
  | fresh hl hn ht hm hd =>
    exact ⟨rfl, rfl, rfl, rfl, rfl, Nat.le_add_right _ _, le_rfl⟩
  | bare hl hn hf hs =>
    exact ⟨rfl, rfl, rfl, rfl, rfl, le_rfl, hn⟩

theorem SendInv.change (h : SendInv c out) (ho : (c.side p).isOpen = true) (ht : Touch p c c')
    (hs : Change c p (c.side p) (c'.side p)) : SendInv c' out := by
  obtain ⟨hopen, hid, hnext, -, -, -, -, -, -, hfin⟩ := hs.keeps
  obtain ⟨hown, hwait⟩ := hs.shape (h.apart p)
  refine h.turned ht.others (fun q hq _ => ht.active ▸ hq) (Nat.le_of_eq ht.nextUniIndex.symm)
    ht.grows (h.turned_of_keeps ho hopen hid (hs.ok h ho rfl) ht.active ?_ ?_ ht.nextUniIndex
      (Nat.le_of_eq hnext.symm) hfin fun _ _ _ _ hc => .inl hc)
  · intro ha hf
    have ha : p ∈ c.active := ht.active ▸ ha
    obtain ⟨hf', ht'⟩ := hwait (fun hm => h.apart p hm ha) hf
    rw [ht']
    exact h.waiting p ha hf'
  · intro hm
    obtain ⟨hf, ht, -⟩ := h.own p hm ho
    exact hown hm hf ht

theorem SendInv.prepared (h : SendInv c out) (ho : (c.side p).isOpen = false) (ht : Touch p c c')
    (hs : ∃ headEnd trim, c'.side p = { c.side p with headEnd := headEnd, trimHead := trim }) :
    SendInv c' out := by
  obtain ⟨headEnd, trim, hs⟩ := hs
  have hclosed : (c'.side p).isOpen = false := by
    rw [hs]
    exact ho
  have hno : ∀ {P : Prop}, (c'.side p).isOpen = true → P := by
    intro P hc
    rw [hclosed] at hc
    cases hc
  have hb := h.blank p ho
  refine h.turned ht.others (fun q hq _ => ht.active ▸ hq) (Nat.le_of_eq ht.nextUniIndex.symm)
    ht.grows ⟨fun _ => ?_, hno, ?_, ?_, fun _ => hno, fun _ => hno, hno, ?_, fun _ _ _ _ hc => .inl hc,
      hno⟩
  · rw [hs]
    exact ⟨hb.headBase, hb.fin, hb.total, hb.next, hb.lost, hb.acked, hb.finSent, hb.finAcked,
      hb.resetDue, hb.resetSent, hb.sendDone⟩
  · rw [ht.active]
    exact h.apart p
  · intro _ _
    rw [hs]
    exact hb.total
  · intro hc
    rw [ho] at hc
    cases hc

/-- A stream opens with an id that no item bears. -/
theorem SendInv.opened {id : Nat} (h : SendInv c out) (ho : (c.side p).isOpen = false)
    (hp : p ∉ ownStreams) (hc : streamIsClient id = true) (hnew : ¬ Known c id)
    (ht : Touch p (c.setActive (c.active ++ [p])) c') (hs : (c'.side p).isOpen = true ∧ (c'.side p).id = id)
    (hb : (c.side p).Blank → (c'.side p).Blank) : SendInv c' out := by
  have hblank := hb (h.blank p ho)
  have hfree : ∀ q, (c.side q).isOpen = true → (c.side q).id ≠ (c'.side p).id := by
    intro q hq he
    exact hnew (.inl ⟨q, hq, he.trans hs.2⟩)
  refine h.turned ht.others ?_ (Nat.le_of_eq ht.nextUniIndex.symm) ⟨ht.grows.opened, ht.grows.closed⟩
    ⟨fun _ => hblank, fun _ => hblank.ok, fun hm => absurd hm hp, fun _ _ => hblank.total,
      fun hm => absurd hm hp, fun _ _ => ?_, fun _ q _ hq => hfree q hq, ?_,
      fun _ _ _ _ hc => .inl hc, fun _ o l f hc => ?_⟩
  · intro q hq hqp
    rw [ht.active] at hq
    exact (List.mem_append.mp hq).resolve_right fun he => hqp (List.mem_singleton.mp he)
  · rw [hs.2]
    exact hc
  · intro hc
    rw [ho] at hc
    cases hc
  · rw [hs.2] at hc
    exact absurd (h.known id o l f hc) hnew

/-- No stream has the next id of our own: ours have lower indices, the others are the client's. -/
theorem SendInv.own_unknown (h : SendInv c out) : ¬ Known c (c.nextUniIndex * 4 + 3) := by
  have hodd : streamIsClient (c.nextUniIndex * 4 + 3) = false := by
    unfold streamIsClient
    rw [Nat.and_one_is_mod]
    have : (c.nextUniIndex * 4 + 3) % 2 = 1 := by omega
    rw [this]
    rfl
  rintro (⟨q, hq, hid⟩ | ⟨hc, -⟩)
  · by_cases hm : q ∈ ownStreams
    · obtain ⟨-, -, k, hk, hid'⟩ := h.own q hm hq
      omega
    have := h.client q hm hq
    rw [hid, hodd] at this
    exact Bool.false_ne_true this
  · rw [hodd] at hc
    exact Bool.false_ne_true hc

theorem SendInv.openedOwn (h : SendInv c out) (ho : (c.side p).isOpen = false) (hp : p ∈ ownStreams)
    (ht : Touch p (c.setUniIndex (c.nextUniIndex + 1)) c')
    (hs : ∃ headEnd trim maxSend, (c.side p).headBase = 0 → c'.side p = { c.side p with
      isOpen := true, id := c.nextUniIndex * 4 + 3, headEnd := headEnd, trimHead := trim,
      total := headEnd, fin := false, maxSend := maxSend }) : SendInv c' out := by
  have hb := h.blank p ho
  obtain ⟨headEnd, trim, maxSend, hs⟩ := hs
  have hs := hs hb.headBase
  have hok : (c'.side p).Ok := by
    rw [hs]
    exact ⟨by dsimp only; rw [hb.next]; exact Nat.zero_le _, hb.ok.lost, hb.ok.lost_below,
      hb.ok.acked, fun hf => absurd (hb.finAcked ▸ hf) Bool.false_ne_true,
      fun hd => absurd (hb.sendDone ▸ hd) Bool.false_ne_true⟩
  refine h.turned ht.others (fun q hq _ => ht.active ▸ hq) ?_ ⟨ht.grows.opened, ht.grows.closed⟩
    ⟨fun hc => ?_, fun _ => hok, fun hm => ht.active ▸ h.apart p hm, fun hm => ?_, fun _ _ => ?_,
      fun hm => absurd hp hm, fun _ q _ hq => ?_, fun hc => ?_, fun _ _ _ _ hc => .inl hc,
      fun _ o l f hc => ?_⟩
  · rw [ht.nextUniIndex]
    exact Nat.le_succ _
  · rw [hs] at hc
    simp at hc
  · exact absurd (ht.active ▸ hm) (h.apart p hp)
  · rw [hs, ht.nextUniIndex]
    exact ⟨rfl, rfl, c.nextUniIndex, Nat.lt_succ_self _, rfl⟩
  · rw [hs]
    exact fun he => h.own_unknown (.inl ⟨q, hq, he⟩)
  · rw [ho] at hc
    cases hc
  · rw [hs] at hc
    exact absurd (h.known _ o l f hc) h.own_unknown

theorem SendInv.closed (h : SendInv c out) (hp : p ∈ c.active) (ho : (c'.side p).isOpen = false)
    (hb : (c'.side p).Blank) (hk : Known c' (c.side p).id)
    (hm : ∀ q, q ∈ c'.active ↔ q ∈ c.active ∧ q ≠ p) (ht : Touch p (c.setActive c'.active) c') :
    SendInv c' out := by
  have hno : ∀ {P : Prop}, (c'.side p).isOpen = true → P := by
    intro P hc
    rw [ho] at hc
    cases hc
  refine h.turned ht.others (fun q hq _ => ((hm q).mp hq).1) (Nat.le_of_eq ht.nextUniIndex.symm)
    ⟨ht.grows.opened, ht.grows.closed⟩
    ⟨fun _ => hb, hno, fun hm' hq => ?_, fun hq => ?_, fun _ => hno, fun _ => hno, hno, fun _ => hk,
      fun _ _ _ _ hc => .inl hc, hno⟩
  · exact h.apart p hm' hp
  · exact absurd rfl ((hm p).mp hq).2

/-- A STREAM frame is within what its stream has sent, once it is written. -/
theorem SendInv.framed {b take n : Nat} {s : SendSide} {data : Bytes} {fin : Bool}
    (h : SendInv c out) (hf : Framing c (c.side p) b take s n) (hd : data.length = take)
    (hfin : fin = ((c.side p).fin && b + take == (c.side p).total)) (ht : Touch p (c.addSent n) c')
    (hs : c'.side p = { s with finSent := s.finSent || fin }) :
    SendInv c' (out.add [.stream (c.side p).id b data fin]) := by
  have ho : (c.side p).isOpen = true := by
    by_contra hne
    exact hf.not_blank (h.blank p (by simpa using hne))
  have hok := h.side p ho
  obtain ⟨hopen, hid, hsfin, htotal, hend, hnext, hle⟩ := hf.keeps hok
  have hid' : (c'.side p).id = (c.side p).id := by
    rw [hs]
    exact hid
  refine h.turned ht.others (fun q hq _ => ht.active ▸ hq) (Nat.le_of_eq ht.nextUniIndex.symm)
    ⟨ht.grows.opened, ht.grows.closed⟩ (h.turned_of_keeps ho ?_ hid' ?_ ht.active ?_ ?_
      ht.nextUniIndex ?_ ?_ ?_)
  · rw [hs]
    exact hopen
  · rw [hs]
    exact hf.ok hok fin
  · intro ha hf'
    rw [hs] at hf' ⊢
    exact htotal.trans (h.waiting p (ht.active ▸ ha) (hsfin.symm.trans hf'))
  · intro hm
    obtain ⟨hf', ht', -⟩ := h.own p hm ho
    rw [hs]
    exact ⟨hsfin.trans hf', htotal.trans (ht'.trans hend.symm)⟩
  · rw [hs]
    exact hnext
  · intro hf'
    rw [hs]
    exact hsfin.trans hf'
  · rintro id o l f (hc | ⟨data', hm, hl⟩)
    · exact .inl hc
    · obtain ⟨rfl, rfl, rfl, rfl⟩ := OutFrame.stream.inj (List.mem_singleton.mp hm)
      refine .inr ⟨hid'.symm, ?_, fun hf' => ?_⟩
      · rw [hs, ← hl, hd]
        exact hle
      · rw [hs]
        rw [hfin] at hf'
        exact hsfin.trans (Bool.and_eq_true_iff.mp hf').1

theorem SendInv.reset {code : Nat} (h : SendInv c out) (hr : (c.side p).resetDue = true)
    (ht : Touch p c c') (hs : c'.side p = { c.side p with resetDue := false, resetSent := true }) :
    SendInv c' (out.add [.resetStream (c.side p).id code (c.side p).total]) := by
  have ho : (c.side p).isOpen = true := by
    by_contra hne
    have hb := h.blank p (by simpa using hne)
    rw [hb.resetDue] at hr
    exact Bool.false_ne_true hr
  have hok := h.side p ho
  refine h.turned ht.others (fun q hq _ => ht.active ▸ hq) (Nat.le_of_eq ht.nextUniIndex.symm)
    ht.grows (h.turned_of_keeps ho ?_ ?_ ?_ ht.active ?_ ?_ ht.nextUniIndex ?_ ?_ ?_)
  · rw [hs]
  · rw [hs]
  · rw [hs]
    refine ⟨hok.ordered, hok.lost, hok.lost_below, hok.acked, hok.finAcked, fun _ hr' => ?_⟩
    simp at hr'
  · intro ha hf
    rw [hs] at hf ⊢
    exact h.waiting p (ht.active ▸ ha) hf
  · intro hm
    obtain ⟨hf, ht', -⟩ := h.own p hm ho
    rw [hs]
    exact ⟨hf, ht'⟩
  · rw [hs]
  · intro hf
    rw [hs]
    exact hf
  · rintro id o l f (hc | ⟨data', hm, -⟩)
    · exact .inl hc
    · cases List.mem_singleton.mp hm

/-- **Every effect keeps the invariant**, the frames it writes being out from then on. -/
theorem SendInv.effect (h : SendInv c out) (he : SendEffect c c' fs) : SendInv c' (out.add fs) := by
  cases he with
  | same hs =>
    rw [Carried.add_nil]
    exact h.same hs.side hs.active hs.nextUniIndex hs.grows
  | credit hv hs =>
    rw [Carried.add_nil]
    exact h.same hs.side hs.active hs.nextUniIndex ⟨hs.grows.opened, hs.grows.closed⟩
  | params _ =>
    rw [Carried.add_nil]
    exact h.same (fun _ => rfl) rfl rfl (Grows.of_eq (fun _ => rfl) fun _ => rfl)
  | change ho ht hs =>
    rw [Carried.add_nil]
    exact h.change ho ht hs
  | prepared ho ht hs =>
    rw [Carried.add_nil]
    exact h.prepared ho ht hs
  | opened ho hp hc hnew ht hs hb =>
    rw [Carried.add_nil]
    exact h.opened ho hp hc hnew ht hs hb
  | own ho hp ht hs =>
    rw [Carried.add_nil]
    exact h.openedOwn ho hp ht hs
  | closed hp ho hb hk hm ht =>
    rw [Carried.add_nil]
    exact h.closed hp ho hb hk hm ht
  | framed hf hd hfin ht hs => exact h.framed hf hd hfin ht hs
  | reset hr ht hs => exact h.reset hr ht hs

theorem SendInv.effects (h : SendInv c out) (he : Effects c c' fs) : SendInv c' (out.add fs) := by
  induction he with
  | none =>
    rw [Carried.add_nil]
    exact h
  | snoc _ he ih =>
    refine (ih.effect he).mono fun id o l f hc => ?_
    unfold Carried.add at hc ⊢
    rcases hc with hc | ⟨data, hm, hl⟩
    · exact .inl (.inl hc)
    rcases List.mem_append.mp hm with hm | hm
    · exact .inl (.inr ⟨data, hm, hl⟩)
    · exact .inr ⟨data, hm, hl⟩

/-- An id once known stays known. -/
theorem SendInv.known_effect {id : Nat} (h : SendInv c out)
    (he : SendEffect c c' fs) (hk : Known c id) : Known c' id := by
  -- an empty item of the stream is as good as any
  have hmark : SendInv c fun i o l f => i = id ∧ o = 0 ∧ l = 0 ∧ f = false :=
    { h with
      known := by
        rintro i o l f ⟨rfl, -⟩
        exact hk
      within := by
        rintro p - o l f ⟨-, rfl, rfl, rfl⟩
        exact ⟨Nat.zero_le _, nofun⟩ }
  exact (hmark.effect he).known id 0 0 false (.inl ⟨rfl, rfl, rfl, rfl⟩)

/-- An open stream is found by its id. -/
theorem SendInv.find (h : SendInv c out) (ht : TableInv c) (ho : (c.side p).isOpen = true) :
    c.findStream (c.side p).id = some p := by
  cases hf : c.findStream (c.side p).id with
  | some q =>
    obtain ⟨-, hq, hid⟩ := findStream_some hf
    exact congrArg some (h.ids q p hq ho hid)
  | none =>
    exfalso
    have hlisted : p ∈ c.active ++ ownStreams := List.mem_append.mpr (ht.open_listed p ho)
    have hno := List.find?_eq_none.mp hf p hlisted
    have ho' : (c.streams p).isOpen = true := ho
    rw [ho'] at hno
    exact hno (by rw [Bool.true_and, beq_iff_eq]; rfl)

/-! ## §3. Acknowledged and lost items. -/

/-- The ranges of a stream with one more acknowledged. -/
def ackedWith (s : SendSide) (offset len : Nat) : RangeSet :=
  if len ≠ 0 then s.acked.add offset (offset + len) else s.acked

theorem ackedWith_spec (h : RangeSet.Above 0 s.acked) (offset len : Nat) :
    RangeSet.Above 0 (ackedWith s offset len) ∧
      ∀ v, (ackedWith s offset len).Holds v ↔ s.acked.Holds v ∨ (offset ≤ v ∧ v < offset + len) := by
  unfold ackedWith
  by_cases hl : len ≠ 0
  · rw [if_pos hl]
    exact RangeSet.add_len_spec h offset len
  rw [if_neg hl]
  refine ⟨h, fun v => ?_⟩
  exact ⟨.inl, fun hv => hv.resolve_right (by omega)⟩

/-- **What an acknowledgement makes of a send side**: the ranges grow; the head of a long-lived
    stream may be dropped up to where they begin; a stream whose every byte and FIN are in is
    done. -/
inductive AckEffect (s : SendSide) (offset len : Nat) (fin : Bool) : SendSide → Prop where
  | noted : AckEffect s offset len fin
      { s with acked := ackedWith s offset len, finAcked := s.finAcked || fin }
  | trimmed {upto : Nat} (ht : s.trimHead = true) (hu : s.headBase ≤ upto)
      (hin : ∀ v, s.headBase ≤ v → v < upto → (ackedWith s offset len).Holds v) :
      AckEffect s offset len fin
        { s with
          acked := (ackedWith s offset len).removeBelow upto, finAcked := s.finAcked || fin
          headBase := upto }
  | done (ht : s.trimHead = false) (hf : (s.finAcked || fin) = true)
      (hin : ∀ v < s.total, (ackedWith s offset len).Holds v) :
      AckEffect s offset len fin
        { s with
          acked := ackedWith s offset len, finAcked := s.finAcked || fin, sendDone := true }

/-- What dropping the head does: it ends where it did, and begins where the ranges say. -/
theorem trimAcked_effect (s : QuicStream) : (trimAcked s).sendSide = s.sendSide ∨
    ∃ upto, s.headBase ≤ upto ∧ (∀ v, s.headBase ≤ v → v < upto → s.acked.Holds v) ∧ (trimAcked s).sendSide =
        { s.sendSide with headBase := upto, acked := s.acked.removeBelow upto } := by
  unfold trimAcked
  dsimp only
  split
  · next hu =>
    refine .inr ⟨s.acked.contiguousFrom s.headBase, by omega,
      fun v h₁ h₂ => RangeSet.holds_of_contiguousFrom ⟨h₁, h₂⟩, ?_⟩
    have hle := hu.2
    unfold QuicStream.headEnd at hle
    unfold QuicStream.sendSide QuicStream.headEnd
    simp only [List.length_drop, SendSide.mk.injEq, true_and, and_true]
    omega
  · exact .inl rfl

theorem settleAcked_effect (s : QuicStream) (offset len : Nat) (fin : Bool) :
    AckEffect s.sendSide offset len fin (settleAcked (noteAcked s offset len fin)).sendSide := by
  have hnoted : (noteAcked s offset len fin).sendSide = { s.sendSide with
      acked := ackedWith s.sendSide offset len, finAcked := s.finAcked || fin } := rfl
  unfold settleAcked
  split
  · next ht =>
    rcases trimAcked_effect (noteAcked s offset len fin) with he | ⟨upto, hu, hin, he⟩
    · rw [he, hnoted]
      exact .noted
    rw [he, hnoted]
    exact .trimmed ht hu hin
  · next ht =>
    split
    · next hd =>
      simp only [Bool.and_eq_true, Bool.or_eq_true, beq_iff_eq] at hd
      have hkeep : s.trimHead = false := Bool.eq_false_iff.mpr ht
      refine .done hkeep hd.1.2 fun v hv => ?_
      rcases hd.2 with h0 | hin
      · have hv : v < s.total := hv
        have h0 : s.total = 0 := h0
        omega
      · exact RangeSet.holds_of_contains hin ⟨Nat.zero_le v, hv⟩
    · exact .noted

/-- An acknowledgement keeps a send side in order, and its identity. -/
theorem AckEffect.ok {s s' : SendSide} {offset len : Nat} {fin : Bool}
    (he : AckEffect s offset len fin s') (h : s.Ok) (hf : fin = true → s.fin = true) : s'.Ok := by
  obtain ⟨habove, hset⟩ := ackedWith_spec h.acked offset len
  have hfin : (s.finAcked || fin) = true → s.fin = true := by
    intro ht
    rcases Bool.or_eq_true_iff.mp ht with hfa | hfa
    · exact h.finAcked hfa
    · exact hf hfa
  cases he with
  | noted =>
    refine ⟨h.ordered, h.lost, h.lost_below, habove, hfin, fun hd hr => ?_⟩
    obtain ⟨ht, hfa, hall⟩ := h.done hd hr
    refine ⟨ht, ?_, fun v hv => (hset v).mpr (.inl (hall v hv))⟩
    rw [hfa, Bool.true_or]
  | trimmed ht hu hin =>
    refine ⟨h.ordered, h.lost, h.lost_below, (RangeSet.removeBelow_spec habove).1, hfin,
      fun hd hr => ?_⟩
    -- a stream that is trimmed is never done but by a reset
    have := (h.done hd hr).1
    rw [ht] at this
    cases this
  | done ht hfa hin =>
    exact ⟨h.ordered, h.lost, h.lost_below, habove, hfin, fun _ _ => ⟨ht, hfa, hin⟩⟩

theorem AckEffect.keeps {offset len : Nat} {fin : Bool} (he : AckEffect s offset len fin s') :
    s'.isOpen = s.isOpen ∧ s'.id = s.id ∧ s'.next = s.next ∧ s'.fin = s.fin ∧ s'.total = s.total ∧
      s'.headEnd = s.headEnd ∧ s'.lost = s.lost ∧ s'.finSent = s.finSent ∧
      s'.resetSent = s.resetSent ∧ s'.maxSend = s.maxSend := by
  cases he <;> exact ⟨rfl, rfl, rfl, rfl, rfl, rfl, rfl, rfl, rfl, rfl⟩

/-- What `apply_acked` does with an item: nothing where no stream is found for it. -/
theorem applyAcked_send (c : Conn) (it : SentItem) : (c.applyAcked it = c ∧
      ∀ id offset len fin, it = .stream id offset len fin → c.findStream id = none) ∨
    ∃ id offset len fin p, it = .stream id offset len fin ∧ c.findStream id = some p ∧
      Touch p c (c.applyAcked it) ∧ AckEffect (c.side p) offset len fin ((c.applyAcked it).side p) := by
  cases it with
  | stream id offset len fin =>
    unfold applyAcked
    dsimp only
    cases hf : c.findStream id with
    | none =>
      refine .inl ⟨rfl, fun id' o l f he => ?_⟩
      obtain ⟨rfl, -⟩ := SentItem.stream.inj he
      exact hf
    | some p =>
      dsimp only
      obtain ⟨-, ho, -⟩ := findStream_some hf
      rw [ho, if_neg (by decide)]
      refine .inr ⟨id, offset, len, fin, p, rfl, hf, Touch.modify c p _, ?_⟩
      rw [side_modify_self]
      exact settleAcked_effect (c.streams p) offset len fin
  | _ => exact .inl ⟨rfl, fun _ _ _ _ he => absurd he (by simp)⟩

/-- The obligations for a stream that keeps its id, its bytes and its end. -/
theorem SendInv.touched (h : SendInv c out) (ho : (c.side p).isOpen = true) (ht : Touch p c c')
    (hok : (c'.side p).Ok) (hk : (c'.side p).isOpen = (c.side p).isOpen ∧ (c'.side p).id = (c.side p).id ∧
      (c'.side p).next = (c.side p).next ∧ (c'.side p).fin = (c.side p).fin ∧
      (c'.side p).total = (c.side p).total ∧ (c'.side p).headEnd = (c.side p).headEnd) : SendInv c' out := by
  obtain ⟨hopen, hid, hnext, hfin, htotal, hend⟩ := hk
  refine h.turned ht.others (fun q hq _ => ht.active ▸ hq) (Nat.le_of_eq ht.nextUniIndex.symm)
    ht.grows (h.turned_of_keeps ho hopen hid hok ht.active ?_ ?_ ht.nextUniIndex
      (Nat.le_of_eq hnext.symm) (fun hf => hfin.trans hf) fun _ _ _ _ hc => .inl hc)
  · intro ha hf
    rw [htotal]
    exact h.waiting p (ht.active ▸ ha) (hfin.symm.trans hf)
  · intro hm
    obtain ⟨hf, ht', -⟩ := h.own p hm ho
    exact ⟨hfin.trans hf, htotal.trans (ht'.trans hend.symm)⟩

theorem SendInv.acked (h : SendInv c out) {it : SentItem}
    (hit : ∀ id offset len fin, it = .stream id offset len fin → out id offset len fin) :
    SendInv (c.applyAcked it) out := by
  rcases applyAcked_send c it with ⟨he, -⟩ | ⟨id, offset, len, fin, p, hi, hf, ht, he⟩
  · rw [he]
    exact h
  obtain ⟨-, ho, hid⟩ := findStream_some hf
  have hout : out (c.side p).id offset len fin := by
    have := hit id offset len fin hi
    rwa [← hid] at this
  obtain ⟨hopen, hid', hnext, hfin, htotal, hend, -⟩ := he.keeps
  exact h.touched ho ht (he.ok (h.side p ho) (h.within p ho offset len fin hout).2)
    ⟨hopen, hid', hnext, hfin, htotal, hend⟩

/-- The ranges of a stream with one more lost. -/
def lostWith (s : SendSide) (offset len : Nat) : RangeSet :=
  if len ≠ 0 then s.lost.add offset (offset + len) else s.lost

theorem lostWith_spec (h : RangeSet.Above 0 s.lost) (offset len : Nat) :
    RangeSet.Above 0 (lostWith s offset len) ∧
      ∀ v, (lostWith s offset len).Holds v ↔ s.lost.Holds v ∨ (offset ≤ v ∧ v < offset + len) := by
  unfold lostWith
  by_cases hl : len ≠ 0
  · rw [if_pos hl]
    exact RangeSet.add_len_spec h offset len
  rw [if_neg hl]
  refine ⟨h, fun v => ?_⟩
  exact ⟨.inl, fun hv => hv.resolve_right (by omega)⟩

/-- **What `apply_lost` does to the send sides.** -/
inductive LostEffect (c : Conn) : SentItem → Conn → Prop where
  | other {it : SentItem} {c' : Conn} (hn : ∀ id offset len fin, it ≠ .stream id offset len fin)
      (h : SendEffect c c' []) : LostEffect c it c'
  | gone {id offset len : Nat} {fin : Bool} (hf : c.findStream id = none) :
      LostEffect c (.stream id offset len fin) c
  | past {id offset len : Nat} {fin : Bool} {p : Ptr} (hf : c.findStream id = some p)
      (hd : (c.side p).sendDone = true ∨ (c.side p).resetSent = true) :
      LostEffect c (.stream id offset len fin) c
  | again {id offset len : Nat} {fin : Bool} {c' : Conn} {p : Ptr} (hf : c.findStream id = some p)
      (hr : (c.side p).resetSent = false) (ht : Touch p c c')
      (hs : c'.side p = { c.side p with
        lost := lostWith (c.side p) offset len, finSent := (c.side p).finSent && !fin }) :
      LostEffect c (.stream id offset len fin) c'

theorem applyLost_send (c : Conn) (it : SentItem) : LostEffect c it (c.applyLost it) := by
  cases it with
  | stream id offset len fin =>
    unfold applyLost
    dsimp only
    cases hf : c.findStream id with
    | none => exact .gone hf
    | some p =>
      dsimp only
      obtain ⟨-, ho, -⟩ := findStream_some hf
      split
      · next hd =>
        refine .past hf ?_
        rw [ho] at hd
        simpa [side, QuicStream.sendSide] using hd
      · next hd =>
        have hd : (c.streams p).resetSent = false := by
          simp only [Bool.or_eq_true, not_or, Bool.not_eq_true] at hd
          exact hd.2
        have htouch : Touch p c (c.modify p fun s => noteLost s offset len fin) := Touch.modify c p _
        have hside := side_modify_self c p fun s => noteLost s offset len fin
        split
        · have hq := SameSend.of_linkOnly (enqueue_linkOnly
            (c.modify p fun s => noteLost s offset len fin) p)
          exact .again hf hd (htouch.trans (Touch.of_same p hq)) ((hq.side p).trans hside)
        · exact .again hf hd htouch hside
  | maxData =>
    exact .other (by simp) (.same (SameSend.of_eq rfl rfl rfl rfl rfl rfl
      (Grows.of_eq (fun _ => rfl) fun _ => rfl)))
  | maxStreams =>
    exact .other (by simp) (.same (SameSend.of_eq rfl rfl rfl rfl rfl rfl
      (Grows.of_eq (fun _ => rfl) fun _ => rfl)))
  | maxStreamData id =>
    refine .other (by simp) (.same ?_)
    unfold applyLost
    dsimp only
    split
    · exact SameSend.refl c
    split
    · exact same_grant ..
    · exact SameSend.refl c
  | resetStream id =>
    refine .other (by simp) ?_
    unfold applyLost
    dsimp only
    cases hf : c.findStream id with
    | none => exact .same (SameSend.refl c)
    | some p =>
      obtain ⟨-, ho, -⟩ := findStream_some hf
      dsimp only
      split
      · refine .change ho ((Touch.modify c p _).trans (Touch.of_same p (same_setControl _ _))) ?_
        have hside : ∀ f ps, ((c.modify p f).setControl ps).side p = (f (c.streams p)).sendSide :=
          fun f _ => side_modify_self c p f
        rw [hside]
        exact .due
      · exact .same (SameSend.refl c)
  | stopSending id =>
    refine .other (by simp) (.same ?_)
    unfold applyLost
    dsimp only
    split
    · exact SameSend.refl c
    split
    · exact (SameSend.modify c _ _ rfl).trans (same_setControl _ _)
    · exact SameSend.refl c

theorem SendInv.lost (h : SendInv c out) {it : SentItem} (he : LostEffect c it c')
    (hit : ∀ id offset len fin, it = .stream id offset len fin → out id offset len fin) : SendInv c' out := by
  cases he with
  | other _ he =>
    have := h.effect he
    rwa [Carried.add_nil] at this
  | gone _ => exact h
  | past _ _ => exact h
  | @again id offset len fin c' p hf hr ht hs =>
    obtain ⟨-, ho, hid⟩ := findStream_some hf
    have hout : out (c.side p).id offset len fin := by
      have := hit id offset len fin rfl
      rwa [← hid] at this
    obtain ⟨hle, -⟩ := h.within p ho offset len fin hout
    have hok := h.side p ho
    obtain ⟨habove, hset⟩ := lostWith_spec hok.lost offset len
    refine h.touched ho ht ?_ ?_
    · rw [hs]
      refine ⟨hok.ordered, habove, fun v hv => ?_, hok.acked, hok.finAcked, hok.done⟩
      rcases (hset v).mp hv with hv | hv
      · exact hok.lost_below v hv
      show v < (c.side p).next
      omega
    · rw [hs]
      exact ⟨rfl, rfl, rfl, rfl, rfl, rfl⟩

/-! ## §4. Calls and rounds. -/

/-- **What a call of the application does to the send sides.** -/
theorem call_effects {op : Op} (ht : TableInv c) (hs : c.call op = some c') :
    Effects c c' [] ∧ TableInv c' := by
  unfold call at hs
  split at hs
  · next hcall =>
    refine ⟨?_, step_table ht hs⟩
    cases op with
    | streamReady p =>
      cases hs
      exact .same (SameSend.of_linkOnly (enqueue_linkOnly ..))
    | close appError code reason =>
      cases hs
      exact .same ((same_walk 0).close ..)
    | frame => cases hcall
    | acked => cases hcall
    | lost => cases hcall
    | maxDataTurn => cases hcall
    | creditTurn => cases hcall
    | controlTurn => cases hcall
    | streamTurn => cases hcall
    | maxStreamsTurn => cases hcall
    | appendHead p data =>
      simp only [step, Option.ite_none_right_eq_some, Option.some.injEq] at hs
      obtain ⟨ho, rfl⟩ := hs
      exact .one (appendHead_send ho (of_decide_eq_true hcall) data)
    | answer p a =>
      simp only [step, Option.ite_none_right_eq_some, Option.some.injEq] at hs
      obtain ⟨ho, rfl⟩ := hs
      obtain ⟨ha, hf⟩ := of_decide_eq_true hcall
      exact .one (answer_send ho ha hf a)
    | _ =>
      simp only [step, Option.ite_none_right_eq_some, Option.some.injEq] at hs
      obtain ⟨hg, rfl⟩ := hs
      first
        | exact .one (.params hg.2)
        | exact .same (same_setState ..)
        | exact .one (openOwn_send hg.2 hg.1 ..)
        | exact .same ((same_walk _).streamConsumed (fun c => same_grant c _) _)
        | exact .same ((same_walk _).streamWindow (fun c => same_grant c _) _)
        | exact .one (streamReset_send hg _)
        | exact .same (same_streamStopSending ..)
        | exact .one (closeStream_send hg.1 ht)
  · simp at hs

/-- **What a round of the packetiser does to the send sides.** -/
theorem turn_round {op : Op} {r : Turn} (ht : TableInv c) (h : SendInv c out) (hr : c.turn op = some r) :
    Round c op r.conn (r.frames.filter OutFrame.discloses) ∧ TableInv r.conn := by
  cases op with
  | maxDataTurn room =>
    cases hr
    refine ⟨?_, table_of_same (SameReceive.of_quiet (quiet_maxDataTurn ..)) ht⟩
    have hf : (c.maxDataTurn room).frames.filter OutFrame.discloses = [] := by
      unfold maxDataTurn
      dsimp only
      split <;> rfl
    rw [hf]
    exact .quiet (.same (same_maxDataTurn ..))
  | creditTurn room =>
    cases hr
    refine ⟨?_, table_of_same (SameReceive.of_quiet (quiet_creditTurn ..)) ht⟩
    have hf : (c.creditTurn room).frames.filter OutFrame.discloses = [] := by
      unfold creditTurn
      split
      · rfl
      dsimp only
      split
      · rfl
      · split <;> rfl
    rw [hf]
    exact .quiet (.same (same_creditTurn ..))
  | controlTurn room =>
    cases hr
    refine ⟨controlTurn_round h.blank room, ?_⟩
    rcases controlTurn_effect c room with hq | ⟨k, p, hq, he⟩
    · exact table_of_same (SameReceive.of_quiet hq) ht
    rw [he]
    exact table_of_same ((SameReceive.of_quiet hq).trans
      (SameReceive.of_linkOnly (dequeue_linkOnly ..))) ht
  | streamTurn room read =>
    cases hr
    exact ⟨streamTurn_round h.blank room read,
      table_of_same (streamEffect_sameReceive (streamTurn_effect ..)) ht⟩
  | maxStreamsTurn room eliciting =>
    cases hr
    refine ⟨?_, table_of_same (SameReceive.of_quiet (quiet_maxStreamsTurn ..)) ht⟩
    have hf : (c.maxStreamsTurn room eliciting).frames.filter OutFrame.discloses = [] := by
      unfold maxStreamsTurn
      dsimp only
      split <;> rfl
    rw [hf]
    exact .quiet (.same (same_maxStreamsTurn ..))
  | _ => simp [turn] at hr

end Conn

end Agensio.Quic
