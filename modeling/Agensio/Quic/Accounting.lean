/-
  Agensio.Quic.Accounting — no sent byte is forgotten.

  A byte of a stream is unsent, carried by a packet on record, lost, or
  acknowledged; a FIN likewise.  `Accounted` says so for one stream, and
  `CryptoOut.Accounted` for the CRYPTO bytes of one space.

  The argument is the same at every step: an item leaves the record only
  into `acked` or `lost`, and what leaves `lost` is put on record in the
  same round.

  Main result: `no_sent_byte_forgotten`.
-/
import Agensio.Quic.Outgoing

namespace Agensio.Quic

open Agensio.Lib

/-! ## §1. One stream. -/

/-- Every byte sent and the FIN are acknowledged, lost, or carried by an item that is out. -/
structure SendSide.Accounted (s : SendSide) (out : Carried) : Prop where
  bytes : ∀ v < s.next, v < s.headBase ∨ s.acked.Holds v ∨ s.lost.Holds v ∨
    ∃ offset len fin, out s.id offset len fin ∧ offset ≤ v ∧ v < offset + len
  fin : s.finSent = true → s.finAcked = true ∨ ∃ offset len, out s.id offset len true

variable {s : SendSide}

theorem SendSide.Blank.accounted (h : s.Blank) (out : Carried) : s.Accounted out where
  bytes := by
    intro v hv
    rw [h.next] at hv
    exact absurd hv (Nat.not_lt_zero v)
  fin := by
    intro hf
    rw [h.finSent] at hf
    cases hf

/-- The fields an account reads are as before. -/
theorem SendSide.Accounted.of_eq {s' : SendSide} {out : Carried} (h : s.Accounted out)
    (hid : s'.id = s.id) (hn : s'.next = s.next) (hb : s'.headBase = s.headBase)
    (ha : s'.acked = s.acked) (hl : s'.lost = s.lost) (hs : s'.finSent = s.finSent)
    (hf : s'.finAcked = s.finAcked) : s'.Accounted out := by
  refine ⟨?_, ?_⟩
  · rw [hid, hn, hb, ha, hl]
    exact h.bytes
  · rw [hid, hs, hf]
    exact h.fin

/-- What is out for the stream stays out. -/
theorem SendSide.Accounted.mono {out out' : Carried} (h : s.Accounted out)
    (hle : ∀ o l f, out s.id o l f → out' s.id o l f) : s.Accounted out' := by
  refine ⟨fun v hv => ?_, fun hs => ?_⟩
  · rcases h.bytes v hv with hv | hv | hv | ⟨o, l, f, hc, hv⟩
    · exact .inl hv
    · exact .inr (.inl hv)
    · exact .inr (.inr (.inl hv))
    · exact .inr (.inr (.inr ⟨o, l, f, hle o l f hc, hv⟩))
  · exact (h.fin hs).imp (fun hf => hf) fun ⟨o, l, hc⟩ => ⟨o, l, hle o l true hc⟩

namespace Conn

variable {c c' : Conn} {p : Ptr} {out out' : Carried}

/-- Each open stream that was not reset is accounted for. -/
def Accounted (c : Conn) (out : Carried) : Prop :=
  ∀ p, (c.side p).isOpen = true → (c.side p).resetSent = false → (c.side p).Accounted out

theorem Accounted.mono (h : c.Accounted out) (hle : ∀ id o l f, out id o l f → out' id o l f) :
    c.Accounted out' :=
  fun p ho hr => (h p ho hr).mono (hle _)

/-- One stream changes; the others are accounted for as before. -/
theorem Accounted.turned (h : c.Accounted out) (ho : ∀ q, q ≠ p → c'.side q = c.side q)
    (hp : (c'.side p).isOpen = true → (c'.side p).resetSent = false → (c'.side p).Accounted out) :
    c'.Accounted out := by
  intro q hq hr
  by_cases hqp : q = p
  · rw [hqp] at hq hr ⊢
    exact hp hq hr
  rw [ho q hqp] at hq hr ⊢
  exact h q hq hr

variable {fin : Bool} {it : SentItem}

/-- Bytes that are framed go from `lost`, or from the unsent, into the item written with them. -/
theorem Framing.accounted {s s' : SendSide} {b take n : Nat}
    (hf : Framing c s b take s' n) (hok : s.Ok) (h : s.Accounted out)
    (hle : ∀ o l f, out s.id o l f → out' s.id o l f) (hnew : out' s.id b take fin) :
    SendSide.Accounted { s' with finSent := s'.finSent || fin } out' := by
  have h := h.mono hle
  have hfin : ∀ sent : Bool, (sent = true → s.finAcked = true ∨ ∃ o l, out' s.id o l true) →
      (sent || fin) = true → s.finAcked = true ∨ ∃ o l, out' s.id o l true := by
    intro sent hsent ht
    rcases Bool.or_eq_true_iff.mp ht with hs | hs
    · exact hsent hs
    rw [hs] at hnew
    exact .inr ⟨b, take, hnew⟩
  cases hf with
  | resent hl ht =>
    obtain ⟨-, hset⟩ := @RangeSet.remove_spec 0 b (b + take) s.lost hok.lost
    refine ⟨fun v hv => ?_, hfin _ h.fin⟩
    rcases h.bytes v hv with hv | hv | hv | hv
    · exact .inl hv
    · exact .inr (.inl hv)
    · -- a lost byte stays lost, or is framed now
      by_cases hin : b ≤ v ∧ v < b + take
      · exact .inr (.inr (.inr ⟨b, take, fin, hnew, hin⟩))
      · exact .inr (.inr (.inl ((hset v).mpr ⟨hv, hin⟩)))
    · exact .inr (.inr (.inr hv))
  | fresh hl hn ht hm hd =>
    refine ⟨fun v hv => ?_, hfin _ h.fin⟩
    have hv : v < s.next + take := hv
    by_cases hold : v < s.next
    · exact h.bytes v hold
    · exact .inr (.inr (.inr ⟨s.next, take, fin, hnew, by omega⟩))
  | bare hl hn hf hs => exact ⟨h.bytes, hfin _ h.fin⟩

/-- **Every effect keeps the account**, the frames it writes being out from then on. -/
theorem Accounted.effect {fs : List OutFrame} (ha : c.Accounted out) (h : SendInv c out)
    (he : SendEffect c c' fs) : c'.Accounted (out.add fs) := by
  have hsame : (∀ q, c'.side q = c.side q) → c'.Accounted (out.add []) := by
    intro hs p ho hr
    rw [Carried.add_nil]
    rw [hs] at ho hr ⊢
    exact ha p ho hr
  cases he with
  | same hs => exact hsame hs.side
  | credit _ hs => exact hsame hs.side
  | params _ => exact hsame fun _ => rfl
  | @change c' p ho ht hs =>
    rw [Carried.add_nil]
    obtain ⟨hopen, hid, hnext, hlost, hacked, hbase, hsent, hfa, hreset, -⟩ := hs.keeps
    exact ha.turned ht.others fun _ hr => (ha p ho (hreset.symm.trans hr)).of_eq hid hnext hbase
      hacked hlost hsent hfa
  | @prepared c' p ho ht hs =>
    rw [Carried.add_nil]
    obtain ⟨_, _, hs⟩ := hs
    refine ha.turned ht.others fun hc => ?_
    rw [hs, ho] at hc
    cases hc
  | @opened c' id p ho hp hc hnew ht hs hb =>
    rw [Carried.add_nil]
    exact ha.turned ht.others fun _ _ => (hb (h.blank p ho)).accounted out
  | @own c' p ho hp ht hs =>
    rw [Carried.add_nil]
    have hb := h.blank p ho
    obtain ⟨_, _, _, hs⟩ := hs
    refine ha.turned ht.others fun _ _ => ?_
    rw [hs hb.headBase]
    refine ⟨fun v hv => ?_, fun hf => ?_⟩
    · rw [hb.next] at hv
      exact absurd hv (Nat.not_lt_zero v)
    · rw [hb.finSent] at hf
      cases hf
  | @closed c' p hp ho hb hk hm ht =>
    rw [Carried.add_nil]
    refine ha.turned ht.others fun hc => ?_
    rw [ho] at hc
    cases hc
  | @framed c' p b take n s data fin hf hd hfin ht hs =>
    have ho : (c.side p).isOpen = true := by
      by_contra hne
      exact hf.not_blank (h.blank p (by simpa using hne))
    have hok := h.side p ho
    have hle : ∀ id o l f, out id o l f →
        out.add [.stream (c.side p).id b data fin] id o l f := fun _ _ _ _ hc => .inl hc
    refine (ha.mono hle).turned ht.others fun _ hr => ?_
    rw [hs] at hr ⊢
    refine hf.accounted hok (ha p ho ?_) (hle _) (.inr ⟨data, List.mem_singleton.mpr rfl, hd⟩)
    rw [← hr]
    cases hf <;> rfl
  | @reset c' p code hr ht hs =>
    refine (ha.mono fun _ _ _ _ hc => .inl hc).turned ht.others fun _ hc => ?_
    rw [hs] at hc
    simp at hc

theorem Accounted.effects {fs : List OutFrame} (ha : c.Accounted out) (h : SendInv c out)
    (he : Effects c c' fs) : c'.Accounted (out.add fs) := by
  induction he with
  | none =>
    rw [Carried.add_nil]
    exact ha
  | snoc hs he ih =>
    refine (ih.effect (h.effects hs) he).mono fun id o l f hc => ?_
    rcases hc with (hc | ⟨data, hm, hl⟩) | ⟨data, hm, hl⟩
    · exact .inl hc
    · exact .inr ⟨data, List.mem_append_left _ hm, hl⟩
    · exact .inr ⟨data, List.mem_append_right _ hm, hl⟩

/-! ## §2. An item comes back. -/

/-- The item `it` leaves those that are out. -/
def Leaves (it : SentItem) (out out' : Carried) : Prop :=
  ∀ id o l f, out id o l f → out' id o l f ∨ it = .stream id o l f

/-- The stream of the item changes; the others never counted on it. -/
theorem Accounted.itemTurned {id offset len : Nat}
    (ha : c.Accounted out) (h : SendInv c out) (hi : it = .stream id offset len fin)
    (hf : c.findStream id = some p) (hout : Leaves it out out') (ho : ∀ q, q ≠ p → c'.side q = c.side q)
    (hp : (c'.side p).isOpen = true → (c'.side p).resetSent = false → (c'.side p).Accounted out') :
    c'.Accounted out' := by
  obtain ⟨-, hop, hid⟩ := findStream_some hf
  intro q hq hr
  by_cases hqp : q = p
  · rw [hqp] at hq hr ⊢
    exact hp hq hr
  rw [ho q hqp] at hq hr ⊢
  refine (ha q hq hr).mono fun o l f hc => (hout _ o l f hc).resolve_right fun he => ?_
  rw [hi] at he
  have hsame : (c.side p).id = (c.side q).id := hid.trans (SentItem.stream.inj he).1
  exact hqp (h.ids q p hq hop hsame.symm)

/-- No stream counts on an item whose stream is not found. -/
theorem Accounted.itemGone (ha : c.Accounted out) (h : SendInv c out) (ht : TableInv c)
    (hn : ∀ id offset len fin, it = .stream id offset len fin → c.findStream id = none)
    (hout : Leaves it out out') : c.Accounted out' := by
  intro q hq hr
  refine (ha q hq hr).mono fun o l f hc => (hout _ o l f hc).resolve_right fun he => ?_
  have hfind := h.find ht hq
  rw [hn _ o l f he] at hfind
  simp at hfind

/-- The account of the stream, with the bytes of the item among the acknowledged ones. -/
theorem AckEffect.accounted {s s' : SendSide} {offset len : Nat}
    (he : AckEffect s offset len fin s') (hok : s.Ok) (h : s.Accounted out)
    (hout : ∀ o l f, out s.id o l f → out' s.id o l f ∨ (o = offset ∧ l = len ∧ f = fin)) :
    s'.Accounted out' := by
  obtain ⟨habove, hset⟩ := ackedWith_spec hok.acked offset len
  have hbytes : ∀ v < s.next, v < s.headBase ∨ (ackedWith s offset len).Holds v ∨ s.lost.Holds v ∨
      ∃ o l f, out' s.id o l f ∧ o ≤ v ∧ v < o + l := by
    intro v hv
    rcases h.bytes v hv with hv | hv | hv | ⟨o, l, f, hc, hv⟩
    · exact .inl hv
    · exact .inr (.inl ((hset v).mpr (.inl hv)))
    · exact .inr (.inr (.inl hv))
    rcases hout o l f hc with hc | ⟨rfl, rfl, -⟩
    · exact .inr (.inr (.inr ⟨o, l, f, hc, hv⟩))
    · exact .inr (.inl ((hset v).mpr (.inr hv)))
  have hfin : s.finSent = true → (s.finAcked || fin) = true ∨ ∃ o l, out' s.id o l true := by
    intro hs
    rcases h.fin hs with hf | ⟨o, l, hc⟩
    · exact .inl (by rw [hf, Bool.true_or])
    rcases hout o l true hc with hc | ⟨-, -, hf⟩
    · exact .inr ⟨o, l, hc⟩
    · exact .inl (by rw [← hf, Bool.or_true])
  cases he with
  | noted => exact ⟨hbytes, hfin⟩
  | @trimmed upto ht hu hin =>
    obtain ⟨-, hcut⟩ := @RangeSet.removeBelow_spec 0 upto _ habove
    refine ⟨fun v hv => ?_, hfin⟩
    rcases hbytes v hv with hv | hv | hv | hv
    · exact .inl (hv.trans_le hu)
    · -- an acknowledged byte is dropped with the head, or still in the ranges
      by_cases hlt : v < upto
      · exact .inl hlt
      · exact .inr (.inl ((hcut v).mpr ⟨hv, Nat.le_of_not_lt hlt⟩))
    · exact .inr (.inr (.inl hv))
    · exact .inr (.inr (.inr hv))
  | done ht hf hin => exact ⟨hbytes, hfin⟩

theorem Accounted.acked (ha : c.Accounted out) (h : SendInv c out) (ht : TableInv c)
    (hout : Leaves it out out') : (c.applyAcked it).Accounted out' := by
  rcases applyAcked_send c it with ⟨he, hn⟩ | ⟨id, offset, len, fin, p, hi, hf, htouch, he⟩
  · rw [he]
    exact ha.itemGone h ht hn hout
  obtain ⟨-, ho, hid⟩ := findStream_some hf
  refine ha.itemTurned h hi hf hout htouch.others fun _ hr => ?_
  obtain ⟨-, -, -, -, -, -, -, -, hreset, -⟩ := he.keeps
  refine he.accounted (h.side p ho) (ha p ho (hreset.symm.trans hr)) fun o l f hc => ?_
  refine (hout _ o l f hc).imp (fun hc => hc) fun heq => ?_
  rw [hi] at heq
  obtain ⟨-, rfl, rfl, rfl⟩ := SentItem.stream.inj heq
  exact ⟨rfl, rfl, rfl⟩

theorem Accounted.lost (ha : c.Accounted out) (h : SendInv c out) (ht : TableInv c)
    (he : LostEffect c it c') (hout : Leaves it out out') : c'.Accounted out' := by
  cases he with
  | other hn he =>
    have hkeep := ha.effect h he
    rw [Carried.add_nil] at hkeep
    exact hkeep.mono fun id o l f hc => (hout id o l f hc).resolve_right (hn id o l f)
  | @gone id offset len fin hf =>
    refine ha.itemGone h ht (fun id' o l f he => ?_) hout
    obtain ⟨rfl, -⟩ := SentItem.stream.inj he
    exact hf
  | @past id offset len fin p hf hd =>
    refine ha.itemTurned h rfl hf hout (fun _ _ => rfl) fun ho hr => ?_
    -- a stream that is done has every byte and the FIN acknowledged
    have hok := h.side p ho
    obtain ⟨-, hfa, hall⟩ := hok.done (hd.resolve_right (by rw [hr]; decide)) hr
    refine ⟨fun v hv => ?_, fun _ => .inl hfa⟩
    exact .inr (.inl (hall v (Nat.lt_of_lt_of_le hv hok.ordered)))
  | @again id offset len fin c' p hf hr ht hs =>
    obtain ⟨-, ho, hid⟩ := findStream_some hf
    refine ha.itemTurned h rfl hf hout ht.others fun _ _ => ?_
    have hok := h.side p ho
    have hacc := ha p ho hr
    obtain ⟨-, hset⟩ := lostWith_spec hok.lost offset len
    have hleaves : ∀ o l f, out (c.side p).id o l f → out' (c.side p).id o l f ∨
        (o = offset ∧ l = len ∧ f = fin) := by
      intro o l f hc
      refine (hout _ o l f hc).imp (fun hc => hc) fun heq => ?_
      obtain ⟨-, rfl, rfl, rfl⟩ := SentItem.stream.inj heq
      exact ⟨rfl, rfl, rfl⟩
    rw [hs]
    refine ⟨fun v hv => ?_, fun hsent => ?_⟩
    · rcases hacc.bytes v hv with hin | hin | hin | ⟨o, l, f, hc, hin⟩
      · exact .inl hin
      · exact .inr (.inl hin)
      · exact .inr (.inr (.inl ((hset v).mpr (.inl hin))))
      rcases hleaves o l f hc with hc | ⟨rfl, rfl, -⟩
      · exact .inr (.inr (.inr ⟨o, l, f, hc, hin⟩))
      · exact .inr (.inr (.inl ((hset v).mpr (.inr hin))))
    · obtain ⟨hsent, hnot⟩ := Bool.and_eq_true_iff.mp hsent
      rcases hacc.fin hsent with hfa | ⟨o, l, hc⟩
      · exact .inl hfa
      rcases hleaves o l true hc with hc | ⟨-, -, hf⟩
      · exact .inr ⟨o, l, hc⟩
      rw [← hf] at hnot
      cases hnot

end Conn

/-! ## §3. CRYPTO bytes. -/

/-- The CRYPTO bytes of a space, sorted ranges and every byte sent accounted for. -/
structure CryptoOut.Accounted (co : CryptoOut) (out : Nat → Nat → Prop) : Prop where
  lost : RangeSet.Above 0 co.lost
  acked : RangeSet.Above 0 co.acked
  bytes : ∀ v < co.sent, co.acked.Holds v ∨ co.lost.Holds v ∨
    ∃ offset len, out offset len ∧ offset ≤ v ∧ v < offset + len

namespace CryptoOut

variable {co : CryptoOut} {out out' : Nat → Nat → Prop}

theorem Accounted.mono (h : co.Accounted out) (hle : ∀ o l, out o l → out' o l) :
    co.Accounted out' where
  lost := h.lost
  acked := h.acked
  bytes := by
    intro v hv
    rcases h.bytes v hv with hv | hv | ⟨o, l, hc, hv⟩
    · exact .inl hv
    · exact .inr (.inl hv)
    · exact .inr (.inr ⟨o, l, hle o l hc, hv⟩)

theorem Accounted.ack {offset len : Nat} (h : co.Accounted out)
    (hout : ∀ o l, out o l → out' o l ∨ (o = offset ∧ l = len)) :
    Accounted { co with acked := co.acked.add offset (offset + len) } out' := by
  obtain ⟨habove, hset⟩ := RangeSet.add_len_spec h.acked offset len
  refine ⟨h.lost, habove, fun v hv => ?_⟩
  rcases h.bytes v hv with hin | hin | ⟨o, l, hc, hin⟩
  · exact .inl ((hset v).mpr (.inl hin))
  · exact .inr (.inl hin)
  rcases hout o l hc with hc | ⟨rfl, rfl⟩
  · exact .inr (.inr ⟨o, l, hc, hin⟩)
  · exact .inl ((hset v).mpr (.inr hin))

theorem Accounted.lose {offset len : Nat} (h : co.Accounted out)
    (hout : ∀ o l, out o l → out' o l ∨ (o = offset ∧ l = len)) :
    Accounted { co with lost := co.lost.add offset (offset + len) } out' := by
  obtain ⟨habove, hset⟩ := RangeSet.add_len_spec h.lost offset len
  refine ⟨habove, h.acked, fun v hv => ?_⟩
  rcases h.bytes v hv with hin | hin | ⟨o, l, hc, hin⟩
  · exact .inl hin
  · exact .inr (.inl ((hset v).mpr (.inl hin)))
  rcases hout o l hc with hc | ⟨rfl, rfl⟩
  · exact .inr (.inr ⟨o, l, hc, hin⟩)
  · exact .inr (.inl ((hset v).mpr (.inr hin)))

/-- A round of the CRYPTO loop puts what it frames on record. -/
theorem Accounted.turn {co' : CryptoOut} {size room b take : Nat} (h : co.Accounted out)
    (ht : co.turn size room = some (co', b, take)) (hle : ∀ o l, out o l → out' o l)
    (hnew : out' b take) : co'.Accounted out' := by
  have h := h.mono hle
  unfold CryptoOut.turn at ht
  split at ht
  · simp at ht
  next b₀ e hdue =>
  dsimp only at ht
  split at ht
  · simp at ht
  obtain ⟨rfl, hrest⟩ := Prod.mk.inj (Option.some.inj ht)
  obtain ⟨rfl, rfl⟩ := Prod.mk.inj hrest
  unfold CryptoOut.markSent
  cases hl : co.lost with
  | cons x rest =>
    rw [List.isEmpty_cons, if_pos (by decide), ← hl]
    obtain ⟨habove, hset⟩ := @RangeSet.remove_spec 0 b₀ (b₀ + min (e - b₀)
      (room - (1 + varintSize b₀ + varintSize (e - b₀)))) co.lost h.lost
    refine ⟨habove, h.acked, fun v hv => ?_⟩
    rcases h.bytes v hv with hv | hv | hv
    · exact .inl hv
    · by_cases hin : b₀ ≤ v ∧ v < b₀ + min (e - b₀)
        (room - (1 + varintSize b₀ + varintSize (e - b₀)))
      · exact .inr (.inr ⟨_, _, hnew, hin⟩)
      · exact .inr (.inl ((hset v).mpr ⟨hv, hin⟩))
    · exact .inr (.inr hv)
  | nil =>
    rw [List.isEmpty_nil, if_neg (by decide), ← hl]
    unfold CryptoOut.due at hdue
    rw [hl] at hdue
    dsimp only at hdue
    split at hdue
    · cases hdue
      refine ⟨h.lost, h.acked, fun v hv => ?_⟩
      by_cases hold : v < co.sent
      · exact h.bytes v hold
      · exact .inr (.inr ⟨_, _, hnew, Nat.le_of_not_lt hold, hv⟩)
    · simp at hdue

end CryptoOut

/-! ## §4. The whole connection. -/

/-- Where an item counts: STREAM and credit items in the application space, CRYPTO items in their
    own. -/
def Item.Counts : Item → Space → Prop
  | .conn _, sp => sp = .application
  | .crypto s _ _, sp => sp = s
  | _, _ => False

/-- The items that are out, by space. -/
abbrev Outstanding := Space → Item → Prop

/-- `items` are out besides those of `base`. -/
def Outstanding.plus (base : Outstanding) (items : List Item) : Outstanding :=
  fun sp it => base sp it ∨ it ∈ items

/-- The STREAM items among them. -/
def Outstanding.streams (out : Outstanding) : Carried := fun id o l f =>
  out .application (.conn (.stream id o l f))

namespace Transport

variable {t t' : Transport} {out out' : Outstanding}

/-- The items of the packets on record. -/
def recorded (t : Transport) : Outstanding := fun sp it => (t.space sp).Recorded it

/-- What is kept about streams and CRYPTO bytes, given the items that are out. -/
structure Sound (t : Transport) (out : Outstanding) : Prop where
  table : Conn.TableInv t.conn
  send : Conn.SendInv t.conn out.streams
  streams : t.conn.Accounted out.streams
  crypto : ∀ sp, (t.space sp).discarded = false →
    (t.crypto sp).Accounted fun o l => out sp (.crypto sp o l)
  keyed : ∀ sp o l, (t.space sp).discarded = false → out sp (.crypto sp o l) → t.keys sp = true

/-- What is kept about the records themselves. -/
structure Rings (t : Transport) : Prop where
  window : ∀ sp, (t.space sp).Window
    ((t.space sp).nextPn + if t.building = some sp then 1 else 0)
  recording : ∀ sp, t.building = some sp → ∃ pkt, (t.space sp).find (t.space sp).nextPn = some pkt
  keyed : ∀ sp, t.building = some sp → t.keys sp = true
  counts : ∀ sp it s, (t.space sp).Recorded it → it.Counts s → s = sp

/-- What every step keeps: the records and what is out. -/
structure Inv (t : Transport) : Prop where
  rings : Rings t
  sound : Sound t t.recorded

/-- The same items are out, as far as they belong where they are. -/
theorem Sound.congr (h : Sound t out)
    (hout : ∀ sp it, it.Counts sp → (out' sp it ↔ out sp it)) : Sound t out' where
  table := h.table
  send := h.send.mono fun id o l f hc => (hout _ (.conn (.stream id o l f)) rfl).mp hc
  streams := h.streams.mono fun id o l f hc => (hout _ (.conn (.stream id o l f)) rfl).mpr hc
  crypto := fun sp hd => (h.crypto sp hd).mono fun o l hc => (hout sp (.crypto sp o l) rfl).mpr hc
  keyed := fun sp o l hd hc => h.keyed sp o l hd ((hout sp (.crypto sp o l) rfl).mp hc)

/-- A step of the connection that leaves items alone. -/
theorem Sound.effects {c' : Conn} {u : Outstanding} {fs : List OutFrame} (h : Sound t out)
    (ht : Conn.TableInv c') (he : Conn.Effects t.conn c' fs) (hstream : u.streams = out.streams.add fs)
    (hcrypto : ∀ sp o l, u sp (.crypto sp o l) ↔ out sp (.crypto sp o l)) :
    Sound (t.setConn c') u where
  table := ht
  send := hstream ▸ h.send.effects he
  streams := hstream ▸ h.streams.effects h.send he
  crypto := fun sp hd => (h.crypto sp hd).mono fun o l hc => (hcrypto sp o l).mpr hc
  keyed := fun sp o l hd hc => h.keyed sp o l hd ((hcrypto sp o l).mp hc)

/-- The item `it` is no longer out. -/
def Leaves (it : Item) (out out' : Outstanding) : Prop :=
  (∀ sp x, out' sp x → out sp x) ∧ ∀ sp x, out sp x → out' sp x ∨ x = it

theorem Leaves.streams {it : Conn.SentItem} (h : Leaves (.conn it) out out') :
    Conn.Leaves it out.streams out'.streams :=
  fun _ _ _ _ hc => (h.2 _ _ hc).imp (fun hc => hc) fun he => (Item.conn.inj he).symm

variable {it : Item} {sp : Space} {ps : PnSpace} {items : List Item}

theorem Leaves.crypto (h : Leaves it out out')
    (hn : ∀ sp o l, it ≠ .crypto sp o l) (sp : Space) (o l : Nat) (hc : out sp (.crypto sp o l)) :
    out' sp (.crypto sp o l) :=
  (h.2 sp _ hc).resolve_right fun he => hn sp o l he.symm

/-- An item that is neither a stream's nor CRYPTO counts for nothing. -/
theorem Sound.drop (h : Sound t out) (hl : Leaves it out out')
    (hs : ∀ id o l f, it ≠ .conn (.stream id o l f)) (hn : ∀ sp o l, it ≠ .crypto sp o l) :
    Sound t out' where
  table := h.table
  send := h.send.mono fun _ _ _ _ hc => hl.1 _ _ hc
  streams := h.streams.mono fun id o l f hc =>
    (hl.2 _ _ hc).resolve_right fun he => hs id o l f he.symm
  crypto := fun sp hd => (h.crypto sp hd).mono fun o l hc => hl.crypto hn sp o l hc
  keyed := fun sp o l hd hc => h.keyed sp o l hd (hl.1 _ _ hc)

/-- An item of the connection is settled. -/
theorem Sound.settled {it : Conn.SentItem} {c' : Conn} (h : Sound t out) (hl : Leaves (.conn it) out out')
    (ht : Conn.TableInv c') (hs : Conn.SendInv c' out.streams) (ha : c'.Accounted out'.streams) :
    Sound (t.setConn c') out' where
  table := ht
  send := hs.mono fun _ _ _ _ hc => hl.1 _ _ hc
  streams := ha
  crypto := fun sp hd => (h.crypto sp hd).mono fun o l hc => hl.crypto (by simp) sp o l hc
  keyed := fun sp o l hd hc => h.keyed sp o l hd (hl.1 _ _ hc)

/-- CRYPTO bytes are settled, which their space accounts for. -/
theorem Sound.cryptoSettled {s : Space} {offset len : Nat} {co : CryptoOut} (h : Sound t out)
    (hl : Leaves (.crypto s offset len) out out')
    (hco : (t.space s).discarded = false → co.Accounted fun o l => out' s (.crypto s o l)) :
    Sound (t.setCrypto s co) out' := by
  refine ⟨h.table, h.send.mono fun _ _ _ _ hc => hl.1 _ _ hc,
    h.streams.mono fun _ _ _ _ hc => (hl.2 _ _ hc).resolve_right (by simp), fun sp hd => ?_,
    fun sp o l hd hc => h.keyed sp o l hd (hl.1 _ _ hc)⟩
  show (Function.update t.crypto s co sp).Accounted _
  by_cases hs : sp = s
  · subst hs
    rw [Function.update_self]
    exact hco hd
  · rw [Function.update_of_ne hs]
    refine (h.crypto sp hd).mono fun o l hc => (hl.2 sp _ hc).resolve_right fun he => ?_
    exact hs (Item.crypto.inj he).1

theorem Leaves.cryptoItem {s : Space} {offset len : Nat} (h : Leaves (.crypto s offset len) out out') (o l : Nat)
    (hc : out s (.crypto s o l)) : out' s (.crypto s o l) ∨ (o = offset ∧ l = len) := by
  refine (h.2 s _ hc).imp (fun hc => hc) fun he => ?_
  obtain ⟨-, rfl, rfl⟩ := Item.crypto.inj he
  exact ⟨rfl, rfl⟩

/-- **An item is acknowledged.** -/
theorem Sound.acked (h : Sound t out) (hl : Leaves it out out')
    (hin : ∀ id o l f, it = .conn (.stream id o l f) → out .application it) :
    Sound (t.applyAcked it) out' := by
  cases it with
  | conn it =>
    have hstream : ∀ id o l f, it = .stream id o l f → out.streams id o l f := by
      rintro id o l f rfl
      exact hin id o l f rfl
    exact h.settled hl (Conn.table_of_same (Conn.SameReceive.of_quiet (Conn.quiet_applyAcked ..)) h.table)
      (h.send.acked hstream) (h.streams.acked h.send h.table hl.streams)
  | crypto s offset len => exact h.cryptoSettled hl fun hd => (h.crypto s hd).ack hl.cryptoItem
  | handshakeDone => exact h.drop hl (by simp) (by simp)
  | other => exact h.drop hl (by simp) (by simp)

/-- **An item is lost.** -/
theorem Sound.lost (h : Sound t out) (hl : Leaves it out out')
    (hin : ∀ sp, it.Counts sp → out sp it) : Sound (t.applyLost it) out' := by
  cases it with
  | conn it =>
    have hstream : ∀ id o l f, it = .stream id o l f → out.streams id o l f := by
      rintro id o l f rfl
      exact hin .application rfl
    have hlost := Conn.applyLost_send t.conn it
    exact h.settled hl (Conn.table_of_loss (Conn.applyLost_effect ..) h.table) (h.send.lost hlost hstream)
      (h.streams.lost h.send h.table hlost hl.streams)
  | crypto s offset len =>
    unfold applyLost
    dsimp only
    split
    · exact h.cryptoSettled hl fun hd => (h.crypto s hd).lose hl.cryptoItem
    next hk =>
    have hsame : t.setCrypto s (t.crypto s) = t := by
      unfold setCrypto
      rw [Function.update_eq_self]
    -- without keys the space is discarded
    rw [← hsame]
    exact h.cryptoSettled hl fun hd => absurd (h.keyed s offset len hd (hin s rfl)) hk
  | handshakeDone => exact h.drop hl (by simp) (by simp)
  | other => exact h.drop hl (by simp) (by simp)

/-! ## §5. Whole lists of items. -/

/-- The records, the keys and the packet being built are as before. -/
structure SameRecords (t t' : Transport) : Prop where
  space : t'.space = t.space
  keys : t'.keys = t.keys
  building : t'.building = t.building

theorem SameRecords.trans {a b c : Transport} (h : SameRecords a b) (h' : SameRecords b c) :
    SameRecords a c :=
  ⟨h'.space.trans h.space, h'.keys.trans h.keys, h'.building.trans h.building⟩

theorem applyAcked_records (t : Transport) (it : Item) : SameRecords t (t.applyAcked it) := by
  cases it <;> exact ⟨rfl, rfl, rfl⟩

theorem applyLost_records (t : Transport) (it : Item) : SameRecords t (t.applyLost it) := by
  cases it with
  | crypto s o l =>
    unfold applyLost
    dsimp only
    split <;> exact ⟨rfl, rfl, rfl⟩
  | _ => exact ⟨rfl, rfl, rfl⟩

theorem leaves_head (base : Outstanding) (it : Item) (items : List Item) :
    Leaves it (base.plus (it :: items)) (base.plus items) := by
  refine ⟨fun sp x hx => hx.imp (fun h => h) fun h => List.mem_cons_of_mem it h, fun sp x hx => ?_⟩
  rcases hx with hx | hx
  · exact .inl (.inl hx)
  rcases List.mem_cons.mp hx with he | hx
  · exact .inr he
  · exact .inl (.inr hx)

theorem Sound.calls {ops : List Op} {c' : Conn} (h : Sound t out)
    (hrun : run Conn.call t.conn ops = some c') : Sound (t.setConn c') out := by
  induction ops generalizing t with
  | nil =>
    cases hrun
    exact h
  | cons op ops ih =>
    obtain ⟨m, hm, hrest⟩ := step_of_run_cons hrun
    obtain ⟨heff, htable⟩ := Conn.call_effects h.table hm
    have hstep : Sound (t.setConn m) out :=
      h.effects htable heff (Carried.add_nil _).symm fun _ _ _ => .rfl
    have hall := ih hstep hrest
    exact hall

/-- **`apply_acked` as a whole**, the application's calls between its rounds included. -/
theorem Sound.ackedAll {base : Outstanding} {acked rest : List Item} {calls : List (List Op)}
    (h : Sound t (base.plus (acked ++ rest))) (ha : t.applyAckedAll acked calls = some t') :
    Sound t' (base.plus rest) ∧ SameRecords t t' := by
  induction acked generalizing t calls with
  | nil =>
    cases ha
    exact ⟨h, ⟨rfl, rfl, rfl⟩⟩
  | cons it acked ih =>
    obtain ⟨c, hrun, ha⟩ := applyAckedAll_cons ha
    have hit : Sound (t.applyAcked it) (base.plus (acked ++ rest)) :=
      h.acked (leaves_head base it (acked ++ rest)) fun _ _ _ _ _ => .inr (.head _)
    obtain ⟨hsound, hrec⟩ := ih (hit.calls hrun) ha
    have hset : SameRecords (t.applyAcked it) ((t.applyAcked it).setConn c) := ⟨rfl, rfl, rfl⟩
    exact ⟨hsound, ((applyAcked_records t it).trans hset).trans hrec⟩

/-- **`apply_lost` as a whole.** -/
theorem Sound.lostAll {base : Outstanding} {lost : List Item} (h : Sound t (base.plus lost)) :
    Sound (t.applyLostAll lost) (base.plus []) ∧ SameRecords t (t.applyLostAll lost) := by
  induction lost generalizing t with
  | nil => exact ⟨h, ⟨rfl, rfl, rfl⟩⟩
  | cons it lost ih =>
    have hit : Sound (t.applyLost it) (base.plus lost) :=
      h.lost (leaves_head base it lost) fun _ _ => .inr (.head _)
    obtain ⟨hsound, hrec⟩ := ih hit
    exact ⟨hsound, (applyLost_records t it).trans hrec⟩

/-- The packets of one space change; the streams and CRYPTO bytes do not. -/
theorem Sound.setSpace (h : Sound t out)
    (hd : ps.discarded = (t.space sp).discarded) : Sound (t.setSpace sp ps) out := by
  have hkeep : ∀ s, ((t.setSpace sp ps).space s).discarded = (t.space s).discarded := by
    intro s
    show (Function.update t.space sp ps s).discarded = _
    by_cases hs : s = sp
    · subst hs
      rw [Function.update_self]
      exact hd
    · rw [Function.update_of_ne hs]
  exact ⟨h.table, h.send, h.streams, fun s hs => h.crypto s ((hkeep s).symm.trans hs),
    fun s o l hs => h.keyed s o l ((hkeep s).symm.trans hs)⟩

theorem space_setSpace_self (t : Transport) (sp : Space) (ps : PnSpace) :
    (t.setSpace sp ps).space sp = ps := Function.update_self ..

theorem space_setSpace_of_ne (t : Transport) {s : Space} (ps : PnSpace) (h : s ≠ sp) :
    (t.setSpace sp ps).space s = t.space s := Function.update_of_ne h ..

/-- What packets of a space hand over is out as it was before. -/
theorem recorded_of_hands (hr : Rings t)
    (hh : PnSpace.Hands (t.space sp) ps items) (s : Space) (it : Item) (hit : it.Counts s) :
    (t.setSpace sp ps).recorded.plus items s it ↔ t.recorded s it := by
  unfold Outstanding.plus recorded
  by_cases hs : s = sp
  · subst hs
    rw [space_setSpace_self]
    exact ⟨hh.back it, hh.kept it⟩
  · rw [space_setSpace_of_ne t ps hs]
    refine ⟨fun hc => hc.resolve_right fun hm => ?_, .inl⟩
    exact hs (hr.counts sp it s (hh.back it (.inr hm)) hit)

/-! ## §6. Every step. -/

theorem Rings.of_same (h : Rings t) (hs : SameRecords t t') : Rings t' := by
  refine ⟨?_, ?_, ?_, ?_⟩
  · rw [hs.space, hs.building]
    exact h.window
  · rw [hs.space, hs.building]
    exact h.recording
  · rw [hs.keys, hs.building]
    exact h.keyed
  · rw [hs.space]
    exact h.counts

/-- Packets leave a space, none being built. -/
theorem Rings.hands (h : Rings t) (hn : t.building = none) (hh : PnSpace.Hands (t.space sp) ps items) :
    Rings (t.setSpace sp ps) := by
  have hnone : ∀ s, (t.setSpace sp ps).building ≠ some s := by
    intro s he
    have he : t.building = some s := he
    rw [hn] at he
    simp at he
  refine ⟨fun s => ?_, fun s he => absurd he (hnone s), fun s he => absurd he (hnone s),
    fun s it s' hr hc => ?_⟩
  · rw [if_neg (hnone s)]
    have hw := h.window s
    rw [if_neg (show t.building ≠ some s from hnone s)] at hw
    by_cases hs : s = sp
    · subst hs
      rw [space_setSpace_self, hh.nextPn]
      exact hh.window _ hw
    · rw [space_setSpace_of_ne t ps hs]
      exact hw
  · by_cases hs : s = sp
    · subst hs
      rw [space_setSpace_self] at hr
      exact h.counts s it s' (hh.back it (.inl hr)) hc
    · rw [space_setSpace_of_ne t ps hs] at hr
      exact h.counts s it s' hr hc

/-- The account after all items that were out besides the record are applied. -/
theorem Inv.settled (hr : Rings t') (h : Sound t' (t.recorded.plus [])) (hs : SameRecords t t') : Inv t' := by
  refine ⟨hr, h.congr fun sp it _ => ?_⟩
  unfold Outstanding.plus recorded
  rw [hs.space]
  exact ⟨.inl, fun hc => hc.resolve_right List.not_mem_nil⟩

theorem Inv.conn {c' : Conn} (h : Inv t) (he : Conn.Effects t.conn c' []) (ht : Conn.TableInv c') :
    Inv (t.setConn c') :=
  ⟨h.rings.of_same ⟨rfl, rfl, rfl⟩,
    h.sound.effects ht he (Carried.add_nil _).symm fun _ _ _ => .rfl⟩

/-- What an ACK hands out was on the record. -/
theorem Inv.handed {ranges : List (Nat × Nat)} {largestAck : Nat} {lostSendTime : Int} {ps : PnSpace}
    {acked lost : List Item} (h : Inv t)
    (hr : (t.space sp).onAckReceived ranges largestAck lostSendTime = some (ps, acked, lost)) :
    Sound (t.setSpace sp ps) ((t.setSpace sp ps).recorded.plus (acked ++ lost)) :=
  have hh := PnSpace.onAckReceived_hands hr
  (h.sound.setSpace hh.discarded).congr fun s it hc => recorded_of_hands h.rings hh s it hc

theorem Inv.ack {ranges : List (Nat × Nat)} {largestAck : Nat} {lostSendTime : Int}
    {calls : List (List Op)} (h : Inv t) (hn : t.building = none)
    (ha : t.onAck sp ranges largestAck lostSendTime calls = some t') : Inv t' := by
  rcases onAck_cases ha with rfl | ⟨ps, acked, lost, t₁, hr, haa, rfl⟩
  · exact h.conn (.same ((Conn.same_walk 0).fail ..))
      (Conn.table_of_same (Conn.SameReceive.of_quiet (Conn.quiet_fail ..)) h.sound.table)
  obtain ⟨hacked, hrec⟩ := (h.handed hr).ackedAll haa
  obtain ⟨hlost, hrec'⟩ := hacked.lostAll
  exact Inv.settled ((h.rings.hands hn (PnSpace.onAckReceived_hands hr)).of_same (hrec.trans hrec'))
    hlost (hrec.trans hrec')

/-- What a probe sends again is on record, and stays there. -/
theorem recorded_plus_probes (hr : Rings t) (items : List Item) (probed : List Space) (s : Space)
    (it : Item) (hit : it.Counts s) :
    t.recorded.plus (items ++ probed.flatMap fun sp => (t.space sp).probeItems) s it ↔
      t.recorded.plus items s it := by
  unfold Outstanding.plus
  rw [List.mem_append]
  constructor
  · rintro (hc | hc | hc)
    · exact .inl hc
    · exact .inr hc
    · obtain ⟨sp, -, hp⟩ := List.mem_flatMap.mp hc
      have hrec := PnSpace.recorded_of_probe hp
      rw [hr.counts sp it s hrec hit]
      exact .inl hrec
  · rintro (hc | hc)
    · exact .inl hc
    · exact .inr (.inl hc)

/-- So was what the loss timer hands out. -/
theorem Inv.expired (h : Inv t) (hn : t.building = none) (detect : Option (Space × Int))
    (probed : List Space) : Rings (t.detected detect).1 ∧
      Sound (t.detected detect).1 ((t.detected detect).1.recorded.plus (t.expired detect probed)) := by
  cases detect with
  | none =>
    refine ⟨h.rings, h.sound.congr fun s it hc =>
      (recorded_plus_probes h.rings [] probed s it hc).trans ?_⟩
    exact ⟨fun hc => hc.resolve_right List.not_mem_nil, .inl⟩
  | some d =>
    obtain ⟨sp, lostSendTime⟩ := d
    have hh := PnSpace.detectLost_hands (t.space sp) lostSendTime
    have hrings := h.rings.hands hn hh
    have hout := (h.sound.setSpace hh.discarded).congr fun s it hc =>
      recorded_of_hands h.rings hh s it hc
    exact ⟨hrings, hout.congr fun s it hc =>
      recorded_plus_probes hrings ((t.space sp).detectLost lostSendTime).2 probed s it hc⟩

theorem Inv.timer (h : Inv t) (hn : t.building = none) (detect : Option (Space × Int))
    (probed : List Space) : Inv (t.onTimer detect probed) := by
  obtain ⟨hrings, hout⟩ := h.expired hn detect probed
  obtain ⟨hlost, hrec⟩ := hout.lostAll
  rw [onTimer_eq]
  exact Inv.settled (hrings.of_same hrec) hlost hrec

/-- One space changes while a packet is built in it, or begins or ends to be. -/
theorem Rings.packet {b : Option Space} (h : Rings t)
    (hothers : ∀ s, s ≠ sp → t.building ≠ some s) (hb : ∀ s, b = some s → s = sp)
    (hw : ps.Window (ps.nextPn + if b = some sp then 1 else 0))
    (hrec : b = some sp → ∃ pkt, ps.find ps.nextPn = some pkt) (hk : b = some sp → t.keys sp = true)
    (hc : ∀ it s, ps.Recorded it → it.Counts s → s = sp) :
    Rings { t.setSpace sp ps with building := b } := by
  have hspace : ∀ s, s ≠ sp → (t.setSpace sp ps).space s = t.space s := fun s hs =>
    space_setSpace_of_ne t ps hs
  refine ⟨fun s => ?_, fun s he => ?_, fun s he => ?_, fun s it s' hr hcount => ?_⟩
  · by_cases hs : s = sp
    · subst hs
      rw [space_setSpace_self]
      exact hw
    · rw [hspace s hs, if_neg fun he => hs (hb s he)]
      have hold := h.window s
      rw [if_neg (hothers s hs)] at hold
      exact hold
  · obtain rfl := hb s he
    rw [space_setSpace_self]
    exact hrec he
  · obtain rfl := hb s he
    exact hk he
  · by_cases hs : s = sp
    · subst hs
      rw [space_setSpace_self] at hr
      exact hc it s' hr hcount
    · rw [hspace s hs] at hr
      exact h.counts s it s' hr hcount

/-- The records after one space changed. -/
theorem recorded_setSpace {P : Item → Prop}
    (hps : ∀ it, ps.Recorded it ↔ (t.space sp).Recorded it ∨ P it) (s : Space) (it : Item) :
    (t.setSpace sp ps).recorded s it ↔ t.recorded s it ∨ (s = sp ∧ P it) := by
  unfold recorded
  by_cases hs : s = sp
  · subst hs
    rw [space_setSpace_self, hps]
    simp
  · rw [space_setSpace_of_ne t ps hs]
    simp [hs]

theorem building_others (hb : t.building = some sp ∨ t.building = none) (s : Space)
    (hs : s ≠ sp) : t.building ≠ some s := by
  rcases hb with hb | hb <;> rw [hb]
  · exact fun he => hs (Option.some.inj he).symm
  · simp

/-- Which packet is being built says nothing about streams and CRYPTO bytes. -/
theorem Sound.building (h : Sound t out) (b : Option Space) : Sound { t with building := b } out :=
  ⟨h.table, h.send, h.streams, h.crypto, h.keyed⟩

/-- The records of one space change while a packet of it is begun, filled or ended. -/
theorem Inv.packet {b : Option Space} (h : Inv t)
    (hb : t.building = some sp ∨ t.building = none) (hb' : b = some sp ∨ b = none)
    (hw : ps.Window (ps.nextPn + if b = some sp then 1 else 0))
    (hrec : b = some sp → ∃ pkt, ps.find ps.nextPn = some pkt) (hk : b = some sp → t.keys sp = true)
    (hd : ps.discarded = (t.space sp).discarded) (hsame : ∀ it, ps.Recorded it ↔ (t.space sp).Recorded it) :
    Inv { t.setSpace sp ps with building := b } := by
  have hof : ∀ s, b = some s → s = sp := by
    intro s he
    rcases hb' with hb' | hb' <;> rw [hb'] at he
    · exact (Option.some.inj he).symm
    · simp at he
  have hout : ∀ s it, (t.setSpace sp ps).recorded s it ↔ t.recorded s it := by
    intro s it
    unfold recorded
    by_cases hs : s = sp
    · rw [hs, space_setSpace_self]
      exact hsame it
    · rw [space_setSpace_of_ne t ps hs]
  refine ⟨h.rings.packet (building_others hb) hof hw hrec hk fun it s hr hc => ?_, ?_⟩
  · exact h.rings.counts sp it s ((hsame it).mp hr) hc
  · exact ((h.sound.setSpace hd).congr fun s it _ => hout s it).building b

theorem Inv.beginPacket (h : Inv t) (hn : t.building = none) (hk : t.keys sp = true) :
    Inv { t.setSpace sp ((t.space sp).record (t.space sp).nextPn) with building := some sp } := by
  have hw := h.rings.window sp
  rw [hn, if_neg (by simp)] at hw
  obtain ⟨hw', hfind⟩ := PnSpace.record_spec hw
  refine h.packet (.inr hn) (.inl rfl) ?_ (fun _ => ⟨{}, ?_⟩) (fun _ => hk) rfl
    (PnSpace.record_recorded hw)
  · rw [if_pos rfl]
    exact hw'
  · exact (hfind _).trans (if_pos rfl)

/-- The record of the packet being built. -/
theorem Rings.current (h : Rings t) (hb : t.building = some sp) :
    (t.space sp).Window ((t.space sp).nextPn + 1) ∧
      ∃ pkt, (t.space sp).find (t.space sp).nextPn = some pkt := by
  have hw := h.window sp
  rw [hb, if_pos rfl] at hw
  exact ⟨hw, h.recording sp hb⟩

/-- What is on record after items were pushed. -/
theorem recorded_push (h : Rings t) (hb : t.building = some sp) (items : List Item) (s : Space) (it : Item) :
    (t.push sp items).recorded s it ↔ t.recorded s it ∨ (s = sp ∧ it ∈ items) := by
  obtain ⟨hw, pkt, hp⟩ := h.current hb
  exact recorded_setSpace (PnSpace.amend_recorded hw hp rfl) s it

theorem Rings.push (h : Rings t) (hb : t.building = some sp)
    (hi : ∀ it ∈ items, ∀ s, it.Counts s → s = sp) : Rings (t.push sp items) := by
  obtain ⟨hw, pkt, hp⟩ := h.current hb
  have hrec := PnSpace.amend_recorded hw hp (f := fun pkt => { pkt with items := pkt.items ++ items })
    rfl
  obtain ⟨hw', hself, -⟩ := PnSpace.amend_spec hw hp fun pkt => { pkt with items := pkt.items ++ items }
  have hnext := PnSpace.amend_nextPn (t.space sp) (t.space sp).nextPn fun pkt =>
    { pkt with items := pkt.items ++ items }
  have hpacket := h.packet (building_others (.inl hb)) (fun s he => (Option.some.inj he).symm)
    (by rw [if_pos rfl, hnext]; exact hw') (fun _ => ⟨_, by rw [hnext]; exact hself⟩)
    (fun _ => h.keyed sp hb) fun it s hr hc => ?_
  · exact hpacket.of_same ⟨rfl, rfl, hb⟩
  · rcases (hrec it).mp hr with hr | hm
    · exact h.counts sp it s hr hc
    · exact hi it hm s hc

theorem Sound.push (h : Sound t out) (items : List Item) : Sound (t.push sp items) out :=
  h.setSpace (PnSpace.amend_discarded ..)

/-- HANDSHAKE_DONE, PING and their like are recorded and count for nothing. -/
theorem Inv.note (h : Inv t) (hb : t.building = some sp)
    (hi : ∀ s, ¬ it.Counts s) : Inv (t.push sp [it]) := by
  refine ⟨h.rings.push hb fun x hx s hc => ?_, (h.sound.push [it]).congr fun s x hc => ?_⟩
  · rw [List.mem_singleton.mp hx] at hc
    exact absurd hc (hi s)
  · refine (recorded_push h.rings hb [it] s x).trans ⟨fun hr => hr.resolve_right fun hx => ?_, .inl⟩
    rw [List.mem_singleton.mp hx.2] at hc
    exact hi s hc

/-- **A round of the CRYPTO loop.** -/
theorem Inv.cryptoTurn (h : Inv t) (hb : t.building = some sp) (size room : Nat) :
    Inv (t.cryptoTurn sp size room) := by
  unfold Transport.cryptoTurn
  cases ht : (t.crypto sp).turn size room with
  | none => exact h
  | some r =>
    obtain ⟨co, b, take⟩ := r
    have hrings : Rings (t.setCrypto sp co) := h.rings.of_same ⟨rfl, rfl, rfl⟩
    refine ⟨hrings.push hb fun x hx s hc => ?_, Sound.push ?_ _⟩
    · rw [List.mem_singleton.mp hx] at hc
      exact hc
    have hout := recorded_push hrings hb [.crypto sp b take]
    have hkeep : ∀ s it, t.recorded s it → ((t.setCrypto sp co).push sp
        [.crypto sp b take]).recorded s it := fun s it hc => (hout s it).mpr (.inl hc)
    have hstream : ((t.setCrypto sp co).push sp [.crypto sp b take]).recorded.streams =
        t.recorded.streams := by
      funext id o l f
      refine propext ((hout _ _).trans ⟨fun hc => hc.resolve_right fun hx => ?_, .inl⟩)
      cases List.mem_singleton.mp hx.2
    refine ⟨h.sound.table, hstream ▸ h.sound.send, hstream ▸ h.sound.streams, fun s hd => ?_,
      fun s o l hd hc => ?_⟩
    · show (Function.update t.crypto sp co s).Accounted _
      by_cases hs : s = sp
      · subst hs
        rw [Function.update_self]
        refine (h.sound.crypto s hd).turn ht (fun o l hc => hkeep s _ hc) ?_
        exact (hout s _).mpr (.inr ⟨rfl, List.mem_singleton.mpr rfl⟩)
      · rw [Function.update_of_ne hs]
        exact (h.sound.crypto s hd).mono fun o l hc => hkeep s _ hc
    · rcases (hout s _).mp hc with hc | ⟨hs, -⟩
      · exact h.sound.keyed s o l hd hc
      -- keys of the space are there while a packet of it is built
      rw [hs]
      exact h.rings.keyed sp hb

/-- The items of a round are those of its STREAM frames, as far as streams go. -/
theorem mem_items_stream (fs : List OutFrame) (id o l : Nat) (f : Bool) :
    Item.conn (.stream id o l f) ∈ (fs.filterMap OutFrame.item).map Item.conn ↔
      ∃ data, OutFrame.stream id o data f ∈ fs.filter OutFrame.discloses ∧ data.length = l := by
  constructor
  · intro hm
    obtain ⟨it, hm, he⟩ := List.mem_map.mp hm
    obtain rfl := Item.conn.inj he
    obtain ⟨frame, hf, hi⟩ := List.mem_filterMap.mp hm
    cases frame with
    | stream id' o' data f' =>
      obtain ⟨rfl, rfl, rfl, rfl⟩ := Conn.SentItem.stream.inj (Option.some.inj hi)
      exact ⟨data, List.mem_filter.mpr ⟨hf, rfl⟩, rfl⟩
    | maxStreams bidi n => cases bidi <;> simp [OutFrame.item] at hi
    | _ => simp [OutFrame.item] at hi
  · rintro ⟨data, hm, rfl⟩
    refine List.mem_map.mpr ⟨_, List.mem_filterMap.mpr ⟨_, (List.mem_filter.mp hm).1, rfl⟩, rfl⟩

/-- **A round of the packetiser**: what it frames is on record when it ends. -/
theorem Inv.write {op : Op} {r : Turn} (h : Inv t) (hb : t.building = some .application)
    (hr : t.conn.turn op = some r) : Inv (t.write r) := by
  obtain ⟨hround, htable⟩ := Conn.turn_round h.sound.table h.sound.send hr
  have hrings : Rings (t.setConn r.conn) := h.rings.of_same ⟨rfl, rfl, rfl⟩
  have hout := recorded_push hrings hb ((r.frames.filterMap OutFrame.item).map .conn)
  have hsound := h.sound.effects (u := ((t.setConn r.conn).push .application
    ((r.frames.filterMap OutFrame.item).map .conn)).recorded) htable hround.effects ?_ ?_
  · refine ⟨(hrings.push hb fun x hx s hc => ?_).of_same ⟨rfl, rfl, rfl⟩, ?_⟩
    · obtain ⟨it, -, rfl⟩ := List.mem_map.mp hx
      exact hc
    · have hpush := @Sound.push _ _ .application hsound ((r.frames.filterMap OutFrame.item).map .conn)
      exact ⟨hpush.table, hpush.send, hpush.streams, hpush.crypto, hpush.keyed⟩
  · funext id o l f
    refine propext ((hout _ _).trans ?_)
    rw [mem_items_stream]
    exact ⟨fun hc => hc.imp (fun hc => hc) And.right, fun hc => hc.imp (fun hc => hc) (And.intro rfl)⟩
  · intro s o l
    refine (hout s _).trans ⟨fun hc => hc.resolve_right fun hx => ?_, .inl⟩
    obtain ⟨it, -, he⟩ := List.mem_map.mp hx.2
    simp at he

/-- The packet goes out; its record stays. -/
theorem Inv.sendPacket (h : Inv t) (hb : t.building = some sp) (time : Int)
    (eliciting inFlight : Bool) : Inv (t.sendPacket sp time eliciting inFlight) := by
  obtain ⟨hw, pkt, hp⟩ := h.rings.current hb
  let f : SentPacket → SentPacket := fun pkt =>
    { pkt with time := time, ackEliciting := eliciting, inFlight := inFlight }
  obtain ⟨hw', -, -⟩ := PnSpace.amend_spec hw hp f
  have hrec := @PnSpace.amend_recorded _ _ _ _ hw hp f [] (List.append_nil _).symm
  have hnext := PnSpace.amend_nextPn (t.space sp) (t.space sp).nextPn f
  refine h.packet (.inl hb) (.inr rfl) ?_ (nofun)
    (nofun) (PnSpace.amend_discarded _ _ f) fun it => ?_
  · rw [if_neg (by simp), Nat.add_zero]
    rw [hnext]
    exact hw'
  · exact (hrec it).trans ⟨fun hc => hc.resolve_right List.not_mem_nil, .inl⟩

/-- The record that is dropped with a packet not sent carries nothing. -/
theorem Inv.abandonPacket (h : Inv t) (hb : t.building = some sp)
    (hu : t.unfilled sp = true) : Inv (t.abandonPacket sp) := by
  obtain ⟨hw, pkt, hp⟩ := h.rings.current hb
  have hempty : pkt.items = [] := by
    unfold unfilled at hu
    rw [hp] at hu
    exact List.isEmpty_iff.mp hu
  have hh := PnSpace.forget_hands hp
  rw [hempty] at hh
  refine h.packet (.inl hb) (.inr rfl) ?_ (nofun)
    (nofun) hh.discarded fun it => ?_
  · rw [if_neg (by simp), Nat.add_zero]
    exact PnSpace.forget_last hw hp
  · exact ⟨fun hr => hh.back it (.inl hr), fun hr => (hh.kept it hr).resolve_right List.not_mem_nil⟩

/-- Initial or Handshake is over: nothing is promised of its bytes any more. -/
theorem Inv.discard (h : Inv t) (hn : t.building = none) (hsp : sp ≠ .application) :
    Inv { t.setSpace sp (t.space sp).discard with keys := Function.update t.keys sp false } := by
  have hnone : ∀ s, t.building ≠ some s := by
    intro s
    rw [hn]
    simp
  have hspec : ∀ n, (t.space sp).discard.Window n ∧ ∀ it, ¬ (t.space sp).discard.Recorded it :=
    PnSpace.discard_spec (h.rings.window sp)
  have hrec : ∀ s, s ≠ sp → ∀ it, (t.setSpace sp (t.space sp).discard).recorded s it ↔
      t.recorded s it := by
    intro s hs it
    unfold recorded
    rw [space_setSpace_of_ne t _ hs]
  have hlive : ∀ s, ((t.setSpace sp (t.space sp).discard).space s).discarded = false → s ≠ sp := by
    intro s hd hs
    rw [hs, space_setSpace_self] at hd
    simp [PnSpace.discard] at hd
  have hdisc : ∀ s, s ≠ sp →
      ((t.setSpace sp (t.space sp).discard).space s).discarded = (t.space s).discarded := by
    intro s hs
    rw [space_setSpace_of_ne t _ hs]
  refine ⟨⟨fun s => ?_, fun s he => absurd he (hnone s), fun s he => absurd he (hnone s),
    fun s it s' hr hc => ?_⟩, ⟨h.sound.table, ?_, ?_, fun s hd => ?_, fun s o l hd hc => ?_⟩⟩
  · by_cases hs : s = sp
    · rw [hs, space_setSpace_self]
      exact (hspec _).1
    rw [space_setSpace_of_ne t _ hs]
    exact h.rings.window s
  · have hr : (t.setSpace sp (t.space sp).discard).recorded s it := hr
    by_cases hs : s = sp
    · unfold recorded at hr
      rw [hs, space_setSpace_self] at hr
      exact absurd hr ((hspec 0).2 it)
    · exact h.rings.counts s it s' ((hrec s hs it).mp hr) hc
  · exact h.sound.send.mono fun id o l f hc => (hrec _ hsp.symm _).mp hc
  · exact h.sound.streams.mono fun id o l f hc => (hrec _ hsp.symm _).mpr hc
  · have hs := hlive s hd
    exact (h.sound.crypto s ((hdisc s hs).symm.trans hd)).mono fun o l hc => (hrec s hs _).mpr hc
  · have hs := hlive s hd
    show Function.update t.keys sp false s = true
    rw [Function.update_of_ne hs]
    exact h.sound.keyed s o l ((hdisc s hs).symm.trans hd) ((hrec s hs _).mp hc)

theorem Inv.install (h : Inv t) (sp : Space) :
    Inv { t with keys := Function.update t.keys sp true } := by
  have hkeys : ∀ s, t.keys s = true → Function.update t.keys sp true s = true := by
    intro s hk
    by_cases hs : s = sp
    · rw [hs, Function.update_self]
    rw [Function.update_of_ne hs]
    exact hk
  exact ⟨⟨h.rings.window, h.rings.recording, fun s he => hkeys s (h.rings.keyed s he),
      h.rings.counts⟩, ⟨h.sound.table, h.sound.send, h.sound.streams, h.sound.crypto,
      fun s o l hd hc => hkeys s (h.sound.keyed s o l hd hc)⟩⟩

theorem start_inv (limits : Limits) : Inv (start limits) := by
  have hempty : ∀ sp it, ¬ (start limits).recorded sp it := by
    rintro sp it ⟨pn, pkt, hp, -⟩
    have hw : SeqRing.Window (α := SentPacket) (List.replicate 64 none) 0 :=
      SeqRing.window_empty (by decide) 0
    have hlt := hw.below pn pkt hp
    omega
  refine ⟨⟨fun sp => ?_, fun sp he => absurd he (by simp [start]),
    fun sp he => absurd he (by simp [start]), fun sp it s hr => absurd hr (hempty sp it)⟩,
    ⟨Conn.create_table limits, ?_, ?_, fun sp _ => ⟨trivial, trivial, fun v hv => ?_⟩,
      fun sp o l _ hc => absurd hc (hempty sp _)⟩⟩
  · exact SeqRing.window_empty (by decide) _
  · exact (Conn.create_sendInv limits).mono fun id o l f hc => hempty _ _ hc
  · exact fun p ho => absurd ho Bool.false_ne_true
  · exact absurd hv (Nat.not_lt_zero v)

theorem idle_iff : t.idle = true ↔ t.building = none ∧ t.conn.ended = false := by
  unfold idle
  rw [Bool.and_eq_true, Option.isNone_iff_eq_none, Bool.not_eq_true']

/-- **The step lemma.**  Every label keeps the account. -/
theorem step_inv {l : Label} (h : Inv t) (hs : t.step l = some t') : Inv t' := by
  cases stepped hs with
  | call hc =>
    obtain ⟨heff, htable⟩ := Conn.call_effects h.sound.table hc
    exact h.conn heff htable
  | @install sp hg => exact h.install sp
  | discard hb hsp => exact h.discard hb hsp
  | @frame f sec =>
    exact h.conn (Conn.frame_effect h.sound.table f sec)
      (Conn.table_of_frame (Conn.handleFrame_effect ..) h.sound.table)
  | ack hi ha => exact h.ack (idle_iff.mp hi).1 ha
  | @timer detect probed hi => exact h.timer (idle_iff.mp hi).1 detect probed
  | beginPacket hi hk hd => exact h.beginPacket (idle_iff.mp hi).1 hk
  | @cryptoTurn sp size room hb => exact h.cryptoTurn hb size room
  | note hb hit =>
    refine h.note hb fun s hc => ?_
    rcases hit with rfl | rfl <;> exact hc
  | turn hb hr => exact h.write hb hr
  | @sendPacket sp time eliciting inFlight hb => exact h.sendPacket hb time eliciting inFlight
  | abandonPacket hb hu => exact h.abandonPacket hb hu

/-- The run lemma. -/
theorem run_inv {limits : Limits} {ls : List Label} (hrun : run step (start limits) ls = some t) : Inv t :=
  run_preserves (fun _ _ _ h hs => step_inv h hs) (start_inv limits) hrun

end Transport

/-! ## §7. Every run. -/

/-- **No sent byte is forgotten.**  In every run, for every open stream that was not reset: each
    offset below `next` is acknowledged (or below `head_base`), lost, or in a STREAM item of a packet
    on record in the application space, and a FIN sent is acknowledged or in such an item.  Each
    CRYPTO offset below `sent`, in every space not discarded, likewise. -/
theorem no_sent_byte_forgotten (limits : Limits) (ls : List Label) (t : Transport)
    (hrun : run Transport.step (Transport.start limits) ls = some t) :
    (∀ p, (t.conn.streams p).isOpen = true → (t.conn.streams p).resetSent = false →
      (∀ v < (t.conn.streams p).next, v < (t.conn.streams p).headBase ∨ (t.conn.streams p).acked.Holds v ∨
        (t.conn.streams p).lost.Holds v ∨ ∃ offset len fin, (t.space .application).Recorded
          (.conn (.stream (t.conn.streams p).id offset len fin)) ∧ offset ≤ v ∧ v < offset + len) ∧
      ((t.conn.streams p).finSent = true → (t.conn.streams p).finAcked = true ∨
        ∃ offset len, (t.space .application).Recorded
          (.conn (.stream (t.conn.streams p).id offset len true)))) ∧
    ∀ sp, (t.space sp).discarded = false → ∀ v < (t.crypto sp).sent,
      (t.crypto sp).acked.Holds v ∨ (t.crypto sp).lost.Holds v ∨
      ∃ offset len, (t.space sp).Recorded (.crypto sp offset len) ∧ offset ≤ v ∧ v < offset + len := by
  have hinv : Transport.Inv t := Transport.run_inv hrun
  refine ⟨fun p ho hr => ?_, fun sp hd => (hinv.sound.crypto sp hd).bytes⟩
  have hacc := hinv.sound.streams p ho hr
  exact ⟨hacc.bytes, hacc.fin⟩

/-- A request on stream 0 and its answer, in two packets of which the peer acknowledges the
    second only; CRYPTO bytes go out before. -/
def answeredRun : List Label :=
  [.beginPacket .initial, .cryptoTurn 90 1200, .sendPacket 0 true true,
    .call (.peerParams { initialMaxData := 100, initialMaxStreamDataBidiLocal := 100 }),
    .call .handshakeComplete, .install .application,
    .frame (.stream 0 0 (bytes "request") true) 0, .call (.answer 3 { head := bytes "answer" }),
    .call (.streamReady 3),
    .beginPacket .application, .turn (.streamTurn 10 fun _ _ => []), .sendPacket 0 true true,
    .beginPacket .application, .turn (.streamTurn 1200 fun _ _ => []), .sendPacket 5 true true,
    .ack .application [(1, 2)] 1 0 []]

theorem no_sent_byte_forgotten_answeredRun :
    ∃ t, run Transport.step (Transport.start {}) answeredRun = some t ∧
      (∀ v < 6, v < (t.conn.streams 3).headBase ∨ (t.conn.streams 3).acked.Holds v ∨
        (t.conn.streams 3).lost.Holds v ∨ ∃ offset len fin, (t.space .application).Recorded
          (.conn (.stream (t.conn.streams 3).id offset len fin)) ∧ offset ≤ v ∧ v < offset + len) ∧
      ∀ v < 90, (t.crypto .initial).acked.Holds v ∨ (t.crypto .initial).lost.Holds v ∨
        ∃ offset len, (t.space .initial).Recorded (.crypto .initial offset len) ∧ offset ≤ v ∧
          v < offset + len := by
  have hsent : (run Transport.step (Transport.start {}) answeredRun).map (fun t =>
      ((t.conn.streams 3).isOpen, (t.conn.streams 3).resetSent, (t.conn.streams 3).next,
        (t.crypto .initial).sent, (t.space .initial).discarded)) =
      some (true, false, 6, 90, false) := by decide
  obtain ⟨t, ht, hsent⟩ := Option.map_eq_some_iff.mp hsent
  simp only [Prod.mk.injEq] at hsent
  obtain ⟨ho, hr, hn, hc, hd⟩ := hsent
  obtain ⟨hstreams, hcrypto⟩ := no_sent_byte_forgotten {} answeredRun t ht
  refine ⟨t, ht, fun v hv => ?_, fun v hv => ?_⟩
  · exact (hstreams 3 ho hr).1 v (by omega)
  · exact hcrypto .initial hd v (by omega)

end Agensio.Quic
