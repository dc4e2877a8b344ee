/-
  Agensio.Quic.Disclosure — the offsets a sender discloses.

  A STREAM frame discloses its end, a RESET_STREAM its final size.  The
  peer holds both against the credit it gave: `max_send` of the stream
  when the frame is built, and `peer_max_data_` for the sum over streams
  of what is largest on each.

  New bytes are framed within the credit, lost ones lie below `next`,
  and `data_sent_` counts each byte once (`Disclosed`).  What does not
  fit in is the final size: `build_packet` writes `total`, which may lie
  beyond `next` and beyond the credit, and nothing keeps an answer from
  being framed after the RESET_STREAM.  `finalSizeKept` is the condition
  on a round under which neither happens.

  Main results: `flow_control_respected`, `reset_discloses_unsent`.
-/
import Agensio.Lib.Watermark
import Agensio.Quic.Accounting

namespace Agensio.Quic

open Agensio.Lib

/-! ## §1. What was disclosed. -/

/-- The bytes a frame carries, and the offset it discloses as their end. -/
def Disclosure.mark (d : Disclosure) : Watermark.Mark Nat :=
  match d.frame with
  | .stream id offset data _ => { key := id, lo := offset, hi := offset + data.length }
  | f => { key := f.streamId, lo := f.upto, hi := f.upto }

def OutFrame.isReset : OutFrame → Bool
  | .resetStream .. => true
  | _ => false

/-- The offsets of a stream that were ever framed. -/
def framedBytes (w : List Disclosure) (id : Nat) : Finset Nat :=
  Watermark.covered (w.map Disclosure.mark) id

/-- The largest offset of a stream disclosed so far. -/
def largestOffset (w : List Disclosure) (id : Nat) : Nat :=
  Watermark.top (w.map Disclosure.mark) id

/-- Their sum over all streams. -/
def offsetSum (w : List Disclosure) : Nat := Watermark.total (w.map Disclosure.mark)

@[simp] theorem Disclosure.mark_key (d : Disclosure) : d.mark.key = d.frame.streamId := by
  unfold Disclosure.mark
  split
  · next h => rw [h]; rfl
  · rfl

@[simp] theorem Disclosure.mark_hi (d : Disclosure) : d.mark.hi = d.frame.upto := by
  unfold Disclosure.mark
  split
  · next h => rw [h]; rfl
  · rfl

/-- A stream that no frame names has nothing framed. -/
theorem framedBytes_of_unnamed {w : List Disclosure} {id : Nat}
    (h : ∀ d ∈ w, d.frame.streamId ≠ id) : framedBytes w id = ∅ ∧ largestOffset w id = 0 := by
  have hm : ∀ m ∈ w.map Disclosure.mark, m.key ≠ id := by
    intro m hm
    obtain ⟨d, hd, rfl⟩ := List.mem_map.mp hm
    rw [Disclosure.mark_key]
    exact h d hd
  exact ⟨Watermark.covered_of_not_mem hm, Watermark.top_of_not_mem hm⟩

theorem framedBytes_append (w : List Disclosure) (d : Disclosure) (id : Nat) :
    framedBytes (w ++ [d]) id = framedBytes w id ∪
      (if d.frame.streamId = id then Finset.Ico d.mark.lo d.mark.hi else ∅) := by
  unfold framedBytes
  rw [List.map_append, List.map_singleton, Watermark.covered_append_single, Disclosure.mark_key]

theorem largestOffset_append (w : List Disclosure) (d : Disclosure) (id : Nat) : largestOffset (w ++ [d]) id =
      max (largestOffset w id) (if d.frame.streamId = id then d.frame.upto else 0) := by
  unfold largestOffset
  rw [List.map_append, List.map_singleton, Watermark.top_append_single, Disclosure.mark_key,
    Disclosure.mark_hi]

theorem offsetSum_append (w : List Disclosure) (d : Disclosure) :
    offsetSum (w ++ [d]) + largestOffset w d.frame.streamId =
      offsetSum w + max (largestOffset w d.frame.streamId) d.frame.upto := by
  have h := Watermark.total_append_single (w.map Disclosure.mark) d.mark
  rw [Disclosure.mark_key, Disclosure.mark_hi] at h
  unfold offsetSum largestOffset
  rw [List.map_append, List.map_singleton]
  exact h

/-! ## §2. The books. -/

/-- The books of one stream: the bytes framed are those below `next`, within the credit. -/
structure SendSide.Tallied (s : SendSide) (w : List Disclosure) : Prop where
  framed : framedBytes w s.id = Finset.range s.next
  largest : largestOffset w s.id = s.next
  credit : s.next ≤ s.maxSend

namespace Conn

/-- The frames written against the end and the credit of their streams. -/
structure Disclosed (c : Conn) (w : List Disclosure) : Prop where
  within : ∀ d ∈ w, d.frame.upto ≤ d.limit
  final : ∀ d ∈ w, d.frame.isReset = true →
    d.frame.upto = (framedBytes w d.frame.streamId).card
  resets : ∀ d ∈ w, d.frame.isReset = true → ∀ p, (c.side p).isOpen = true →
    (c.side p).id = d.frame.streamId → (c.side p).resetSent = true
  known : ∀ d ∈ w, Known c d.frame.streamId
  tallied : ∀ p, (c.side p).isOpen = true → (c.side p).Tallied w
  sum : offsetSum w = c.dataSent
  budget : c.dataSent ≤ c.peerMaxData
  early : c.peerParamsOk = false → c.dataSent = 0

variable {c c' : Conn} {p : Ptr} {w : List Disclosure} {out : Carried}

theorem create_disclosed (limits : Limits) : Disclosed (create limits) [] where
  within := fun _ h => absurd h List.not_mem_nil
  final := fun _ h => absurd h List.not_mem_nil
  resets := fun _ h => absurd h List.not_mem_nil
  known := fun _ h => absurd h List.not_mem_nil
  tallied := fun _ h => absurd h Bool.false_ne_true
  sum := rfl
  budget := Nat.le_refl 0
  early := fun _ => rfl

/-- One stream changes and no frame is written. -/
theorem Disclosed.turned (h : Disclosed c w) (ho : ∀ q, q ≠ p → c'.side q = c.side q)
    (hk : ∀ id, Known c id → Known c' id) (hp : (c'.side p).isOpen = true → (c'.side p).Tallied w ∧
      ∀ d ∈ w, d.frame.isReset = true → (c'.side p).id = d.frame.streamId → (c'.side p).resetSent = true)
    (hd : c'.dataSent = c.dataSent) (hm : c'.dataSent ≤ c'.peerMaxData)
    (he : c'.peerParamsOk = false → c'.dataSent = 0) : Disclosed c' w where
  within := h.within
  final := h.final
  resets := by
    intro d hmem hr q hq hid
    by_cases hqp : q = p
    · rw [hqp] at hq hid ⊢
      exact (hp hq).2 d hmem hr hid
    rw [ho q hqp] at hq hid ⊢
    exact h.resets d hmem hr q hq hid
  known := fun d hmem => hk _ (h.known d hmem)
  tallied := by
    intro q hq
    by_cases hqp : q = p
    · rw [hqp] at hq ⊢
      exact (hp hq).1
    rw [ho q hqp] at hq ⊢
    exact h.tallied q hq
  sum := h.sum.trans hd.symm
  budget := hm
  early := he

/-- The stream that changes keeps its bytes, its credit at least, and its reset. -/
theorem Disclosed.kept (h : Disclosed c w) (ho : (c.side p).isOpen = true) (ht : Touch p c c')
    (hk : ∀ id, Known c id → Known c' id) (hid : (c'.side p).id = (c.side p).id)
    (hn : (c'.side p).next = (c.side p).next) (hc : (c.side p).maxSend ≤ (c'.side p).maxSend)
    (hr : (c'.side p).resetSent = (c.side p).resetSent) : Disclosed c' w := by
  refine h.turned ht.others hk (fun _ => ⟨?_, fun d hmem hres he => ?_⟩) ht.dataSent ?_ ?_
  · obtain ⟨hf, hl, hle⟩ := h.tallied p ho
    refine ⟨?_, ?_, ?_⟩
    · rw [hid, hn]
      exact hf
    · rw [hid, hn]
      exact hl
    · rw [hn]
      exact hle.trans hc
  · rw [hr]
    exact h.resets d hmem hres p ho (hid.symm.trans he)
  · rw [ht.dataSent, ht.peerMaxData]
    exact h.budget
  · rw [ht.dataSent, ht.peerParamsOk]
    exact h.early

/-- No stream changes. -/
theorem Disclosed.same (h : Disclosed c w) (hs : ∀ q, c'.side q = c.side q)
    (hk : ∀ id, Known c id → Known c' id) (hd : c'.dataSent = c.dataSent)
    (hm : c.dataSent ≤ c'.peerMaxData) (he : c'.peerParamsOk = false → c.dataSent = 0) : Disclosed c' w := by
  refine h.turned (p := 0) (fun q _ => hs q) hk (fun ho => ?_) hd (hd ▸ hm) fun hp => ?_
  · rw [hs] at ho ⊢
    exact ⟨h.tallied 0 ho, fun d hmem hr hid => h.resets d hmem hr 0 ho hid⟩
  · rw [hd]
    exact he hp

/-- A stream is opened under an id that was never known. -/
theorem Disclosed.newStream (h : Disclosed c w) (hnew : ¬ Known c (c'.side p).id)
    (hn : (c'.side p).next = 0) (ho : ∀ q, q ≠ p → c'.side q = c.side q)
    (hk : ∀ id, Known c id → Known c' id) (hd : c'.dataSent = c.dataSent)
    (hm : c'.peerMaxData = c.peerMaxData) (he : c'.peerParamsOk = c.peerParamsOk) : Disclosed c' w := by
  have hno : ∀ d ∈ w, d.frame.streamId ≠ (c'.side p).id := by
    intro d hmem hid
    exact hnew (hid ▸ h.known d hmem)
  obtain ⟨hf, hl⟩ := framedBytes_of_unnamed hno
  refine h.turned ho hk (fun _ => ⟨⟨?_, ?_, ?_⟩, fun d hmem _ hid => ?_⟩) hd ?_ ?_
  · rw [hf, hn, Finset.range_zero]
  · rw [hl, hn]
  · rw [hn]
    exact Nat.zero_le _
  · exact absurd hid.symm (hno d hmem)
  · rw [hd, hm]
    exact h.budget
  · rw [hd, he]
    exact h.early

variable {fs : List OutFrame}

/-- **An effect that writes nothing keeps the books.** -/
theorem Disclosed.effect (h : Disclosed c w) (hi : SendInv c out)
    (he : SendEffect c c' fs) (hn : fs = []) : Disclosed c' w := by
  have hk : ∀ id, Known c id → Known c' id := fun id hk => hi.known_effect he hk
  cases he with
  | same hs =>
    refine h.same hs.side hk hs.dataSent ?_ ?_
    · rw [hs.peerMaxData]
      exact h.budget
    · rw [hs.peerParamsOk]
      exact h.early
  | @credit c' v hv hs =>
    have hmax : c'.peerMaxData = v := hs.peerMaxData
    have hok : c'.peerParamsOk = c.peerParamsOk := hs.peerParamsOk
    refine h.same hs.side hk hs.dataSent ?_ ?_
    · rw [hmax]
      exact Nat.le_trans h.budget hv
    · rw [hok]
      exact h.early
  | @params tp hp =>
    refine h.same (fun _ => rfl) hk rfl ?_ fun hc => absurd hc (by simp [applyPeerParams])
    -- nothing is sent before the peer's parameters are known
    rw [h.early hp]
    exact Nat.zero_le _
  | @change c' p ho ht hs =>
    obtain ⟨-, hid, hnext, -, -, -, -, -, hreset, -⟩ := hs.keeps
    refine h.kept ho ht hk hid hnext ?_ hreset
    generalize c'.side p = s' at hs
    cases hs with
    | raised v hv => exact hv
    | _ => exact le_rfl
  | @prepared c' p ho ht hs =>
    obtain ⟨_, _, hs⟩ := hs
    refine h.turned ht.others hk (fun hc => ?_) ht.dataSent ?_ ?_
    · rw [hs, ho] at hc
      cases hc
    · rw [ht.dataSent, ht.peerMaxData]
      exact h.budget
    · rw [ht.dataSent, ht.peerParamsOk]
      exact h.early
  | @opened c' id p ho hp hc hnew ht hs hb =>
    have hnew : ¬ Known c (c'.side p).id := hs.2.symm ▸ hnew
    exact h.newStream hnew (hb (hi.blank p ho)).next ht.others hk ht.dataSent ht.peerMaxData
      ht.peerParamsOk
  | @own c' p ho hp ht hs =>
    have hb := hi.blank p ho
    obtain ⟨_, _, _, hs⟩ := hs
    have hs := hs hb.headBase
    refine h.newStream (p := p) ?_ ?_ ht.others hk ht.dataSent ht.peerMaxData ht.peerParamsOk
    · rw [hs]
      exact hi.own_unknown
    · rw [hs]
      exact hb.next
  | @closed c' p hp ho hb hk' hm ht =>
    refine h.turned ht.others hk (fun hc => ?_) ht.dataSent ?_ ?_
    · rw [ho] at hc
      cases hc
    · have hd : c'.dataSent = c.dataSent := ht.dataSent
      have hm : c'.peerMaxData = c.peerMaxData := ht.peerMaxData
      rw [hd, hm]
      exact h.budget
    · have hd : c'.dataSent = c.dataSent := ht.dataSent
      have hp : c'.peerParamsOk = c.peerParamsOk := ht.peerParamsOk
      rw [hd, hp]
      exact h.early
  | framed => simp at hn
  | reset => simp at hn

theorem Disclosed.effects (h : Disclosed c w) (hi : SendInv c out)
    (he : Effects c c' fs) (hn : fs = []) : Disclosed c' w := by
  induction he with
  | none => exact h
  | snoc hs he ih =>
    obtain ⟨hfs, hgs⟩ := List.append_eq_nil_iff.mp hn
    exact (ih hfs).effect (hi.effects hs) he hgs

/-! ## §3. A frame is written. -/

/-- What writing the frame `d` of the stream `p` does to the books: `next` moves to the end of what
    is framed, and `data_sent_` by as much. -/
structure Writes (p : Ptr) (d : Disclosure) (c c' : Conn) : Prop where
  id : d.frame.streamId = (c.side p).id
  others : ∀ q, q ≠ p → c'.side q = c.side q
  keeps_id : (c'.side p).id = (c.side p).id
  credit : (c'.side p).maxSend = (c.side p).maxSend
  covers : Finset.range (c.side p).next ∪ Finset.Ico d.mark.lo d.mark.hi =
    Finset.range (c'.side p).next
  reaches : max (c.side p).next d.frame.upto = (c'.side p).next
  allowed : (c'.side p).next ≤ (c.side p).maxSend
  limit : d.limit = (c.side p).maxSend
  unchanged : (c.side p).resetSent = true → (c'.side p).next = (c.side p).next
  resets : (c.side p).resetSent = true → (c'.side p).resetSent = true
  final : d.frame.isReset = true → d.frame.upto = (c'.side p).next ∧ (c'.side p).resetSent = true
  sent : c'.dataSent + (c.side p).next = c.dataSent + (c'.side p).next
  budget : c'.dataSent ≤ c'.peerMaxData
  known : ∀ id, Known c id → Known c' id

theorem Disclosed.wrote {d : Disclosure} (h : Disclosed c w) (hi : SendInv c out)
    (ho : (c.side p).isOpen = true) (hw : Writes p d c c') (hp : c'.peerParamsOk = true) :
    Disclosed c' (w ++ [d]) := by
  obtain ⟨hf, hl, hle⟩ := h.tallied p ho
  have hself : framedBytes (w ++ [d]) (c.side p).id = Finset.range (c'.side p).next := by
    rw [framedBytes_append, if_pos hw.id, hf]
    exact hw.covers
  have hother : ∀ id, id ≠ (c.side p).id → framedBytes (w ++ [d]) id = framedBytes w id := by
    intro id hne
    rw [framedBytes_append, if_neg, Finset.union_empty]
    intro he
    exact hne (he.symm.trans hw.id)
  have hlargest : ∀ id, id ≠ (c.side p).id → largestOffset (w ++ [d]) id = largestOffset w id := by
    intro id hne
    rw [largestOffset_append, if_neg, Nat.max_zero]
    intro he
    exact hne (he.symm.trans hw.id)
  have happ : ∀ {P : Disclosure → Prop}, (∀ x ∈ w, P x) → P d → ∀ x ∈ w ++ [d], P x := by
    intro P hold hnew x hx
    rcases List.mem_append.mp hx with hx | hx
    · exact hold x hx
    rw [List.mem_singleton.mp hx]
    exact hnew
  refine ⟨happ h.within ?_, happ (fun x hx hr => ?_) (fun hr => ?_), happ (fun x hx hr q hq hid => ?_)
    (fun hr q hq hid => ?_), happ (fun x hx => hw.known _ (h.known x hx)) ?_, fun q hq => ?_, ?_,
    hw.budget, fun hc => ?_⟩
  · -- within the credit
    have hreach := hw.reaches
    have hallowed := hw.allowed
    rw [hw.limit]
    omega
  · -- an earlier RESET_STREAM: no byte of its stream is new
    by_cases he : x.frame.streamId = (c.side p).id
    · have hsent := h.resets x hx hr p ho he.symm
      have hold := h.final x hx hr
      rw [he, hf] at hold
      rw [he, hself, hw.unchanged hsent]
      exact hold
    · rw [hother _ he]
      exact h.final x hx hr
  · rw [hw.id, hself, Finset.card_range]
    exact (hw.final hr).1
  · by_cases hqp : q = p
    · rw [hqp] at hid ⊢
      exact hw.resets (h.resets x hx hr p ho (hw.keeps_id.symm.trans hid))
    rw [hw.others q hqp] at hq hid ⊢
    exact h.resets x hx hr q hq hid
  · by_cases hqp : q = p
    · rw [hqp]
      exact (hw.final hr).2
    rw [hw.others q hqp] at hq hid
    exact absurd (hi.ids q p hq ho (hid.trans hw.id)) hqp
  · rw [hw.id]
    exact hw.known _ (.inl ⟨p, ho, rfl⟩)
  · by_cases hqp : q = p
    · rw [hqp]
      refine ⟨?_, ?_, ?_⟩
      · rw [hw.keeps_id]
        exact hself
      · rw [hw.keeps_id, largestOffset_append, if_pos hw.id, hl]
        exact hw.reaches
      · rw [hw.credit]
        exact hw.allowed
    · rw [hw.others q hqp] at hq ⊢
      have hne : (c.side q).id ≠ (c.side p).id := fun he => hqp (hi.ids q p hq ho he)
      obtain ⟨hf', hl', hle'⟩ := h.tallied q hq
      exact ⟨(hother _ hne).trans hf', (hlargest _ hne).trans hl', hle'⟩
  · have hsum := offsetSum_append w d
    rw [hw.id, hl, hw.reaches, h.sum] at hsum
    have hsent := hw.sent
    omega
  · rw [hp] at hc
    cases hc

/-! ## §4. The rounds. -/

/-- The round keeps to the final size: a RESET_STREAM it writes has every byte of its stream framed
    already, and it frames no new byte of a stream whose RESET_STREAM was written. -/
def finalSizeKept (c : Conn) : Op → Bool
  | .controlTurn room =>
    match c.control with
    | [] => true
    | p :: _ =>
      let s := c.streams p
      !s.resetDue || decide (room < (OutFrame.resetStream s.id s.resetSendCode s.total).size) ||
        decide (s.total = s.next)
  | .streamTurn .. =>
    match c.readyHead with
    | none => true
    | some p =>
      let s := c.streams p
      !s.resetSent || !s.lost.isEmpty || decide (c.allowed s = 0)
  | _ => true

/-- What the round robin frames of a stream, in the books. -/
theorem Framing.writes {s : SendSide} {b take n : Nat} {data : Bytes} {fin : Bool} {lim : Nat}
    (hf : Framing c (c.side p) b take s n) (hi : SendInv c out) (h : Disclosed c w)
    (ho : (c.side p).isOpen = true) (hd : data.length = take) (ht : Touch p (c.addSent n) c')
    (hs : c'.side p = { s with finSent := s.finSent || fin })
    (hkeep : (c.side p).resetSent = true → (c.side p).lost = [] → c.allowed (c.streams p) = 0)
    (hlim : lim = (c.side p).maxSend) (hk : ∀ id, Known c id → Known c' id) :
    Writes p { frame := .stream (c.side p).id b data fin, limit := lim } c c' := by
  have hok := hi.side p ho
  have hcredit := (h.tallied p ho).credit
  have hsent : c'.dataSent = c.dataSent + n := ht.dataSent
  have hmax : c'.peerMaxData = c.peerMaxData := ht.peerMaxData
  have hbudget := h.budget
  -- bytes below `next` are no news
  have hold : b + take ≤ (c.side p).next → Finset.range (c.side p).next ∪ Finset.Ico b (b + take) =
      Finset.range (c.side p).next := by
    intro hle
    rw [Finset.union_eq_left]
    intro v hv
    have hv := Finset.mem_Ico.mp hv
    exact Finset.mem_range.mpr (by omega)
  cases hf with
  | @resent b e take rest hl hle =>
    have hin : b + take ≤ (c.side p).next := by
      have habove : RangeSet.Above 0 ((b, e) :: rest) := hl ▸ hok.lost
      obtain ⟨-, hlt, -⟩ := habove
      have hlast := hok.lost_below (e - 1) (hl ▸ ⟨(b, e), .head _, by omega⟩)
      omega
    refine ⟨rfl, ht.others, by rw [hs], by rw [hs], ?_, ?_, ?_, hlim, fun _ => by rw [hs],
      fun hr => by rw [hs]; exact hr, nofun, ?_, ?_, hk⟩
    · rw [hs]
      show _ ∪ Finset.Ico b (b + data.length) = _
      rw [hd]
      exact hold hin
    · rw [hs]
      show max _ (b + data.length) = (c.side p).next
      omega
    · rw [hs]
      exact hcredit
    · rw [hs, hsent]
      rfl
    · omega
  | @fresh take hl hn htot hm hdata =>
    have hnone : (c.side p).resetSent = true → take = 0 := by
      intro hr
      have hz := hkeep hr hl
      unfold allowed at hz
      have htot : (c.streams p).next + take ≤ (c.streams p).total := htot
      have hm : (c.streams p).next + take ≤ (c.streams p).maxSend := hm
      omega
    refine ⟨rfl, ht.others, by rw [hs], by rw [hs], ?_, ?_, ?_, hlim, fun hr => ?_,
      fun hr => by rw [hs]; exact hr, nofun, ?_, ?_, hk⟩
    · rw [hs]
      show _ ∪ Finset.Ico (c.side p).next ((c.side p).next + data.length) =
        Finset.range ((c.side p).next + take)
      rw [hd]
      ext v
      simp only [Finset.mem_union, Finset.mem_range, Finset.mem_Ico]
      omega
    · rw [hs]
      show max _ ((c.side p).next + data.length) = (c.side p).next + take
      omega
    · rw [hs]
      exact hm
    · rw [hs]
      rw [hnone hr, Nat.add_zero]
    · rw [hs, hsent]
      show c.dataSent + take + (c.side p).next = c.dataSent + ((c.side p).next + take)
      omega
    · omega
  | bare hl hn hfin hfs =>
    refine ⟨rfl, ht.others, by rw [hs], by rw [hs], ?_, ?_, ?_, hlim, fun _ => by rw [hs],
      fun hr => by rw [hs]; exact hr, nofun, ?_, ?_, hk⟩
    · rw [hs]
      show _ ∪ Finset.Ico (c.side p).total ((c.side p).total + data.length) = _
      rw [hd]
      exact hold (by omega)
    · rw [hs]
      show max _ ((c.side p).total + data.length) = (c.side p).next
      omega
    · rw [hs]
      exact hcredit
    · rw [hs, hsent]
      rfl
    · omega

/-- **A round of the packetiser** keeps the books when it keeps to the final size. -/
theorem Disclosed.round {op : Op} (h : Disclosed c w) (hi : SendInv c out)
    (htab : TableInv c) (hp : c.peerParamsOk = true) (hr : Round c op c' fs)
    (hok : c.finalSizeKept op = true) : Disclosed c' (w ++ fs.map fun f =>
      { frame := f, limit := c.sendLimit f.streamId : Disclosure }) := by
  have hlimit : ∀ q, (c.side q).isOpen = true → c.sendLimit (c.side q).id = (c.side q).maxSend := by
    intro q hq
    unfold sendLimit
    rw [hi.find htab hq]
    rfl
  cases hr with
  | quiet he =>
    rw [List.map_nil, List.append_nil]
    exact h.effects hi he rfl
  | @framed room read k k' c' p b take n s data fin hh hk hf hd hfin ht hs he =>
    have hkept : (c.streams p).resetSent = true → (c.streams p).lost = [] →
        c.allowed (c.streams p) = 0 := by
      intro hr hl
      unfold finalSizeKept at hok
      rw [hh] at hok
      simpa [hr, hl] using hok
    have hi' : SendInv k out := by
      have := hi.effect (.same hk)
      rwa [Carried.add_nil] at this
    have hdis : Disclosed k w := h.effect hi (.same hk) rfl
    have ho : (k.side p).isOpen = true := by
      by_contra hne
      exact hf.not_blank (hi'.blank p (by simpa using hne))
    have hside := hk.side p
    have hsend : SendEffect k k' [.stream (k.side p).id b data fin] := .framed hf hd hfin ht hs
    have hwrites : Writes p
        { frame := .stream (k.side p).id b data fin, limit := c.sendLimit (k.side p).id } k k' := by
      refine hf.writes hi' hdis ho hd ht hs (fun hr hl => ?_) ?_
        fun id hkn => hi'.known_effect hsend hkn
      · rw [hside] at hr hl
        have hz := hkept hr hl
        -- the copy the round works on has the same numbers
        have hnext : (k.streams p).next = (c.streams p).next := congrArg SendSide.next hside
        have htotal : (k.streams p).total = (c.streams p).total := congrArg SendSide.total hside
        have hmax : (k.streams p).maxSend = (c.streams p).maxSend := congrArg SendSide.maxSend hside
        unfold allowed at hz ⊢
        rw [hk.peerMaxData, hk.dataSent, hnext, htotal, hmax]
        exact hz
      · rw [hside] at ho ⊢
        exact hlimit p ho
    have hp' : k'.peerParamsOk = true :=
      (ht.peerParamsOk.trans (show (k.addSent n).peerParamsOk = k.peerParamsOk from rfl)).trans
        (hk.peerParamsOk.trans hp)
    exact (hdis.wrote hi' ho hwrites hp').effects (hi'.effect hsend) he rfl
  | @reset room k' c' p rest hc hr hfits ht hs he =>
    have ho : (c.side p).isOpen = true := by
      by_contra hne
      have hblank := hi.blank p (by simpa using hne)
      have hdue : (c.side p).resetDue = true := hr
      rw [hblank.resetDue] at hdue
      exact Bool.false_ne_true hdue
    have htotal : (c.streams p).total = (c.streams p).next := by
      unfold finalSizeKept at hok
      rw [hc] at hok
      dsimp only at hok
      rw [hr] at hok
      simpa [Nat.not_lt.mpr hfits] using hok
    have hsend : SendEffect c k' [.resetStream (c.side p).id (c.streams p).resetSendCode
        (c.side p).total] := .reset hr ht hs
    have hnext : (c.side p).total = (c.side p).next := htotal
    have hwrites : Writes p
        { frame := .resetStream (c.side p).id (c.streams p).resetSendCode (c.side p).total
          limit := c.sendLimit (c.side p).id } c k' := by
      refine ⟨rfl, ht.others, by rw [hs], by rw [hs], ?_, ?_, ?_, hlimit p ho, fun _ => by rw [hs],
        fun _ => by rw [hs], fun _ => ⟨?_, by rw [hs]⟩, ?_, ?_,
        fun id hkn => hi.known_effect hsend hkn⟩
      · rw [hs]
        show _ ∪ Finset.Ico (c.side p).total (c.side p).total = _
        rw [Finset.Ico_self, Finset.union_empty]
      · rw [hs]
        show max _ (c.side p).total = (c.side p).next
        omega
      · rw [hs]
        exact (h.tallied p ho).credit
      · rw [hs]
        exact hnext
      · rw [hs, ht.dataSent]
      · rw [ht.dataSent, ht.peerMaxData]
        exact h.budget
    exact (h.wrote hi ho hwrites (ht.peerParamsOk.trans hp)).effects (hi.effect hsend) he rfl

/-! ## §5. What writes nothing. -/

theorem SendEffect.params_kept (he : SendEffect c c' fs)
    (hp : c.peerParamsOk = true) : c'.peerParamsOk = true := by
  cases he with
  | same hs => exact hs.peerParamsOk.trans hp
  | credit _ hs => exact hs.peerParamsOk.trans hp
  | params _ => rfl
  | change _ ht _ => exact ht.peerParamsOk.trans hp
  | prepared _ ht _ => exact ht.peerParamsOk.trans hp
  | opened _ _ _ _ ht _ _ => exact ht.peerParamsOk.trans hp
  | own _ _ ht _ => exact ht.peerParamsOk.trans hp
  | closed _ _ _ _ _ ht => exact ht.peerParamsOk.trans hp
  | framed _ _ _ ht _ => exact ht.peerParamsOk.trans hp
  | reset _ ht _ => exact ht.peerParamsOk.trans hp

theorem Effects.params_kept (he : Effects c c' fs) (hp : c.peerParamsOk = true) : c'.peerParamsOk = true := by
  induction he with
  | none => exact hp
  | snoc _ he ih => exact he.params_kept ih

/-- The books and the peer's parameters survive. -/
def Keeps (c c' : Conn) : Prop :=
  (∀ w, Disclosed c w → Disclosed c' w) ∧ (c.peerParamsOk = true → c'.peerParamsOk = true)

theorem Keeps.refl (c : Conn) : Keeps c c := ⟨fun _ h => h, fun h => h⟩

theorem Keeps.trans {a b c : Conn} (h : Keeps a b) (h' : Keeps b c) : Keeps a c :=
  ⟨fun w hd => h'.1 w (h.1 w hd), fun hp => h'.2 (h.2 hp)⟩

theorem keeps_of_effects (hi : SendInv c out) (he : Effects c c' []) : Keeps c c' :=
  ⟨fun _ h => h.effects hi he rfl, he.params_kept⟩

/-- One stream changes in what neither its end nor its credit is about. -/
theorem keeps_of_touch (ho : (c.side p).isOpen = true) (ht : Touch p c c')
    (hopen : (c'.side p).isOpen = (c.side p).isOpen) (hid : (c'.side p).id = (c.side p).id)
    (hn : (c'.side p).next = (c.side p).next) (hm : (c'.side p).maxSend = (c.side p).maxSend)
    (hr : (c'.side p).resetSent = (c.side p).resetSent) : Keeps c c' := by
  refine ⟨fun w h => h.kept ho ht (fun id hk => ?_) hid hn (Nat.le_of_eq hm.symm) hr,
    fun hp => ht.peerParamsOk.trans hp⟩
  exact known_of_touch ht.grows ht.others (fun _ => .inl ⟨p, hopen.trans ho, hid⟩) hk

theorem keeps_applyAcked (c : Conn) (it : SentItem) : Keeps c (c.applyAcked it) := by
  rcases applyAcked_send c it with ⟨he, -⟩ | ⟨id, offset, len, fin, p, -, hf, ht, he⟩
  · rw [he]
    exact Keeps.refl c
  obtain ⟨-, ho, -⟩ := findStream_some hf
  obtain ⟨hopen, hid, hn, -, -, -, -, -, hr, hm⟩ := he.keeps
  exact keeps_of_touch ho ht hopen hid hn hm hr

theorem keeps_applyLost (hi : SendInv c out) (it : SentItem) : Keeps c (c.applyLost it) := by
  have he := applyLost_send c it
  generalize c.applyLost it = c' at he
  cases he with
  | other _ he => exact keeps_of_effects hi (.one he)
  | gone _ => exact Keeps.refl c
  | past _ _ => exact Keeps.refl c
  | again hf _ ht hs =>
    obtain ⟨-, ho, -⟩ := findStream_some hf
    refine keeps_of_touch ho ht ?_ ?_ ?_ ?_ ?_ <;> rw [hs]

end Conn

namespace Transport

variable {t t' : Transport} {out : Outstanding}

theorem keeps_calls {ops : List Op} {c' : Conn} (h : Sound t out)
    (hrun : run Conn.call t.conn ops = some c') : Conn.Keeps t.conn c' := by
  induction ops generalizing t with
  | nil =>
    cases hrun
    exact Conn.Keeps.refl _
  | cons op ops ih =>
    obtain ⟨m, hm, hrest⟩ := step_of_run_cons hrun
    obtain ⟨heff, htable⟩ := Conn.call_effects h.table hm
    have hstep : Sound (t.setConn m) out :=
      h.effects htable heff (Carried.add_nil _).symm fun _ _ _ => .rfl
    exact (Conn.keeps_of_effects h.send heff).trans (ih hstep hrest)

theorem keeps_applyAckedItem (t : Transport) (it : Item) : Conn.Keeps t.conn (t.applyAcked it).conn := by
  cases it with
  | conn it => exact Conn.keeps_applyAcked t.conn it
  | _ => exact Conn.Keeps.refl _

theorem keeps_applyLostItem (h : Sound t out) (it : Item) : Conn.Keeps t.conn (t.applyLost it).conn := by
  cases it with
  | conn it => exact Conn.keeps_applyLost h.send it
  | crypto sp o l =>
    unfold applyLost
    dsimp only
    split <;> exact Conn.Keeps.refl _
  | _ => exact Conn.Keeps.refl _

theorem keeps_ackedAll {base : Outstanding} {acked rest : List Item} {calls : List (List Op)}
    (h : Sound t (base.plus (acked ++ rest))) (ha : t.applyAckedAll acked calls = some t') :
    Conn.Keeps t.conn t'.conn ∧ t'.written = t.written := by
  induction acked generalizing t calls with
  | nil =>
    cases ha
    exact ⟨Conn.Keeps.refl _, rfl⟩
  | cons it acked ih =>
    obtain ⟨c, hrun, ha⟩ := applyAckedAll_cons ha
    have hit : Sound (t.applyAcked it) (base.plus (acked ++ rest)) :=
      h.acked (leaves_head base it (acked ++ rest)) fun _ _ _ _ _ => .inr (.head _)
    obtain ⟨hkeeps, hw⟩ := ih (hit.calls hrun) ha
    refine ⟨((keeps_applyAckedItem t it).trans (keeps_calls hit hrun)).trans hkeeps, hw.trans ?_⟩
    cases it <;> rfl

theorem keeps_lostAll {base : Outstanding} {lost : List Item} (h : Sound t (base.plus lost)) :
    Conn.Keeps t.conn (t.applyLostAll lost).conn ∧ (t.applyLostAll lost).written = t.written := by
  induction lost generalizing t with
  | nil => exact ⟨Conn.Keeps.refl _, rfl⟩
  | cons it lost ih =>
    have hit : Sound (t.applyLost it) (base.plus lost) :=
      h.lost (leaves_head base it lost) fun _ _ => .inr (.head _)
    obtain ⟨hkeeps, hw⟩ := ih hit
    refine ⟨(keeps_applyLostItem h it).trans hkeeps, hw.trans ?_⟩
    cases it with
    | crypto sp o l =>
      unfold applyLost
      dsimp only
      split <;> rfl
    | _ => rfl

/-! ## §6. Every step. -/

/-- The books, and that 1-RTT keys come after the peer's parameters. -/
structure Told (t : Transport) : Prop where
  inv : Inv t
  books : t.conn.Disclosed t.written
  params : t.keys .application = true → t.conn.peerParamsOk = true

theorem start_told (limits : Limits) : Told (start limits) where
  inv := start_inv limits
  books := Conn.create_disclosed limits
  params := fun h => absurd h (by simp [start])

/-- A step that writes nothing and hands out no keys. -/
theorem Told.kept (h : Told t) (hi : Inv t') (hk : Conn.Keeps t.conn t'.conn)
    (hw : t'.written = t.written) (hkeys : t'.keys .application = t.keys .application) : Told t' where
  inv := hi
  books := hw ▸ hk.1 _ h.books
  params := fun hc => hk.2 (h.params (hkeys.symm.trans hc))

theorem Told.ack {sp : Space} {ranges : List (Nat × Nat)} {largestAck : Nat} {lostSendTime : Int}
    {calls : List (List Op)} (h : Told t) (hn : t.building = none)
    (ha : t.onAck sp ranges largestAck lostSendTime calls = some t') : Told t' := by
  have hi := h.inv.ack hn ha
  rcases onAck_cases ha with rfl | ⟨ps, acked, lost, t₁, hr, haa, rfl⟩
  · exact h.kept hi (Conn.keeps_of_effects h.inv.sound.send (.same ((Conn.same_walk 0).fail ..))) rfl rfl
  have hout := h.inv.handed hr
  obtain ⟨hacked, hrec⟩ := hout.ackedAll haa
  obtain ⟨hk, hw⟩ := keeps_ackedAll hout haa
  obtain ⟨hk', hw'⟩ := keeps_lostAll hacked
  obtain ⟨-, hrec'⟩ := hacked.lostAll
  exact h.kept hi (hk.trans hk') (hw'.trans hw)
    (congrFun (hrec'.keys.trans hrec.keys) .application)

theorem Told.timer (h : Told t) (hn : t.building = none) (detect : Option (Space × Int))
    (probed : List Space) : Told (t.onTimer detect probed) := by
  have hi := h.inv.timer hn detect probed
  obtain ⟨-, hout⟩ := h.inv.expired hn detect probed
  obtain ⟨hc, hwr, hkeys⟩ := t.detected_kept detect
  rw [onTimer_eq] at hi ⊢
  obtain ⟨hk, hw⟩ := keeps_lostAll hout
  obtain ⟨-, hrec⟩ := hout.lostAll
  rw [hc] at hk
  exact h.kept hi hk (hw.trans hwr) (congrFun (hrec.keys.trans hkeys) .application)

/-- The condition on a label: the rounds of the packetiser keep to the final sizes. -/
def finalSizeKept (t : Transport) : Label → Prop
  | .turn op => t.conn.finalSizeKept op = true
  | _ => True

instance (t : Transport) (l : Label) : Decidable (t.finalSizeKept l) :=
  match l with
  | .turn _ => inferInstanceAs (Decidable (_ = true))
  | .call _ | .install _ | .discard _ | .frame .. | .ack .. | .timer .. | .beginPacket _
  | .cryptoTurn .. | .note _ | .sendPacket .. | .abandonPacket => inferInstanceAs (Decidable True)

theorem Told.write {op : Op} {r : Turn} (h : Told t) (hb : t.building = some .application)
    (hr : t.conn.turn op = some r) (hok : t.conn.finalSizeKept op = true) : Told (t.write r) := by
  have hi := h.inv.write hb hr
  have hp := h.params (h.inv.rings.keyed _ hb)
  obtain ⟨hround, -⟩ := Conn.turn_round h.inv.sound.table h.inv.sound.send hr
  exact ⟨hi, h.books.round h.inv.sound.send h.inv.sound.table hp hround hok,
    fun _ => hround.effects.params_kept hp⟩

/-- **The step lemma.** -/
theorem step_told {l : Label} (h : Told t) (hok : t.finalSizeKept l) (hs : t.step l = some t') : Told t' := by
  have hi := step_inv h.inv hs
  have hrefl : Conn.Keeps t.conn t.conn := Conn.Keeps.refl _
  cases stepped hs with
  | call hc =>
    obtain ⟨heff, -⟩ := Conn.call_effects h.inv.sound.table hc
    exact h.kept hi (Conn.keeps_of_effects h.inv.sound.send heff) rfl rfl
  | @install sp hg =>
    refine ⟨hi, h.books, fun hk => ?_⟩
    by_cases hsp : sp = .application
    · exact hg hsp
    have hk : Function.update t.keys sp true .application = true := hk
    rw [Function.update_of_ne (Ne.symm hsp)] at hk
    exact h.params hk
  | discard hb hsp => exact h.kept hi hrefl rfl (Function.update_of_ne (Ne.symm hsp) ..)
  | @frame f sec =>
    exact h.kept hi (Conn.keeps_of_effects h.inv.sound.send (Conn.frame_effect h.inv.sound.table f sec))
      rfl rfl
  | ack hidle ha => exact h.ack (idle_iff.mp hidle).1 ha
  | @timer detect probed hidle => exact h.timer (idle_iff.mp hidle).1 detect probed
  | @cryptoTurn sp size room hb =>
    unfold Transport.cryptoTurn at hi ⊢
    split at hi <;> exact h.kept hi hrefl rfl rfl
  | turn hb hr => exact h.write hb hr hok
  | _ => exact h.kept hi hrefl rfl rfl

end Transport

/-! ## §7. Every run. -/

/-- The peer's flow control is respected, as far as the frames built so far go. -/
structure FlowControlled (t : Transport) : Prop where
  within : ∀ d ∈ t.written, d.frame.upto ≤ d.limit
  final : ∀ d ∈ t.written, ∀ id code n, d.frame = .resetStream id code n →
    n = (framedBytes t.written id).card
  sum : offsetSum t.written ≤ t.conn.peerMaxData

/-- **Sending respects the peer's flow control** in every run whose rounds keep to the final
    sizes: every offset disclosed is within `max_send` of that time, a final size is the number of
    bytes framed, and the largest offsets add up to no more than `peer_max_data_`. -/
theorem flow_control_respected (limits : Limits) (ls : List Label) (t : Transport)
    (hrun : run Transport.step (Transport.start limits) ls = some t)
    (hok : Meets Transport.step Transport.finalSizeKept (Transport.start limits) ls) : FlowControlled t := by
  have htold : Transport.Told t :=
    run_invariant (I := Transport.Told) (fun _ _ _ h ho hs => Transport.step_told h ho hs)
      (Transport.start_told limits) hrun hok
  refine ⟨htold.books.within, fun d hd id code n he => ?_, ?_⟩
  · have hfinal := htold.books.final d hd (by rw [he]; rfl)
    rw [he] at hfinal
    exact hfinal
  · rw [htold.books.sum]
    exact htold.books.budget

/-- A request on stream 0, its answer framed as far as the peer's windows go. -/
def windowRun (window : Nat) : List Label :=
  [.call (.peerParams { initialMaxData := window, initialMaxStreamDataBidiLocal := window }),
    .call .handshakeComplete, .install .application,
    .frame (.stream 0 0 (bytes "request") true) 0, .call (.answer 3 { head := bytes "answer" }),
    .call (.streamReady 3),
    .beginPacket .application, .turn (.streamTurn 1200 fun _ _ => []), .sendPacket 0 true true]

/-- The peer gives up on the answer and the application resets the stream. -/
def stoppedRun (window : Nat) : List Label :=
  windowRun window ++ [.frame (.stopSending 0 0x10c) 0, .call (.streamReset 3 0x10c),
    .beginPacket .application, .turn (.controlTurn 1200)]

/-- With all six bytes framed the RESET_STREAM says what went out. -/
theorem flow_control_respected_stoppedRun :
    ∃ t, run Transport.step (Transport.start {}) (stoppedRun 10) = some t ∧
      t.written = [{ frame := .stream 0 0 (bytes "answer") true, limit := 10 },
        { frame := .resetStream 0 0x10c 6, limit := 10 }] ∧ FlowControlled t := by
  have hw : (run Transport.step (Transport.start {}) (stoppedRun 10)).map Transport.written =
      some [{ frame := .stream 0 0 (bytes "answer") true, limit := 10 },
        { frame := .resetStream 0 0x10c 6, limit := 10 }] := by decide
  obtain ⟨t, ht, hw⟩ := Option.map_eq_some_iff.mp hw
  exact ⟨t, ht, hw, flow_control_respected {} (stoppedRun 10) t ht (by decide)⟩

/-- In a window of 4 it says 6 as well: two bytes more than were framed, and beyond
    `peer_max_data_`. -/
theorem reset_discloses_unsent :
    ∃ t, run Transport.step (Transport.start {}) (stoppedRun 4) = some t ∧ ¬ FlowControlled t ∧
      { frame := .resetStream 0 0x10c 6, limit := 4 } ∈ t.written ∧
      (framedBytes t.written 0).card = 4 ∧ offsetSum t.written = 6 ∧ t.conn.peerMaxData = 4 := by
  have hw : (run Transport.step (Transport.start {}) (stoppedRun 4)).map (fun t =>
      (t.written, t.conn.peerMaxData)) =
      some ([{ frame := .stream 0 0 (bytes "answ") false, limit := 4 },
        { frame := .resetStream 0 0x10c 6, limit := 4 }], 4) := by decide
  obtain ⟨t, ht, hw⟩ := Option.map_eq_some_iff.mp hw
  obtain ⟨hw, hm⟩ := Prod.mk.inj hw
  have hsum : offsetSum t.written = 6 := by
    rw [hw]
    decide
  refine ⟨t, ht, fun hflow => ?_, ?_, ?_, hsum, hm⟩
  · have hle := hflow.sum
    omega
  · rw [hw]
    decide
  · rw [hw]
    decide

end Agensio.Quic
