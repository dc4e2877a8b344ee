/-
  Agensio.Qpack.Sender — the encoder and the streams that own its sections.

  The system of which `qpack::Encoder` is the core: the peer's SETTINGS
  arrive once (`apply_settings`), a response head is a section from
  `begin` to `end` (`build_head`), the peer's decoder stream acknowledges
  and cancels sections and increments the known count (`on_uni_data`),
  and a stream the transport is done with releases its section
  (`close_stream`).  A stream's record is `H3Stream::qpack`; one head is
  built for a stream, and stream ids are not used twice.

  Two fields are HISTORY VARIABLES: `outstanding`, the sections sent that
  the peer has neither acknowledged nor cancelled, and `confirmed`, the
  highest Required Insert Count of a section whose acknowledgement was
  consumed.

  Main result: `reference_accounting` — in every run in which each
  reference finds its entry recorded or a free slot, `Entry::refs` counts
  the sections that reference the entry, and `blocking_` those that may
  block.
-/
import Agensio.Lib.Runs
import Agensio.Lib.Assoc
import Agensio.Qpack.Ledger

namespace Agensio.Qpack

open Agensio.Lib Agensio.Codec

/-! ## §1. The system. -/

/-- The encoder and the sections of the streams that are open. -/
structure Sender where
  enc : Encoder := {}
  settings : Bool := false
  building : Option (Nat × Section) := none
  streams : List (Nat × Section) := []
  started : List Nat := []
  outstanding : List (Nat × Section) := []
  confirmed : Nat := 0
  deriving DecidableEq

inductive SenderEvent where
  | settings (capacity blockedStreams : Nat)
  | begin (id : Nat)
  | field (op : FieldOp)
  | finish
  | acknowledged (id : Nat)
  | cancelled (id : Nat)
  | increment (n : Nat)
  | close (id : Nat)
  deriving DecidableEq

namespace Sender

/-- A change to the encoder's table and to the record of one stream. -/
def update (s : Sender) (id : Nat) (r : Table × Section) : Sender :=
  { s with enc := { s.enc with toTable := r.1 }, streams := setAt s.streams id r.2 }

/-- The decoder stream's `on_section`: a stream that is closed is passed over. -/
def onSection (s : Sender) (id : Nat) (cancelled : Bool) : Sender :=
  let s := { s with
    outstanding := dropAt s.outstanding id
    confirmed :=
      match s.outstanding.lookup id with
      | some c => if cancelled then s.confirmed else max s.confirmed c.ric
      | none => s.confirmed }
  match s.streams.lookup id with
  | none => s
  | some c =>
    if cancelled then s.update id (s.enc.cancelled c) else s.update id (s.enc.acknowledged c)

/-- One step; `none` where it cannot happen. -/
def step (s : Sender) : SenderEvent → Option Sender
  | .settings capacity blockedStreams =>
    if s.settings then none
    else some { s with
      enc := { s.enc with toTable := s.enc.setPeer capacity blockedStreams }, settings := true }
  | .begin id =>
    if s.building.isSome ∨ id ∈ s.started then none
    else some { s with
      enc := { s.enc with toTable := s.enc.beginSection.1 }
      building := some (id, s.enc.beginSection.2)
      started := id :: s.started }
  | .field op =>
    match s.building with
    | none => none
    | some (id, c) =>
      some { s with enc := (s.enc.field c op).2.1, building := some (id, (s.enc.field c op).2.2) }
  | .finish =>
    match s.building with
    | none => none
    | some (id, c) =>
      let r := s.enc.endSection c
      some { s with
        enc := { s.enc with toTable := r.1 }
        building := none
        streams := s.streams ++ [(id, r.2)]
        outstanding := s.outstanding ++ [(id, r.2)] }
  | .acknowledged id => some (s.onSection id false)
  | .cancelled id => some (s.onSection id true)
  | .increment n =>
    match s.enc.increment n with
    | none => none
    | some t => some { s with enc := { s.enc with toTable := t } }
  | .close id =>
    match s.streams.lookup id with
    | none => none
    | some c =>
      some { s with
        enc := { s.enc with toTable := (s.enc.cancelled c).1 }
        streams := dropAt s.streams id }

/-- The sections being built or pending. -/
def active (s : Sender) : List Section :=
  activeOf (s.building.map Prod.snd) (s.streams.map Prod.snd)

/-- How many of them reference the entry `abs`. -/
def referencing (s : Sender) (abs : Nat) : Nat := s.active.countP fun c => abs ∈ c.uses

/-- The pending sections that may block the peer. -/
def blockingSections (s : Sender) : Nat :=
  (s.streams.map Prod.snd).countP fun c => c.pending && c.blocking

/-- Every reference a field operation makes finds its entry recorded, or a slot for it. -/
def InSlots (s : Sender) : SenderEvent → Prop
  | .field op =>
    match s.building with
    | some (_, c) => Recorded c (s.enc.refers c op)
    | none => True
  | _ => True

instance (c : Section) (r : Option Nat) : Decidable (Recorded c r) :=
  match r with
  | none => isTrue fun _ ha => absurd ha (by simp)
  | some a => decidable_of_iff (a ∈ c.refs ∨ c.refs.length < 4)
      ⟨fun h b hb => Option.some.inj hb ▸ h, fun h => h a rfl⟩

instance (s : Sender) (ev : SenderEvent) : Decidable (s.InSlots ev) := by
  unfold InSlots
  split
  · split <;> infer_instance
  · infer_instance

/-! ## §2. The books. -/

/-- What every step keeps while no reference is lost. -/
structure Books (s : Sender) : Prop where
  ledger : Ledger s.enc.toTable (s.building.map Prod.snd) (s.streams.map Prod.snd)
  keys : (s.streams.map Prod.fst).Nodup
  started : ∀ p ∈ s.streams, p.1 ∈ s.started
  building : ∀ p ∈ s.building, p.1 ∈ s.started ∧ p.1 ∉ s.streams.map Prod.fst
  unset : s.settings = false → s.enc.capacity = 0 ∧ s.enc.peerBlocked = 0

theorem books_new : Books {} where
  ledger := ledger_new
  keys := List.nodup_nil
  started := fun _ hp => absurd hp List.not_mem_nil
  building := fun _ hp => absurd hp (by simp)
  unset := fun _ => ⟨rfl, rfl⟩

/-- The peer's settings are left alone by a release and by a field operation. -/
theorem release_settings (t : Table) (c : Section) :
    (t.release c).1.capacity = t.capacity ∧ (t.release c).1.peerBlocked = t.peerBlocked := by
  obtain ⟨es, b, h⟩ := t.release_frame c
  rw [h]
  exact ⟨rfl, rfl⟩

variable {c : Section} {op : FieldOp} {t' t : Table} {s s' : Sender} {ev : SenderEvent}

theorem effect_settings {e : Encoder} {c' : Section} {r : Option Nat}
    {out : Bytes} (hs : e.toTable.Sound) (h : e.Effect c op r out t' c') :
    t'.capacity = e.capacity ∧ t'.peerBlocked = e.peerBlocked := by
  have href : ∀ (t : Table) (c : Section) (abs : Nat),
      (t.reference c abs).table.capacity = t.capacity ∧
        (t.reference c abs).table.peerBlocked = t.peerBlocked := by
    intro t c abs
    obtain ⟨es, h⟩ := t.reference_frame c abs
    rw [h]
    exact ⟨rfl, rfl⟩
  cases h with
  | static => exact ⟨rfl, rfl⟩
  | wrote _ hw =>
    cases hw with
    | literal => exact ⟨rfl, rfl⟩
    | inserted _ h =>
      obtain ⟨gone, left, hi⟩ := Table.inserted_of_insert hs h
      exact ⟨hi.capacity_eq, hi.peerBlocked_eq⟩
    | remembered _ _ => exact href _ _ _
    | fresh _ h _ =>
      obtain ⟨gone, left, hi⟩ := Table.inserted_of_insert hs h
      rw [(href _ _ _).1, (href _ _ _).2]
      exact ⟨hi.capacity_eq, hi.peerBlocked_eq⟩

theorem Books.onSection (h : s.Books) (id : Nat) (b : Bool) : (s.onSection id b).Books := by
  unfold Sender.onSection
  dsimp only
  cases hl : s.streams.lookup id with
  | none => exact ⟨h.ledger, h.keys, h.started, h.building, h.unset⟩
  | some c =>
    obtain ⟨pre, post, hsplit, hset, -⟩ := lookup_split h.keys hl
    -- a release, after an acknowledgement at most a change to `known`
    have hbooks : ∀ r : Table × Section,
        Ledger r.1 (s.building.map Prod.snd) (pre.map Prod.snd ++ r.2 :: post.map Prod.snd) →
        (s.settings = false → r.1.capacity = 0 ∧ r.1.peerBlocked = 0) →
        ∀ out confirmed, Books (({ s with
          outstanding := out, confirmed := confirmed } : Sender).update id r) := by
      intro r hr hu out confirmed
      refine ⟨?_, ?_, ?_, ?_, hu⟩
      · show Ledger r.1 _ ((setAt s.streams id r.2).map Prod.snd)
        rw [hset, List.map_append, List.map_cons]
        exact hr
      · show ((setAt s.streams id r.2).map Prod.fst).Nodup
        rw [keys_setAt]
        exact h.keys
      · intro p hp
        have hk : p.1 ∈ (setAt s.streams id r.2).map Prod.fst := List.mem_map_of_mem hp
        rw [keys_setAt] at hk
        obtain ⟨q, hq, hqp⟩ := List.mem_map.mp hk
        rw [← hqp]
        exact h.started q hq
      · intro p hp
        show _ ∧ p.1 ∉ (setAt s.streams id r.2).map Prod.fst
        rw [keys_setAt]
        exact h.building p hp
    have hledger : Ledger s.enc.toTable (s.building.map Prod.snd)
        (pre.map Prod.snd ++ c :: post.map Prod.snd) := by
      have := h.ledger
      rw [hsplit, List.map_append, List.map_cons] at this
      exact this
    dsimp only
    cases b with
    | true =>
      refine hbooks _ hledger.release ?_ _ _
      intro hu
      rw [(release_settings _ _).1, (release_settings _ _).2]
      exact h.unset hu
    | false =>
      rw [if_neg (by simp)]
      unfold Table.acknowledged
      by_cases hp : (!c.pending) = true
      · rw [if_pos hp]
        exact hbooks _ hledger h.unset _ _
      rw [if_neg hp]
      refine hbooks _ (hledger.known _).release ?_ _ _
      intro hu
      rw [(release_settings _ _).1, (release_settings _ _).2]
      exact h.unset hu

/-- One step keeps the books. -/
theorem step_books (h : s.Books) (hok : s.InSlots ev) (hstep : s.step ev = some s') : s'.Books := by
  cases ev with
  | settings capacity blockedStreams =>
    simp only [step] at hstep
    split at hstep
    · simp at hstep
    next hset =>
      cases hstep
      obtain ⟨hcap, hblk⟩ := h.unset (by simpa using hset)
      have hl := h.ledger
      have hsize := hl.sound.fits
      have hblocked := hl.blocked
      rw [hcap] at hsize
      rw [hblk] at hblocked
      refine ⟨⟨⟨hl.sound.count, hl.sound.abs, hl.sound.size, hl.sound.sizes, ?_⟩, hl.refs, ?_,
        hl.blocking, ?_, ?_⟩, h.keys, h.started, h.building, nofun⟩
      · exact Nat.le_trans hsize (Nat.zero_le _)
      · intro c hc
        have hg := hl.good c hc
        exact ⟨hg.nodup, hg.uses, hg.held⟩
      · exact Nat.le_trans hblocked (Nat.zero_le _)
      · intro c hc
        obtain ⟨hp, hb, hr⟩ := hl.current c hc
        refine ⟨hp, ?_, hr⟩
        intro hcb
        have := hb hcb
        rw [hblk] at this
        cases this
  | begin id =>
    simp only [step] at hstep
    split at hstep
    · simp at hstep
    next hguard =>
      cases hstep
      have hnone : s.building = none := by
        cases hb : s.building with
        | none => rfl
        | some p => exact absurd (.inl (by rw [hb]; rfl)) hguard
      have hfresh : id ∉ s.started := fun hm => hguard (.inr hm)
      have hl := h.ledger
      rw [hnone] at hl
      refine ⟨hl.begin, h.keys, ?_, ?_, h.unset⟩
      · intro p hp
        exact .tail _ (h.started p hp)
      · intro p hp
        cases hp
        refine ⟨.head _, ?_⟩
        intro hk
        obtain ⟨q, hq, hqid⟩ := List.mem_map.mp hk
        have hq1 : q.1 = id := hqid
        exact hfresh (hq1 ▸ h.started q hq)
  | field op =>
    simp only [step] at hstep
    cases hb : s.building with
    | none =>
      rw [hb] at hstep
      simp at hstep
    | some p =>
      obtain ⟨id, c⟩ := p
      rw [hb] at hstep
      cases hstep
      have hl := h.ledger
      rw [hb] at hl
      have hrec : Recorded c (s.enc.refers c op) := by
        have := hok
        unfold InSlots at this
        rw [hb] at this
        exact this
      have heff := s.enc.field_effect c op
      refine ⟨hl.effect heff hrec, h.keys, h.started, ?_, ?_⟩
      · intro q hq
        cases hq
        exact h.building (id, c) hb
      · intro hu
        obtain ⟨hcap, hblk⟩ := effect_settings hl.sound heff
        exact ⟨hcap.trans (h.unset hu).1, hblk.trans (h.unset hu).2⟩
  | finish =>
    simp only [step] at hstep
    cases hb : s.building with
    | none =>
      rw [hb] at hstep
      simp at hstep
    | some p =>
      obtain ⟨id, c⟩ := p
      rw [hb] at hstep
      cases hstep
      have hl := h.ledger
      rw [hb] at hl
      obtain ⟨hst, hkey⟩ := h.building (id, c) hb
      refine ⟨?_, ?_, ?_, fun q hq => absurd hq (by simp), ?_⟩
      · show Ledger _ none ((s.streams ++ [(id, (s.enc.endSection c).2)]).map Prod.snd)
        rw [List.map_append]
        exact hl.finish
      · show ((s.streams ++ [(id, (s.enc.endSection c).2)]).map Prod.fst).Nodup
        rw [List.map_append, List.nodup_append]
        refine ⟨h.keys, List.pairwise_singleton _ _, ?_⟩
        intro a ha b hb'
        rw [List.map_singleton, List.mem_singleton] at hb'
        rw [hb']
        rintro rfl
        exact hkey ha
      · intro q hq
        rcases List.mem_append.mp hq with hq | hq
        · exact h.started q hq
        rw [List.mem_singleton.mp hq]
        exact hst
      · intro hu
        show (s.enc.endSection c).1.capacity = 0 ∧ (s.enc.endSection c).1.peerBlocked = 0
        unfold Table.endSection
        split <;> exact h.unset hu
  | acknowledged id =>
    cases hstep
    exact h.onSection id false
  | cancelled id =>
    cases hstep
    exact h.onSection id true
  | increment n =>
    simp only [step, Table.increment] at hstep
    split at hstep
    · simp at hstep
    next t ht =>
      split at ht
      · simp at ht
      rw [← Option.some.inj hstep, ← Option.some.inj ht]
      exact ⟨h.ledger.known _, h.keys, h.started, h.building, h.unset⟩
  | close id =>
    simp only [step] at hstep
    cases hl : s.streams.lookup id with
    | none =>
      rw [hl] at hstep
      simp at hstep
    | some c =>
      rw [hl] at hstep
      cases hstep
      obtain ⟨pre, post, hsplit, -, hdrop⟩ := lookup_split h.keys hl
      have hledger := h.ledger
      rw [hsplit, List.map_append, List.map_cons] at hledger
      refine ⟨?_, keys_dropAt_nodup h.keys id, ?_, ?_, ?_⟩
      · show Ledger _ _ ((dropAt s.streams id).map Prod.snd)
        rw [hdrop, List.map_append]
        exact hledger.release.drop (Table.release_pending _ _)
      · intro p hp
        exact h.started p (mem_dropAt.mp hp).1
      · intro p hp
        refine ⟨(h.building p hp).1, ?_⟩
        intro hk
        obtain ⟨q, hq, hqp⟩ := List.mem_map.mp hk
        exact (h.building p hp).2 (List.mem_map.mpr ⟨q, (mem_dropAt.mp hq).1, hqp⟩)
      · intro hu
        show (s.enc.toTable.release c).1.capacity = 0 ∧ (s.enc.toTable.release c).1.peerBlocked = 0
        rw [(release_settings _ _).1, (release_settings _ _).2]
        exact h.unset hu

theorem run_books {evs : List SenderEvent} (hrun : run step {} evs = some s)
    (hok : Meets step InSlots {} evs) : s.Books :=
  run_invariant (fun _ _ _ h hok hstep => step_books h hok hstep) books_new hrun hok

/-! ## §3. Entries with references stay. -/

/-- The entries of `t` that `P` holds of are in `t'`, up to their counts. -/
def Keeps (P : Entry → Prop) (t t' : Table) : Prop :=
  ∀ e ∈ t.entries, P e → ∃ e' ∈ t'.entries, e'.abs = e.abs ∧ e'.name = e.name ∧ e'.value = e.value

theorem keeps_bump (P : Entry → Prop) (t t' : Table) (A : Nat → Prop) [DecidablePred A]
    (f : Nat → Nat) (h : t'.entries = t.entries.map (Table.bump A f)) : Keeps P t t' := by
  intro e he _
  refine ⟨Table.bump A f e, ?_, Table.bump_abs A f e, Table.bump_name A f e, Table.bump_value A f e⟩
  rw [h]
  exact List.mem_map_of_mem he

theorem keeps_same {P : Entry → Prop} (h : t'.entries = t.entries) : Keeps P t t' := by
  intro e he _
  exact ⟨e, by rw [h]; exact he, rfl, rfl, rfl⟩

theorem keeps_reference (P : Entry → Prop) (hs : t.Sound) (c : Section) (abs : Nat) :
    Keeps P t (t.reference c abs).table := by
  unfold Table.reference
  dsimp only
  by_cases hc : c.refs.contains abs = true
  · rw [if_pos hc]
    exact keeps_same rfl
  rw [if_neg hc]
  by_cases hslot : c.refs.length < 4 ∧ t.held abs = true
  · rw [if_pos hslot]
    exact keeps_bump P t _ (· = abs) (· + 1) (by rw [Table.modifyRefs_eq hs])
  rw [if_neg hslot]
  exact keeps_same rfl

/-- A field operation erases no entry with a count. -/
theorem keeps_effect {e : Encoder} {c' : Section} {r : Option Nat} {out : Bytes}
    (hs : e.toTable.Sound) (h : e.Effect c op r out t' c') : Keeps (fun x => x.refs ≠ 0) e.toTable t' := by
  cases h with
  | static => exact keeps_same rfl
  | wrote _ hw =>
    cases hw with
    | literal => exact keeps_same rfl
    | inserted _ hins =>
      intro x hx hr
      obtain ⟨gone, left, hi⟩ := Table.inserted_of_insert hs hins
      exact ⟨x, hi.held_of_refs hx hr, rfl, rfl, rfl⟩
    | remembered _ _ => exact keeps_reference _ hs _ _
    | fresh _ hins _ =>
      intro x hx hr
      obtain ⟨gone, left, hi⟩ := Table.inserted_of_insert hs hins
      exact keeps_reference (fun x => x.refs ≠ 0) (hi.sound hs) _ _ x (hi.held_of_refs hx hr) hr

theorem keeps_release {cur : Option Section} {done : List Section}
    (h : Ledger t cur done) (hc : c ∈ done) (P : Entry → Prop) : Keeps P t (t.release c).1 := by
  by_cases hp : c.pending = true
  · rw [Table.release_eq h.sound hp (h.good c (mem_activeOf.mpr (.inr ⟨hc, hp⟩))).nodup]
    exact keeps_bump P t _ (· ∈ c.refs) (· - 1) rfl
  unfold Table.release
  rw [if_pos (by simpa using hp)]
  exact keeps_same rfl

theorem keeps_onSection (h : s.Books) (id : Nat) (b : Bool) (P : Entry → Prop) :
    Keeps P s.enc.toTable (s.onSection id b).enc.toTable := by
  unfold onSection
  dsimp only
  cases hl : s.streams.lookup id with
  | none => exact keeps_same rfl
  | some c =>
    have hc : c ∈ s.streams.map Prod.snd := List.mem_map_of_mem (mem_of_lookup hl)
    dsimp only
    cases b with
    | true => exact keeps_release h.ledger hc P
    | false =>
      show Keeps P s.enc.toTable (s.enc.toTable.acknowledged c).1
      unfold Table.acknowledged
      by_cases hp : (!c.pending) = true
      · rw [if_pos hp]
        exact keeps_same rfl
      rw [if_neg hp]
      intro e he hP
      exact keeps_release (h.ledger.known _) hc P e he hP

/-- Only field operations erase entries. -/
theorem step_keeps_all (h : s.Books)
    (hstep : s.step ev = some s') (hev : ∀ op, ev ≠ .field op) (P : Entry → Prop) :
    Keeps P s.enc.toTable s'.enc.toTable := by
  cases ev with
  | settings capacity blockedStreams =>
    simp only [step] at hstep
    split at hstep
    · simp at hstep
    cases hstep
    exact keeps_same rfl
  | begin id =>
    simp only [step] at hstep
    split at hstep
    · simp at hstep
    cases hstep
    exact keeps_same rfl
  | field op => exact absurd rfl (hev op)
  | finish =>
    simp only [step] at hstep
    split at hstep
    · simp at hstep
    cases hstep
    apply keeps_same
    show (s.enc.toTable.endSection _).1.entries = _
    unfold Table.endSection
    split <;> rfl
  | acknowledged id =>
    cases hstep
    exact keeps_onSection h id false _
  | cancelled id =>
    cases hstep
    exact keeps_onSection h id true _
  | increment n =>
    simp only [step, Table.increment] at hstep
    split at hstep
    · simp at hstep
    next t ht =>
      split at ht
      · simp at ht
      rw [← Option.some.inj hstep, ← Option.some.inj ht]
      exact keeps_same rfl
  | close id =>
    simp only [step] at hstep
    split at hstep
    · simp at hstep
    next c hl =>
      cases hstep
      exact keeps_release h.ledger (List.mem_map_of_mem (mem_of_lookup hl)) _

/-- A step of a field operation, opened. -/
theorem step_field (hstep : s.step (.field op) = some s') : ∃ id c, s.building = some (id, c) ∧
      s' = { s with
        enc := (s.enc.field c op).2.1, building := some (id, (s.enc.field c op).2.2) } := by
  simp only [step] at hstep
  split at hstep
  · simp at hstep
  next id c hb => exact ⟨id, c, hb, (Option.some.inj hstep).symm⟩

theorem step_keeps (h : s.Books) (hstep : s.step ev = some s') :
    Keeps (fun e => e.refs ≠ 0) s.enc.toTable s'.enc.toTable := by
  by_cases hev : ∃ op, ev = .field op
  · obtain ⟨op, rfl⟩ := hev
    obtain ⟨id, c, -, rfl⟩ := step_field hstep
    exact keeps_effect h.ledger.sound (s.enc.field_effect c op)
  · exact step_keeps_all h hstep (fun op heq => hev ⟨op, heq⟩) _

/-! ## §4. The accounting. -/

/-- The record and the references agree, so the counts do. -/
theorem Books.refs_eq (h : s.Books) {e : Entry} (he : e ∈ s.enc.entries) : e.refs = s.referencing e.abs := by
  rw [h.ledger.refs e he]
  apply List.countP_congr
  intro c hc
  rw [decide_eq_true_eq, decide_eq_true_eq]
  exact ((h.ledger.good c hc).uses e.abs).symm

end Sender

open Sender

/-- **Reference accounting.**  In every run whose references all find their entry recorded or a
    free slot: the counts are exact, no step erases an entry that a section references, and the
    blocking sections are counted and within the peer's limit. -/
theorem reference_accounting (evs : List SenderEvent) (s : Sender)
    (hrun : run Sender.step {} evs = some s) (hok : Meets Sender.step Sender.InSlots {} evs) :
    (∀ e ∈ s.enc.entries, e.refs = s.referencing e.abs) ∧
      (∀ ev s', s.step ev = some s' → ∀ e ∈ s.enc.entries, s.referencing e.abs ≠ 0 →
        ∃ e' ∈ s'.enc.entries, e'.abs = e.abs ∧ e'.name = e.name ∧ e'.value = e.value) ∧
      s.enc.blocking = s.blockingSections ∧ s.enc.blocking ≤ s.enc.peerBlocked := by
  have h := run_books hrun hok
  refine ⟨fun e he => h.refs_eq he, ?_, h.ledger.blocking, h.ledger.blocked⟩
  intro ev s' hstep e he href
  apply step_keeps h hstep e he
  show e.refs ≠ 0
  rw [h.refs_eq he]
  exact href

/-- Two answers with a server and a date field, the first one acknowledged. -/
def twoAnswers : List SenderEvent :=
  [.settings 4096 16, .begin 0, .field (.server (bytes "agensio")), .field (.date 1 (bytes "now")),
    .finish, .begin 4, .field (.server (bytes "agensio")), .field (.date 1 (bytes "now")), .finish,
    .acknowledged 0]

theorem reference_accounting_twoAnswers : ∃ s, run Sender.step {} twoAnswers = some s ∧
      (∀ e ∈ s.enc.entries, e.refs = s.referencing e.abs) ∧ s.enc.blocking = s.blockingSections ∧
      s.enc.entries.map Entry.refs = [1, 1] := by
  have hrefs : (run Sender.step {} twoAnswers).map (fun s => s.enc.entries.map Entry.refs) =
      some [1, 1] := by decide +kernel
  obtain ⟨s, hs, hval⟩ := Option.map_eq_some_iff.mp hrefs
  obtain ⟨hcount, -, hblock, -⟩ := reference_accounting twoAnswers s hs (by decide +kernel)
  exact ⟨s, hs, hcount, hblock, hval⟩

/-- One answer with the five fields that can go through the table. -/
def fiveReferences : List SenderEvent :=
  [.settings 4096 16, .begin 0, .field (.server (bytes "a")), .field (.date 1 (bytes "b")),
    .field (.contentType (bytes "c")), .field (.altSvc (bytes "d")), .field (.hsts (bytes "e"))]

/-- The fifth entry is referenced by the section being built, and its count is zero. -/
theorem fifth_reference_not_counted : ∃ s, run Sender.step {} fiveReferences = some s ∧
      ∃ e ∈ s.enc.entries, ¬ e.refs = s.referencing e.abs := by
  have hbad : (run Sender.step {} fiveReferences).map (fun s =>
      s.enc.entries.any fun e => e.refs ≠ s.referencing e.abs) = some true := by decide +kernel
  obtain ⟨s, hs, hany⟩ := Option.map_eq_some_iff.mp hbad
  obtain ⟨e, he, hne⟩ := List.any_eq_true.mp hany
  exact ⟨s, hs, e, he, by simpa using hne⟩

end Agensio.Qpack
