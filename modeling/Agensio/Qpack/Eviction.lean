/-
  Agensio.Qpack.Eviction — which entries an insertion may evict.

  RFC 9204 2.1.1 asks that an entry be evicted only once the peer has
  acknowledged it and no section still needs it.  `insert` looks at the
  reference counts alone, so this holds under conditions of three kinds:
  what has to go for an insertion is acknowledged (`RoomFor`), a stream is
  closed after the peer is done with its section, and references are
  recorded (`InSlots`).

  Main results:
    * `evicts_only_acknowledged` — under these the law holds in every run;
    * `evicts_unacknowledged` — a run without them breaks it.
-/
import Agensio.Qpack.Sender

namespace Agensio.Qpack

open Agensio.Lib Agensio.Codec

/-! ## §1. The conditions. -/

/-- An unacknowledged entry that does not fit beside the newer ones and `need` bytes more is held
    back by a reference to it or to an older one. -/
def Table.RoomFor (t : Table) (need : Nat) : Prop :=
  ∀ k (h : k < t.entries.length), t.known ≤ t.entries[k].abs →
    t.capacity < weight Entry.size (t.entries.drop k) + need →
      ∃ e ∈ t.entries.take (k + 1), e.refs ≠ 0

instance (t : Table) (need : Nat) : Decidable (t.RoomFor need) :=
  inferInstanceAs (Decidable (∀ k, ∀ _ : k < t.entries.length, _))

/-- An operation that inserts finds room. -/
def Encoder.Room (e : Encoder) (op : FieldOp) : Prop :=
  e.staticRow op = none → e.remembered op = none → e.toTable.RoomFor (fieldSize op.pair)

instance (e : Encoder) (op : FieldOp) : Decidable (e.Room op) :=
  inferInstanceAs (Decidable (_ → _))

namespace Sender

/-- The conditions on a step. -/
def Lawful (s : Sender) : SenderEvent → Prop
  | .field op => s.InSlots (.field op) ∧ s.enc.Room op
  | .close id => ∀ c ∈ s.streams.lookup id, c.pending = false
  | _ => True

instance (s : Sender) (ev : SenderEvent) : Decidable (s.Lawful ev) := by
  apply @SenderEvent.casesOn (fun ev => Decidable (s.Lawful ev)) ev
  case field => exact fun _ => inferInstanceAs (Decidable (_ ∧ _))
  case close => exact fun id => inferInstanceAs (Decidable (∀ c ∈ s.streams.lookup id, c.pending = false))
  all_goals
    intros
    exact inferInstanceAs (Decidable True)

variable {s : Sender}

theorem Lawful.inSlots {ev : SenderEvent} (h : s.Lawful ev) : s.InSlots ev := by
  cases ev with
  | field op => exact h.1
  | settings capacity blockedStreams => trivial
  | begin id => trivial
  | finish => trivial
  | acknowledged id => trivial
  | cancelled id => trivial
  | increment n => trivial
  | close id => trivial

/-! ## §2. What the peer owes is pending. -/

/-- A section that references entries and that the peer is not done with is pending. -/
def Owed (s : Sender) : Prop :=
  ∀ p ∈ s.outstanding, p.2.uses ≠ [] →
    ∃ c, (p.1, c) ∈ s.streams ∧ c.pending = true ∧ c.uses = p.2.uses

theorem owed_onSection (h : s.Owed) (id : Nat) (b : Bool) : (s.onSection id b).Owed := by
  intro p hp hne
  have hout : (s.onSection id b).outstanding = dropAt s.outstanding id := by
    unfold onSection
    dsimp only
    split
    · rfl
    · split <;> rfl
  rw [hout] at hp
  obtain ⟨hmem, hid⟩ := mem_dropAt.mp hp
  obtain ⟨c, hc, hpend, huses⟩ := h p hmem hne
  refine ⟨c, ?_, hpend, huses⟩
  have hset : ∀ v, (p.1, c) ∈ setAt s.streams id v := by
    intro v
    apply List.mem_map.mpr
    exact ⟨(p.1, c), hc, if_neg hid⟩
  unfold onSection
  dsimp only
  split
  · exact hc
  · split <;> exact hset _

/-- Steps that leave the streams and the sections sent alone. -/
theorem Owed.of_eq {s' : Sender} (h : s.Owed) (hs : s'.streams = s.streams)
    (ho : s'.outstanding = s.outstanding) : s'.Owed := by
  intro p hp hne
  rw [ho] at hp
  rw [hs]
  exact h p hp hne

theorem step_owed {s' : Sender} {ev : SenderEvent} (hb : s.Books) (h : s.Owed)
    (hok : s.Lawful ev) (hstep : s.step ev = some s') : s'.Owed := by
  cases ev with
  | settings capacity blockedStreams =>
    simp only [step] at hstep
    split at hstep
    · simp at hstep
    cases hstep
    exact h.of_eq rfl rfl
  | begin id =>
    simp only [step] at hstep
    split at hstep
    · simp at hstep
    cases hstep
    exact h.of_eq rfl rfl
  | field op =>
    obtain ⟨id, c, -, rfl⟩ := step_field hstep
    exact h.of_eq rfl rfl
  | finish =>
    simp only [step] at hstep
    split at hstep
    · simp at hstep
    next id c hbuild =>
      cases hstep
      intro p hp hne
      rcases List.mem_append.mp hp with hp | hp
      · obtain ⟨x, hx, hrest⟩ := h p hp hne
        exact ⟨x, List.mem_append_left _ hx, hrest⟩
      -- a section with references is pending from here on
      obtain rfl := List.mem_singleton.mp hp
      have hcur := hb.ledger.current c (by rw [hbuild]; rfl)
      have huses : (s.enc.toTable.endSection c).2.uses = c.uses := by
        unfold Table.endSection
        split <;> rfl
      have hric : c.ric ≠ 0 := fun hz => hne (huses.trans (hcur.2.2 hz))
      refine ⟨(s.enc.toTable.endSection c).2, List.mem_append_right _ (List.mem_singleton.mpr rfl), ?_⟩
      unfold Table.endSection
      rw [if_pos hric]
      exact ⟨rfl, rfl⟩
  | acknowledged id =>
    cases hstep
    exact owed_onSection h id false
  | cancelled id =>
    cases hstep
    exact owed_onSection h id true
  | increment n =>
    simp only [step] at hstep
    split at hstep
    · simp at hstep
    cases hstep
    exact h.of_eq rfl rfl
  | close id =>
    simp only [step] at hstep
    split at hstep
    · simp at hstep
    next c hl =>
      cases hstep
      intro p hp hne
      obtain ⟨x, hx, hpend, huses⟩ := h p hp hne
      refine ⟨x, mem_dropAt.mpr ⟨hx, ?_⟩, hpend, huses⟩
      -- the stream closed is not pending, this one is
      intro hid
      obtain ⟨pre, post, hsplit, -, hdrop⟩ := lookup_split hb.keys hl
      have hxc : x = c := by
        have hnd := hb.keys
        rw [hsplit] at hx hnd
        rcases List.mem_append.mp hx with hx | hx
        · rw [List.map_append, List.nodup_append] at hnd
          exact absurd hid (hnd.2.2 _ (List.mem_map_of_mem hx) _ (by simp))
        rcases List.mem_cons.mp hx with heq | hx
        · exact (Prod.mk.inj heq).2
        rw [List.map_append, List.map_cons, List.nodup_append] at hnd
        have := (List.nodup_cons.mp hnd.2.1).1
        exact absurd (List.mem_map.mpr ⟨_, hx, hid⟩) this
      have := hok c hl
      rw [← hxc, hpend] at this
      simp at this

/-! ## §3. What an insertion evicts. -/

/-- An entry evicted is acknowledged and without references. -/
theorem gone_spec {t t' : Table} {i abs : Nat} {name value : Bytes} {gone left : List Entry}
    (hi : Table.Inserted t i name value abs t' gone left)
    (hroom : t.RoomFor (fieldSize (name, value))) {e : Entry} (he : e ∈ gone) :
    e.abs < t.known ∧ e.refs = 0 := by
  refine ⟨?_, hi.free e he⟩
  obtain ⟨pre, post, hgone⟩ := List.append_of_mem he
  have hneed := hi.needed pre e post hgone
  have hent : t.entries = pre ++ (e :: post ++ left) := by
    rw [hi.split, hgone, List.append_assoc]
  have hlt : pre.length < t.entries.length := by
    rw [hent, List.length_append, List.cons_append, List.length_cons]
    omega
  have hat : t.entries[pre.length] = e := by
    simp [hent]
  by_contra hge
  obtain ⟨x, hx, hrefs⟩ := hroom pre.length hlt (by rw [hat]; omega)
    (by rw [hent, List.drop_left]; exact hneed)
  -- the entry that holds it back would have gone as well
  have htake : t.entries.take (pre.length + 1) = pre ++ [e] := by
    rw [hent, List.cons_append, ← List.singleton_append, ← List.append_assoc]
    rw [show pre.length + 1 = (pre ++ [e]).length by simp, List.take_left]
  rw [htake] at hx
  apply hrefs
  apply hi.free
  rw [hgone]
  rcases List.mem_append.mp hx with hx | hx
  · exact List.mem_append_left _ hx
  rw [List.mem_singleton.mp hx]
  exact List.mem_append_right _ (.head _)

/-- An entry that a field operation erases is acknowledged and without references. -/
theorem erased_spec {e : Encoder} {c c' : Section} {op : FieldOp} {r : Option Nat} {out : Bytes}
    {t' : Table} (hs : e.toTable.Sound) (h : e.Effect c op r out t' c') (hroom : e.Room op)
    {x : Entry} (hx : x ∈ e.entries) (hgone : ∀ y ∈ t'.entries, y.abs ≠ x.abs) :
    x.abs < e.known ∧ x.refs = 0 := by
  have hkept : ∀ {t t' : Table}, x ∈ t.entries → Keeps (fun _ => True) t t' →
      (∀ y ∈ t'.entries, y.abs ≠ x.abs) → x.abs < e.known ∧ x.refs = 0 := by
    intro t t' hx hk hgone
    obtain ⟨y, hy, habs, -⟩ := hk x hx trivial
    exact absurd habs (hgone y hy)
  cases h with
  | static => exact hkept hx (keeps_same rfl) hgone
  | wrote hst hw =>
    cases hw with
    | literal => exact hkept hx (keeps_same rfl) hgone
    | remembered _ _ => exact hkept hx (keeps_reference _ hs _ _) hgone
    | inserted hold hins =>
      obtain ⟨gone, left, hi⟩ := Table.inserted_of_insert hs hins
      have hmem := hx
      rw [hi.split] at hmem
      rcases List.mem_append.mp hmem with hg | hl
      · exact gone_spec hi (hroom hst hold) hg
      refine absurd rfl (hgone x ?_)
      rw [hi.entries_eq]
      exact List.mem_append_left _ hl
    | fresh hold hins _ =>
      obtain ⟨gone, left, hi⟩ := Table.inserted_of_insert hs hins
      have hmem := hx
      rw [hi.split] at hmem
      rcases List.mem_append.mp hmem with hg | hl
      · exact gone_spec hi (hroom hst hold) hg
      refine hkept ?_ (keeps_reference _ (hi.sound hs) _ _) hgone
      rw [hi.entries_eq]
      exact List.mem_append_left _ hl

theorem run_owed {evs : List SenderEvent} (hrun : run step {} evs = some s)
    (hok : Meets step Lawful {} evs) : s.Books ∧ s.Owed := by
  apply run_invariant (I := fun s => s.Books ∧ s.Owed) _ _ hrun hok
  · intro s ev s' h hok hstep
    exact ⟨step_books h.1 hok.inSlots hstep, step_owed h.1 h.2 hok hstep⟩
  · exact ⟨books_new, fun p hp => absurd hp List.not_mem_nil⟩

end Sender

/-- **The eviction law.**  In every run whose steps all meet the conditions, each entry a step
    erases is acknowledged, and no section references it that the peer is not done with. -/
theorem evicts_only_acknowledged (evs : List SenderEvent) (ev : SenderEvent) (s s' : Sender)
    (hrun : run Sender.step {} evs = some s) (hstep : s.step ev = some s')
    (hok : Meets Sender.step Sender.Lawful {} (evs ++ [ev])) :
    ∀ e ∈ s.enc.entries, (∀ e' ∈ s'.enc.entries, e'.abs ≠ e.abs) →
      e.abs < s.enc.known ∧ ∀ p ∈ s.outstanding, e.abs ∉ p.2.uses := by
  intro e he hgone
  have hlaw : s.Lawful ev := (meets_of_append hrun hok).1
  obtain ⟨hbooks, howed⟩ := Sender.run_owed hrun (meets_append_left hok)
  by_cases hev : ∃ op, ev = .field op
  · obtain ⟨op, rfl⟩ := hev
    obtain ⟨id, c, -, rfl⟩ := Sender.step_field hstep
    obtain ⟨hknown, hrefs⟩ := Sender.erased_spec hbooks.ledger.sound (s.enc.field_effect c op)
      hlaw.2 he hgone
    refine ⟨hknown, ?_⟩
    intro p hp hmem
    obtain ⟨x, hx, hpend, huses⟩ := howed p hp (List.ne_nil_of_mem hmem)
    have hactive : x ∈ activeOf (s.building.map Prod.snd) (s.streams.map Prod.snd) :=
      mem_activeOf.mpr (.inr ⟨List.mem_map.mpr ⟨_, hx, rfl⟩, hpend⟩)
    apply hbooks.ledger.refs_ne_zero he hactive _ hrefs
    rw [← (hbooks.ledger.good x hactive).uses, huses]
    exact hmem
  · obtain ⟨y, hy, habs, -⟩ := Sender.step_keeps_all hbooks hstep
      (fun op heq => hev ⟨op, heq⟩) (fun _ => True) e he trivial
    exact absurd habs (hgone y hy)

/-- A table of 80 bytes holds two dates; both answers are acknowledged. -/
def acknowledgedDates : List SenderEvent :=
  [.settings 80 1, .begin 0, .field (.date 1 (bytes "a")), .finish, .acknowledged 0, .begin 4,
    .field (.date 2 (bytes "b")), .finish, .acknowledged 4, .begin 8]

/-- The third date erases the first one. -/
theorem evicts_only_acknowledged_third_date : ∃ s s', run Sender.step {} acknowledgedDates = some s ∧
      s.step (.field (.date 3 (bytes "c"))) = some s' ∧
      ∃ e ∈ s.enc.entries, (∀ e' ∈ s'.enc.entries, e'.abs ≠ e.abs) ∧ e.abs < s.enc.known := by
  have hfacts : (run Sender.step {} acknowledgedDates).bind (fun s =>
      (s.step (.field (.date 3 (bytes "c")))).map fun s' =>
        s.enc.entries.any fun e => s'.enc.entries.all fun e' => e'.abs ≠ e.abs) = some true := by
    decide +kernel
  obtain ⟨s, hs, hmap⟩ := Option.bind_eq_some_iff.mp hfacts
  obtain ⟨s', hs', hany⟩ := Option.map_eq_some_iff.mp hmap
  obtain ⟨e, he, hall⟩ := List.any_eq_true.mp hany
  have hgone : ∀ e' ∈ s'.enc.entries, e'.abs ≠ e.abs := by
    intro e' he'
    simpa using List.all_eq_true.mp hall e' he'
  have hlaw := evicts_only_acknowledged acknowledgedDates (.field (.date 3 (bytes "c"))) s s' hs hs'
    (by decide +kernel) e he hgone
  exact ⟨s, s', hs, hs', e, he, hgone, hlaw.1⟩

/-- The same table for a peer that allows no blocked stream and is slow to answer: the dates are
    inserted and written as literals, so nothing references them. -/
def unacknowledgedDates : List SenderEvent :=
  [.settings 80 0, .begin 0, .field (.date 1 (bytes "a")), .finish, .begin 4,
    .field (.date 2 (bytes "b")), .finish, .begin 8]

/-- The third date erases the first one, which the peer may not have received. -/
theorem evicts_unacknowledged : ∃ s s', run Sender.step {} unacknowledgedDates = some s ∧
      s.step (.field (.date 3 (bytes "c"))) = some s' ∧
      ∃ e ∈ s.enc.entries, (∀ e' ∈ s'.enc.entries, e'.abs ≠ e.abs) ∧ ¬ e.abs < s.enc.known := by
  have hfacts : (run Sender.step {} unacknowledgedDates).bind (fun s =>
      (s.step (.field (.date 3 (bytes "c")))).map fun s' =>
        s.enc.entries.any fun e =>
          (s'.enc.entries.all fun e' => e'.abs ≠ e.abs) && decide (¬ e.abs < s.enc.known)) =
      some true := by
    decide +kernel
  obtain ⟨s, hs, hmap⟩ := Option.bind_eq_some_iff.mp hfacts
  obtain ⟨s', hs', hany⟩ := Option.map_eq_some_iff.mp hmap
  obtain ⟨e, he, hboth⟩ := List.any_eq_true.mp hany
  obtain ⟨hall, hknown⟩ := (Bool.and_eq_true _ _).mp hboth
  refine ⟨s, s', hs, hs', e, he, ?_, of_decide_eq_true hknown⟩
  intro e' he'
  simpa using List.all_eq_true.mp hall e' he'

end Agensio.Qpack
