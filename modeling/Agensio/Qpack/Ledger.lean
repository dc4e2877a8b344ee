/-
  Agensio.Qpack.Ledger — reference counts against sections.

  The encoder counts, at each entry, the sections that reference it and
  are being built or pending.  `Ledger` relates these counts to the
  sections' own records, and the count of blocking sections to theirs.
  Each operation of `Table` keeps it; the one operation with a condition
  is `reference`, whose record has four slots (`Recorded`).

  Main results: `Ledger.insert`, `Ledger.reference`, `Ledger.finish`,
  `Ledger.release` — one lemma for each operation; `Ledger.effect` — for a
  field operation.
-/
import Agensio.Qpack.Entries

namespace Agensio.Qpack

open Agensio.Lib Agensio.Codec

/-! ## §1. The ledger. -/

/-- The sections whose references count: the one being built and those pending. -/
def activeOf (cur : Option Section) (done : List Section) : List Section :=
  cur.toList ++ done.filter fun c => c.pending

/-- A section's record: each entry it uses once, and each of them in the table. -/
structure GoodRefs (t : Table) (c : Section) : Prop where
  nodup : c.refs.Nodup
  uses : ∀ a, a ∈ c.uses ↔ a ∈ c.refs
  held : ∀ a ∈ c.refs, t.held a = true

/-- The reference counts are those of the sections in progress and out. -/
structure Ledger (t : Table) (cur : Option Section) (done : List Section) : Prop where
  sound : t.Sound
  refs : ∀ e ∈ t.entries, e.refs = (activeOf cur done).countP fun c => e.abs ∈ c.refs
  good : ∀ c ∈ activeOf cur done, GoodRefs t c
  blocking : t.blocking = done.countP fun c => c.pending && c.blocking
  blocked : t.blocking ≤ t.peerBlocked
  current : ∀ c ∈ cur, c.pending = false ∧ (c.blocking = true → t.blocking < t.peerBlocked) ∧
    (c.ric = 0 → c.uses = [])

/-- A reference that finds its entry recorded, or a slot for it. -/
def Recorded (c : Section) (r : Option Nat) : Prop := ∀ a ∈ r, a ∈ c.refs ∨ c.refs.length < 4

variable {t t' : Table} {cur : Option Section} {done : List Section} {c : Section}

theorem mem_activeOf {c : Section} : c ∈ activeOf cur done ↔ c ∈ cur ∨ c ∈ done ∧ c.pending = true := by
  unfold activeOf
  rw [List.mem_append, List.mem_filter, Option.mem_toList]
  exact .rfl

theorem activeOf_some (c : Section) (done : List Section) :
    activeOf (some c) done = c :: activeOf none done := rfl

theorem ledger_new : Ledger {} none [] where
  sound := Table.sound_new
  refs := fun _ he => absurd he List.not_mem_nil
  good := fun _ hc => absurd hc List.not_mem_nil
  blocking := rfl
  blocked := le_rfl
  current := fun _ hc => absurd hc (by simp)

/-- An entry some section references has a count. -/
theorem Ledger.refs_ne_zero (h : Ledger t cur done) {e : Entry} (he : e ∈ t.entries)
    {c : Section} (hc : c ∈ activeOf cur done) (hr : e.abs ∈ c.refs) : e.refs ≠ 0 := by
  rw [h.refs e he]
  have : 0 < (activeOf cur done).countP fun c => e.abs ∈ c.refs :=
    List.countP_pos_iff.mpr ⟨c, hc, decide_eq_true hr⟩
  omega

/-! ## §2. Insertions. -/

variable {abs : Nat}

theorem Ledger.insert (h : Ledger t cur done) {i : Nat} {name value : Bytes}
    (hins : t.insert i name value = some (abs, t')) : Ledger t' cur done := by
  obtain ⟨gone, left, hi⟩ := Table.inserted_of_insert h.sound hins
  constructor
  · exact hi.sound h.sound
  · intro e he
    rw [hi.entries_eq] at he
    rcases List.mem_append.mp he with he | he
    · exact h.refs e (by rw [hi.split]; exact List.mem_append_right _ he)
    -- no section references an index that was not given out yet
    obtain rfl := List.mem_singleton.mp he
    show 0 = _
    symm
    rw [List.countP_eq_zero]
    intro c hc hmem
    have hheld := (h.good c hc).held _ (of_decide_eq_true hmem)
    have := (h.sound.held_iff _).mp hheld
    exact absurd this.2 (Nat.lt_irrefl _)
  · intro c hc
    have hgood := h.good c hc
    refine ⟨hgood.nodup, hgood.uses, ?_⟩
    intro a ha
    obtain ⟨e, he, rfl⟩ := h.sound.exists_of_held (hgood.held a ha)
    have hmem := List.mem_of_getElem? he
    exact (hi.sound h.sound).held_of_mem
      (hi.held_of_refs hmem (h.refs_ne_zero hmem hc ha))
  · rw [hi.blocking_eq]
    exact h.blocking
  · rw [hi.blocking_eq, hi.peerBlocked_eq]
    exact h.blocked
  · rw [hi.blocking_eq, hi.peerBlocked_eq]
    exact h.current

/-! ## §3. References. -/

namespace Table

/-- The section after a reference, its record aside. -/
def referring (t : Table) (c : Section) (abs : Nat) : Section :=
  { c with
    ric := if abs + 1 > c.ric then abs + 1 else c.ric
    blocking := if abs ≥ t.known then true else c.blocking
    uses := abs :: c.uses }

/-- A reference to an entry that is recorded already. -/
theorem reference_old {abs : Nat} (h : abs ∈ c.refs) :
    (t.reference c abs).table = t ∧ (t.reference c abs).sec = t.referring c abs := by
  unfold reference
  dsimp only
  rw [if_pos (List.contains_iff_mem.mpr h)]
  exact ⟨rfl, rfl⟩

/-- A reference that takes a slot. -/
theorem reference_new (hs : t.Sound) {abs : Nat} (hn : abs ∉ c.refs) (hl : c.refs.length < 4)
    (hh : t.held abs = true) : (t.reference c abs).table =
        { t with entries := t.entries.map (bump (· = abs) (· + 1)) } ∧
      (t.reference c abs).sec = { t.referring c abs with refs := c.refs ++ [abs] } := by
  unfold reference
  dsimp only
  rw [if_neg (fun hc => hn (List.contains_iff_mem.mp hc)), if_pos ⟨hl, hh⟩]
  exact ⟨modifyRefs_eq hs abs (· + 1), rfl⟩

theorem usable_held {abs : Nat} (h : t.usable c abs = true) : t.held abs = true := by
  unfold usable at h
  by_cases hh : t.held abs = true
  · exact hh
  rw [Bool.not_eq_true] at hh
  rw [hh] at h
  simp at h

/-- A usable entry the peer may not have yet is counted, or there is room in its limit. -/
theorem usable_blocking {abs : Nat} (h : t.usable c abs = true) (hk : t.known ≤ abs) :
    c.blocking = true ∨ t.blocking < t.peerBlocked := by
  unfold usable at h
  rw [usable_held h, if_neg (by simp), if_neg (Nat.not_lt.mpr hk)] at h
  by_cases hb : c.blocking = true
  · exact .inl hb
  rw [if_neg hb] at h
  exact .inr (of_decide_eq_true h)

end Table

/-- What a reference does to the section being built, whatever the record. -/
theorem Ledger.current_referring (h : Ledger t (some c) done) (hu : t.usable c abs = true) :
    (t.referring c abs).pending = false ∧ ((t.referring c abs).blocking = true → t.blocking < t.peerBlocked) ∧
      ((t.referring c abs).ric = 0 → (t.referring c abs).uses = []) := by
  obtain ⟨hp, hb, -⟩ := h.current c rfl
  refine ⟨hp, ?_, ?_⟩
  · show (if abs ≥ t.known then true else c.blocking) = true → _
    intro hblock
    by_cases hk : abs ≥ t.known
    · rcases Table.usable_blocking hu hk with hcb | hlt
      · exact hb hcb
      · exact hlt
    · rw [if_neg hk] at hblock
      exact hb hblock
  · show (if abs + 1 > c.ric then abs + 1 else c.ric) = 0 → _
    intro hric
    split at hric <;> omega

theorem Ledger.reference (h : Ledger t (some c) done) (hu : t.usable c abs = true)
    (hrec : abs ∈ c.refs ∨ c.refs.length < 4) :
    Ledger (t.reference c abs).table (some (t.reference c abs).sec) done := by
  have hheld := Table.usable_held hu
  have hcurrent := h.current_referring hu
  have hgood := h.good c (mem_activeOf.mpr (.inl rfl))
  by_cases hmem : abs ∈ c.refs
  · -- the record stays, and so do the counts
    obtain ⟨ht, hc⟩ := Table.reference_old (t := t) hmem
    rw [ht, hc]
    refine ⟨h.sound, h.refs, ?_, h.blocking, h.blocked, ?_⟩
    · intro x hx
      rcases mem_activeOf.mp hx with hx | hx
      · cases hx
        refine ⟨hgood.nodup, ?_, hgood.held⟩
        intro a
        show a ∈ abs :: c.uses ↔ a ∈ c.refs
        rw [List.mem_cons, hgood.uses]
        constructor
        · rintro (rfl | ha)
          · exact hmem
          · exact ha
        · exact .inr
      · exact h.good x (mem_activeOf.mpr (.inr hx))
    · intro x hx
      cases hx
      exact hcurrent
  · have hlt : c.refs.length < 4 := hrec.resolve_left hmem
    obtain ⟨ht, hc⟩ := Table.reference_new h.sound hmem hlt hheld
    rw [ht, hc]
    have hsound := h.sound.map_bump (· = abs) (· + 1)
    have hheld' : ∀ a, t.held a = true →
        ({ t with entries := t.entries.map (Table.bump (· = abs) (· + 1)) } : Table).held a =
          true := by
      intro a ha
      obtain ⟨e, he, rfl⟩ := h.sound.exists_of_held ha
      have := hsound.held_of_mem (List.mem_map_of_mem (List.mem_of_getElem? he))
      rwa [Table.bump_abs] at this
    refine ⟨hsound, ?_, ?_, h.blocking, h.blocked, ?_⟩
    · intro e he
      obtain ⟨e₀, he₀, rfl⟩ := List.mem_map.mp he
      have hcount := h.refs e₀ he₀
      rw [activeOf_some, List.countP_cons] at hcount ⊢
      rw [Table.bump_abs]
      unfold Table.bump
      by_cases heq : e₀.abs = abs
      · rw [if_neg (by rw [heq]; simpa using hmem)] at hcount
        rw [if_pos heq, if_pos (by rw [heq]; simp)]
        show e₀.refs + 1 = _
        omega
      · have hiff : e₀.abs ∈ c.refs ++ [abs] ↔ e₀.abs ∈ c.refs := by
          rw [List.mem_append, List.mem_singleton]
          exact ⟨fun hx => hx.resolve_right heq, .inl⟩
        rw [if_neg heq, decide_eq_decide.mpr hiff]
        exact hcount
    · intro x hx
      rcases mem_activeOf.mp hx with hx | hx
      · cases hx
        refine ⟨?_, ?_, ?_⟩
        · show (c.refs ++ [abs]).Nodup
          rw [List.nodup_append]
          refine ⟨hgood.nodup, List.pairwise_singleton _ _, ?_⟩
          intro a ha b hb
          rw [List.mem_singleton.mp hb]
          rintro rfl
          exact hmem ha
        · intro a
          show a ∈ abs :: c.uses ↔ a ∈ c.refs ++ [abs]
          rw [List.mem_cons, List.mem_append, List.mem_singleton, hgood.uses, or_comm]
        · intro a ha
          rcases List.mem_append.mp ha with ha | ha
          · exact hheld' a (hgood.held a ha)
          rw [List.mem_singleton.mp ha]
          exact hheld' abs hheld
      · have hx' := h.good x (mem_activeOf.mpr (.inr hx))
        exact ⟨hx'.nodup, hx'.uses, fun a ha => hheld' a (hx'.held a ha)⟩
    · intro x hx
      cases hx
      exact hcurrent

/-- A field operation, if what it references can be recorded. -/
theorem Ledger.effect {e : Encoder} {op : FieldOp} {r : Option Nat} {out : Bytes} {c' : Section}
    (h : Ledger e.toTable (some c) done) (heff : e.Effect c op r out t' c') (hrec : Recorded c r) :
    Ledger t' (some c') done := by
  cases heff with
  | static => exact h
  | wrote _ hw =>
    cases hw with
    | literal => exact h
    | inserted _ hins => exact h.insert hins
    | remembered _ hu => exact h.reference hu (hrec _ rfl)
    | fresh _ hins hu => exact (h.insert hins).reference hu (hrec _ rfl)

/-! ## §4. The life of a section. -/

theorem Ledger.begin (h : Ledger t none done) : Ledger t.beginSection.1 (some t.beginSection.2) done := by
  refine ⟨⟨h.sound.count, h.sound.abs, h.sound.size, h.sound.sizes, h.sound.fits⟩, ?_, ?_,
    h.blocking, h.blocked, ?_⟩
  · intro e he
    rw [h.refs e he, activeOf_some, List.countP_cons]
    rfl
  · intro x hx
    rcases mem_activeOf.mp hx with hx | hx
    · cases hx
      exact ⟨List.nodup_nil, fun a => .rfl, fun a ha => absurd ha List.not_mem_nil⟩
    have hx' := h.good x (mem_activeOf.mpr (.inr hx))
    exact ⟨hx'.nodup, hx'.uses, hx'.held⟩
  · intro x hx
    cases hx
    exact ⟨rfl, fun hb => absurd hb (by simp [Table.beginSection]), fun _ => rfl⟩

/-- A section sent; one without references is not pending. -/
theorem Ledger.finish (h : Ledger t (some c) done) :
    Ledger (t.endSection c).1 none (done ++ [(t.endSection c).2]) := by
  obtain ⟨hp, hb, hric⟩ := h.current c rfl
  unfold Table.endSection
  by_cases hr : c.ric ≠ 0
  · rw [if_pos hr]
    have hactive : ∀ x, x ∈ activeOf none (done ++ [{ c with pending := true }]) ↔
        x = { c with pending := true } ∨ x ∈ activeOf none done := by
      intro x
      have hsplit : activeOf none (done ++ [{ c with pending := true }]) =
          activeOf none done ++ [{ c with pending := true }] := by
        simp [activeOf, List.filter_append]
      rw [hsplit, List.mem_append, List.mem_singleton, or_comm]
    refine ⟨⟨h.sound.count, h.sound.abs, h.sound.size, h.sound.sizes, h.sound.fits⟩, ?_, ?_, ?_,
      ?_, fun x hx => absurd hx (by simp)⟩
    · intro e he
      rw [h.refs e he, activeOf_some, List.countP_cons]
      simp [activeOf, List.filter_append, List.countP_append]
    · intro x hx
      rcases (hactive x).mp hx with rfl | hx
      · have hg := h.good c (mem_activeOf.mpr (.inl rfl))
        exact ⟨hg.nodup, hg.uses, hg.held⟩
      have hx' := h.good x (.tail _ hx)
      exact ⟨hx'.nodup, hx'.uses, hx'.held⟩
    · show (if c.blocking then t.blocking + 1 else t.blocking) = _
      rw [List.countP_append, ← h.blocking]
      cases c.blocking <;> rfl
    · show (if c.blocking then t.blocking + 1 else t.blocking) ≤ t.peerBlocked
      by_cases hcb : c.blocking = true
      · rw [if_pos hcb]
        exact hb hcb
      rw [if_neg hcb]
      exact h.blocked
  · -- no reference was made, so the record is empty
    have hzero : c.ric = 0 := Decidable.not_not.mp hr
    rw [if_neg hr]
    have hgood := h.good c (mem_activeOf.mpr (.inl rfl))
    have hrefs : c.refs = [] := by
      rw [List.eq_nil_iff_forall_not_mem]
      intro a ha
      have := (hgood.uses a).mpr ha
      rw [hric hzero] at this
      cases this
    have hsame : activeOf none (done ++ [c]) = activeOf none done := by
      simp [activeOf, List.filter_append, hp]
    refine ⟨h.sound, ?_, ?_, ?_, h.blocked, fun x hx => absurd hx (by simp)⟩
    · intro e he
      rw [h.refs e he, activeOf_some, hsame, List.countP_cons, hrefs]
      rfl
    · intro x hx
      rw [hsame] at hx
      exact h.good x (.tail _ hx)
    · rw [List.countP_append, ← h.blocking]
      simp [hp]

/-- A change to `known` alone. -/
theorem Ledger.known (h : Ledger t cur done) (k : Nat) : Ledger { t with known := k } cur done :=
  ⟨⟨h.sound.count, h.sound.abs, h.sound.size, h.sound.sizes, h.sound.fits⟩, h.refs,
    fun c hc => ⟨(h.good c hc).nodup, (h.good c hc).uses, (h.good c hc).held⟩, h.blocking,
    h.blocked, h.current⟩

/-- A section acknowledged or given up. -/
theorem Ledger.release {pre post : List Section} (h : Ledger t cur (pre ++ c :: post)) :
    Ledger (t.release c).1 cur (pre ++ (t.release c).2 :: post) := by
  by_cases hp : c.pending = true
  · have hactive : activeOf cur (pre ++ c :: post) =
        cur.toList ++ (pre.filter (·.pending) ++ c :: post.filter (·.pending)) := by
      simp [activeOf, List.filter_append, hp]
    have hmem : c ∈ activeOf cur (pre ++ c :: post) := by
      rw [hactive]
      simp
    have hgood := h.good c hmem
    rw [Table.release_eq h.sound hp hgood.nodup]
    dsimp only
    have hactive' : activeOf cur
        (pre ++ { c with pending := false, blocking := false, refs := [] } :: post) =
          cur.toList ++ (pre.filter (·.pending) ++ post.filter (·.pending)) := by
      simp [activeOf, List.filter_append]
    have hsound := h.sound.map_bump (· ∈ c.refs) (· - 1)
    have hblocks := h.blocking
    have hblocked := h.blocked
    rw [List.countP_append, List.countP_cons, hp, Bool.true_and] at hblocks
    refine ⟨⟨hsound.count, hsound.abs, hsound.size, hsound.sizes, hsound.fits⟩, ?_, ?_, ?_, ?_, ?_⟩
    · intro e he
      obtain ⟨e₀, he₀, rfl⟩ := List.mem_map.mp he
      have hcount := h.refs e₀ he₀
      rw [hactive] at hcount
      rw [hactive', Table.bump_abs]
      simp only [List.countP_append, List.countP_cons] at hcount ⊢
      unfold Table.bump
      by_cases hr : e₀.abs ∈ c.refs
      · rw [if_pos (decide_eq_true hr)] at hcount
        rw [if_pos hr]
        show e₀.refs - 1 = _
        omega
      · rw [if_neg (by simpa using hr)] at hcount
        rw [if_neg hr]
        omega
    · intro x hx
      have hx' : x ∈ activeOf cur (pre ++ c :: post) := by
        rw [hactive'] at hx
        rw [hactive]
        simp only [List.mem_append, List.mem_cons] at hx ⊢
        tauto
      have hg := h.good x hx'
      refine ⟨hg.nodup, hg.uses, ?_⟩
      intro a ha
      obtain ⟨e, he, rfl⟩ := h.sound.exists_of_held (hg.held a ha)
      have := hsound.held_of_mem (List.mem_map_of_mem (List.mem_of_getElem? he))
      rwa [Table.bump_abs] at this
    · show (if c.blocking then t.blocking - 1 else t.blocking) = _
      rw [List.countP_append, List.countP_cons]
      cases hcb : c.blocking with
      | true =>
        rw [hcb] at hblocks
        simp at hblocks ⊢
        omega
      | false =>
        rw [hcb] at hblocks
        simpa using hblocks
    · show (if c.blocking then t.blocking - 1 else t.blocking) ≤ t.peerBlocked
      split <;> omega
    · intro x hx
      obtain ⟨hxp, hxb, hxr⟩ := h.current x hx
      refine ⟨hxp, ?_, hxr⟩
      intro hb
      have := hxb hb
      show (if c.blocking then t.blocking - 1 else t.blocking) < t.peerBlocked
      split <;> omega
  · have hsame : t.release c = (t, c) := by
      unfold Table.release
      rw [if_pos (by simpa using hp)]
    rw [hsame]
    exact h

theorem Table.release_pending (t : Table) (c : Section) : (t.release c).2.pending = false := by
  unfold Table.release
  by_cases hp : (!c.pending) = true
  · rw [if_pos hp]
    simpa using hp
  · rw [if_neg hp]

/-- A record that is not pending can go. -/
theorem Ledger.drop {pre post : List Section} (h : Ledger t cur (pre ++ c :: post))
    (hp : c.pending = false) : Ledger t cur (pre ++ post) := by
  have hsame : activeOf cur (pre ++ c :: post) = activeOf cur (pre ++ post) := by
    simp [activeOf, List.filter_append, hp]
  refine ⟨h.sound, ?_, ?_, ?_, h.blocked, h.current⟩
  · rw [← hsame]
    exact h.refs
  · rw [← hsame]
    exact h.good
  · rw [h.blocking, List.countP_append, List.countP_append, List.countP_cons, hp]
    simp

end Agensio.Qpack
