/-
  Agensio.Qpack.Entries — the encoder's entries.

  `Table.Sound` is what `entries_`, `size_` and `insert_count_` always
  satisfy: the entries are the last ones inserted, in order, they fit the
  capacity, and their sizes are RFC 9204 3.2.1's.  Every operation keeps
  it.  `Inserted` says once what a successful `insert` does, so that the
  other modules never open its loop.

  Main results:
    * `inserted_of_insert` — the inversion of `insert`;
    * `modifyRefs_eq` — a change to the reference count of one entry, as a
      map over all of them;
    * `release_eq` — a release, in the same form.
-/
import Agensio.Qpack.Encoder

namespace Agensio.Qpack

open Agensio.Lib Agensio.Codec

namespace Table

/-! ## §1. The entries held. -/

/-- The absolute index of the oldest entry. -/
def first (t : Table) : Nat := t.insertCount - t.entries.length

/-- What every operation keeps. -/
structure Sound (t : Table) : Prop where
  count : t.entries.length ≤ t.insertCount
  abs : t.entries.map Entry.abs = List.range' t.first t.entries.length
  size : t.size = weight Entry.size t.entries
  sizes : ∀ e ∈ t.entries, e.size = fieldSize (e.name, e.value)
  fits : t.size ≤ t.capacity

theorem sound_new : ({} : Table).Sound where
  count := le_rfl
  abs := rfl
  size := rfl
  sizes := fun _ he => absurd he List.not_mem_nil
  fits := le_rfl

variable {t : Table}

variable {e : Entry}

theorem Sound.getElem?_abs (h : t.Sound) {k : Nat} (he : t.entries[k]? = some e) : e.abs = t.first + k := by
  have hk : k < t.entries.length := (List.getElem?_eq_some_iff.mp he).1
  have hmap : (t.entries.map Entry.abs)[k]? = some e.abs := by
    rw [List.getElem?_map, he]
    rfl
  rw [h.abs, List.getElem?_range' hk] at hmap
  have := Option.some.inj hmap
  omega

theorem Sound.mem_abs (h : t.Sound) (he : e ∈ t.entries) : t.first ≤ e.abs ∧ e.abs < t.insertCount := by
  obtain ⟨k, hk⟩ := List.mem_iff_getElem?.mp he
  have habs := h.getElem?_abs hk
  have hlen : k < t.entries.length := (List.getElem?_eq_some_iff.mp hk).1
  have hcount := h.count
  unfold first at habs ⊢
  omega

theorem Sound.front_eq (h : t.Sound) (hne : t.entries ≠ []) : t.front = t.first := by
  cases hent : t.entries with
  | nil => exact absurd hent hne
  | cons e es =>
    have hfront : t.front = e.abs := by
      unfold front
      rw [hent]
    have := h.getElem?_abs (show t.entries[0]? = some e by rw [hent]; rfl)
    omega

/-- `held` is the range of the entries. -/
theorem Sound.held_iff (h : t.Sound) (abs : Nat) :
    t.held abs = true ↔ t.first ≤ abs ∧ abs < t.insertCount := by
  unfold held
  by_cases hne : t.entries = []
  · have hfirst : t.first = t.insertCount := by
      unfold first
      rw [hne]
      rfl
    rw [hne, hfirst]
    simp
  · rw [h.front_eq hne]
    cases hent : t.entries with
    | nil => exact absurd hent hne
    | cons e es => simp

theorem Sound.held_of_mem (h : t.Sound) (he : e ∈ t.entries) : t.held e.abs = true :=
  (h.held_iff e.abs).mpr (h.mem_abs he)

/-- An index that is held has its entry. -/
theorem Sound.exists_of_held (h : t.Sound) {abs : Nat} (ha : t.held abs = true) :
    ∃ e, t.entries[abs - t.first]? = some e ∧ e.abs = abs := by
  obtain ⟨hlo, hhi⟩ := (h.held_iff abs).mp ha
  have hcount := h.count
  have hlt : abs - t.first < t.entries.length := by
    unfold first at hlo ⊢
    omega
  refine ⟨t.entries[abs - t.first], List.getElem?_eq_getElem hlt, ?_⟩
  have := h.getElem?_abs (List.getElem?_eq_getElem hlt)
  omega

/-! ## §2. Changes to reference counts. -/

/-- The reference count of the entries in `A` changed by `f`. -/
def bump (A : Nat → Prop) [DecidablePred A] (f : Nat → Nat) (e : Entry) : Entry :=
  if A e.abs then { e with refs := f e.refs } else e

@[simp] theorem bump_abs (A : Nat → Prop) [DecidablePred A] (f : Nat → Nat) (e : Entry) :
    (bump A f e).abs = e.abs := by
  unfold bump
  split <;> rfl

@[simp] theorem bump_size (A : Nat → Prop) [DecidablePred A] (f : Nat → Nat) (e : Entry) :
    (bump A f e).size = e.size := by
  unfold bump
  split <;> rfl

@[simp] theorem bump_name (A : Nat → Prop) [DecidablePred A] (f : Nat → Nat) (e : Entry) :
    (bump A f e).name = e.name := by
  unfold bump
  split <;> rfl

@[simp] theorem bump_value (A : Nat → Prop) [DecidablePred A] (f : Nat → Nat) (e : Entry) :
    (bump A f e).value = e.value := by
  unfold bump
  split <;> rfl

/-- Reference counts play no part in `Sound`. -/
theorem Sound.map_bump (h : t.Sound) (A : Nat → Prop) [DecidablePred A] (f : Nat → Nat) :
    ({ t with entries := t.entries.map (bump A f) } : Table).Sound := by
  have hlen : (t.entries.map (bump A f)).length = t.entries.length := List.length_map _
  constructor
  · show (t.entries.map _).length ≤ _
    rw [hlen]
    exact h.count
  · show (t.entries.map (bump A f)).map Entry.abs =
      List.range' (t.insertCount - (t.entries.map (bump A f)).length) (t.entries.map (bump A f)).length
    rw [hlen, List.map_map]
    have hcomp : Entry.abs ∘ bump A f = Entry.abs := by
      funext e
      exact bump_abs A f e
    rw [hcomp]
    exact h.abs
  · show t.size = weight Entry.size (t.entries.map (bump A f))
    have hcomp : Entry.size ∘ bump A f = Entry.size := by
      funext e
      exact bump_size A f e
    rw [h.size, weight, weight, List.map_map, hcomp]
  · intro e he
    obtain ⟨e', he', rfl⟩ := List.mem_map.mp he
    rw [bump_size, bump_name, bump_value]
    exact h.sizes e' he'
  · exact h.fits

/-- `entry(abs)` finds the entry by its distance from the oldest one. -/
theorem modifyRefs_eq (h : t.Sound) (abs : Nat) (f : Nat → Nat) :
    t.modifyRefs abs f = { t with entries := t.entries.map (bump (· = abs) f) } := by
  unfold modifyRefs
  by_cases ha : t.held abs = true
  · have hne : t.entries ≠ [] := by
      intro hnil
      unfold held at ha
      rw [hnil] at ha
      simp at ha
    rw [if_pos ha, h.front_eq hne]
    have hlist : (t.entries.modify (abs - t.first) fun e => { e with refs := f e.refs }) =
        t.entries.map (bump (· = abs) f) := by
      apply List.ext_getElem?
      intro k
      rw [List.getElem?_modify, List.getElem?_map]
      cases hk : t.entries[k]? with
      | none => rfl
      | some e =>
        have hlo := (h.held_iff abs).mp ha
        have habs := h.getElem?_abs hk
        have hiff : abs - t.first = k ↔ e.abs = abs := by omega
        show some (if abs - t.first = k then { e with refs := f e.refs } else e) =
          some (bump (· = abs) f e)
        unfold bump
        by_cases heq : e.abs = abs
        · rw [if_pos heq, if_pos (hiff.mpr heq)]
        · rw [if_neg heq, if_neg (fun hx => heq (hiff.mp hx))]
    rw [hlist]
  · rw [if_neg ha]
    have hlist : t.entries.map (bump (· = abs) f) = t.entries := by
      apply (List.map_congr_left _).trans (List.map_id _)
      intro e he
      unfold bump
      rw [if_neg]
      · rfl
      · rintro rfl
        exact ha (h.held_of_mem he)
    rw [hlist]

theorem foldl_modifyRefs_eq (h : t.Sound) (refs : List Nat) (f : Nat → Nat) (hn : refs.Nodup) :
    refs.foldl (fun t abs => t.modifyRefs abs f) t =
      { t with entries := t.entries.map (bump (· ∈ refs) f) } := by
  induction refs generalizing t with
  | nil =>
    have hlist : t.entries.map (bump (· ∈ []) f) = t.entries := by
      apply (List.map_congr_left _).trans (List.map_id _)
      intro e _
      exact if_neg List.not_mem_nil
    show t = _
    rw [hlist]
  | cons a refs ih =>
    obtain ⟨ha, hn'⟩ := List.nodup_cons.mp hn
    rw [List.foldl_cons, modifyRefs_eq h, ih (h.map_bump _ _) hn']
    dsimp only
    rw [List.map_map]
    congr 1
    apply List.map_congr_left
    intro e _
    show bump (· ∈ refs) f (bump (· = a) f e) = bump (· ∈ a :: refs) f e
    unfold bump
    by_cases hea : e.abs = a
    · rw [if_pos hea]
      dsimp only
      rw [if_neg (by rw [hea]; exact ha), if_pos (by rw [hea]; exact .head _)]
    · rw [if_neg hea]
      by_cases her : e.abs ∈ refs
      · rw [if_pos her, if_pos (.tail _ her)]
      · rw [if_neg her, if_neg (fun hx => (List.mem_cons.mp hx).elim hea her)]

/-- A release of a pending section. -/
theorem release_eq (h : t.Sound) {c : Section} (hp : c.pending = true) (hn : c.refs.Nodup) : t.release c =
      ({ t with
          entries := t.entries.map (bump (· ∈ c.refs) (· - 1))
          blocking := if c.blocking then t.blocking - 1 else t.blocking },
        { c with pending := false, blocking := false, refs := [] }) := by
  unfold release
  rw [hp, if_neg (by simp), foldl_modifyRefs_eq h c.refs (· - 1) hn]

/-! What these operations leave alone, whatever the table. -/

theorem modifyRefs_frame (t : Table) (abs : Nat) (f : Nat → Nat) :
    ∃ es, t.modifyRefs abs f = { t with entries := es } := by
  unfold modifyRefs
  split
  · exact ⟨_, rfl⟩
  · exact ⟨t.entries, rfl⟩

theorem reference_frame (t : Table) (c : Section) (abs : Nat) :
    ∃ es, (t.reference c abs).table = { t with entries := es } := by
  unfold reference
  dsimp only
  by_cases hc : c.refs.contains abs = true
  · rw [if_pos hc]
    exact ⟨t.entries, rfl⟩
  rw [if_neg hc]
  by_cases hslot : c.refs.length < 4 ∧ t.held abs = true
  · rw [if_pos hslot]
    exact t.modifyRefs_frame abs (· + 1)
  rw [if_neg hslot]
  exact ⟨t.entries, rfl⟩

theorem release_frame (t : Table) (c : Section) :
    ∃ es b, (t.release c).1 = { t with entries := es, blocking := b } := by
  have hfold : ∀ (refs : List Nat) (t : Table),
      ∃ es, refs.foldl (fun t abs => t.modifyRefs abs (· - 1)) t = { t with entries := es } := by
    intro refs
    induction refs with
    | nil => exact fun t => ⟨t.entries, rfl⟩
    | cons a refs ih =>
      intro t
      obtain ⟨es, hes⟩ := t.modifyRefs_frame a (· - 1)
      obtain ⟨es', hes'⟩ := ih (t.modifyRefs a (· - 1))
      refine ⟨es', ?_⟩
      rw [List.foldl_cons, hes', hes]
  unfold release
  by_cases hp : (!c.pending) = true
  · rw [if_pos hp]
    exact ⟨t.entries, t.blocking, rfl⟩
  rw [if_neg hp]
  obtain ⟨es, hes⟩ := hfold c.refs t
  refine ⟨es, if c.blocking then t.blocking - 1 else t.blocking, ?_⟩
  dsimp only
  rw [hes]

/-! ## §3. Insertion. -/

/-- What `makeRoom` takes from the front: entries without references, as few as it needs. -/
theorem makeRoom_spec {need freed freed' : Nat} {es left : List Entry}
    (h : t.makeRoom need freed es = some (freed', left)) :
    ∃ gone, es = gone ++ left ∧ freed' = freed + weight Entry.size gone ∧
      (∀ e ∈ gone, e.refs = 0) ∧ t.size - freed' + need ≤ t.capacity ∧ ∀ pre e post, gone = pre ++ e :: post →
        t.capacity < t.size - (freed + weight Entry.size pre) + need := by
  induction es generalizing freed with
  | nil =>
    unfold makeRoom at h
    split at h
    · simp at h
    next hfit =>
      cases h
      refine ⟨[], rfl, rfl, fun e he => absurd he List.not_mem_nil, by omega, ?_⟩
      intro pre e post hnil
      exact absurd hnil.symm (by simp)
  | cons e es ih =>
    unfold makeRoom at h
    split at h
    next hfull =>
      split at h
      · simp at h
      next hrefs =>
        obtain ⟨gone, rfl, rfl, hfree, hfit, hmin⟩ := ih h
        refine ⟨e :: gone, rfl, ?_, ?_, hfit, ?_⟩
        · rw [weight_cons]
          omega
        · intro x hx
          rcases List.mem_cons.mp hx with rfl | hx
          · exact Decidable.not_not.mp hrefs
          · exact hfree x hx
        · intro pre x post hsplit
          cases pre with
          | nil =>
            rw [weight_nil]
            omega
          | cons y pre =>
            rw [List.cons_append] at hsplit
            obtain ⟨rfl, hgone⟩ := List.cons.inj hsplit
            have := hmin pre x post hgone
            rw [weight_cons]
            rw [Nat.add_assoc] at this
            exact this
    next hfit =>
      cases h
      refine ⟨[], rfl, rfl, fun e he => absurd he List.not_mem_nil, by omega, ?_⟩
      intro pre e post hnil
      exact absurd hnil.symm (by simp)

/-- A successful insertion: `gone` was evicted, `left` stayed. -/
structure Inserted (t : Table) (i : Nat) (name value : Bytes) (abs : Nat) (t' : Table)
    (gone left : List Entry) : Prop where
  index : abs = t.insertCount
  split : t.entries = gone ++ left
  free : ∀ e ∈ gone, e.refs = 0
  /-- An entry evicted did not fit beside the newer ones and the new one. -/
  needed : ∀ pre e post, gone = pre ++ e :: post →
    t.capacity < weight Entry.size (e :: post ++ left) + fieldSize (name, value)
  room : weight Entry.size left + fieldSize (name, value) ≤ t.capacity
  result : t' = { t with
    instructions := t.instructions ++
      ((if t.capacitySent then [] else appendInteger t.capacity 5 0x20) ++
        (appendInteger i 6 0xc0 ++ appendString value))
    capacitySent := true
    entries := left ++ [{ abs := t.insertCount, size := fieldSize (name, value), name := name,
                          value := value }]
    size := weight Entry.size left + fieldSize (name, value)
    insertCount := t.insertCount + 1 }

theorem inserted_of_insert (hs : t.Sound) {i abs : Nat} {name value : Bytes} {t' : Table}
    (h : t.insert i name value = some (abs, t')) : ∃ gone left, Inserted t i name value abs t' gone left := by
  unfold insert at h
  dsimp only at h
  split at h
  · simp at h
  next hcap =>
    cases hroom : t.makeRoom (name.length + value.length + 32) 0 t.entries with
    | none =>
      rw [hroom] at h
      simp at h
    | some r =>
      obtain ⟨freed, left⟩ := r
      rw [hroom] at h
      cases h
      obtain ⟨gone, hsplit, hfreed, hfree, hfit, hmin⟩ := makeRoom_spec hroom
      have hsize : t.size = weight Entry.size gone + weight Entry.size left := by
        rw [hs.size, hsplit, weight_append]
      have hneed : fieldSize (name, value) = name.length + value.length + 32 := rfl
      refine ⟨gone, left, rfl, hsplit, hfree, ?_, by omega, ?_⟩
      · intro pre e post hgone
        have := hmin pre e post hgone
        have hw : weight Entry.size gone =
            weight Entry.size pre + weight Entry.size (e :: post) := by
          rw [hgone, weight_append]
        rw [weight_append]
        omega
      · have hleft : t.size - freed + (name.length + value.length + 32) =
            weight Entry.size left + fieldSize (name, value) := by omega
        rw [hleft]
        rfl

namespace Inserted

variable {i abs : Nat} {name value : Bytes} {t' : Table} {gone left : List Entry}

/-- The entry inserted. -/
def newEntry (t : Table) (name value : Bytes) : Entry :=
  { abs := t.insertCount, size := fieldSize (name, value), name := name, value := value }

theorem entries_eq (h : Inserted t i name value abs t' gone left) :
    t'.entries = left ++ [newEntry t name value] := by rw [h.result]; rfl

theorem insertCount_eq (h : Inserted t i name value abs t' gone left) :
    t'.insertCount = t.insertCount + 1 := by rw [h.result]

theorem blocking_eq (h : Inserted t i name value abs t' gone left) :
    t'.blocking = t.blocking := by rw [h.result]

theorem peerBlocked_eq (h : Inserted t i name value abs t' gone left) :
    t'.peerBlocked = t.peerBlocked := by rw [h.result]

theorem capacity_eq (h : Inserted t i name value abs t' gone left) :
    t'.capacity = t.capacity := by rw [h.result]

theorem first_eq (hs : t.Sound) (h : Inserted t i name value abs t' gone left) :
    t'.first = t.first + gone.length := by
  have hcount := hs.count
  unfold first
  rw [h.entries_eq, h.insertCount_eq, h.split, List.length_append, List.length_append]
  rw [h.split, List.length_append] at hcount
  show t.insertCount + 1 - (left.length + 1) = _
  omega

theorem sound (hs : t.Sound) (h : Inserted t i name value abs t' gone left) : t'.Sound := by
  have hcount := hs.count
  have hlen : t.entries.length = gone.length + left.length := by
    rw [h.split, List.length_append]
  have hfirst : t.first = t.insertCount - (gone.length + left.length) := by
    unfold first
    rw [hlen]
  constructor
  · rw [h.entries_eq, h.insertCount_eq, List.length_append]
    show left.length + 1 ≤ _
    omega
  · have habs := hs.abs
    rw [h.split, List.map_append, List.length_append, ← List.range'_append_1] at habs
    have hleft := (List.append_inj habs (by simp)).2
    rw [h.entries_eq, h.first_eq hs, List.map_append, hleft, List.length_append]
    show _ ++ [t.insertCount] = List.range' _ (left.length + 1)
    rw [← List.range'_append_1]
    congr 1
    show [t.insertCount] = [t.first + gone.length + left.length]
    congr 1
    omega
  · rw [h.entries_eq, weight_append, h.result]
    rfl
  · intro e he
    rw [h.entries_eq] at he
    rcases List.mem_append.mp he with he | he
    · exact hs.sizes e (by rw [h.split]; exact List.mem_append_right _ he)
    obtain rfl := List.mem_singleton.mp he
    rfl
  · rw [h.result]
    exact h.room

/-- An entry with a reference stays. -/
theorem held_of_refs (h : Inserted t i name value abs t' gone left) {e : Entry}
    (he : e ∈ t.entries) (hr : e.refs ≠ 0) : e ∈ t'.entries := by
  rw [h.split] at he
  rw [h.entries_eq]
  rcases List.mem_append.mp he with hg | hl
  · exact absurd (h.free e hg) hr
  · exact List.mem_append_left _ hl

end Inserted

end Table

end Agensio.Qpack
