/-
  Agensio.Quic.OffsetSets — what a range set stands for.

  The purpose of `quic/range_set.hpp`, in sets of offsets: union,
  difference, and the runs that are dropped when there are too many.  A
  run of a set is told by its first point, so the ranges kept are those
  with fewer than `n` first points above them.

  Over `Quic.RangeSet`, whose offsets are natural numbers: bounds below
  2^64 - 1 leave `v + 1` a 64-bit value, and nothing else is added.

  Main results:
    * `canonical_set` — all of them, for every sequence of calls.
-/
import Mathlib.Data.Set.Card
import Agensio.Quic.RangeSet

namespace Agensio.Quic

namespace RangeSet

/-! ## §1. The sets. -/

/-- The first points of the runs of a set. -/
def starts (S : Set Nat) : Set Nat := {s | s ∈ S ∧ (s = 0 ∨ s - 1 ∉ S)}

/-- The points of the `n` highest runs. -/
def highestRuns (S : Set Nat) (n : Nat) : Set Nat := {v | v ∈ S ∧ (starts S ∩ Set.Ioi v).encard < n}

/-- `g` is the first maximal run of points missing in `[from_, limit)`. -/
structure IsFirstGap (S : Set Nat) (from_ limit : Nat) (g : Nat × Nat) : Prop where
  above : from_ ≤ g.1
  nonempty : g.1 < g.2
  below : g.2 ≤ limit
  first : ∀ v, from_ ≤ v → v < g.1 → v ∈ S
  missing : ∀ v, g.1 ≤ v → v < g.2 → v ∉ S
  maximal : g.2 = limit ∨ g.2 ∈ S

theorem IsFirstGap.unique {S : Set Nat} {from_ limit : Nat} {g g' : Nat × Nat}
    (h : IsFirstGap S from_ limit g) (h' : IsFirstGap S from_ limit g') : g = g' := by
  have hle : ∀ {a b : Nat × Nat}, IsFirstGap S from_ limit a → IsFirstGap S from_ limit b → a.1 ≤ b.1 := by
    intro a b ha hb
    by_contra hlt
    exact hb.missing b.1 le_rfl hb.nonempty (ha.first b.1 hb.above (Nat.lt_of_not_le hlt))
  have hfirst : g.1 = g'.1 := Nat.le_antisymm (hle h h') (hle h' h)
  -- the same begin, so the ends meet the same held point or the limit
  have hend : ∀ {a b : Nat × Nat}, IsFirstGap S from_ limit a → IsFirstGap S from_ limit b →
      a.1 = b.1 → b.2 ≤ a.2 := by
    intro a b ha hb hab
    rcases ha.maximal with hlim | hheld
    · exact hlim ▸ hb.below
    by_contra hlt
    have ha' := ha.nonempty
    exact hb.missing a.2 (by omega) (Nat.lt_of_not_le hlt) hheld
  exact Prod.ext hfirst (Nat.le_antisymm (hend h' h hfirst.symm) (hend h h' hfirst))

/-- The calls that change a range set. -/
inductive Op where
  | add (b e : Nat)
  | addPoint (v : Nat)
  | remove (b e : Nat)
  | removeBelow (upto : Nat)
  | keepHighest (n : Nat)
  deriving DecidableEq

def apply (r : RangeSet) : Op → RangeSet
  | .add b e => r.add b e
  | .addPoint v => r.addPoint v
  | .remove b e => r.remove b e
  | .removeBelow upto => r.removeBelow upto
  | .keepHighest n => r.keepHighest n

/-- What a call means. -/
def Op.meaning (S : Set Nat) : Op → Set Nat
  | .add b e => S ∪ Set.Ico b e
  | .addPoint v => S ∪ {v}
  | .remove b e => S \ Set.Ico b e
  | .removeBelow upto => S \ Set.Iio upto
  | .keepHighest n => highestRuns S n

/-- `first_gap`: the ranges from `pos` on. -/
def firstGapLoop (limit : Nat) : Nat → RangeSet → Option (Nat × Nat)
  | pos, [] => if pos < limit then some (pos, limit) else none
  | pos, x :: xs =>
    if x.2 ≤ pos then firstGapLoop limit pos xs
    else if x.1 > pos then
      if pos < min x.1 limit then some (pos, min x.1 limit) else none
    else if x.2 ≥ limit then none
    else firstGapLoop limit x.2 xs

def firstGap (r : RangeSet) (from_ limit : Nat) : Option (Nat × Nat) := firstGapLoop limit from_ r

/-- The ranges are sorted, not empty and not adjacent, and their points are those of `S`. -/
structure Canonical (S : Set Nat) (r : RangeSet) : Prop where
  above : Above 0 r
  holds : ∀ v, Holds r v ↔ v ∈ S

variable {r : RangeSet} {S : Set Nat} {lo b e : Nat}

/-! ## §2. The runs. -/

/-- One range for each run: the first points are the begins of the ranges. -/
theorem starts_iff (h : Above lo r) (s : Nat) : s ∈ starts {v | Holds r v} ↔ ∃ x ∈ r, x.1 = s := by
  induction r generalizing lo with
  | nil => simp [starts, holds_nil]
  | cons x xs ih =>
    obtain ⟨-, hx, hxs⟩ := h
    have hgt : ∀ {v}, Holds xs v → x.2 < v := fun hv => hxs.le_of_holds hv
    have htail := ih hxs
    simp only [starts, Set.mem_ofPred_eq, holds_cons, List.mem_cons, exists_eq_or_imp] at htail ⊢
    rw [← htail]
    constructor
    · rintro ⟨hs | hs, hfirst⟩
      · refine .inl ?_
        by_contra hne
        rcases hfirst with h0 | hprev
        · omega
        · exact hprev (.inl (by omega))
      · refine .inr ⟨hs, hfirst.imp_right fun hprev hp => hprev (.inr hp)⟩
    · rintro (rfl | ⟨hs, hfirst⟩)
      · refine ⟨.inl ⟨le_rfl, hx⟩, ?_⟩
        by_cases h0 : x.1 = 0
        · exact .inl h0
        refine .inr ?_
        rintro (hp | hp)
        · omega
        · have := hgt hp
          omega
      · have hs' := hgt hs
        refine ⟨.inr hs, hfirst.imp_right fun hprev => ?_⟩
        rintro (hp | hp)
        · omega
        · exact hprev hp

theorem begins_nodup (h : Above lo r) : (r.map Prod.fst).Nodup := by
  induction r generalizing lo with
  | nil => exact List.nodup_nil
  | cons x xs ih =>
    obtain ⟨-, hx, hxs⟩ := h
    refine List.nodup_cons.mpr ⟨fun hm => ?_, ih hxs⟩
    obtain ⟨y, hy, hyx⟩ := List.mem_map.mp hm
    obtain ⟨hheld, -⟩ := (starts_iff hxs y.1).mpr ⟨y, hy, rfl⟩
    have hlow := hxs.le_of_holds hheld
    omega

/-- How many runs begin above a point. -/
theorem encard_starts (h : Above lo r) (v : Nat) :
    (starts {v | Holds r v} ∩ Set.Ioi v).encard = (r.filter fun x => v < x.1).length := by
  have hset : starts {v | Holds r v} ∩ Set.Ioi v = ((r.map Prod.fst).filter (v < ·)).toFinset := by
    ext s
    rw [Set.mem_inter_iff, starts_iff h]
    simp
  rw [hset, Set.encard_coe_eq_coe_finsetCard,
    List.toFinset_card_of_nodup ((begins_nodup h).filter _), List.filter_map, List.length_map]
  rfl

/-- A range begins above every point of those before it. -/
theorem filter_begins (h : Above lo r) {v : Nat} (hv : v < lo) : r.filter (fun x => v < x.1) = r := by
  rw [List.filter_eq_self]
  intro x hx
  obtain ⟨hheld, -⟩ := (starts_iff h x.1).mpr ⟨x, hx, rfl⟩
  have hlow := h.le_of_holds hheld
  simp only [decide_eq_true_eq]
  omega

/-- Dropping the lowest ranges leaves the points with few ranges above. -/
theorem drop_spec (h : Above lo r) (k : Nat) : Above lo (r.drop k) ∧ ∀ v, Holds (r.drop k) v ↔
      Holds r v ∧ (r.filter fun x => v < x.1).length + k < r.length := by
  induction k generalizing lo r with
  | zero =>
    refine ⟨h, fun v => ⟨fun hv => ⟨hv, ?_⟩, fun hv => hv.1⟩⟩
    obtain ⟨x, hx, hin⟩ := hv
    refine (List.length_filter_lt_length_iff_exists).mpr ⟨x, hx, ?_⟩
    simp only [decide_eq_true_eq]
    omega
  | succ k ih =>
    cases r with
    | nil =>
      refine ⟨trivial, fun v => ⟨fun hv => absurd hv (holds_nil v), fun hv => absurd hv.1 (holds_nil v)⟩⟩
    | cons x xs =>
      obtain ⟨hlo, hx, hxs⟩ := h
      obtain ⟨habove, hset⟩ := ih hxs
      refine ⟨habove.mono (by omega), fun v => ?_⟩
      rw [List.drop_succ_cons, hset, holds_cons, List.length_cons]
      constructor
      · rintro ⟨hv, hlen⟩
        have hgt := hxs.le_of_holds hv
        rw [List.filter_cons_of_neg (by simp; omega)]
        exact ⟨.inr hv, by omega⟩
      · rintro ⟨hv | hv, hlen⟩
        · -- every range behind `x` begins above its points
          rw [List.filter_cons_of_neg (by simp; omega), filter_begins hxs (by omega)] at hlen
          omega
        · have hgt := hxs.le_of_holds hv
          rw [List.filter_cons_of_neg (by simp; omega)] at hlen
          exact ⟨hv, by omega⟩

/-! ## §3. The calls. -/

theorem Canonical.nil : Canonical ∅ [] := ⟨trivial, fun v => iff_of_false (holds_nil v) (Set.notMem_empty v)⟩

theorem Canonical.eq (h : Canonical S r) : {v | Holds r v} = S := Set.ext h.holds

/-- An added range, empty or not. -/
theorem Canonical.add (h : Canonical S r) (b e : Nat) : Canonical (S ∪ Set.Ico b e) (r.add b e) := by
  by_cases hbe : b < e
  · obtain ⟨habove, hset⟩ := add_spec hbe h.above
    refine ⟨habove.mono (Nat.zero_le _), fun v => ?_⟩
    rw [hset, h.holds]
    rfl
  · have hsame : r.add b e = r := by
      unfold RangeSet.add
      rw [if_pos (by omega)]
    rw [hsame, Set.Ico_eq_empty (by simpa using hbe), Set.union_empty]
    exact h

theorem Canonical.keepHighest (h : Canonical S r) (n : Nat) :
    Canonical (highestRuns S n) (r.keepHighest n) := by
  obtain ⟨habove, hset⟩ := drop_spec h.above (r.length - n)
  refine ⟨habove, fun v => ?_⟩
  have hle := List.length_filter_le (fun x : Nat × Nat => decide (v < x.1)) r
  show Holds (r.drop (r.length - n)) v ↔ _
  rw [hset, highestRuns, Set.mem_ofPred_eq, ← h.eq, encard_starts h.above, Nat.cast_lt]
  refine and_congr_right fun hv => ?_
  obtain ⟨x, hx, hin⟩ := hv
  have hlt : (r.filter fun x => v < x.1).length < r.length := by
    refine (List.length_filter_lt_length_iff_exists).mpr ⟨x, hx, ?_⟩
    simp only [decide_eq_true_eq]
    omega
  omega

/-- **The step lemma.** -/
theorem Canonical.apply (h : Canonical S r) (op : Op) : Canonical (op.meaning S) (r.apply op) := by
  cases op with
  | add b e => exact h.add b e
  | addPoint v =>
    have hpoint : Set.Ico v (v + 1) = {v} := by
      ext u
      simp only [Set.mem_Ico, Set.mem_singleton_iff]
      omega
    have hadd := h.add v (v + 1)
    rwa [hpoint] at hadd
  | remove b e =>
    obtain ⟨habove, hset⟩ := remove_spec (b := b) (e := e) h.above
    refine ⟨habove, fun v => ?_⟩
    show Holds (r.remove b e) v ↔ _
    rw [hset, h.holds]
    rfl
  | removeBelow upto =>
    obtain ⟨habove, hset⟩ := @removeBelow_spec _ upto _ h.above
    refine ⟨habove, fun v => ?_⟩
    show Holds (r.removeBelow upto) v ↔ _
    rw [hset, h.holds, ← Nat.not_lt]
    rfl
  | keepHighest n => exact h.keepHighest n

/-- **The run lemma.** -/
theorem Canonical.run (ops : List Op) : Canonical (ops.foldl Op.meaning ∅) (ops.foldl RangeSet.apply []) := by
  have hall : ∀ (ops : List Op) {S : Set Nat} {r : RangeSet}, Canonical S r →
      Canonical (ops.foldl Op.meaning S) (ops.foldl RangeSet.apply r) := by
    intro ops
    induction ops with
    | nil => exact fun h => h
    | cons op ops ih => exact fun h => ih (h.apply op)
  exact hall ops Canonical.nil

/-! ## §4. The queries. -/

/-- A stretch that is held lies in one range. -/
theorem one_range (h : Above lo r) (hbe : b < e) (hall : ∀ v, b ≤ v → v < e → Holds r v) :
    ∃ x ∈ r, x.1 ≤ b ∧ e ≤ x.2 := by
  induction r generalizing lo with
  | nil => exact absurd (hall b (Nat.le_refl b) hbe) (holds_nil b)
  | cons x xs ih =>
    obtain ⟨-, hx, hxs⟩ := h
    have hgt : ∀ {v}, Holds xs v → x.2 < v := fun hv => hxs.le_of_holds hv
    rcases (holds_cons x xs b).mp (hall b (Nat.le_refl b) hbe) with hb | hb
    · refine ⟨x, .head _, hb.1, ?_⟩
      -- the end of `x` is not held, so the stretch stops before it
      by_contra hlt
      rcases (holds_cons x xs x.2).mp (hall x.2 (by omega) (Nat.lt_of_not_le hlt)) with hend | hend
      · omega
      · exact absurd (hgt hend) (Nat.lt_irrefl _)
    · have hlow := hgt hb
      have htail : ∀ v, b ≤ v → v < e → Holds xs v := by
        intro v hv hve
        refine ((holds_cons x xs v).mp (hall v hv hve)).resolve_left ?_
        omega
      obtain ⟨y, hy, hin⟩ := ih hxs htail
      exact ⟨y, List.mem_cons_of_mem x hy, hin⟩

theorem contains_iff (h : Canonical S r) (hbe : b < e) :
    r.contains b e = true ↔ ∀ v, b ≤ v → v < e → v ∈ S := by
  constructor
  · intro hc v hv hve
    exact (h.holds v).mp (holds_of_contains hc ⟨hv, hve⟩)
  · intro hall
    obtain ⟨x, hx, hin⟩ := one_range h.above hbe fun v hv hve => (h.holds v).mpr (hall v hv hve)
    exact List.any_eq_true.mpr ⟨x, hx, decide_eq_true hin⟩

theorem contiguousFrom_run (h : Canonical S r) (from_ : Nat) :
    from_ ≤ r.contiguousFrom from_ ∧ r.contiguousFrom from_ ∉ S ∧
      ∀ v, from_ ≤ v → v < r.contiguousFrom from_ → v ∈ S := by
  obtain ⟨hle, hend⟩ := contiguousFrom_spec h.above from_
  rw [h.holds] at hend
  exact ⟨hle, hend, fun v hv hlt => (h.holds v).mp (holds_of_contiguousFrom ⟨hv, hlt⟩)⟩

/-- What the loop of `first_gap` finds, or that it finds nothing. -/
theorem firstGapLoop_spec (h : Above lo r) (limit pos : Nat) :
    (∀ g, firstGapLoop limit pos r = some g → IsFirstGap {v | Holds r v} pos limit g) ∧
      (firstGapLoop limit pos r = none → ∀ v, pos ≤ v → v < limit → Holds r v) := by
  induction r generalizing lo pos with
  | nil =>
    unfold firstGapLoop
    split
    · next hlt =>
      refine ⟨fun g hg => ?_, nofun⟩
      cases hg
      exact ⟨le_rfl, hlt, le_rfl, fun v hv hlt => absurd hv (Nat.not_le.mpr hlt),
        fun v _ _ => holds_nil v, .inl rfl⟩
    · exact ⟨fun g hg => absurd hg (by simp), fun _ v hv hvl => by omega⟩
  | cons x xs ih =>
    obtain ⟨-, hx, hxs⟩ := h
    have hgt : ∀ {v}, Holds xs v → x.2 < v := fun hv => hxs.le_of_holds hv
    unfold firstGapLoop
    by_cases hpast : x.2 ≤ pos
    · -- `x` lies below `pos`
      rw [if_pos hpast]
      obtain ⟨hsome, hnone⟩ := ih hxs pos
      refine ⟨fun g hg => ?_, fun hn v hv hvl => (holds_cons x xs v).mpr (.inr (hnone hn v hv hvl))⟩
      have hgap := hsome g hg
      refine ⟨hgap.above, hgap.nonempty, hgap.below, fun v hv hlt => ?_, fun v hv hlt => ?_,
        hgap.maximal.imp_right fun hm => (holds_cons x xs g.2).mpr (.inr hm)⟩
      · exact (holds_cons x xs v).mpr (.inr (hgap.first v hv hlt))
      · rintro hheld
        have hlow := hgap.above
        rcases (holds_cons x xs v).mp hheld with hin | hin
        · omega
        · exact hgap.missing v hv hlt hin
    · rw [if_neg hpast]
      by_cases hgap : x.1 > pos
      · -- the gap before `x`
        rw [if_pos hgap]
        split
        · next hlt =>
          refine ⟨fun g hg => ?_, nofun⟩
          cases hg
          refine ⟨le_rfl, hlt, Nat.min_le_right .., fun v hv hlt => absurd hv (Nat.not_le.mpr hlt),
            fun v hv hvm => ?_, ?_⟩
          · dsimp only at hvm
            rintro hheld
            rcases (holds_cons x xs v).mp hheld with hin | hin
            · omega
            have := hgt hin
            omega
          · dsimp only
            by_cases hxl : limit ≤ x.1
            · exact .inl (Nat.min_eq_right hxl)
            refine .inr ?_
            rw [Nat.min_eq_left (by omega)]
            exact (holds_cons x xs x.1).mpr (.inl ⟨le_rfl, hx⟩)
        · next hnlt => exact ⟨fun g hg => absurd hg (by simp), fun _ v hv hvl => by omega⟩
      · rw [if_neg hgap]
        by_cases hend : x.2 ≥ limit
        · rw [if_pos hend]
          refine ⟨fun g hg => absurd hg (by simp), fun _ v hv hvl => ?_⟩
          exact (holds_cons x xs v).mpr (.inl (by omega))
        · -- `x` reaches past `pos`: the search goes on at its end
          rw [if_neg hend]
          obtain ⟨hsome, hnone⟩ := ih hxs x.2
          refine ⟨fun g hg => ?_, fun hn v hv hvl => ?_⟩
          · have hg' := hsome g hg
            have hlow := hg'.above
            refine ⟨by omega, hg'.nonempty, hg'.below, fun v hv hlt => ?_, fun v hv hlt => ?_,
              hg'.maximal.imp_right fun hm => (holds_cons x xs g.2).mpr (.inr hm)⟩
            · by_cases hin : v < x.2
              · exact (holds_cons x xs v).mpr (.inl (by omega))
              · exact (holds_cons x xs v).mpr (.inr (hg'.first v (Nat.le_of_not_lt hin) hlt))
            · rintro hheld
              rcases (holds_cons x xs v).mp hheld with hin | hin
              · omega
              · exact hg'.missing v hv hlt hin
          · by_cases hin : v < x.2
            · exact (holds_cons x xs v).mpr (.inl (by omega))
            · exact (holds_cons x xs v).mpr (.inr (hnone hn v (Nat.le_of_not_lt hin) hvl))

theorem firstGap_iff (h : Canonical S r) (from_ limit : Nat) :
    (∀ g, r.firstGap from_ limit = some g ↔ IsFirstGap S from_ limit g) ∧
      (r.firstGap from_ limit = none ↔ ∀ v, from_ ≤ v → v < limit → v ∈ S) := by
  obtain ⟨hsome, hnone⟩ := firstGapLoop_spec h.above limit from_
  rw [h.eq] at hsome
  have hfull : r.firstGap from_ limit = none → ∀ v, from_ ≤ v → v < limit → v ∈ S :=
    fun hn v hv hvl => (h.holds v).mp (hnone hn v hv hvl)
  -- a gap and a full stretch exclude each other
  have hapart : ∀ {g}, IsFirstGap S from_ limit g → ¬ ∀ v, from_ ≤ v → v < limit → v ∈ S := by
    intro g hg hall
    exact hg.missing g.1 le_rfl hg.nonempty
      (hall g.1 hg.above (Nat.lt_of_lt_of_le hg.nonempty hg.below))
  refine ⟨fun g => ⟨hsome g, fun hg => ?_⟩, hfull, fun hall => ?_⟩
  · cases hr : r.firstGap from_ limit with
    | none => exact absurd (hfull hr) (hapart hg)
    | some g' => rw [(hsome g' hr).unique hg]
  · cases hr : r.firstGap from_ limit with
    | none => rfl
    | some g => exact absurd hall (hapart (hsome g hr))

/-- **A canonical set.**  After any sequence of calls the ranges are not empty, sorted and never
    adjacent, their points are those of the set the calls mean, and the three queries answer for
    that set. -/
theorem canonical_set (ops : List Op) :
    let r := ops.foldl RangeSet.apply []
    let S := ops.foldl Op.meaning ∅
    Above 0 r ∧ (∀ v, Holds r v ↔ v ∈ S) ∧
      (∀ b e, b < e → (r.contains b e = true ↔ ∀ v, b ≤ v → v < e → v ∈ S)) ∧
      (∀ x, x ≤ r.contiguousFrom x ∧ r.contiguousFrom x ∉ S ∧
        ∀ v, x ≤ v → v < r.contiguousFrom x → v ∈ S) ∧
      ∀ x limit, (∀ g, r.firstGap x limit = some g ↔ IsFirstGap S x limit g) ∧
        (r.firstGap x limit = none ↔ ∀ v, x ≤ v → v < limit → v ∈ S) := by
  have h := Canonical.run ops
  exact ⟨h.above, h.holds, fun b e hbe => contains_iff h hbe, contiguousFrom_run h, firstGap_iff h⟩

/-! ## §5. One set, one list. -/

section Unique

variable {r r' : RangeSet} {lo lo' : Nat}

/-- The first range begins with the least value. -/
theorem Above.begin_le {x x' : Nat × Nat} {xs xs' : RangeSet} (h : Above lo (x :: xs)) (h' : Above lo' (x' :: xs'))
    (hsame : ∀ v, Holds (x :: xs) v ↔ Holds (x' :: xs') v) : x'.1 ≤ x.1 := by
  have hx : Holds (x :: xs) x.1 := (holds_cons x xs x.1).mpr (.inl ⟨le_rfl, h.2.1⟩)
  have hx' : Above x'.1 (x' :: xs') := ⟨le_rfl, h'.2⟩
  exact hx'.le_of_holds ((hsame x.1).mp hx)

/-- and ends before the first value that is missing. -/
theorem Above.end_le {x x' : Nat × Nat} {xs xs' : RangeSet} (h : Above lo (x :: xs)) (hbegin : x.1 = x'.1)
    (hsame : ∀ v, Holds (x :: xs) v ↔ Holds (x' :: xs') v) : x'.2 ≤ x.2 := by
  by_contra hlt
  have hmissing := h.not_holds_end List.mem_cons_self
  rw [hsame, holds_cons] at hmissing
  have hpos := h.2.1
  exact hmissing (.inl (by omega))

/-- **One set, one list of ranges.** -/
theorem Above.unique (h : Above lo r) (h' : Above lo' r') (hsame : ∀ v, Holds r v ↔ Holds r' v) : r = r' := by
  induction r generalizing lo lo' r' with
  | nil =>
    cases r' with
    | nil => rfl
    | cons x' xs' =>
      have hx : Holds (x' :: xs') x'.1 := (holds_cons x' xs' x'.1).mpr (.inl ⟨le_rfl, h'.2.1⟩)
      exact absurd ((hsame x'.1).mpr hx) (holds_nil _)
  | cons x xs ih =>
    cases r' with
    | nil =>
      have hx : Holds (x :: xs) x.1 := (holds_cons x xs x.1).mpr (.inl ⟨le_rfl, h.2.1⟩)
      exact absurd ((hsame x.1).mp hx) (holds_nil _)
    | cons x' xs' =>
      have hbegin : x.1 = x'.1 :=
        Nat.le_antisymm (h'.begin_le h fun v => (hsame v).symm) (h.begin_le h' hsame)
      have hend : x.2 = x'.2 :=
        Nat.le_antisymm (h'.end_le hbegin.symm fun v => (hsame v).symm) (h.end_le hbegin hsame)
      obtain rfl : x = x' := Prod.ext hbegin hend
      congr 1
      refine ih h.2.2 h'.2.2 fun v => ⟨fun hv => ?_, fun hv => ?_⟩
      · have hle := h.2.2.le_of_holds hv
        rcases (holds_cons x xs' v).mp ((hsame v).mp ((holds_cons x xs v).mpr (.inr hv))) with hx | hv'
        · omega
        · exact hv'
      · have hle := h'.2.2.le_of_holds hv
        rcases (holds_cons x xs v).mp ((hsame v).mpr ((holds_cons x xs' v).mpr (.inr hv))) with hx | hv'
        · omega
        · exact hv'

/-- **The ranges are the set's.**  Calls that mean the same set leave the same ranges, in whatever
    order they came and however the values were cut into ranges. -/
theorem ranges_of_meaning (ops ops' : List Op) (hsame : ops.foldl Op.meaning ∅ = ops'.foldl Op.meaning ∅) :
    ops.foldl RangeSet.apply [] = ops'.foldl RangeSet.apply [] := by
  have h := Canonical.run ops
  have h' := Canonical.run ops'
  exact h.above.unique h'.above fun v => by rw [h.holds, h'.holds, hsame]

theorem ranges_of_meaning_swapped : [Op.add 5 9, .addPoint 20, .add 0 5].foldl RangeSet.apply [] =
    [Op.add 0 9, .addPoint 20].foldl RangeSet.apply [] := by
  refine ranges_of_meaning _ _ (Set.ext fun v => ?_)
  simp only [List.foldl_cons, List.foldl_nil, Op.meaning, Set.mem_union, Set.mem_Ico, Set.mem_singleton_iff,
    Set.mem_empty_iff_false, false_or]
  omega

end Unique

end RangeSet

end Agensio.Quic
