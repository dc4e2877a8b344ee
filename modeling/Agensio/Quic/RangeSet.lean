/-
  Agensio.Quic.RangeSet — a set of half-open ranges of offsets.

  Model of `quic/range_set.hpp`: the ranges are kept sorted, disjoint and
  merged, in a vector; here a list in the same order.  `Above` is that
  order, `Holds` the set the ranges stand for.

  Main results: `add_spec`, `remove_spec`, `removeBelow_spec` — each
  operation keeps the order, and what it does to the set.
-/
import Mathlib.Data.List.Basic

namespace Agensio.Quic

/-- `RangeSet`: `[begin, end)` ranges, lowest first. -/
abbrev RangeSet := List (Nat × Nat)

namespace RangeSet

/-! ## §1. The operations. -/

/-- The end of the range that holds `from_`, or `from_` itself when none does. -/
def contiguousFrom (r : RangeSet) (from_ : Nat) : Nat :=
  match r.find? fun x => decide (x.1 ≤ from_ ∧ from_ < x.2) with
  | some x => x.2
  | none => from_

/-- The merge loop of `add`: the range `[lo, hi)` swallows every following range that begins at
    or below its end. -/
def absorb (lo hi : Nat) : RangeSet → RangeSet
  | [] => [(lo, hi)]
  | y :: ys => if y.1 ≤ hi then absorb lo (max hi y.2) ys else (lo, hi) :: y :: ys

/-- Adds `[b, e)`: the ranges that end below `b` stay in front (`lower_bound`); the first of the
    others is extended when it touches, else the new range is inserted before it. -/
def add (r : RangeSet) (b e : Nat) : RangeSet :=
  if b ≥ e then r
  else
    let before := r.takeWhile fun x => decide (x.2 < b)
    match r.dropWhile fun x => decide (x.2 < b) with
    | [] => before ++ [(b, e)]
    | x :: rest =>
      if x.1 > e then before ++ (b, e) :: x :: rest
      else before ++ absorb (min x.1 b) (max x.2 e) rest

/-- Some range holds all of `[b, e)`. -/
def contains (r : RangeSet) (b e : Nat) : Bool :=
  r.any fun x => decide (x.1 ≤ b ∧ e ≤ x.2)

/-- Removes everything below `upto`. -/
def removeBelow (r : RangeSet) (upto : Nat) : RangeSet :=
  match r.dropWhile fun x => decide (x.2 ≤ upto) with
  | [] => []
  | x :: rest => if x.1 < upto then (upto, x.2) :: rest else x :: rest

/-- The loop of `remove`; a range that spans the whole of `[b, e)` is split and the loop ends. -/
def removeLoop (b e : Nat) : RangeSet → RangeSet
  | [] => []
  | x :: xs =>
    if x.2 ≤ b ∨ x.1 ≥ e then x :: removeLoop b e xs
    else if x.1 < b ∧ x.2 > e then (x.1, b) :: (e, x.2) :: xs
    else if x.1 < b then (x.1, b) :: removeLoop b e xs
    else if x.2 > e then (e, x.2) :: removeLoop b e xs
    else removeLoop b e xs

/-- Removes `[b, e)`, splitting a range that spans it. -/
def remove (r : RangeSet) (b e : Nat) : RangeSet :=
  if b ≥ e then r else removeLoop b e r

def addPoint (r : RangeSet) (v : Nat) : RangeSet := r.add v (v + 1)

def containsPoint (r : RangeSet) (v : Nat) : Bool := r.contains v (v + 1)

/-- Keeps the `n` highest ranges. -/
def keepHighest (r : RangeSet) (n : Nat) : RangeSet := r.drop (r.length - n)

/-! ## §2. The set and its order. -/

/-- The values in the ranges. -/
def Holds (r : RangeSet) (v : Nat) : Prop := ∃ x ∈ r, x.1 ≤ v ∧ v < x.2

/-- The ranges are not empty, start at `lo` or above, and leave a gap between each other. -/
def Above : Nat → RangeSet → Prop
  | _, [] => True
  | lo, x :: xs => lo ≤ x.1 ∧ x.1 < x.2 ∧ Above (x.2 + 1) xs

theorem holds_nil (v : Nat) : ¬ Holds [] v := by
  rintro ⟨x, hx, -⟩
  cases hx

theorem holds_cons (x : Nat × Nat) (xs : RangeSet) (v : Nat) :
    Holds (x :: xs) v ↔ (x.1 ≤ v ∧ v < x.2) ∨ Holds xs v := by
  simp [Holds]

variable {r : RangeSet} {lo b e : Nat}

theorem Above.mono {lo' : Nat} (h : Above lo r) (hle : lo' ≤ lo) : Above lo' r := by
  cases r with
  | nil => trivial
  | cons x xs => exact ⟨Nat.le_trans hle h.1, h.2⟩

theorem Above.le_of_holds {v : Nat} (h : Above lo r) (hv : Holds r v) : lo ≤ v := by
  induction r generalizing lo with
  | nil => exact absurd hv (holds_nil v)
  | cons x xs ih =>
    obtain ⟨hlo, hx, hxs⟩ := h
    rcases (holds_cons x xs v).mp hv with hx' | hv
    · omega
    have := ih hxs hv
    omega

theorem Above.lt_of_mem (h : Above lo r) {x : Nat × Nat} (hx : x ∈ r) : x.1 < x.2 := by
  induction r generalizing lo with
  | nil => cases hx
  | cons y ys ih =>
    rcases List.mem_cons.mp hx with rfl | hx
    · exact h.2.1
    · exact ih h.2.2 hx

/-- Every range ends above the lower bound. -/
theorem Above.lt_end (h : Above lo r) {x : Nat × Nat} (hx : x ∈ r) : lo < x.2 := by
  have hlt := h.lt_of_mem hx
  have hlo := h.le_of_holds ⟨x, hx, Nat.le_refl _, hlt⟩
  omega

/-- A range ends where a value is missing. -/
theorem Above.not_holds_end (h : Above lo r) {x : Nat × Nat} (hx : x ∈ r) : ¬Holds r x.2 := by
  induction r generalizing lo with
  | nil => cases hx
  | cons y ys ih =>
    obtain ⟨-, hy, hys⟩ := h
    rw [holds_cons]
    intro hv
    rcases List.mem_cons.mp hx with rfl | hx' <;> rcases hv with hv | hv
    · omega
    · have := hys.le_of_holds hv
      omega
    · have := hys.lt_end hx'
      omega
    · exact ih hys hx' hv

theorem containsPoint_iff (r : RangeSet) (v : Nat) : r.containsPoint v = true ↔ Holds r v := by
  unfold containsPoint contains Holds
  rw [List.any_eq_true]
  constructor
  · rintro ⟨x, hx, hin⟩
    have := of_decide_eq_true hin
    exact ⟨x, hx, by omega⟩
  · rintro ⟨x, hx, hin⟩
    exact ⟨x, hx, decide_eq_true (by omega)⟩

theorem holds_of_contains {v : Nat} (h : r.contains b e = true) (hv : b ≤ v ∧ v < e) : Holds r v := by
  unfold contains at h
  obtain ⟨x, hx, hin⟩ := List.any_eq_true.mp h
  have := of_decide_eq_true hin
  exact ⟨x, hx, by omega⟩

theorem holds_of_contiguousFrom {r : RangeSet} {from_ v : Nat}
    (hv : from_ ≤ v ∧ v < r.contiguousFrom from_) : Holds r v := by
  unfold contiguousFrom at hv
  cases hf : r.find? fun x => decide (x.1 ≤ from_ ∧ from_ < x.2) with
  | none =>
    rw [hf] at hv
    dsimp only at hv
    omega
  | some x =>
    rw [hf] at hv
    dsimp only at hv
    have hin : x.1 ≤ from_ ∧ from_ < x.2 := by simpa using List.find?_some hf
    exact ⟨x, List.mem_of_find?_eq_some hf, by omega⟩

/-- The values from `v` up to the first missing one. -/
theorem contiguousFrom_spec (h : Above lo r) (v : Nat) :
    v ≤ r.contiguousFrom v ∧ ¬Holds r (r.contiguousFrom v) := by
  unfold contiguousFrom
  cases hf : r.find? fun x => decide (x.1 ≤ v ∧ v < x.2) with
  | some x =>
    have hin : x.1 ≤ v ∧ v < x.2 := by simpa using List.find?_some hf
    exact ⟨Nat.le_of_lt hin.2, h.not_holds_end (List.mem_of_find?_eq_some hf)⟩
  | none =>
    refine ⟨Nat.le_refl _, ?_⟩
    rintro ⟨x, hx, hin⟩
    exact absurd (List.find?_eq_none.mp hf x hx) (by simpa using hin)

/-! ## §3. What the operations do to it. -/

/-- The merge loop: one induction for the order and the set. -/
theorem absorb_spec {lo hi k : Nat} {r : RangeSet} (hlt : lo < hi) (hk : lo ≤ k) (h : Above k r) :
    Above lo (absorb lo hi r) ∧ ∀ v, Holds (absorb lo hi r) v ↔ (lo ≤ v ∧ v < hi) ∨ Holds r v := by
  induction r generalizing hi k with
  | nil =>
    refine ⟨⟨Nat.le_refl _, hlt, trivial⟩, ?_⟩
    intro v
    exact holds_cons (lo, hi) [] v
  | cons y ys ih =>
    obtain ⟨hky, hy, hys⟩ := h
    unfold absorb
    by_cases hmerge : y.1 ≤ hi
    · rw [if_pos hmerge]
      obtain ⟨habove, hset⟩ := ih (show lo < max hi y.2 by omega) (show lo ≤ y.2 + 1 by omega) hys
      refine ⟨habove, ?_⟩
      intro v
      rw [hset, holds_cons]
      constructor
      · rintro (hv | hv)
        · by_cases hv' : v < hi
          · exact .inl ⟨hv.1, hv'⟩
          · exact .inr (.inl (by omega))
        · exact .inr (.inr hv)
      · rintro (hv | hv | hv)
        · exact .inl (by omega)
        · exact .inl (by omega)
        · exact .inr hv
    · rw [if_neg hmerge]
      refine ⟨⟨Nat.le_refl _, hlt, by dsimp only; omega, hy, hys⟩, ?_⟩
      intro v
      exact holds_cons (lo, hi) (y :: ys) v

/-- `add` range by range. -/
theorem add_cons (hbe : b < e) (x : Nat × Nat) (xs : RangeSet) : add (x :: xs) b e =
      if x.2 < b then x :: add xs b e else if x.1 > e then (b, e) :: x :: xs
      else absorb (min x.1 b) (max x.2 e) xs := by
  unfold add
  simp only [if_neg (show ¬ b ≥ e by omega)]
  by_cases hx : x.2 < b
  · rw [if_pos hx, List.takeWhile_cons_of_pos (by simpa using hx),
      List.dropWhile_cons_of_pos (by simpa using hx)]
    cases List.dropWhile (fun x => decide (x.2 < b)) xs with
    | nil => rfl
    | cons y ys =>
      dsimp only
      split <;> rfl
  · rw [if_neg hx, List.takeWhile_cons_of_neg (by simpa using hx),
      List.dropWhile_cons_of_neg (by simpa using hx)]
    rfl

theorem add_spec {lo b e : Nat} {r : RangeSet} (hbe : b < e) (h : Above lo r) :
    Above (min lo b) (r.add b e) ∧ ∀ v, Holds (r.add b e) v ↔ Holds r v ∨ (b ≤ v ∧ v < e) := by
  induction r generalizing lo with
  | nil =>
    have hadd : add [] b e = [(b, e)] := by
      unfold add
      rw [if_neg (by omega)]
      rfl
    rw [hadd]
    refine ⟨⟨by dsimp only; omega, hbe, trivial⟩, ?_⟩
    intro v
    rw [holds_cons]
    exact or_comm
  | cons x xs ih =>
    obtain ⟨hlo, hx, hxs⟩ := h
    rw [add_cons hbe]
    by_cases hlow : x.2 < b
    · rw [if_pos hlow]
      obtain ⟨habove, hset⟩ := ih hxs
      refine ⟨⟨by omega, hx, habove.mono (by omega)⟩, ?_⟩
      intro v
      rw [holds_cons, holds_cons, hset, or_assoc]
    · rw [if_neg hlow]
      by_cases hhigh : x.1 > e
      · rw [if_pos hhigh]
        refine ⟨⟨by dsimp only; omega, hbe, by dsimp only; omega, hx, hxs⟩, ?_⟩
        intro v
        rw [holds_cons]
        exact or_comm
      · rw [if_neg hhigh]
        obtain ⟨habove, hset⟩ := @absorb_spec (min x.1 b) (max x.2 e) (x.2 + 1) xs (by omega)
          (by omega) hxs
        refine ⟨habove.mono (by omega), ?_⟩
        intro v
        rw [hset, holds_cons]
        constructor
        · rintro (hv | hv)
          · by_cases hv' : b ≤ v ∧ v < e
            · exact .inr hv'
            · exact .inl (.inl (by omega))
          · exact .inl (.inr hv)
        · rintro ((hv | hv) | hv)
          · exact .inl (by omega)
          · exact .inr hv
          · exact .inl (by omega)

/-- Adding `len` values from `offset` on; adding none changes nothing. -/
theorem add_len_spec (h : Above 0 r) (offset len : Nat) : Above 0 (r.add offset (offset + len)) ∧
      ∀ v, Holds (r.add offset (offset + len)) v ↔ Holds r v ∨ (offset ≤ v ∧ v < offset + len) := by
  by_cases hl : len = 0
  · have hsame : r.add offset (offset + len) = r := by
      unfold add
      rw [if_pos (by omega)]
    rw [hsame]
    refine ⟨h, fun v => ?_⟩
    exact ⟨.inl, fun hv => hv.resolve_right (by omega)⟩
  · obtain ⟨habove, hset⟩ := @add_spec 0 offset (offset + len) r (by omega) h
    exact ⟨habove.mono (Nat.zero_le _), hset⟩

theorem removeLoop_spec (hbe : 0 < b → b < e) (h : Above lo r) : Above lo (removeLoop b e r) ∧
      ∀ v, Holds (removeLoop b e r) v ↔ Holds r v ∧ ¬ (b ≤ v ∧ v < e) := by
  induction r generalizing lo with
  | nil =>
    refine ⟨trivial, ?_⟩
    intro v
    exact ⟨fun hv => absurd hv (holds_nil v), fun hv => absurd hv.1 (holds_nil v)⟩
  | cons x xs ih =>
    obtain ⟨hlo, hx, hxs⟩ := h
    obtain ⟨habove, hset⟩ := ih hxs
    -- the ranges behind `x` lie above its end
    have hgt : ∀ {v}, Holds xs v → x.2 < v := fun hv => hxs.le_of_holds hv
    unfold removeLoop
    by_cases hout : x.2 ≤ b ∨ x.1 ≥ e
    · rw [if_pos hout]
      refine ⟨⟨hlo, hx, habove⟩, ?_⟩
      intro v
      rw [holds_cons, holds_cons, hset]
      constructor
      · rintro (hv | hv)
        · exact ⟨.inl hv, by omega⟩
        · exact ⟨.inr hv.1, hv.2⟩
      · rintro ⟨hv | hv, hnot⟩
        · exact .inl hv
        · exact .inr ⟨hv, hnot⟩
    · rw [if_neg hout]
      by_cases hsplit : x.1 < b ∧ x.2 > e
      · rw [if_pos hsplit]
        refine ⟨⟨hlo, hsplit.1, by dsimp only; omega, by dsimp only; omega, hxs⟩, ?_⟩
        intro v
        rw [holds_cons, holds_cons, holds_cons]
        constructor
        · rintro (hv | hv | hv)
          · exact ⟨.inl (by omega), by omega⟩
          · exact ⟨.inl (by omega), by omega⟩
          · have := hgt hv
            exact ⟨.inr hv, by omega⟩
        · rintro ⟨hv | hv, hnot⟩
          · by_cases hvb : v < b
            · exact .inl (by omega)
            · exact .inr (.inl (by omega))
          · exact .inr (.inr hv)
      · rw [if_neg hsplit]
        by_cases hleft : x.1 < b
        · rw [if_pos hleft]
          refine ⟨⟨hlo, hleft, habove.mono (by dsimp only; omega)⟩, ?_⟩
          intro v
          rw [holds_cons, holds_cons, hset]
          constructor
          · rintro (hv | hv)
            · exact ⟨.inl (by omega), by omega⟩
            · exact ⟨.inr hv.1, hv.2⟩
          · rintro ⟨hv | hv, hnot⟩
            · exact .inl (by omega)
            · exact .inr ⟨hv, hnot⟩
        · rw [if_neg hleft]
          by_cases hright : x.2 > e
          · rw [if_pos hright]
            refine ⟨⟨by dsimp only; omega, hright, habove⟩, ?_⟩
            intro v
            rw [holds_cons, holds_cons, hset]
            constructor
            · rintro (hv | hv)
              · exact ⟨.inl (by omega), by omega⟩
              · exact ⟨.inr hv.1, hv.2⟩
            · rintro ⟨hv | hv, hnot⟩
              · exact .inl (by omega)
              · exact .inr ⟨hv, hnot⟩
          · rw [if_neg hright]
            refine ⟨habove.mono (by omega), ?_⟩
            intro v
            rw [holds_cons, hset]
            constructor
            · rintro hv
              exact ⟨.inr hv.1, hv.2⟩
            · rintro ⟨hv | hv, hnot⟩
              · omega
              · exact ⟨hv, hnot⟩

theorem remove_spec {lo b e : Nat} {r : RangeSet} (h : Above lo r) :
    Above lo (r.remove b e) ∧ ∀ v, Holds (r.remove b e) v ↔ Holds r v ∧ ¬ (b ≤ v ∧ v < e) := by
  unfold remove
  by_cases hbe : b ≥ e
  · rw [if_pos hbe]
    refine ⟨h, ?_⟩
    intro v
    exact ⟨fun hv => ⟨hv, by omega⟩, fun hv => hv.1⟩
  · rw [if_neg hbe]
    exact removeLoop_spec (fun _ => by omega) h

/-- Ranges above `upto` lose nothing below it. -/
theorem removeLoop_above {upto : Nat} (h : Above upto r) : removeLoop 0 upto r = r := by
  induction r with
  | nil => rfl
  | cons x xs ih =>
    obtain ⟨hlo, hx, hxs⟩ := h
    unfold removeLoop
    rw [if_pos (.inr hlo), ih (hxs.mono (by omega))]

/-- `remove_below` is `remove` from zero on. -/
theorem removeBelow_eq {upto : Nat} (h : Above lo r) : r.removeBelow upto = removeLoop 0 upto r := by
  induction r generalizing lo with
  | nil => rfl
  | cons x xs ih =>
    obtain ⟨-, hx, hxs⟩ := h
    unfold removeBelow removeLoop
    by_cases hlow : x.2 ≤ upto
    · rw [List.dropWhile_cons_of_pos (by simpa using hlow), if_neg (by omega), if_neg (by omega),
        if_neg (by omega), if_neg (by omega)]
      exact ih hxs
    · rw [List.dropWhile_cons_of_neg (by simpa using hlow)]
      dsimp only
      by_cases hcut : x.1 < upto
      · rw [if_pos hcut, if_neg (by omega), if_neg (by omega), if_neg (by omega), if_pos (by omega),
          removeLoop_above (hxs.mono (by omega))]
      · rw [if_neg hcut, if_pos (by omega), removeLoop_above (hxs.mono (by omega))]

theorem removeBelow_spec {lo upto : Nat} {r : RangeSet} (h : Above lo r) :
    Above lo (r.removeBelow upto) ∧ ∀ v, Holds (r.removeBelow upto) v ↔ Holds r v ∧ upto ≤ v := by
  have hset : ∀ v, ¬ (0 ≤ v ∧ v < upto) ↔ upto ≤ v := by omega
  rw [removeBelow_eq h]
  simpa only [hset] using removeLoop_spec (e := upto) (fun h0 => absurd h0 (Nat.lt_irrefl 0)) h

end RangeSet

end Agensio.Quic
