/-
  Agensio.Lib.Assoc — association lists with distinct keys.

  Records that belong to numbered things (streams, sessions) are kept as
  a list of pairs.  `lookup_split` opens the list at a key, and the two
  updates are given by what they do to it there.
-/
import Mathlib.Algebra.GroupWithZero.Nat
import Mathlib.Data.List.Basic

namespace Agensio.Lib

variable {α : Type}

/-- The record of `k` replaced. -/
def setAt (l : List (Nat × α)) (k : Nat) (v : α) : List (Nat × α) :=
  l.map fun p => if p.1 = k then (k, v) else p

/-- The record of `k` removed. -/
def dropAt (l : List (Nat × α)) (k : Nat) : List (Nat × α) := l.filter fun p => p.1 ≠ k

variable {k : Nat}

theorem setAt_eq_self {l : List (Nat × α)} (v : α) (h : k ∉ l.map Prod.fst) : setAt l k v = l := by
  apply (List.map_congr_left _).trans (List.map_id _)
  intro p hp
  rw [if_neg]
  · rfl
  · rintro rfl
    exact h (List.mem_map_of_mem hp)

theorem dropAt_eq_self {l : List (Nat × α)} (h : k ∉ l.map Prod.fst) : dropAt l k = l := by
  apply List.filter_eq_self.mpr
  intro p hp
  apply decide_eq_true
  rintro rfl
  exact h (List.mem_map_of_mem hp)

theorem mem_dropAt {l : List (Nat × α)} {p : Nat × α} : p ∈ dropAt l k ↔ p ∈ l ∧ p.1 ≠ k := by
  unfold dropAt
  rw [List.mem_filter, decide_eq_true_eq]

theorem mem_of_lookup {l : List (Nat × α)} {v : α} (h : l.lookup k = some v) : (k, v) ∈ l := by
  obtain ⟨pre, post, rfl, -⟩ := List.lookup_eq_some_iff.mp h
  simp

/-- The list at a key that is there, and the updates at it. -/
theorem lookup_split {l : List (Nat × α)} {v : α} (hn : (l.map Prod.fst).Nodup) (h : l.lookup k = some v) :
    ∃ pre post, l = pre ++ (k, v) :: post ∧ (∀ v', setAt l k v' = pre ++ (k, v') :: post) ∧
      dropAt l k = pre ++ post := by
  obtain ⟨pre, post, rfl, -⟩ := List.lookup_eq_some_iff.mp h
  rw [List.map_append, List.map_cons, List.nodup_append] at hn
  obtain ⟨-, hpost, hdisj⟩ := hn
  have hk : k ∉ post.map Prod.fst := (List.nodup_cons.mp hpost).1
  have hk' : k ∉ pre.map Prod.fst := fun hmem => hdisj k hmem k (.head _) rfl
  refine ⟨pre, post, rfl, ?_, ?_⟩
  · intro v'
    have hpre := setAt_eq_self v' hk'
    have hrest := setAt_eq_self v' hk
    unfold setAt at hpre hrest ⊢
    rw [List.map_append, List.map_cons, hpre, hrest, if_pos rfl]
  · have hpre := dropAt_eq_self hk'
    have hrest := dropAt_eq_self hk
    unfold dropAt at hpre hrest ⊢
    rw [List.filter_append, List.filter_cons, hpre, hrest, if_neg (by simp)]

theorem keys_setAt (l : List (Nat × α)) (k : Nat) (v : α) : (setAt l k v).map Prod.fst = l.map Prod.fst := by
  unfold setAt
  rw [List.map_map]
  apply List.map_congr_left
  intro p _
  show (if p.1 = k then (k, v) else p).1 = p.1
  split
  · next h => exact h.symm
  · rfl

theorem keys_dropAt_nodup {l : List (Nat × α)} (h : (l.map Prod.fst).Nodup) (k : Nat) :
    ((dropAt l k).map Prod.fst).Nodup :=
  h.sublist (List.filter_sublist.map Prod.fst)

theorem lookup_setAt_self {l : List (Nat × α)} {v : α} (h : l.lookup k = some v) (v' : α) :
    (setAt l k v').lookup k = some v' := by
  obtain ⟨pre, post, rfl, hpre⟩ := List.lookup_eq_some_iff.mp h
  unfold setAt
  rw [List.map_append, List.map_cons, if_pos rfl]
  apply List.lookup_eq_some_iff.mpr
  refine ⟨_, _, rfl, ?_⟩
  intro p hp
  obtain ⟨q, hq, rfl⟩ := List.mem_map.mp hp
  have hne := hpre q hq
  rw [if_neg]
  · exact hne
  · rintro rfl
    simp at hne

theorem lookup_setAt_ne {l : List (Nat × α)} {k' : Nat} (h : k' ≠ k) (v : α) :
    (setAt l k v).lookup k' = l.lookup k' := by
  induction l with
  | nil => rfl
  | cons p l ih =>
    unfold setAt at ih ⊢
    obtain ⟨i, a⟩ := p
    rw [List.map_cons]
    by_cases hi : i = k
    · rw [if_pos hi, List.lookup_cons, List.lookup_cons, ih, hi, beq_false_of_ne h]
    · rw [if_neg hi, List.lookup_cons, List.lookup_cons, ih]

theorem setAt_setAt (l : List (Nat × α)) (k : Nat) (v v' : α) : setAt (setAt l k v) k v' = setAt l k v' := by
  unfold setAt
  rw [List.map_map]
  apply List.map_congr_left
  intro p _
  show (if (if p.1 = k then (k, v) else p).1 = k then (k, v') else if p.1 = k then (k, v) else p) = _
  by_cases hp : p.1 = k
  · rw [if_pos hp, if_pos rfl, if_pos hp]
  · rw [if_neg hp, if_neg hp]

/-- The record that is there already. -/
theorem setAt_self {l : List (Nat × α)} {v : α} (hn : (l.map Prod.fst).Nodup) (h : l.lookup k = some v) :
    setAt l k v = l := by
  obtain ⟨pre, post, hl, hset, -⟩ := lookup_split hn h
  rw [hset, ← hl]

theorem lookup_dropAt_self (l : List (Nat × α)) (k : Nat) : (dropAt l k).lookup k = none := by
  rw [List.lookup_eq_none_iff]
  intro p hp
  simpa using Ne.symm (mem_dropAt.mp hp).2

theorem lookup_dropAt_ne {l : List (Nat × α)} {k' : Nat} (h : k' ≠ k) : (dropAt l k).lookup k' = l.lookup k' := by
  induction l with
  | nil => rfl
  | cons p l ih =>
    unfold dropAt at ih ⊢
    obtain ⟨i, a⟩ := p
    by_cases hi : i = k
    · rw [List.filter_cons, if_neg (by simpa using hi), ih, List.lookup_cons, hi, beq_false_of_ne h]
    · rw [List.filter_cons, if_pos (by simpa using hi), List.lookup_cons, List.lookup_cons, ih]

/-! ## Totals over the records. -/

/-- The sum of `f` over the records. -/
def total (f : α → Nat) (l : List (Nat × α)) : Nat := (l.map fun p => f p.2).sum

theorem total_append (f : α → Nat) (l l' : List (Nat × α)) : total f (l ++ l') = total f l + total f l' := by
  unfold total
  rw [List.map_append, List.sum_append]

theorem total_cons (f : α → Nat) (k : Nat) (v : α) (l : List (Nat × α)) :
    total f ((k, v) :: l) = f v + total f l := rfl

/-- A record replaced: the total changes by the difference. -/
theorem total_setAt (f : α → Nat) {l : List (Nat × α)} {v : α}
    (hn : (l.map Prod.fst).Nodup) (h : l.lookup k = some v) (v' : α) :
    total f (setAt l k v') + f v = total f l + f v' := by
  obtain ⟨pre, post, rfl, hset, -⟩ := lookup_split hn h
  rw [hset, total_append, total_append, total_cons, total_cons]
  omega

/-- A record removed. -/
theorem total_dropAt (f : α → Nat) {l : List (Nat × α)} {v : α}
    (hn : (l.map Prod.fst).Nodup) (h : l.lookup k = some v) : total f (dropAt l k) + f v = total f l := by
  obtain ⟨pre, post, rfl, -, hdrop⟩ := lookup_split hn h
  rw [hdrop, total_append, total_append, total_cons]
  omega

theorem total_eq_zero (f : α → Nat) {l : List (Nat × α)} (h : ∀ p ∈ l, f p.2 = 0) : total f l = 0 := by
  induction l with
  | nil => rfl
  | cons p l ih =>
    obtain ⟨k, v⟩ := p
    have hv : f v = 0 := h (k, v) (.head _)
    rw [total_cons, hv, ih fun q hq => h q (.tail _ hq)]

end Agensio.Lib
