/-
  Agensio.Lib.Watermark — what a log of ranges amounts to, key by key.

  An entry of the log marks the range `[lo, hi)` under a key.  Per key,
  `covered` is the set of positions in some range and `top` the highest
  end seen; `total` adds the tops of all keys.

  A position is covered once however often it is marked, and an entry
  adds to `total` only what it reaches beyond the old top.

  Main results: `covered_append_single`, `total_append_single`.
-/
import Mathlib.Algebra.BigOperators.Group.Finset.Basic
import Mathlib.Order.Interval.Finset.Nat

namespace Agensio.Lib.Watermark

universe u

structure Mark (κ : Type u) where
  key : κ
  lo : Nat
  hi : Nat
  deriving DecidableEq

variable {κ : Type u} [DecidableEq κ]

/-! ## §1. Covered positions and tops. -/

def covered : List (Mark κ) → κ → Finset Nat
  | [], _ => ∅
  | m :: log, k => (if m.key = k then Finset.Ico m.lo m.hi else ∅) ∪ covered log k

def top : List (Mark κ) → κ → Nat
  | [], _ => 0
  | m :: log, k => max (if m.key = k then m.hi else 0) (top log k)

/-- The keys that were marked. -/
def keys (log : List (Mark κ)) : Finset κ := (log.map Mark.key).toFinset

def total (log : List (Mark κ)) : Nat := ∑ k ∈ keys log, top log k

theorem covered_append (log log' : List (Mark κ)) (k : κ) :
    covered (log ++ log') k = covered log k ∪ covered log' k := by
  induction log with
  | nil => simp [covered]
  | cons m log ih => simp [covered, ih, Finset.union_assoc]

theorem top_append (log log' : List (Mark κ)) (k : κ) :
    top (log ++ log') k = max (top log k) (top log' k) := by
  induction log with
  | nil => simp [top]
  | cons m log ih => simp [top, ih, max_assoc]

theorem covered_append_single (log : List (Mark κ)) (m : Mark κ) (k : κ) :
    covered (log ++ [m]) k = covered log k ∪ (if m.key = k then Finset.Ico m.lo m.hi else ∅) := by
  simp [covered_append, covered]

theorem top_append_single (log : List (Mark κ)) (m : Mark κ) (k : κ) :
    top (log ++ [m]) k = max (top log k) (if m.key = k then m.hi else 0) := by
  simp [top_append, top]

theorem keys_append_single (log : List (Mark κ)) (m : Mark κ) :
    keys (log ++ [m]) = insert m.key (keys log) := by
  ext k
  simp [keys]

/-- A key that was never marked covers nothing. -/
theorem covered_of_not_mem {log : List (Mark κ)} {k : κ} (h : ∀ m ∈ log, m.key ≠ k) : covered log k = ∅ := by
  induction log with
  | nil => rfl
  | cons m log ih =>
    have hrest := ih fun x hx => h x (List.mem_cons_of_mem m hx)
    simp [covered, hrest, h m (.head _)]

theorem top_of_not_mem {log : List (Mark κ)} {k : κ} (h : ∀ m ∈ log, m.key ≠ k) : top log k = 0 := by
  induction log with
  | nil => rfl
  | cons m log ih =>
    have hrest := ih fun x hx => h x (List.mem_cons_of_mem m hx)
    simp [top, hrest, h m (.head _)]

/-! ## §2. The sum of the tops. -/

theorem top_of_not_key {log : List (Mark κ)} {k : κ} (h : k ∉ keys log) : top log k = 0 := by
  apply top_of_not_mem
  intro m hm he
  exact h (List.mem_toFinset.mpr (List.mem_map.mpr ⟨m, hm, he⟩))

/-- **One more mark** adds what it reaches beyond the top of its key. -/
theorem total_append_single (log : List (Mark κ)) (m : Mark κ) :
    total (log ++ [m]) + top log m.key = total log + max (top log m.key) m.hi := by
  have hold : total log = ∑ k ∈ insert m.key (keys log), top log k := by
    unfold total
    by_cases hk : m.key ∈ keys log
    · rw [Finset.insert_eq_of_mem hk]
    · rw [Finset.sum_insert hk, top_of_not_key hk, Nat.zero_add]
  -- the other keys keep their tops
  have hsplit : ∀ f : κ → Nat, ∑ k ∈ insert m.key (keys log), f k =
      f m.key + ∑ k ∈ (keys log).erase m.key, f k := by
    intro f
    have hadd := Finset.add_sum_erase (insert m.key (keys log)) f (Finset.mem_insert_self ..)
    rw [← hadd, Finset.erase_insert_eq_erase]
  have hrest : ∑ k ∈ (keys log).erase m.key, top (log ++ [m]) k =
      ∑ k ∈ (keys log).erase m.key, top log k := by
    apply Finset.sum_congr rfl
    intro k hk
    have hne : m.key ≠ k := fun he => (Finset.mem_erase.mp hk).1 he.symm
    rw [top_append_single, if_neg hne, Nat.max_zero]
  have hself : top (log ++ [m]) m.key = max (top log m.key) m.hi := by
    rw [top_append_single, if_pos rfl]
  rw [hold]
  unfold total
  rw [keys_append_single, hsplit, hsplit, hrest, hself]
  omega

end Agensio.Lib.Watermark
