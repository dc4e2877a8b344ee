/-
  Agensio.Lib.Splitting — lists cut at a separator.

  `List.splitOn` cuts a list at every separator; `[sep].intercalate` puts
  the pieces together again.  What is here beside the library's lemmas
  says that no piece has a separator in it, and how the pieces look when
  the list grows at its front.
-/
import Mathlib.Data.List.TakeWhile

namespace Agensio.Lib

variable {α : Type} [BEq α] [LawfulBEq α] {a x : α} {xs : List α}

theorem splitOn_cons_self (a : α) (xs : List α) : (a :: xs).splitOn a = [] :: xs.splitOn a := by
  rw [List.splitOn_cons_eq_if_modifyHead, beq_self_eq_true, if_pos rfl]

/-- A byte that is no separator goes to the first piece. -/
theorem splitOn_cons_ne (h : x ≠ a) :
    ∃ piece pieces, xs.splitOn a = piece :: pieces ∧ (x :: xs).splitOn a = (x :: piece) :: pieces := by
  rw [List.splitOn_cons_eq_if_modifyHead, if_neg (by simpa using h)]
  cases hs : xs.splitOn a with
  | nil => exact absurd hs (List.splitOn_ne_nil a xs)
  | cons piece pieces => exact ⟨piece, pieces, rfl, rfl⟩

/-- No piece has a separator in it. -/
theorem not_mem_of_mem_splitOn : ∀ {xs : List α} {piece : List α}, piece ∈ xs.splitOn a → a ∉ piece
  | [], piece, h => by
    rw [List.splitOn_nil, List.mem_singleton] at h
    rw [h]
    exact List.not_mem_nil
  | x :: xs, piece, h => by
    by_cases hx : x = a
    · rw [hx, splitOn_cons_self] at h
      rcases List.mem_cons.mp h with rfl | h
      · exact List.not_mem_nil
      · exact not_mem_of_mem_splitOn h
    · obtain ⟨first, pieces, hs, hc⟩ := @splitOn_cons_ne _ _ _ _ _ xs hx
      rw [hc] at h
      rcases List.mem_cons.mp h with rfl | h
      · rintro hmem
        rcases List.mem_cons.mp hmem with heq | hmem
        · exact hx heq.symm
        · exact not_mem_of_mem_splitOn (by rw [hs]; exact .head _) hmem
      · exact not_mem_of_mem_splitOn (by rw [hs]; exact .tail _ h)

/-- Up to the first separator. -/
theorem takeWhile_ne_append {α : Type} [DecidableEq α] {a : α} {pre : List α} (h : a ∉ pre) (post : List α) :
    (pre ++ a :: post).takeWhile (fun x => decide (x ≠ a)) = pre := by
  have hall : ∀ x ∈ pre, decide (x ≠ a) = true := by
    intro x hx
    refine decide_eq_true fun hxa => h ?_
    rw [← hxa]
    exact hx
  rw [List.takeWhile_append_of_pos hall]
  simp

/-- A list with a separator in it is what stands before the first one, and what follows. -/
theorem eq_takeWhile_ne {α : Type} [DecidableEq α] {a : α} {xs : List α} (h : a ∈ xs) :
    xs = xs.takeWhile (fun x => decide (x ≠ a)) ++ a :: xs.drop ((xs.takeWhile fun x => decide (x ≠ a)).length + 1) := by
  obtain ⟨pre, post, rfl, hpre⟩ := List.eq_append_cons_of_mem h
  rw [takeWhile_ne_append hpre, ← List.drop_drop, List.drop_left]
  rfl

theorem not_mem_takeWhile_ne {α : Type} [DecidableEq α] (a : α) (xs : List α) :
    a ∉ xs.takeWhile fun x => decide (x ≠ a) := by
  intro h
  have hp := List.mem_takeWhile_imp h
  simp at hp

end Agensio.Lib
