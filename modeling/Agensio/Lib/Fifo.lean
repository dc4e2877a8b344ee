/-
  Agensio.Lib.Fifo — first-in first-out stores with a bound on their weight.

  Items are listed NEWEST FIRST.  A store of capacity `cap` holds the
  longest run of newest items that weighs at most `cap` (`fit`): what is
  left when the oldest ones are dropped until the rest fits.
-/
import Mathlib.Algebra.GroupWithZero.Nat
import Mathlib.Data.List.Basic

namespace Agensio.Lib

variable {α : Type} (w : α → Nat)

/-! ## §1. Weights. -/

def weight (l : List α) : Nat := (l.map w).sum

@[simp] theorem weight_nil : weight w [] = 0 := rfl

@[simp] theorem weight_cons (x : α) (l : List α) : weight w (x :: l) = w x + weight w l := by
  simp [weight]

@[simp] theorem weight_append (l l' : List α) : weight w (l ++ l') = weight w l + weight w l' := by
  simp [weight]

theorem weight_le_of_prefix {l l' : List α} (h : l <+: l') : weight w l ≤ weight w l' := by
  obtain ⟨r, rfl⟩ := h
  rw [weight_append]
  omega

/-- Items that weigh at least `m` each are few. -/
theorem length_mul_le_weight {m : Nat} (hm : ∀ x, m ≤ w x) (l : List α) : l.length * m ≤ weight w l := by
  induction l with
  | nil => simp
  | cons x l ih =>
    have hx := hm x
    rw [List.length_cons, weight_cons, Nat.succ_mul]
    omega

/-! ## §2. What fits. -/

/-- The newest items, as many as weigh at most `cap` together. -/
def fit : Nat → List α → List α
  | _, [] => []
  | cap, x :: l => if w x ≤ cap then x :: fit (cap - w x) l else []

variable {cap : Nat}

theorem fit_cons_of_le {x : α} (h : w x ≤ cap) (l : List α) :
    fit w cap (x :: l) = x :: fit w (cap - w x) l := if_pos h

theorem fit_cons_of_lt {x : α} (h : cap < w x) (l : List α) :
    fit w cap (x :: l) = [] := if_neg (Nat.not_le.mpr h)

theorem fit_prefix (cap : Nat) (l : List α) : fit w cap l <+: l := by
  induction l generalizing cap with
  | nil => exact List.nil_prefix
  | cons x l ih =>
    by_cases hx : w x ≤ cap
    · rw [fit_cons_of_le w hx]
      exact List.cons_prefix_cons.mpr ⟨rfl, ih _⟩
    rw [fit_cons_of_lt w (Nat.not_le.mp hx)]
    exact List.nil_prefix

theorem weight_fit_le (cap : Nat) (l : List α) : weight w (fit w cap l) ≤ cap := by
  induction l generalizing cap with
  | nil => exact Nat.zero_le _
  | cons x l ih =>
    by_cases hx : w x ≤ cap
    · have := ih (cap - w x)
      rw [fit_cons_of_le w hx, weight_cons]
      omega
    · rw [fit_cons_of_lt w (Nat.not_le.mp hx)]
      exact Nat.zero_le _

theorem fit_eq_self {l : List α} (h : weight w l ≤ cap) : fit w cap l = l := by
  induction l generalizing cap with
  | nil => rfl
  | cons x l ih =>
    rw [weight_cons] at h
    rw [fit_cons_of_le w (by omega), ih (by omega)]

/-- What does not fit is cut from the old end. -/
theorem fit_dropLast {l : List α} (h : cap < weight w l) : fit w cap l.dropLast = fit w cap l := by
  induction l generalizing cap with
  | nil => rfl
  | cons x l ih =>
    by_cases hx : w x ≤ cap
    · cases l with
      | nil =>
        rw [weight_cons, weight_nil] at h
        omega
      | cons y l =>
        rw [weight_cons] at h
        rw [List.dropLast_cons_cons, fit_cons_of_le w hx, fit_cons_of_le w hx, ih (by omega)]
    · rw [fit_cons_of_lt w (by omega)]
      cases l with
      | nil => rfl
      | cons y l => rw [List.dropLast_cons_cons, fit_cons_of_lt w (by omega)]

end Agensio.Lib
