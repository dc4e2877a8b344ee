/-
  Agensio.Lib.Cursor — reading a buffer from a position on.

  A reader is given a buffer and a position and moves the position on, or
  fails.  `Ensures` bounds what any input can make it do: the position
  goes forward, inside the buffer, and what is read stands where it was
  read.  `Yields` says what it reads where something was written.  Both
  compose along `>>=`, so that a format is checked piece by piece.
-/
import Mathlib.Data.List.Basic

namespace Agensio.Lib

/-- Reads at a position of a buffer: the value and the position after it. -/
def Reader (β α : Type) : Type := List β → Nat → Option (α × Nat)

variable {β α γ : Type}

namespace Reader

def andThen (r : Reader β α) (g : α → Reader β γ) : Reader β γ := fun buf pos =>
  match r buf pos with
  | none => none
  | some (a, pos') => g a buf pos'

instance : Monad (Reader β) where
  pure a := fun _ pos => some (a, pos)
  bind := andThen

def fail : Reader β α := fun _ _ => none

/-- The number of symbols left. -/
def left : Reader β Nat := fun buf pos => some (buf.length - pos, pos)

/-- The next symbol. -/
def next : Reader β β := fun buf pos =>
  match buf.drop pos with
  | [] => none
  | b :: _ => some (b, pos + 1)

/-- Skips `n` symbols; where they start. -/
def span (n : Nat) : Reader β Nat := fun buf pos =>
  if n > buf.length - pos then none else some (pos, pos + n)

/-- The symbols of a span. -/
def text (start n : Nat) : Reader β (List β) := fun buf pos => some ((buf.drop start).take n, pos)

/-- Skips the symbols that satisfy `p`. -/
def skip (p : β → Bool) : Reader β Unit := fun buf pos =>
  some ((), pos + ((buf.drop pos).takeWhile p).length)

/-! ## §1. What any input can do. -/

/-- The reader goes forward inside the buffer, from `pos` to `pos'`, and reads an `a` with
`Q pos pos' a`. -/
def Ensures (r : Reader β α) (Q : Nat → Nat → α → Prop) : Prop :=
  ∀ ⦃buf pos a pos'⦄, pos ≤ buf.length → r buf pos = some (a, pos') →
    pos ≤ pos' ∧ pos' ≤ buf.length ∧ Q pos pos' a

theorem Ensures.mono {r : Reader β α} {P Q : Nat → Nat → α → Prop} (h : Ensures r P)
    (hpq : ∀ p q a, P p q a → Q p q a) : Ensures r Q := by
  intro buf pos a pos' hpos hr
  obtain ⟨hle, hin, hp⟩ := h hpos hr
  exact ⟨hle, hin, hpq _ _ _ hp⟩

theorem ensures_pure {a : α} {Q : Nat → Nat → α → Prop} (h : ∀ p, Q p p a) :
    Ensures (pure a : Reader β α) Q := by
  intro buf pos a' pos' hpos hr
  obtain ⟨rfl, rfl⟩ : a = a' ∧ pos = pos' := by
    have hr' : some (a, pos) = some (a', pos') := hr
    simpa using hr'
  exact ⟨Nat.le_refl _, hpos, h pos⟩

theorem ensures_fail {Q : Nat → Nat → α → Prop} : Ensures (fail : Reader β α) Q := by
  intro buf pos a pos' _ hr
  simp [fail] at hr

theorem bind_eq_some {r : Reader β α} {g : α → Reader β γ} {buf : List β} {pos : Nat} {x : γ × Nat}
    (h : (r >>= g) buf pos = some x) : ∃ a pos', r buf pos = some (a, pos') ∧ g a buf pos' = some x := by
  have h' : andThen r g buf pos = some x := h
  unfold andThen at h'
  cases hr : r buf pos with
  | none =>
    rw [hr] at h'
    simp at h'
  | some y =>
    rw [hr] at h'
    exact ⟨y.1, y.2, rfl, h'⟩

/-- One reader after another. -/
theorem Ensures.bind {r : Reader β α} {g : α → Reader β γ} {P : Nat → Nat → α → Prop}
    {R : α → Nat → Nat → γ → Prop} {Q : Nat → Nat → γ → Prop} (hr : Ensures r P)
    (hg : ∀ a, Ensures (g a) (R a))
    (h : ∀ p q s a b, p ≤ q → q ≤ s → P p q a → R a q s b → Q p s b) : Ensures (r >>= g) Q := by
  intro buf pos b pos₂ hpos hrun
  obtain ⟨a, pos₁, ha, hb⟩ := bind_eq_some hrun
  obtain ⟨hle₁, hin₁, hp⟩ := hr hpos ha
  obtain ⟨hle₂, hin₂, hq⟩ := hg a hin₁ hb
  exact ⟨Nat.le_trans hle₁ hle₂, hin₂, h _ _ _ _ _ hle₁ hle₂ hp hq⟩

/-- What follows says it all. -/
theorem Ensures.then {r : Reader β α} {g : α → Reader β γ} {P : Nat → Nat → α → Prop}
    {Q : Nat → Nat → γ → Prop} (hr : Ensures r P) (hg : ∀ a, Ensures (g a) Q)
    (hmono : ∀ p q s b, p ≤ q → Q q s b → Q p s b) : Ensures (r >>= g) Q :=
  hr.bind hg fun p q s _ b hpq _ _ hb => hmono p q s b hpq hb

theorem ensures_ite {c : Prop} [Decidable c] {r s : Reader β α} {Q : Nat → Nat → α → Prop}
    (ht : c → Ensures r Q) (he : ¬ c → Ensures s Q) : Ensures (if c then r else s) Q := by
  by_cases hc : c
  · rw [if_pos hc]
    exact ht hc
  rw [if_neg hc]
  exact he hc

theorem ensures_left : Ensures (left : Reader β Nat) fun _ _ _ => True := by
  intro buf pos a pos' hpos hr
  have hr' : some (buf.length - pos, pos) = some (a, pos') := hr
  obtain ⟨-, rfl⟩ : buf.length - pos = a ∧ pos = pos' := by simpa using hr'
  exact ⟨Nat.le_refl _, hpos, trivial⟩

theorem ensures_next : Ensures (next : Reader β β) fun p q _ => q = p + 1 := by
  intro buf pos a pos' hpos hr
  unfold next at hr
  split at hr
  · simp at hr
  rename_i b rest hdrop
  obtain ⟨-, rfl⟩ : b = a ∧ pos + 1 = pos' := by simpa using hr
  have hlen := congrArg List.length hdrop
  simp only [List.length_drop, List.length_cons] at hlen
  exact ⟨by omega, by omega, rfl⟩

theorem ensures_span (n : Nat) : Ensures (span n : Reader β Nat) fun p q a => a = p ∧ q = p + n := by
  intro buf pos a pos' hpos hr
  unfold span at hr
  split at hr
  · simp at hr
  obtain ⟨rfl, rfl⟩ : pos = a ∧ pos + n = pos' := by simpa using hr
  exact ⟨by omega, by omega, rfl, rfl⟩

theorem ensures_text (start n : Nat) :
    Ensures (text start n : Reader β (List β)) fun _ _ a => a.length ≤ n := by
  intro buf pos a pos' hpos hr
  have hr' : some ((buf.drop start).take n, pos) = some (a, pos') := hr
  obtain ⟨rfl, rfl⟩ : (buf.drop start).take n = a ∧ pos = pos' := by simpa using hr'
  refine ⟨Nat.le_refl _, hpos, ?_⟩
  show ((buf.drop start).take n).length ≤ n
  rw [List.length_take]
  exact Nat.min_le_left _ _

theorem ensures_skip (p : β → Bool) : Ensures (skip p) fun _ _ _ => True := by
  intro buf pos a pos' hpos hr
  have hr' : some ((), pos + ((buf.drop pos).takeWhile p).length) = some (a, pos') := hr
  obtain rfl : pos + ((buf.drop pos).takeWhile p).length = pos' := by simpa using hr'
  have hlen := (List.takeWhile_prefix p (l := buf.drop pos)).length_le
  rw [List.length_drop] at hlen
  exact ⟨by omega, by omega, trivial⟩

/-! ## §2. What is read where something was written. -/

/-- After `before`, with `after` behind, the reader takes `w` and reads `a`. -/
def Yields (r : Reader β α) (before w after : List β) (a : α) : Prop :=
  r (before ++ (w ++ after)) before.length = some (a, before.length + w.length)

theorem yields_pure (a : α) (before after : List β) : Yields (pure a) before [] after a := rfl

/-- One reader after another. -/
theorem Yields.bind {r : Reader β α} {g : α → Reader β γ} {before w w' after : List β} {a : α} {b : γ}
    (hr : Yields r before w (w' ++ after) a) (hg : Yields (g a) (before ++ w) w' after b) :
    Yields (r >>= g) before (w ++ w') after b := by
  unfold Yields at hr hg ⊢
  show andThen r g _ _ = _
  rw [List.append_assoc] at hg
  unfold andThen
  rw [List.append_assoc, hr]
  dsimp only
  rw [List.length_append] at hg
  rw [hg, List.length_append, Nat.add_assoc]

/-- A last reader that takes nothing. -/
theorem Yields.map {r : Reader β α} {g : α → Reader β γ} {before w after : List β} {a : α} {b : γ}
    (hr : Yields r before w after a) (hg : Yields (g a) (before ++ w) [] after b) :
    Yields (r >>= g) before w after b := by
  have h : Yields (r >>= g) before (w ++ []) after b := Yields.bind hr hg
  rwa [List.append_nil] at h

/-- A first reader that takes nothing. -/
theorem Yields.peek {r : Reader β α} {g : α → Reader β γ} {before w after : List β} {a : α} {b : γ}
    (hr : Yields r before [] (w ++ after) a) (hg : Yields (g a) before w after b) :
    Yields (r >>= g) before w after b := by
  have h := Yields.bind (w := []) hr (by rw [List.append_nil]; exact hg)
  rwa [List.nil_append] at h

theorem yields_left (before after : List β) : Yields left before [] after after.length := by
  simp [Yields, left]

theorem yields_next (b : β) (before after : List β) : Yields next before [b] after b := by
  simp [Yields, next]

theorem yields_span {n p : Nat} {w before : List β} (after : List β) (hn : w.length = n)
    (hp : before.length = p) : Yields (span n) before w after p := by
  subst hn hp
  simp [Yields, span]

theorem Yields.append_nil {r : Reader β α} {before w after : List β} {a : α}
    (h : Yields r before w after a) : Yields r before (w ++ []) after a := by
  rwa [List.append_nil]

/-- The span read last. -/
theorem yields_text (before w after : List β) :
    Yields (text before.length w.length) (before ++ w) [] after w := by
  simp [Yields, text]

end Reader

end Agensio.Lib
