/-
  Agensio.Lib.HeapOrder — the order of a binary heap.

  The keys of a heap by position, over all positions: past its end stands
  a key that is above every other.  When the key at one position is
  changed (`Loose`), it is either below its parent's and rises, or it is
  not and sinks; an exchange with the parent keeps `Rising`, one with the
  least child keeps `Sinking`, and where neither is called for any more
  the keys are in order.
-/
import Mathlib.Order.Lattice
import Mathlib.Order.BoundedOrder.Basic

namespace Agensio.Lib.HeapOrder

variable {K : Type}

/-! ## §1. Positions. -/

def parent (i : Nat) : Nat := (i - 1) / 2

variable {i j : Nat} {key : Nat → K}

theorem parent_lt (h : 0 < i) : parent i < i := by
  unfold parent
  omega

theorem parent_eq_iff {c : Nat} (hc : 0 < c) : parent c = i ↔ c = 2 * i + 1 ∨ c = 2 * i + 2 := by
  unfold parent
  omega

/-- The keys with two of them exchanged. -/
def exchange (key : Nat → K) (a b : Nat) : Nat → K := fun i =>
  if i = a then key b else if i = b then key a else key i

@[simp] theorem exchange_left (key : Nat → K) (a b : Nat) : exchange key a b a = key b := by
  simp [exchange]

theorem exchange_right (key : Nat → K) {a b : Nat} (h : b ≠ a) : exchange key a b b = key a := by
  simp [exchange, h]

theorem exchange_other (key : Nat → K) {a b : Nat} (ha : i ≠ a) (hb : i ≠ b) :
    exchange key a b i = key i := by
  simp [exchange, ha, hb]

variable [LinearOrder K]

/-- No key is below its parent's. -/
def Ordered (key : Nat → K) : Prop := ∀ i, 0 < i → key (parent i) ≤ key i

/-- The first key is the least. -/
theorem Ordered.root_le (h : Ordered key) (i : Nat) : key 0 ≤ key i := by
  induction i using Nat.strongRecOn with
  | ind i ih =>
    by_cases hi : 0 < i
    · exact le_trans (ih (parent i) (parent_lt hi)) (h i hi)
    obtain rfl : i = 0 := by omega
    exact le_refl _

/-! ## §2. One key out of order. -/

/-- In order but at one position, whose children are not below its parent. -/
structure Loose (key : Nat → K) (j : Nat) : Prop where
  elsewhere : ∀ i, 0 < i → i ≠ j → parent i ≠ j → key (parent i) ≤ key i
  through : 0 < j → ∀ c, 0 < c → parent c = j → key (parent j) ≤ key c

/-- The key there is not above its children. -/
structure Rising (key : Nat → K) (j : Nat) : Prop extends Loose key j where
  overChildren : ∀ c, 0 < c → parent c = j → key j ≤ key c

/-- The key there is not below its parent. -/
structure Sinking (key : Nat → K) (j : Nat) : Prop extends Loose key j where
  underParent : 0 < j → key (parent j) ≤ key j

/-- Any one key of an ordered heap may be changed. -/
theorem Ordered.loose {key' : Nat → K} (h : Ordered key)
    (hsame : ∀ i, i ≠ j → key' i = key i) : Loose key' j := by
  constructor
  · intro i hi hne hp
    rw [hsame i hne, hsame _ hp]
    exact h i hi
  · intro hhole c hc hp
    have hch : c ≠ j := by
      have := parent_lt hc
      omega
    have hph : parent j ≠ j := by
      have := parent_lt hhole
      omega
    rw [hsame c hch, hsame _ hph]
    have hstep := h c hc
    rw [hp] at hstep
    exact le_trans (h j hhole) hstep

theorem Loose.rising (h : Loose key j) (hpos : 0 < j) (hlt : key j < key (parent j)) : Rising key j :=
  ⟨h, fun c hc hp => le_trans (le_of_lt hlt) (h.through hpos c hc hp)⟩

theorem Loose.sinking (h : Loose key j)
    (habove : 0 < j → key (parent j) ≤ key j) : Sinking key j := ⟨h, habove⟩

/-! ## §3. Moving it. -/

theorem Rising.exchange (h : Rising key j) (hpos : 0 < j) (hlt : key j < key (parent j)) :
    Rising (exchange key j (parent j)) (parent j) := by
  have hp := parent_lt hpos
  have hph : parent j ≠ j := by omega
  -- the parent that comes down is not below its own parent
  have hup : 0 < parent j → key (parent (parent j)) ≤ key (parent j) := by
    intro h0
    have := parent_lt h0
    exact h.elsewhere (parent j) h0 hph (by omega)
  refine ⟨⟨?_, ?_⟩, ?_⟩
  · intro i hi hne hpar
    by_cases hih : i = j
    · subst hih
      exact absurd rfl hpar
    rw [exchange_other key hih hne]
    by_cases hpi : parent i = j
    · rw [hpi, exchange_left]
      exact h.through hpos i hi hpi
    rw [exchange_other key hpi hpar]
    exact h.elsewhere i hi hih hpi
  · intro h0 c hc hpc
    have hpp := parent_lt h0
    rw [exchange_other key (by omega) (by omega)]
    by_cases hch : c = j
    · subst hch
      rw [exchange_left]
      exact hup h0
    · have hcp : c ≠ parent j := by
        have := parent_lt hc
        omega
      rw [exchange_other key hch hcp]
      have hstep := h.elsewhere c hc hch (by rw [hpc]; exact hph)
      rw [hpc] at hstep
      exact le_trans (hup h0) hstep
  · intro c hc hpc
    rw [exchange_right key hph]
    by_cases hch : c = j
    · subst hch
      rw [exchange_left]
      exact le_of_lt hlt
    · have hcp : c ≠ parent j := by
        have := parent_lt hc
        omega
      rw [exchange_other key hch hcp]
      have hstep := h.elsewhere c hc hch (by rw [hpc]; exact hph)
      rw [hpc] at hstep
      exact le_trans (le_of_lt hlt) hstep

theorem Rising.ordered (h : Rising key j) (hstop : 0 < j → key (parent j) ≤ key j) : Ordered key := by
  intro i hi
  by_cases hih : i = j
  · subst hih
    exact hstop hi
  by_cases hpi : parent i = j
  · rw [hpi]
    exact h.overChildren i hi hpi
  · exact h.elsewhere i hi hih hpi

theorem Sinking.exchange {c : Nat} (h : Sinking key j) (hc : 0 < c) (hpc : parent c = j) (hlt : key c < key j)
    (hmin : ∀ c', 0 < c' → parent c' = j → key c ≤ key c') : Sinking (exchange key j c) c := by
  have hlt' := parent_lt hc
  have hch : c ≠ j := by omega
  refine ⟨⟨?_, ?_⟩, ?_⟩
  · intro i hi hne hpar
    by_cases hih : i = j
    · subst hih
      rw [exchange_left]
      have hpi := parent_lt hi
      rw [exchange_other key (by omega) hpar]
      exact h.through hi c hc hpc
    · rw [exchange_other key hih hne]
      by_cases hpi : parent i = j
      · rw [hpi, exchange_left]
        exact hmin i hi hpi
      rw [exchange_other key hpi hpar]
      exact h.elsewhere i hi hih hpi
  · intro _ g hg hpg
    have hgc := parent_lt hg
    rw [hpc, exchange_left, exchange_other key (by omega) (by omega)]
    have hstep := h.elsewhere g hg (by omega) (by omega)
    rw [hpg] at hstep
    exact hstep
  · intro _
    rw [hpc, exchange_left, exchange_right key hch]
    exact le_of_lt hlt

theorem Sinking.ordered (h : Sinking key j)
    (hstop : ∀ c, 0 < c → parent c = j → key j ≤ key c) : Ordered key := by
  intro i hi
  by_cases hih : i = j
  · subst hih
    exact h.underParent hi
  by_cases hpi : parent i = j
  · rw [hpi]
    exact hstop i hi hpi
  · exact h.elsewhere i hi hih hpi

end Agensio.Lib.HeapOrder
