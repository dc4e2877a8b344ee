/-
  Agensio.Lib.SeqRing — a ring of slots keyed by sequence number.

  Keys are handed out in order and looked up by their slot, the key
  modulo the number of slots.  A key is put in with the next number; when
  its slot is still taken the ring doubles first.  Keys are taken out in
  any order.

  The point is that doubling ONCE is always enough: the keys in the ring
  never span more than its length (`Window`), so the only key in the way
  of `n` is `n` less the length, and that one has another slot in a ring
  twice as long.

  Main results: `insert_spec` (what is found after putting a key in),
  `erase_spec`, `replace_spec`; `tally_insert`, `tally_erase` (a sum over
  what is kept).
-/
import Mathlib.Algebra.BigOperators.Intervals
import Mathlib.Data.List.Basic

namespace Agensio.Lib

universe u

/-- The slots, each free or with a key and what is kept for it. -/
abbrev SeqRing (α : Type u) := List (Option (Nat × α))

namespace SeqRing

variable {α : Type u}

/-! ## §1. The operations. -/

/-- The slot of a key. -/
def slotOf (r : SeqRing α) (k : Nat) : Nat := k % r.length

/-- What is kept for a key. -/
def find (r : SeqRing α) (k : Nat) : Option α :=
  match r[r.slotOf k]? with
  | some (some (k', a)) => if k' = k then some a else none
  | _ => none

/-- The slot of the key is taken, by whichever key. -/
def taken (r : SeqRing α) (k : Nat) : Bool :=
  match r[r.slotOf k]? with
  | some (some _) => true
  | _ => false

def put (r : SeqRing α) (k : Nat) (a : α) : SeqRing α := r.set (r.slotOf k) (some (k, a))

def erase (r : SeqRing α) (k : Nat) : SeqRing α := r.set (r.slotOf k) none

/-- One slot moves to the longer ring. -/
def move (r : SeqRing α) : Option (Nat × α) → SeqRing α
  | some (k, a) => r.put k a
  | none => r

/-- Twice as many slots, every key in its new one. -/
def grow (r : SeqRing α) : SeqRing α := r.foldl move (List.replicate (r.length * 2) none)

def insert (r : SeqRing α) (k : Nat) (a : α) : SeqRing α :=
  if r.taken k then r.grow.put k a else r.put k a

/-! ## §2. One slot at a time. -/

variable {k k' n : Nat}

theorem find_eq_some {r : SeqRing α} {a : α} : r.find k = some a ↔ r[r.slotOf k]? = some (some (k, a)) := by
  unfold find
  constructor
  · intro h
    split at h
    · next k' a' hs =>
      split at h
      · next he =>
        cases h
        rw [hs, he]
      · simp at h
    · simp at h
  · intro h
    rw [h]
    exact if_pos rfl

@[simp] theorem length_put (r : SeqRing α) (k : Nat) (a : α) : (r.put k a).length = r.length :=
  List.length_set ..

@[simp] theorem length_erase (r : SeqRing α) (k : Nat) : (r.erase k).length = r.length :=
  List.length_set ..

theorem find_put_self {r : SeqRing α} (hpos : 0 < r.length) (k : Nat) (a : α) :
    (r.put k a).find k = some a := by
  rw [find_eq_some]
  unfold put slotOf
  rw [List.length_set, List.getElem?_set_self]
  exact Nat.mod_lt k hpos

theorem find_put_of_ne {r : SeqRing α} (a : α) (h : r.slotOf k' ≠ r.slotOf k) :
    (r.put k a).find k' = r.find k' := by
  unfold find put slotOf
  unfold slotOf at h
  rw [List.length_set, List.getElem?_set_ne (Ne.symm h)]

theorem find_erase_of_ne {r : SeqRing α} (h : r.slotOf k' ≠ r.slotOf k) :
    (r.erase k).find k' = r.find k' := by
  unfold find erase slotOf
  unfold slotOf at h
  rw [List.length_set, List.getElem?_set_ne (Ne.symm h)]

/-- Two keys with one slot are not both found. -/
theorem find_unique {r : SeqRing α} {a a' : α} (h : r.find k = some a)
    (h' : r.find k' = some a') (hs : r.slotOf k = r.slotOf k') : k = k' := by
  rw [find_eq_some] at h h'
  rw [hs, h'] at h
  exact (congrArg Prod.fst (Option.some.inj (Option.some.inj h))).symm

/-- A key whose slot is free is not found. -/
theorem find_of_not_taken {r : SeqRing α} (h : r.taken k = false)
    (hs : r.slotOf k' = r.slotOf k) : r.find k' = none := by
  cases hf : r.find k' with
  | none => rfl
  | some a =>
    rw [find_eq_some, hs] at hf
    unfold taken at h
    rw [hf] at h
    simp at h

/-- What is found after a key is put over a free slot, or over its own. -/
theorem find_put {r : SeqRing α} (hpos : 0 < r.length) (a : α)
    (hfree : ∀ k', k' ≠ k → r.slotOf k' = r.slotOf k → r.find k' = none) (k' : Nat) :
    (r.put k a).find k' = if k' = k then some a else r.find k' := by
  by_cases he : k' = k
  · rw [if_pos he, he]
    exact find_put_self hpos k a
  rw [if_neg he]
  by_cases hs : r.slotOf k' = r.slotOf k
  · rw [hfree k' he hs]
    -- the slot holds `k` now
    by_contra hne
    obtain ⟨b, hb⟩ := Option.ne_none_iff_exists'.mp hne
    refine he (find_unique hb (find_put_self hpos k a) ?_)
    unfold slotOf
    rw [length_put]
    exact hs
  · exact find_put_of_ne a hs

theorem find_erase {r : SeqRing α} {a : α} (hk : r.find k = some a) (k' : Nat) :
    (r.erase k).find k' = if k' = k then none else r.find k' := by
  have hgone : ∀ j, r.slotOf j = r.slotOf k → (r.erase k).find j = none := by
    intro j hs
    unfold find erase slotOf
    unfold slotOf at hs
    rw [List.length_set, hs, List.getElem?_set]
    by_cases hlt : k % r.length < r.length
    · rw [if_pos rfl, if_pos hlt]
    · rw [if_pos rfl, if_neg hlt]
  by_cases he : k' = k
  · rw [if_pos he]
    exact hgone k' (by rw [he])
  rw [if_neg he]
  by_cases hs : r.slotOf k' = r.slotOf k
  · rw [hgone k' hs]
    by_contra hne
    obtain ⟨b, hb⟩ := Option.ne_none_iff_exists'.mp (Ne.symm hne)
    exact he (find_unique hb hk hs)
  · exact find_erase_of_ne hs

/-! ## §3. The longer ring. -/

/-- Every key is in its slot. -/
def Placed (r : SeqRing α) : Prop := ∀ i k a, r[i]? = some (some (k, a)) → r.slotOf k = i

theorem Placed.put {r : SeqRing α} (h : Placed r) (k : Nat) (a : α) : Placed (r.put k a) := by
  intro i k' b hi
  have hlen : (r.put k a).slotOf k' = r.slotOf k' := by
    unfold slotOf
    rw [length_put]
  rw [hlen]
  unfold SeqRing.put at hi
  rw [List.getElem?_set] at hi
  split at hi
  · next he =>
    split at hi
    · obtain ⟨rfl, -⟩ := Prod.mk.inj (Option.some.inj (Option.some.inj hi))
      exact he
    · simp at hi
  · exact h i k' b hi

theorem Placed.erase {r : SeqRing α} (h : Placed r) (k : Nat) : Placed (r.erase k) := by
  intro i k' b hi
  have hlen : (r.erase k).slotOf k' = r.slotOf k' := by
    unfold slotOf
    rw [length_erase]
  rw [hlen]
  unfold SeqRing.erase at hi
  rw [List.getElem?_set] at hi
  split at hi
  · split at hi
    · cases Option.some.inj hi
    · simp at hi
  · exact h i k' b hi

theorem Placed.find_iff {r : SeqRing α} (h : Placed r) {a : α} : r.find k = some a ↔ some (k, a) ∈ r := by
  rw [find_eq_some]
  constructor
  · exact fun hk => List.mem_of_getElem? hk
  · intro hm
    obtain ⟨i, hi⟩ := List.mem_iff_getElem?.mp hm
    rw [h i k a hi]
    exact hi

/-- Two slots whose keys, if any, do not meet modulo `n`. -/
def Apart (n : Nat) (x y : Option (Nat × α)) : Prop :=
  ∀ k a k' a', x = some (k, a) → y = some (k', a') → k % n ≠ k' % n

theorem Placed.pairwise {r : SeqRing α} (h : Placed r) : r.Pairwise (Apart r.length) := by
  rw [List.pairwise_iff_getElem]
  intro i j hi hj hij k a k' a' hk hk' he
  have h₁ := h i k a (by rw [List.getElem?_eq_getElem hi, hk])
  have h₂ := h j k' a' (by rw [List.getElem?_eq_getElem hj, hk'])
  unfold slotOf at h₁ h₂
  omega

theorem Apart.double {x y : Option (Nat × α)} (h : Apart n x y) : Apart (n * 2) x y := by
  intro k a k' a' hk hk' he
  refine h k a k' a' hk hk' ?_
  rw [← Nat.mod_mul_right_mod k n 2, ← Nat.mod_mul_right_mod k' n 2, he]

/-- The fold of `grow`: the slots of `l` move into `b`, where theirs are free. -/
theorem foldl_move_spec (l b : SeqRing α) (hpos : 0 < b.length) (hb : Placed b)
    (hl : l.Pairwise (Apart b.length)) (hfree : ∀ k a, some (k, a) ∈ l → b.taken k = false) :
    (l.foldl move b).length = b.length ∧ Placed (l.foldl move b) ∧
      ∀ k a, (l.foldl move b).find k = some a ↔ b.find k = some a ∨ some (k, a) ∈ l := by
  induction l generalizing b with
  | nil => exact ⟨rfl, hb, fun k a => by simp⟩
  | cons x l ih =>
    obtain ⟨hx, htail⟩ := List.pairwise_cons.mp hl
    have hrest : ∀ k a, some (k, a) ∈ l → b.taken k = false := fun k a hm =>
      hfree k a (List.mem_cons_of_mem x hm)
    rw [List.foldl_cons]
    cases x with
    | none =>
      obtain ⟨hlen, hplaced, hfind⟩ := ih b hpos hb htail hrest
      refine ⟨hlen, hplaced, fun k a => ?_⟩
      show (l.foldl move b).find k = some a ↔ _
      rw [hfind]
      simp
    | some ka =>
      obtain ⟨j, c⟩ := ka
      have hj : b.taken j = false := hfree j c (.head _)
      have hput : ∀ k', (b.put j c).find k' = if k' = j then some c else b.find k' :=
        find_put hpos c fun k' _ hs => find_of_not_taken hj hs
      have hslots : ∀ k, (b.put j c).slotOf k = b.slotOf k := by
        intro k
        unfold slotOf
        rw [length_put]
      have hfree' : ∀ k a, some (k, a) ∈ l → (b.put j c).taken k = false := by
        intro k a hm
        have hne : b.slotOf j ≠ b.slotOf k := hx _ hm j c k a rfl rfl
        have hold := hrest k a hm
        unfold taken at hold ⊢
        rw [hslots]
        unfold SeqRing.put
        rw [List.getElem?_set_ne hne]
        exact hold
      obtain ⟨hlen, hplaced, hfind⟩ := ih (b.put j c) (by rw [length_put]; exact hpos)
        (hb.put j c) (by rw [length_put]; exact htail) hfree'
      refine ⟨hlen.trans (length_put ..), hplaced, fun k a => ?_⟩
      show (l.foldl move (b.put j c)).find k = some a ↔ _
      rw [hfind, hput, List.mem_cons]
      by_cases he : k = j
      · rw [if_pos he, he, find_of_not_taken hj rfl]
        simp [eq_comm]
      rw [if_neg he]
      simp [he]

theorem grow_spec {r : SeqRing α} (hpos : 0 < r.length) (h : Placed r) :
    r.grow.length = r.length * 2 ∧ Placed r.grow ∧ ∀ k, r.grow.find k = r.find k := by
  have hempty : ∀ (i : Nat) (a : Nat × α), (List.replicate (r.length * 2) (none : Option (Nat × α)))[i]? ≠
      some (some a) := by
    intro i a hm
    cases List.eq_of_mem_replicate (List.mem_of_getElem? hm)
  have hfresh : ∀ k, SeqRing.taken (List.replicate (r.length * 2) (none : Option (Nat × α))) k = false := by
    intro k
    unfold taken
    split
    · next hs => exact absurd hs (hempty _ _)
    · rfl
  have hlen : (List.replicate (r.length * 2) (none : Option (Nat × α))).length = r.length * 2 :=
    List.length_replicate
  obtain ⟨hl, hp, hf⟩ := foldl_move_spec r (List.replicate (r.length * 2) none)
    (by rw [hlen]; omega) (fun i k a hi => absurd hi (hempty _ _))
    (by rw [hlen]; exact h.pairwise.imp fun ha => ha.double) (fun k a _ => hfresh k)
  refine ⟨hl.trans hlen, hp, fun k => ?_⟩
  have hiff : ∀ a, r.grow.find k = some a ↔ r.find k = some a := by
    intro a
    rw [h.find_iff]
    refine (hf k a).trans ?_
    rw [find_of_not_taken (hfresh k) rfl]
    simp
  exact Option.ext hiff

/-! ## §4. Keys in a window. -/

/-- The keys found lie below `n`, and the ring is long enough for all from the lowest to `n`. -/
structure Window (r : SeqRing α) (n : Nat) : Prop where
  pos : 0 < r.length
  placed : Placed r
  below : ∀ k a, r.find k = some a → k < n
  spans : ∀ k a, r.find k = some a → n ≤ k + r.length

theorem window_empty {m : Nat} (hm : 0 < m) (n : Nat) :
    Window (List.replicate m (none : Option (Nat × α))) n := by
  have hnone : ∀ (i k : Nat) (a : α), (List.replicate m (none : Option (Nat × α)))[i]? ≠ some (some (k, a)) := by
    intro i k a hi
    cases List.eq_of_mem_replicate (List.mem_of_getElem? hi)
  refine ⟨by rw [List.length_replicate]; exact hm, fun i k a hi => absurd hi (hnone i k a), ?_, ?_⟩
  · exact fun k a hf => absurd (find_eq_some.mp hf) (hnone _ _ _)
  · exact fun k a hf => absurd (find_eq_some.mp hf) (hnone _ _ _)

/-- What is kept for a key that is found may be replaced. -/
theorem replace_spec {r : SeqRing α} {a : α} (h : Window r n) (hk : r.find k = some a)
    (b : α) : Window (r.put k b) n ∧
      ∀ k', (r.put k b).find k' = if k' = k then some b else r.find k' := by
  have hfind : ∀ k', (r.put k b).find k' = if k' = k then some b else r.find k' := by
    refine find_put h.pos b fun k' hne hs => ?_
    by_contra hc
    obtain ⟨c, hc⟩ := Option.ne_none_iff_exists'.mp hc
    exact hne (find_unique hc hk hs)
  have hold : ∀ k' c, (r.put k b).find k' = some c → ∃ c', r.find k' = some c' := by
    intro k' c hc
    rw [hfind] at hc
    split at hc
    · next he => exact ⟨a, he ▸ hk⟩
    · exact ⟨c, hc⟩
  refine ⟨⟨by rw [length_put]; exact h.pos, h.placed.put k b, ?_, ?_⟩, hfind⟩
  · intro k' c hc
    obtain ⟨c', hc'⟩ := hold k' c hc
    exact h.below k' c' hc'
  · intro k' c hc
    obtain ⟨c', hc'⟩ := hold k' c hc
    rw [length_put]
    exact h.spans k' c' hc'

theorem erase_spec {r : SeqRing α} {a : α} (h : Window r n) (hk : r.find k = some a) :
    Window (r.erase k) n ∧ ∀ k', (r.erase k).find k' = if k' = k then none else r.find k' := by
  have hfind := find_erase hk
  have hold : ∀ k' c, (r.erase k).find k' = some c → r.find k' = some c := by
    intro k' c hc
    rw [hfind] at hc
    split at hc
    · simp at hc
    · exact hc
  refine ⟨⟨by rw [length_erase]; exact h.pos, h.placed.erase k, ?_, ?_⟩, hfind⟩
  · exact fun k' c hc => h.below k' c (hold k' c hc)
  · intro k' c hc
    rw [length_erase]
    exact h.spans k' c (hold k' c hc)

/-- **The next key goes in, and every other one stays.** -/
theorem insert_spec {r : SeqRing α} (h : Window r n) (a : α) : Window (r.insert n a) (n + 1) ∧
      ∀ k, (r.insert n a).find k = if k = n then some a else r.find k := by
  unfold insert
  by_cases ht : r.taken n = true
  · rw [if_pos ht]
    obtain ⟨hlen, hplaced, hsame⟩ := grow_spec h.pos h.placed
    -- a key in the way of `n` in the longer ring would lie a whole length of it below
    have hfree : ∀ k', k' ≠ n → r.grow.slotOf k' = r.grow.slotOf n → r.grow.find k' = none := by
      intro k' hne hs
      by_contra hc
      obtain ⟨c, hc⟩ := Option.ne_none_iff_exists'.mp hc
      rw [hsame] at hc
      have hlt := h.below k' c hc
      have hsp := h.spans k' c hc
      have hpos := h.pos
      unfold slotOf at hs
      rw [hlen] at hs
      obtain ⟨d, rfl⟩ := Nat.exists_eq_add_of_lt hlt
      have hmod : (d + 1) % (r.length * 2) = 0 := by
        have := Nat.sub_mod_eq_zero_of_mod_eq hs.symm
        rwa [show k' + d + 1 - k' = d + 1 by omega] at this
      have := Nat.le_of_dvd (Nat.succ_pos d) (Nat.dvd_of_mod_eq_zero hmod)
      omega
    have hfind := find_put (by rw [hlen]; exact Nat.mul_pos h.pos (by decide)) a hfree
    refine ⟨⟨by rw [length_put, hlen]; exact Nat.mul_pos h.pos (by decide), hplaced.put n a,
      ?_, ?_⟩, fun k => ?_⟩
    · intro k c hc
      rw [hfind] at hc
      split at hc
      · omega
      have := h.below k c (by rwa [hsame] at hc)
      omega
    · intro k c hc
      rw [length_put, hlen]
      rw [hfind] at hc
      have hpos := h.pos
      split at hc
      · omega
      have := h.spans k c (by rwa [hsame] at hc)
      omega
    · rw [hfind, hsame]
  · rw [if_neg ht]
    have hnt : r.taken n = false := by simpa using ht
    have hfind := find_put h.pos a fun k' _ hs => find_of_not_taken hnt hs
    refine ⟨⟨by rw [length_put]; exact h.pos, h.placed.put n a, ?_, ?_⟩, hfind⟩
    · intro k c hc
      rw [hfind] at hc
      split at hc
      · omega
      have := h.below k c hc
      omega
    · intro k c hc
      rw [length_put]
      rw [hfind] at hc
      have hpos := h.pos
      split at hc
      · omega
      next hne =>
      have hsp := h.spans k c hc
      -- `n` less the length has the free slot, so it is not the lowest key
      have hnot : k + r.length ≠ n := by
        intro he
        have hs : r.slotOf k = r.slotOf n := by
          unfold slotOf
          rw [← he, Nat.add_mod_right]
        rw [find_of_not_taken hnt hs] at hc
        simp at hc
      omega

/-! ## §5. Sums over what is kept. -/

/-- The sum of `f` over what is kept for the keys below `n`. -/
def tally (r : SeqRing α) (f : α → Nat) (n : Nat) : Nat :=
  ∑ k ∈ Finset.range n, ((r.find k).map f).getD 0

theorem tally_congr {r r' : SeqRing α} (h : ∀ k, r'.find k = r.find k) (f : α → Nat) (n : Nat) :
    r'.tally f n = r.tally f n := by
  refine Finset.sum_congr rfl fun k _ => ?_
  rw [h k]

/-- The key just handed out, taken out again: it is free. -/
theorem erase_last {r : SeqRing α} {a : α} (h : Window r (n + 1)) (hn : r.find n = some a) :
    Window (r.erase n) n := by
  obtain ⟨hw, hfind⟩ := erase_spec h hn
  refine ⟨hw.pos, hw.placed, fun k b hk => ?_, fun k b hk => ?_⟩
  · have hlt := hw.below k b hk
    have hne : k ≠ n := by
      rintro rfl
      rw [hfind, if_pos rfl] at hk
      cases hk
    omega
  · have := hw.spans k b hk
    omega

theorem tally_of_none {r : SeqRing α} (h : ∀ k, r.find k = none) (f : α → Nat) (n : Nat) : r.tally f n = 0 := by
  refine Finset.sum_eq_zero fun k _ => ?_
  rw [h k]
  rfl

theorem tally_empty (m : Nat) (f : α → Nat) (n : Nat) :
    tally (List.replicate m (none : Option (Nat × α))) f n = 0 := by
  refine tally_of_none (fun k => ?_) f n
  by_contra hc
  obtain ⟨a, ha⟩ := Option.ne_none_iff_exists'.mp hc
  cases List.eq_of_mem_replicate (List.mem_of_getElem? (find_eq_some.mp ha))

/-- The next key adds what is kept for it. -/
theorem tally_insert {r : SeqRing α} (h : Window r n) (a : α) (f : α → Nat) :
    (r.insert n a).tally f (n + 1) = r.tally f n + f a := by
  obtain ⟨-, hfind⟩ := insert_spec h a
  unfold tally
  rw [Finset.sum_range_succ, hfind, if_pos rfl]
  congr 1
  refine Finset.sum_congr rfl fun k hk => ?_
  have hlt := Finset.mem_range.mp hk
  rw [hfind, if_neg (by omega)]

/-- A key taken out takes its part of the sum along. -/
theorem tally_erase {r : SeqRing α} {a : α} (h : Window r n) (hk : r.find k = some a)
    (f : α → Nat) : r.tally f n = (r.erase k).tally f n + f a := by
  obtain ⟨-, hfind⟩ := erase_spec h hk
  have hmem : k ∈ Finset.range n := Finset.mem_range.mpr (h.below k a hk)
  unfold tally
  rw [← Finset.add_sum_erase _ (fun j => ((r.find j).map f).getD 0) hmem,
    ← Finset.add_sum_erase _ (fun j => (((r.erase k).find j).map f).getD 0) hmem]
  have hrest : ∑ j ∈ (Finset.range n).erase k, (((r.erase k).find j).map f).getD 0
      = ∑ j ∈ (Finset.range n).erase k, ((r.find j).map f).getD 0 := by
    refine Finset.sum_congr rfl fun j hj => ?_
    rw [hfind, if_neg (Finset.mem_erase.mp hj).1]
  rw [hrest, hfind, if_pos rfl, hk]
  simp only [Option.map_none, Option.map_some, Option.getD_none, Option.getD_some]
  omega

/-- What is kept is part of the sum. -/
theorem le_tally {r : SeqRing α} {a : α} (h : Window r n) (hk : r.find k = some a) (f : α → Nat) :
    f a ≤ r.tally f n := by
  rw [tally_erase h hk f]
  exact Nat.le_add_left _ _

end SeqRing

end Agensio.Lib
