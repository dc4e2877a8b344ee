/-
  Agensio.Quic.TimerHeap — the deadline heap of a worker.

  Model of `Timed` and `TimerHeap` (`quic/timer_heap.hpp`).  A connection
  is any value of a type with equality; its `deadline` and its
  `heap_index` are functions of it, no index being `npos`.  Time is any
  linear order with a last point, `time_point::max()`.

  Main results:
    * `sift_spec` — moving one connection to its place, from any deadline;
    * `update_spec`, `remove_spec` — the heap stays in order, every stored
      position is the connection's own, and who is in it afterwards.
-/
import Agensio.Lib.HeapOrder
import Mathlib.Data.List.Nodup
import Mathlib.Logic.Function.Basic

namespace Agensio.Quic

open Agensio.Lib.HeapOrder

/-- `TimerHeap` with the fields of the connections in it. -/
structure TimerHeap (α Time : Type) where
  v : List α
  deadline : α → Time
  index : α → Option Nat

namespace TimerHeap

variable {α Time : Type}

/-! ## §1. The positions. -/

/-- `top`. -/
def top (h : TimerHeap α Time) : Option α := h.v.head?

/-- The stored positions are the connections' own: each is in the heap at most once. -/
def Indexed (h : TimerHeap α Time) : Prop := ∀ t i, h.index t = some i ↔ h.v[i]? = some t

theorem Indexed.mem_iff {h : TimerHeap α Time} (hi : Indexed h) (t : α) : t ∈ h.v ↔ (h.index t).isSome := by
  rw [List.mem_iff_getElem?, Option.isSome_iff_exists]
  exact exists_congr fun i => (hi t i).symm

/-- No connection is at two positions. -/
theorem Indexed.inj {h : TimerHeap α Time} (hi : Indexed h) {t : α} {i j : Nat}
    (ht : h.v[i]? = some t) (ht' : h.v[j]? = some t) : i = j :=
  Option.some.inj (((hi t i).mpr ht).symm.trans ((hi t j).mpr ht'))

theorem Indexed.nodup {h : TimerHeap α Time} (hi : Indexed h) : h.v.Nodup := by
  rw [List.nodup_iff_getElem?_ne_getElem?]
  intro i j hij hj heq
  have hx := List.getElem?_eq_getElem (show i < h.v.length by omega)
  have := hi.inj hx (heq ▸ hx)
  omega

/-- Every position is stored, and only members have one. -/
theorem Indexed.of {h : TimerHeap α Time} (hget : ∀ i t, h.v[i]? = some t → h.index t = some i)
    (hmem : ∀ t i, h.index t = some i → t ∈ h.v) : Indexed h := by
  refine fun t i => ⟨fun hidx => ?_, hget i t⟩
  obtain ⟨j, hj⟩ := List.mem_iff_getElem?.mp (hmem t i hidx)
  obtain rfl : j = i := Option.some.inj ((hget j t hj).symm.trans hidx)
  exact hj

/-- The heap after some exchanges: the same connections, with the positions right. -/
structure Sifted (h h' : TimerHeap α Time) : Prop where
  indexed : Indexed h'
  deadline : h'.deadline = h.deadline
  length : h'.v.length = h.v.length
  mem : ∀ t, t ∈ h'.v ↔ t ∈ h.v

theorem Sifted.refl {h : TimerHeap α Time} (hi : Indexed h) : Sifted h h :=
  ⟨hi, rfl, rfl, fun _ => .rfl⟩

theorem Sifted.trans {h h' h'' : TimerHeap α Time} (h₁ : Sifted h h') (h₂ : Sifted h' h'') : Sifted h h'' :=
  ⟨h₂.indexed, h₂.deadline.trans h₁.deadline, h₂.length.trans h₁.length,
    fun t => (h₂.mem t).trans (h₁.mem t)⟩

section
variable [DecidableEq α]

/-- `swap`: both connections learn their positions. -/
def swap (h : TimerHeap α Time) (a b : Nat) : TimerHeap α Time :=
  match h.v[a]?, h.v[b]? with
  | some x, some y =>
    { h with
      v := (h.v.set a y).set b x
      index := Function.update (Function.update h.index y (some a)) x (some b) }
  | _, _ => h

theorem swap_eq {h : TimerHeap α Time} {a b : Nat} {x y : α} (ha : h.v[a]? = some x)
    (hb : h.v[b]? = some y) : h.swap a b =
      { h with
        v := (h.v.set a y).set b x
        index := Function.update (Function.update h.index y (some a)) x (some b) } := by
  unfold swap
  rw [ha, hb]

/-- What is where after an exchange. -/
theorem swap_get {h : TimerHeap α Time} {a b : Nat} {x y : α} (ha : h.v[a]? = some x)
    (hb : h.v[b]? = some y) (i : Nat) :
    (h.swap a b).v[i]? = if i = b then some x else if i = a then some y else h.v[i]? := by
  have hlta : a < h.v.length := (List.getElem?_eq_some_iff.mp ha).1
  have hltb : b < h.v.length := (List.getElem?_eq_some_iff.mp hb).1
  rw [swap_eq ha hb]
  dsimp only
  rw [List.getElem?_set, List.length_set, List.getElem?_set]
  by_cases hib : i = b
  · subst hib
    simp [hltb]
  rw [if_neg (Ne.symm hib), if_neg hib]
  by_cases hia : i = a
  · subst hia
    simp [hlta]
  · rw [if_neg (Ne.symm hia), if_neg hia]

theorem mem_swap {h : TimerHeap α Time} {a b : Nat} {x y : α} (hab : a ≠ b) (ha : h.v[a]? = some x)
    (hb : h.v[b]? = some y) (t : α) : t ∈ (h.swap a b).v ↔ t ∈ h.v := by
  rw [List.mem_iff_getElem?, List.mem_iff_getElem?]
  simp only [swap_get ha hb]
  constructor
  · rintro ⟨i, hi⟩
    split at hi
    · exact ⟨a, ha.trans hi⟩
    split at hi
    · exact ⟨b, hb.trans hi⟩
    · exact ⟨i, hi⟩
  · rintro ⟨i, hi⟩
    by_cases hia : i = a
    · subst hia
      exact ⟨b, (if_pos rfl).trans (ha.symm.trans hi)⟩
    by_cases hib : i = b
    · subst hib
      exact ⟨a, by rw [if_neg hab, if_pos rfl, ← hb, hi]⟩
    · exact ⟨i, by rw [if_neg hib, if_neg hia, hi]⟩

theorem indexed_swap {h : TimerHeap α Time} (hi : Indexed h) {a b : Nat} {x y : α} (hab : a ≠ b)
    (ha : h.v[a]? = some x) (hb : h.v[b]? = some y) : Indexed (h.swap a b) := by
  have hindex : (h.swap a b).index = Function.update (Function.update h.index y (some a)) x (some b) := by
    rw [swap_eq ha hb]
  refine .of (fun i t ht => ?_) fun t i ht => ?_
  · rw [swap_get ha hb] at ht
    rw [hindex]
    split at ht
    next hib =>
      cases ht
      rw [hib, Function.update_self]
    next hib =>
      split at ht
      next hia =>
        cases ht
        have hne : y ≠ x := fun heq => hab (hi.inj ha (heq ▸ hb))
        rw [hia, Function.update_of_ne hne, Function.update_self]
      next hia =>
        have htx : t ≠ x := fun heq => hia (hi.inj ht (heq ▸ ha))
        have hty : t ≠ y := fun heq => hib (hi.inj ht (heq ▸ hb))
        rw [Function.update_of_ne htx, Function.update_of_ne hty]
        exact (hi t i).mpr ht
  · rw [mem_swap hab ha hb]
    rw [hindex] at ht
    by_cases htx : t = x
    · exact htx ▸ List.mem_of_getElem? ha
    rw [Function.update_of_ne htx] at ht
    by_cases hty : t = y
    · exact hty ▸ List.mem_of_getElem? hb
    rw [Function.update_of_ne hty] at ht
    exact List.mem_of_getElem? ((hi t i).mp ht)

end

/-! ## §2. The keys. -/

section
variable [LinearOrder Time] [OrderTop Time]

/-- The deadline at a position. -/
def key (h : TimerHeap α Time) (i : Nat) : Time :=
  match h.v[i]? with
  | some t => h.deadline t
  | none => ⊤

/-- `earliest`. -/
def earliest (h : TimerHeap α Time) : Time := h.key 0

/-- A heap, with every connection at its stored position. -/
structure Inv (h : TimerHeap α Time) : Prop where
  indexed : Indexed h
  ordered : Ordered h.key

variable {i : Nat}

theorem key_of_get {h : TimerHeap α Time} {t : α} (hi : h.v[i]? = some t) : h.key i = h.deadline t := by
  unfold key
  rw [hi]

theorem key_of_le {h : TimerHeap α Time} (hi : h.v.length ≤ i) : h.key i = ⊤ := by
  unfold key
  rw [List.getElem?_eq_none hi]

/-- **The top has the earliest deadline.** -/
theorem Inv.earliest_le {h : TimerHeap α Time} (hinv : Inv h) {t : α} (ht : t ∈ h.v) :
    h.earliest ≤ h.deadline t := by
  obtain ⟨i, hi⟩ := List.mem_iff_getElem?.mp ht
  rw [← key_of_get hi]
  exact hinv.ordered.root_le i

theorem earliest_top {h : TimerHeap α Time} {t : α} (ht : h.top = some t) : h.earliest = h.deadline t := by
  apply key_of_get
  rw [← List.head?_eq_getElem?]
  exact ht

/-- The least of a position and its children. -/
def least (h : TimerHeap α Time) (i : Nat) : Nat :=
  let l := 2 * i + 1
  let r := l + 1
  let m := if l < h.v.length ∧ h.key l < h.key i then l else i
  if r < h.v.length ∧ h.key r < h.key m then r else m

/-- The least of a position and its children. -/
theorem least_cases {h : TimerHeap α Time} : (h.least i = i ∧ ∀ c, 0 < c → parent c = i → h.key i ≤ h.key c) ∨
    (i < h.least i ∧ h.least i < h.v.length ∧ parent (h.least i) = i ∧
      h.key (h.least i) < h.key i ∧ ∀ c, 0 < c → parent c = i → h.key (h.least i) ≤ h.key c) := by
  have hchild : ∀ c, 0 < c → parent c = i → c = 2 * i + 1 ∨ c = 2 * i + 2 :=
    fun c hc hp => (parent_eq_iff hc).mp hp
  have hpl : parent (2 * i + 1) = i := (parent_eq_iff (by omega)).mpr (.inl rfl)
  have hpr : parent (2 * i + 2) = i := (parent_eq_iff (by omega)).mpr (.inr rfl)
  -- past the end nothing is below
  have hout : ∀ c m, ¬ (c < h.v.length ∧ h.key c < h.key m) → h.key m ≤ h.key c := by
    intro c m hno
    by_cases hc : c < h.v.length
    · exact le_of_not_gt fun hlt => hno ⟨hc, hlt⟩
    rw [key_of_le (show h.v.length ≤ c by omega)]
    exact le_top
  unfold least
  dsimp only
  by_cases hl : 2 * i + 1 < h.v.length ∧ h.key (2 * i + 1) < h.key i
  · rw [if_pos hl]
    by_cases hr : 2 * i + 1 + 1 < h.v.length ∧ h.key (2 * i + 1 + 1) < h.key (2 * i + 1)
    · rw [if_pos hr]
      refine .inr ⟨by omega, hr.1, hpr, lt_trans hr.2 hl.2, ?_⟩
      intro c hc hp
      rcases hchild c hc hp with rfl | rfl
      · exact le_of_lt hr.2
      · exact le_refl _
    · rw [if_neg hr]
      refine .inr ⟨by omega, hl.1, hpl, hl.2, ?_⟩
      intro c hc hp
      rcases hchild c hc hp with rfl | rfl
      · exact le_refl _
      · exact hout _ _ hr
  · rw [if_neg hl]
    by_cases hr : 2 * i + 1 + 1 < h.v.length ∧ h.key (2 * i + 1 + 1) < h.key i
    · rw [if_pos hr]
      refine .inr ⟨by omega, hr.1, hpr, hr.2, ?_⟩
      intro c hc hp
      rcases hchild c hc hp with rfl | rfl
      · exact le_trans (le_of_lt hr.2) (hout _ _ hl)
      · exact le_refl _
    · rw [if_neg hr]
      refine .inl ⟨rfl, ?_⟩
      intro c hc hp
      rcases hchild c hc hp with rfl | rfl
      · exact hout _ _ hl
      · exact hout _ _ hr

/-- The heap without its last connection: still in order. -/
theorem ordered_dropLast {h h' : TimerHeap α Time} (hord : Ordered h.key)
    (hkey : ∀ j, j < h'.v.length → h'.key j = h.key j) : Ordered h'.key := by
  intro j hj
  by_cases hlt : j < h'.v.length
  · have hp := parent_lt hj
    rw [hkey j hlt, hkey _ (by omega)]
    exact hord j hj
  · rw [key_of_le (show h'.v.length ≤ j by omega)]
    exact le_top

end

/-! ## §3. The operations. -/

variable [DecidableEq α] [LinearOrder Time] [OrderTop Time]

/-- `up`, and whether anything moved. -/
def up : (fuel : Nat) → (i : Nat) → TimerHeap α Time → TimerHeap α Time × Bool
  | 0, _, h => (h, false)
  | fuel + 1, i, h =>
    if 0 < i then
      if h.key i < h.key (parent i) then ((up fuel (parent i) (h.swap i (parent i))).1, true)
      else (h, false)
    else (h, false)

/-- `down`. -/
def down : (fuel : Nat) → (i : Nat) → TimerHeap α Time → TimerHeap α Time
  | 0, _, h => h
  | fuel + 1, i, h =>
    let m := h.least i
    if m = i then h else down fuel m (h.swap i m)

/-- `if (!up(i)) down(i)`. -/
def sift (i : Nat) (h : TimerHeap α Time) : TimerHeap α Time :=
  let r := up i i h
  if r.2 then r.1 else down r.1.v.length i r.1

/-- `update`: the deadline of `t` changed, or `t` is new. -/
def update (t : α) (h : TimerHeap α Time) : TimerHeap α Time :=
  match h.index t with
  | none =>
    let i := h.v.length
    (up i i { h with v := h.v ++ [t], index := Function.update h.index t (some i) }).1
  | some i => sift i h

/-- `remove`. -/
def remove (t : α) (h : TimerHeap α Time) : TimerHeap α Time :=
  match h.index t with
  | none => h
  | some i =>
    let index := Function.update h.index t none
    match h.v.getLast? with
    | none => h
    | some last =>
      let v := h.v.dropLast
      if i = v.length then { h with v, index }
      else sift i { h with v := v.set i last, index := Function.update index last (some i) }

/-! ## §4. Exchanges. -/

theorem sifted_swap {h : TimerHeap α Time} (hi : Indexed h) {a b : Nat} (hab : a ≠ b)
    (ha : a < h.v.length) (hb : b < h.v.length) :
    Sifted h (h.swap a b) ∧ (h.swap a b).key = exchange h.key a b := by
  have hx := List.getElem?_eq_getElem ha
  have hy := List.getElem?_eq_getElem hb
  have hget := swap_get hx hy
  refine ⟨⟨indexed_swap hi hab hx hy, ?_, ?_, mem_swap hab hx hy⟩, ?_⟩
  · rw [swap_eq hx hy]
  · rw [swap_eq hx hy]
    simp
  · funext i
    have hdl : (h.swap a b).deadline = h.deadline := by rw [swap_eq hx hy]
    unfold key exchange
    rw [hget, hdl]
    by_cases hib : i = b
    · subst hib
      rw [if_pos rfl, if_neg (Ne.symm hab), if_pos rfl]
      exact (key_of_get hx).symm
    · rw [if_neg hib]
      by_cases hia : i = a
      · rw [if_pos hia, if_pos hia]
        exact (key_of_get hy).symm
      · rw [if_neg hia, if_neg hia, if_neg hib]

/-! ## §5. Moving one to its place. -/

/-- One that may be below its parent, but is not above its children, rises to its place. -/
theorem up_spec {h : TimerHeap α Time} (hi : Indexed h) {fuel i : Nat} (hlt : i < h.v.length)
    (hfuel : i ≤ fuel) (hrise : Rising h.key i) : Sifted h (up fuel i h).1 ∧ Ordered (up fuel i h).1.key := by
  -- on the way to the root
  induction fuel generalizing h i with
  | zero =>
    obtain rfl : i = 0 := by omega
    exact ⟨.refl hi, hrise.ordered fun h0 => absurd h0 (Nat.lt_irrefl 0)⟩
  | succ fuel ih =>
    unfold up
    by_cases hpos : 0 < i
    · rw [if_pos hpos]
      by_cases hless : h.key i < h.key (parent i)
      · rw [if_pos hless]
        have hp := parent_lt hpos
        obtain ⟨hswap, hkey⟩ := sifted_swap hi (show i ≠ parent i by omega) hlt (by omega)
        have hstep := hrise.exchange hpos hless
        rw [← hkey] at hstep
        obtain ⟨hsift, hord⟩ := ih hswap.indexed (by rw [hswap.length]; omega) (by omega) hstep
        exact ⟨hswap.trans hsift, hord⟩
      · rw [if_neg hless]
        exact ⟨.refl hi, hrise.ordered fun _ => le_of_not_gt hless⟩
    · rw [if_neg hpos]
      exact ⟨.refl hi, hrise.ordered fun h0 => absurd h0 hpos⟩

/-- One that may be above its children, but is not below its parent, sinks to its place. -/
theorem down_spec {h : TimerHeap α Time} (hi : Indexed h) {fuel i : Nat} (hlt : i < h.v.length)
    (hfuel : h.v.length ≤ fuel + i) (hsink : Sinking h.key i) :
    Sifted h (down fuel i h) ∧ Ordered (down fuel i h).key := by
  -- on the way to a leaf
  induction fuel generalizing h i with
  | zero => omega
  | succ fuel ih =>
    unfold down
    dsimp only
    rcases least_cases (h := h) (i := i) with ⟨hm, hmin⟩ | ⟨hgt, hin, hp, hless, hmin⟩
    · rw [if_pos hm]
      exact ⟨.refl hi, hsink.ordered hmin⟩
    rw [if_neg (show h.least i ≠ i by omega)]
    obtain ⟨hswap, hkey⟩ := sifted_swap hi (show i ≠ h.least i by omega) hlt hin
    have hstep := hsink.exchange (show 0 < h.least i by omega) hp hless hmin
    rw [← hkey] at hstep
    obtain ⟨hsift, hord⟩ := ih hswap.indexed (by rw [hswap.length]; exact hin)
      (by rw [hswap.length]; omega) hstep
    exact ⟨hswap.trans hsift, hord⟩

/-- **One whose deadline changed goes to its place**, up or down. -/
theorem sift_spec {h : TimerHeap α Time} (hi : Indexed h) {i : Nat} (hlt : i < h.v.length)
    (hloose : Loose h.key i) : Sifted h (sift i h) ∧ Ordered (sift i h).key := by
  by_cases hup : 0 < i ∧ h.key i < h.key (parent i)
  · obtain ⟨hpos, hless⟩ := hup
    have hsift : sift i h = (up i i h).1 := by
      obtain ⟨k, rfl⟩ : ∃ k, i = k + 1 := ⟨i - 1, by omega⟩
      unfold sift
      have hmoved : (up (k + 1) (k + 1) h).2 = true := by
        unfold up
        rw [if_pos hpos, if_pos hless]
      dsimp only
      rw [if_pos hmoved]
    rw [hsift]
    exact up_spec hi hlt (Nat.le_refl i) (hloose.rising hpos hless)
  · have hsame : up i i h = (h, false) := by
      cases i with
      | zero => rfl
      | succ k =>
        unfold up
        rw [if_pos (Nat.succ_pos k), if_neg fun hless => hup ⟨Nat.succ_pos k, hless⟩]
    have hsift : sift i h = down h.v.length i h := by
      unfold sift
      rw [hsame]
      rfl
    rw [hsift]
    apply down_spec hi hlt (by omega)
    apply hloose.sinking
    intro hpos
    exact le_of_not_gt fun hless => hup ⟨hpos, hless⟩

/-- The deadline of one connection, changed. -/
def setDeadline (t : α) (d : Time) (h : TimerHeap α Time) : TimerHeap α Time :=
  { h with deadline := Function.update h.deadline t d }

/-! ## §6. Arming and disarming. -/

/-- **A connection is armed**, whether it was before or not. -/
theorem update_spec {h : TimerHeap α Time} (hinv : Inv h) (t : α) (d : Time) :
    Inv (update t (setDeadline t d h)) ∧
    (update t (setDeadline t d h)).deadline = Function.update h.deadline t d ∧
    ∀ x, x ∈ (update t (setDeadline t d h)).v ↔ x ∈ h.v ∨ x = t := by
  have hi := hinv.indexed
  cases hidx : h.index t with
  | none =>
    have hnot : t ∉ h.v := by
      rw [hi.mem_iff, hidx]
      simp
    -- the connection at the end, then risen
    let h' : TimerHeap α Time :=
      { setDeadline t d h with
        v := h.v ++ [t], index := Function.update h.index t (some h.v.length) }
    have hupdate : update t (setDeadline t d h) = (up h.v.length h.v.length h').1 := by
      unfold update setDeadline
      dsimp only
      rw [hidx]
      rfl
    have hget : ∀ i, h'.v[i]? = if i = h.v.length then some t else h.v[i]? := by
      intro i
      show (h.v ++ [t])[i]? = _
      by_cases hlast : i = h.v.length
      · subst hlast
        simp
      rw [if_neg hlast]
      by_cases hlt : i < h.v.length
      · exact List.getElem?_append_left hlt
      · rw [List.getElem?_eq_none (by simp; omega), List.getElem?_eq_none (by omega)]
    have hindexed : Indexed h' := by
      refine .of (fun i x hx => ?_) fun x i hx => ?_
      · show Function.update h.index t (some h.v.length) x = some i
        rw [hget] at hx
        split at hx
        next hlast =>
          cases hx
          rw [hlast, Function.update_self]
        next =>
          have hxt : x ≠ t := fun heq => hnot (heq ▸ List.mem_of_getElem? hx)
          rw [Function.update_of_ne hxt]
          exact (hi x i).mpr hx
      · have hx : Function.update h.index t (some h.v.length) x = some i := hx
        show x ∈ h.v ++ [t]
        by_cases hxt : x = t
        · simp [hxt]
        rw [Function.update_of_ne hxt] at hx
        exact List.mem_append_left _ (List.mem_of_getElem? ((hi x i).mp hx))
    have hkey : ∀ i, i ≠ h.v.length → h'.key i = h.key i := by
      intro i hne
      unfold key
      rw [hget, if_neg hne]
      cases hx : h.v[i]? with
      | none => rfl
      | some x =>
        have hxt : x ≠ t := fun heq => hnot (heq ▸ List.mem_of_getElem? hx)
        exact Function.update_of_ne hxt d h.deadline
    have hrise : Rising h'.key h.v.length := by
      refine ⟨hinv.ordered.loose hkey, ?_⟩
      intro c hc hp
      have hlt := parent_lt hc
      rw [hkey c (by omega), key_of_le (show h.v.length ≤ c by omega)]
      exact le_top
    obtain ⟨hsift, hord⟩ := up_spec hindexed (show h.v.length < h'.v.length by simp [h'])
      le_rfl hrise
    rw [hupdate]
    refine ⟨⟨hsift.indexed, hord⟩, hsift.deadline, ?_⟩
    intro x
    rw [hsift.mem]
    show x ∈ h.v ++ [t] ↔ _
    rw [List.mem_append, List.mem_singleton]
  | some i =>
    have hupdate : update t (setDeadline t d h) = sift i (setDeadline t d h) := by
      unfold update
      rw [show (setDeadline t d h).index t = some i from hidx]
    have hget := (hi t i).mp hidx
    have hlt := (List.getElem?_eq_some_iff.mp hget).1
    have hkey : ∀ j, j ≠ i → (setDeadline t d h).key j = h.key j := by
      intro j hne
      unfold key
      show (match h.v[j]? with | some x => _ | none => ⊤) = _
      cases hx : h.v[j]? with
      | none => rfl
      | some x =>
        have hxt : x ≠ t := fun heq => hne (hi.inj (heq ▸ hx) hget)
        exact Function.update_of_ne hxt d h.deadline
    obtain ⟨hsift, hord⟩ := @sift_spec _ _ _ _ _ (setDeadline t d h) hi i hlt
      (hinv.ordered.loose hkey)
    rw [hupdate]
    refine ⟨⟨hsift.indexed, hord⟩, hsift.deadline, ?_⟩
    intro x
    rw [hsift.mem]
    show x ∈ h.v ↔ _
    refine ⟨.inl, ?_⟩
    rintro (hx | rfl)
    · exact hx
    · exact List.mem_of_getElem? hget

/-- The last connection leaves. -/
def pop (h : TimerHeap α Time) (last : α) : TimerHeap α Time :=
  { h with v := h.v.dropLast, index := Function.update h.index last none }

theorem pop_spec {h : TimerHeap α Time} (hinv : Inv h) {last : α} (hsplit : h.v = h.v.dropLast ++ [last]) :
    Inv (h.pop last) ∧ ∀ x, x ∈ (h.pop last).v ↔ x ∈ h.v ∧ x ≠ last := by
  have hi := hinv.indexed
  have hdrop : ∀ j, (h.pop last).v[j]? = if j < h.v.length - 1 then h.v[j]? else none :=
    fun j => List.getElem?_dropLast
  have hnot : last ∉ h.v.dropLast := by
    have hnodup := hi.nodup
    rw [hsplit, List.nodup_append] at hnodup
    exact fun hm => hnodup.2.2 last hm last (List.mem_singleton.mpr rfl) rfl
  have hmem : ∀ x, x ∈ (h.pop last).v ↔ x ∈ h.v ∧ x ≠ last := by
    intro x
    conv_rhs => rw [hsplit, List.mem_append, List.mem_singleton]
    show x ∈ h.v.dropLast ↔ _
    constructor
    · exact fun hx => ⟨.inl hx, fun heq => hnot (heq ▸ hx)⟩
    · rintro ⟨hx | hx, hne⟩
      · exact hx
      · exact absurd hx hne
  refine ⟨⟨.of (fun j x hx => ?_) fun x j hx => ?_, ?_⟩, hmem⟩
  · have hne := ((hmem x).mp (List.mem_of_getElem? hx)).2
    rw [hdrop] at hx
    split at hx
    · exact (Function.update_of_ne hne none h.index).trans ((hi x j).mpr hx)
    · simp at hx
  · by_cases hne : x = last
    · rw [hne] at hx
      simp [pop] at hx
    have hx : Function.update h.index last none x = some j := hx
    rw [Function.update_of_ne hne] at hx
    exact (hmem x).mpr ⟨List.mem_of_getElem? ((hi x j).mp hx), hne⟩
  · apply ordered_dropLast hinv.ordered
    intro j hj
    have hj : j < h.v.dropLast.length := hj
    rw [List.length_dropLast] at hj
    unfold key
    rw [hdrop, if_pos hj]
    rfl

/-- A connection from outside takes the place of one in the heap. -/
def replace (h : TimerHeap α Time) (i : Nat) (t x : α) : TimerHeap α Time :=
  { h with v := h.v.set i x, index := Function.update (Function.update h.index t none) x (some i) }

theorem replace_spec {h : TimerHeap α Time} (hinv : Inv h) {i : Nat} {t x : α} (ht : h.v[i]? = some t)
    (hx : x ∉ h.v) : Indexed (h.replace i t x) ∧ Loose (h.replace i t x).key i ∧
      ∀ y, y ∈ (h.replace i t x).v ↔ y = x ∨ (y ∈ h.v ∧ y ≠ t) := by
  have hi := hinv.indexed
  have hlt := (List.getElem?_eq_some_iff.mp ht).1
  have hget : ∀ j, (h.replace i t x).v[j]? = if j = i then some x else h.v[j]? := by
    intro j
    show (h.v.set i x)[j]? = _
    rw [List.getElem?_set]
    by_cases hj : j = i
    · subst hj
      rw [if_pos rfl, if_pos rfl, if_pos hlt]
    · rw [if_neg (Ne.symm hj), if_neg hj]
  have hmem : ∀ y, y ∈ (h.replace i t x).v ↔ y = x ∨ (y ∈ h.v ∧ y ≠ t) := by
    intro y
    rw [List.mem_iff_getElem?]
    simp only [hget]
    constructor
    · rintro ⟨j, hj⟩
      split at hj
      · exact .inl (Option.some.inj hj).symm
      next hne => exact .inr ⟨List.mem_of_getElem? hj, fun heq => hne (hi.inj hj (heq ▸ ht))⟩
    · rintro (rfl | ⟨hy, hne⟩)
      · exact ⟨i, if_pos rfl⟩
      · obtain ⟨j, hj⟩ := List.mem_iff_getElem?.mp hy
        have hji : j ≠ i := fun heq => hne (Option.some.inj (hj.symm.trans (heq ▸ ht)))
        exact ⟨j, (if_neg hji).trans hj⟩
  refine ⟨.of (fun j y hy => ?_) fun y j hy => ?_, ?_, hmem⟩
  · show Function.update (Function.update h.index t none) x (some i) y = some j
    rw [hget] at hy
    split at hy
    next hj =>
      cases hy
      rw [hj, Function.update_self]
    next hj =>
      have hyx : y ≠ x := fun heq => hx (heq ▸ List.mem_of_getElem? hy)
      have hyt : y ≠ t := fun heq => hj (hi.inj hy (heq ▸ ht))
      rw [Function.update_of_ne hyx, Function.update_of_ne hyt]
      exact (hi y j).mpr hy
  · have hy : Function.update (Function.update h.index t none) x (some i) y = some j := hy
    rw [hmem]
    by_cases hyx : y = x
    · exact .inl hyx
    rw [Function.update_of_ne hyx] at hy
    by_cases hyt : y = t
    · simp [hyt] at hy
    rw [Function.update_of_ne hyt] at hy
    exact .inr ⟨List.mem_of_getElem? ((hi y j).mp hy), hyt⟩
  · apply hinv.ordered.loose
    intro j hne
    unfold key
    rw [hget, if_neg hne]
    rfl

/-- **A connection is disarmed.** -/
theorem remove_spec {h : TimerHeap α Time} (hinv : Inv h) (t : α) :
    Inv (remove t h) ∧ (remove t h).deadline = h.deadline ∧ ∀ x, x ∈ (remove t h).v ↔ x ∈ h.v ∧ x ≠ t := by
  have hi := hinv.indexed
  unfold remove
  cases hidx : h.index t with
  | none =>
    have hnot : t ∉ h.v := by
      rw [hi.mem_iff, hidx]
      simp
    exact ⟨hinv, rfl, fun x => ⟨fun hx => ⟨hx, fun (heq : x = t) => hnot (heq ▸ hx)⟩, And.left⟩⟩
  | some i =>
    have hget := (hi t i).mp hidx
    have hlt := (List.getElem?_eq_some_iff.mp hget).1
    have hne : h.v ≠ [] := List.ne_nil_of_length_pos (by omega)
    have hlast := List.getLast?_eq_some_getLast hne
    obtain ⟨hpop, hmem⟩ := pop_spec hinv (List.dropLast_append_getLast hne).symm
    have hend : h.v[h.v.length - 1]? = some (h.v.getLast hne) := by
      rw [← List.getLast?_eq_getElem?]
      exact hlast
    rw [hlast]
    dsimp only
    rw [List.length_dropLast]
    by_cases hi_end : i = h.v.length - 1
    · -- the last one goes
      obtain rfl : t = h.v.getLast hne := Option.some.inj (hget.symm.trans (hi_end ▸ hend))
      rw [if_pos hi_end]
      exact ⟨hpop, rfl, hmem⟩
    · -- the last one takes its place
      have hlast_ne : h.v.getLast hne ≠ t := fun heq => hi_end (hi.inj hget (hend.trans (by rw [heq])))
      have ht : (h.pop (h.v.getLast hne)).v[i]? = some t :=
        List.getElem?_dropLast.trans ((if_pos (by omega)).trans hget)
      obtain ⟨hindexed, hloose, hmem'⟩ := replace_spec hpop ht
        fun hx : h.v.getLast hne ∈ _ => ((hmem _).mp hx).2 rfl
      have hsame : (h.pop (h.v.getLast hne)).replace i t (h.v.getLast hne) =
          { h with
            v := h.v.dropLast.set i (h.v.getLast hne)
            index := Function.update (Function.update h.index t none) (h.v.getLast hne) (some i) } := by
        unfold replace pop
        rw [Function.update_comm hlast_ne, Function.update_idem]
      have hsift := sift_spec hindexed (by simp [replace, pop]; omega) hloose
      rw [hsame] at hsift hmem'
      rw [if_neg hi_end]
      refine ⟨⟨hsift.1.indexed, hsift.2⟩, hsift.1.deadline, fun x => ?_⟩
      rw [hsift.1.mem, hmem', hmem]
      constructor
      · rintro (rfl | ⟨⟨hx, -⟩, hxt⟩)
        · exact ⟨List.getLast_mem hne, hlast_ne⟩
        · exact ⟨hx, hxt⟩
      · rintro ⟨hx, hxt⟩
        by_cases hxl : x = h.v.getLast hne
        · exact .inl hxl
        · exact .inr ⟨⟨hx, hxl⟩, hxt⟩

end TimerHeap

end Agensio.Quic
