/-
  Agensio.Lib.LinkedQueue — an intrusive singly linked queue over a heap.

  The queue is a head, a tail, a `next` pointer in every cell and a
  membership flag in every cell: FOUR pieces of state that say the same
  thing only as long as every operation edits all of them.  `Represents
  q l` is that agreement, against the plain list `l` of the queued
  cells.

  The operations are the three a round-robin scheduler needs: append at
  the tail, unlink a cell found by walking from the head, and move the
  head to the tail.

  Main results: `push_represents` (`l ++ [p]`), `remove_represents`
  (`l.erase p`), `rotate_represents` (`t ++ [h]`).
-/
import Mathlib.Logic.Function.Basic
import Mathlib.Data.List.Nodup

namespace Agensio.Lib

universe u

variable {α : Type u} [DecidableEq α]

/-! ## §1. The queue and its operations. -/

structure LinkedQueue (α : Type u) where
  head : Option α
  tail : Option α
  next : α → Option α
  queued : α → Bool

namespace LinkedQueue

/-- Append a cell that is not queued. -/
def push (q : LinkedQueue α) (p : α) : LinkedQueue α :=
  let next := Function.update q.next p none
  { head := if q.tail.isSome then q.head else some p
    tail := some p
    next := match q.tail with
      | some t => Function.update next t (some p)
      | none => next
    queued := Function.update q.queued p true }

/-- The cell before `p` on the walk from `cur` (`some none`: `p` is `cur` itself and nothing is
    before it).  The fuel bounds the walk; a list of distinct cells needs its length. -/
def findPrev (next : α → Option α) (p : α) : Nat → Option α → Option α → Option (Option α)
  | 0, _, _ => none
  | _ + 1, _, none => none
  | n + 1, prev, some q => if q = p then some prev else findPrev next p n (some q) (next q)

/-- Unlink `p`: the walk finds its predecessor, the links and the tail close over it. -/
def remove (fuel : Nat) (q : LinkedQueue α) (p : α) : LinkedQueue α :=
  let found := findPrev q.next p fuel none q.head
  { head := if found = some none then q.next p else q.head
    tail := match found with
      | some prev => if q.tail = some p then prev else q.tail
      | none => q.tail
    next := Function.update (match found with
      | some (some r) => Function.update q.next r (q.next p)
      | _ => q.next) p none
    queued := Function.update q.queued p false }

/-- The head to the tail. -/
def rotate (q : LinkedQueue α) : LinkedQueue α :=
  match q.head, q.tail with
  | some h, some t =>
    if h = t then q
    else
      { q with
        head := q.next h
        tail := some h
        next := Function.update (Function.update q.next h none) t (some h) }
  | _, _ => q

/-! ## §2. Chains of cells. -/

/-- Walking from `c` through `next` meets exactly the cells of `l`, then ends. -/
def Chain (next : α → Option α) : Option α → List α → Prop
  | c, [] => c = none
  | c, p :: l => c = some p ∧ Chain next (next p) l

/-- The queue stores the list `l`: links, tail, and flags agree on it. -/
structure Represents (q : LinkedQueue α) (l : List α) : Prop where
  chain : Chain q.next q.head l
  nodup : l.Nodup
  tail_eq : q.tail = l.getLast?
  queued_iff : ∀ p, q.queued p = true ↔ p ∈ l

omit [DecidableEq α] in
theorem chain_congr {next next' : α → Option α} {l : List α} {c : Option α}
    (h : ∀ p ∈ l, next' p = next p) (hc : Chain next c l) : Chain next' c l := by
  induction l generalizing c with
  | nil => exact hc
  | cons p l ih =>
    obtain ⟨hp, hl⟩ := hc
    refine ⟨hp, ?_⟩
    rw [h p (.head _)]
    exact ih (fun r hr => h r (.tail _ hr)) hl

/-- A cell outside the list can be rewritten freely. -/
theorem chain_update_of_notMem {next : α → Option α} {l : List α} {c v : Option α} {p : α}
    (hp : p ∉ l) (hc : Chain next c l) : Chain (Function.update next p v) c l := by
  refine chain_congr (fun r hr => ?_) hc
  have hne : r ≠ p := fun he => hp (he ▸ hr)
  exact Function.update_of_ne hne _ _

/-- The last cell of a chain links to nothing; pointing it at `p` appends `p`. -/
theorem chain_append_last {next : α → Option α} {l : List α} {c : Option α} {t p : α}
    (hnd : (l ++ [t]).Nodup) (hp : p ∉ l ++ [t]) (hnone : next p = none) (hc : Chain next c (l ++ [t])) :
    Chain (Function.update next t (some p)) c (l ++ [t] ++ [p]) := by
  induction l generalizing c with
  | nil =>
    obtain ⟨ht, -⟩ := hc
    have hpt : p ≠ t := fun he => hp (by simp [he])
    refine ⟨ht, ?_, ?_⟩
    · exact Function.update_self ..
    · rw [Function.update_of_ne hpt]
      exact hnone
  | cons q l ih =>
    obtain ⟨hq, hl⟩ := hc
    rw [List.cons_append, List.nodup_cons] at hnd
    have hqt : q ≠ t := fun he => hnd.1 (by simp [he])
    refine ⟨hq, ?_⟩
    rw [Function.update_of_ne hqt]
    exact ih hnd.2 (fun hm => hp (.tail _ hm)) hl

/-- Pointing the cell before `p` past it takes `p` out of the chain. -/
theorem chain_splice {next : α → Option α} {l₁ l₂ : List α} {c : Option α} {r p : α}
    (hnd : (l₁ ++ r :: p :: l₂).Nodup) (hc : Chain next c (l₁ ++ r :: p :: l₂)) :
    Chain (Function.update next r (next p)) c (l₁ ++ r :: l₂) := by
  induction l₁ generalizing c with
  | nil =>
    obtain ⟨hr, -, hl⟩ := hc
    rw [List.nil_append, List.nodup_cons] at hnd
    have hr₂ : r ∉ l₂ := fun hm => hnd.1 (.tail _ hm)
    refine ⟨hr, ?_⟩
    rw [Function.update_self]
    exact chain_update_of_notMem hr₂ hl
  | cons q l₁ ih =>
    obtain ⟨hq, hl⟩ := hc
    rw [List.cons_append, List.nodup_cons] at hnd
    have hqr : q ≠ r := fun he => hnd.1 (by simp [he])
    refine ⟨hq, ?_⟩
    rw [Function.update_of_ne hqr]
    exact ih hnd.2 hl

/-- The walk to `p` stops at it with the last cell before it. -/
theorem findPrev_eq {next : α → Option α} {p : α} {l₁ l₂ : List α} {n : Nat}
    {prev c : Option α} (hn : l₁.length < n) (hp : p ∉ l₁) (hc : Chain next c (l₁ ++ p :: l₂)) :
    findPrev next p n prev c = some (l₁.getLast?.or prev) := by
  induction l₁ generalizing n prev c with
  | nil =>
    obtain ⟨m, rfl⟩ := Nat.exists_eq_succ_of_ne_zero (Nat.ne_of_gt hn)
    obtain ⟨rfl, -⟩ := hc
    simp [findPrev]
  | cons q l₁ ih =>
    obtain ⟨m, rfl⟩ := Nat.exists_eq_succ_of_ne_zero (Nat.ne_of_gt (Nat.zero_lt_of_lt hn))
    obtain ⟨rfl, hl⟩ := hc
    have hqp : q ≠ p := fun he => hp (by simp [he])
    have hm : l₁.length < m := by simpa using hn
    rw [findPrev, if_neg hqp, ih hm (fun h => hp (.tail _ h)) hl]
    cases l₁ with
    | nil => rfl
    | cons a l => simp [List.getLast?_cons]

/-! ## §3. The operations against the list. -/

variable {q : LinkedQueue α} {l : List α}

omit [DecidableEq α] in
theorem Represents.notMem {p : α} (h : q.Represents l) (hp : q.queued p = false) : p ∉ l := by
  intro hm
  have := (h.queued_iff p).mpr hm
  rw [hp] at this
  exact Bool.false_ne_true this

theorem push_represents {p : α} (h : q.Represents l) (hp : q.queued p = false) :
    (q.push p).Represents (l ++ [p]) := by
  have hpl : p ∉ l := h.notMem hp
  have hflags : ∀ r, Function.update q.queued p true r = true ↔ r ∈ l ++ [p] := by
    intro r
    by_cases hr : r = p
    · simp [hr]
    rw [Function.update_of_ne hr, h.queued_iff r]
    simp [hr]
  have hnd : (l ++ [p]).Nodup := by
    rw [List.nodup_append]
    refine ⟨h.nodup, by simp, ?_⟩
    intro a ha b hb he
    have : b = p := by simpa using hb
    exact hpl (this ▸ he ▸ ha)
  have htail : (q.push p).tail = (l ++ [p]).getLast? := by simp [push]
  -- The two shapes of the code: an empty queue sets the head, another one links its tail.
  rcases List.eq_nil_or_concat' l with rfl | ⟨l', t, rfl⟩
  · have ht : q.tail = none := by simpa using h.tail_eq
    refine ⟨?_, hnd, htail, hflags⟩
    simp [push, ht, Chain]
  · have ht : q.tail = some t := by simpa using h.tail_eq
    have hhead : (q.push p).head = q.head := by simp [push, ht]
    have hnext : (q.push p).next = Function.update (Function.update q.next p none) t (some p) := by
      simp [push, ht]
    refine ⟨?_, hnd, htail, hflags⟩
    rw [hhead, hnext]
    exact chain_append_last h.nodup hpl (Function.update_self ..)
      (chain_update_of_notMem hpl h.chain)

theorem remove_represents {p : α} {fuel : Nat} (h : q.Represents l) (hp : p ∈ l)
    (hfuel : l.length ≤ fuel) : (q.remove fuel p).Represents (l.erase p) := by
  obtain ⟨l₁, l₂, hsplit⟩ := List.append_of_mem hp
  subst hsplit
  have hnd := h.nodup
  have hp₁ : p ∉ l₁ := by
    intro hm
    exact (List.nodup_append.mp hnd).2.2 p hm p (.head _) rfl
  have hp₂ : p ∉ l₂ := (List.nodup_cons.mp (List.nodup_append.mp hnd).2.1).1
  have herase : (l₁ ++ p :: l₂).erase p = l₁ ++ l₂ := by
    rw [List.erase_append_right _ hp₁]
    simp
  have hlen : l₁.length < fuel := by
    simp only [List.length_append, List.length_cons] at hfuel
    omega
  have hfind : findPrev q.next p fuel none q.head = some (l₁.getLast?.or none) :=
    findPrev_eq hlen hp₁ h.chain
  have hnd' : (l₁ ++ l₂).Nodup := by
    rw [← herase]
    exact hnd.erase p
  have hflags : ∀ r, Function.update q.queued p false r = true ↔ r ∈ l₁ ++ l₂ := by
    intro r
    by_cases hr : r = p
    · simp [hr, hp₁, hp₂]
    rw [Function.update_of_ne hr, h.queued_iff r]
    simp [hr]
  have htail : (q.remove fuel p).tail = (l₁ ++ l₂).getLast? := by
    have ht := h.tail_eq
    simp only [remove, hfind, Option.or_none]
    cases l₂ with
    | nil => simp_all
    | cons a l =>
      have hlast : (l₁ ++ p :: a :: l).getLast? = (l₁ ++ a :: l).getLast? := by
        simp [List.getLast?_append]
      have hne : q.tail ≠ some p := by
        rw [ht, hlast]
        intro he
        have := List.mem_of_getLast? he
        simp only [List.mem_append] at this
        exact this.elim hp₁ hp₂
      rw [if_neg hne, ht, hlast]
  rw [herase]
  refine ⟨?_, hnd', htail, hflags⟩
  rcases List.eq_nil_or_concat' l₁ with rfl | ⟨l', r, rfl⟩
  · -- `p` is the head: the head moves on
    obtain ⟨-, hl⟩ := h.chain
    simp only [remove, hfind, List.getLast?_nil, Option.or_none, if_pos, List.nil_append]
    exact chain_update_of_notMem hp₂ hl
  · -- `r` stands before `p`: it is linked past it
    have hchain : Chain q.next q.head (l' ++ r :: p :: l₂) := by
      simpa using h.chain
    have hnd₃ : (l' ++ r :: p :: l₂).Nodup := by simpa using hnd
    simp only [remove, hfind, List.getLast?_concat, Option.or_none, Option.some.injEq, reduceCtorEq, if_false]
    have hout : p ∉ l' ++ [r] ++ l₂ := by
      intro hm
      exact (List.mem_append.mp hm).elim hp₁ hp₂
    refine chain_update_of_notMem hout ?_
    simpa using chain_splice hnd₃ hchain

theorem rotate_represents {h : α} {t : List α} (hq : q.Represents (h :: t)) :
    (q.rotate).Represents (t ++ [h]) := by
  obtain ⟨hhead, hchain⟩ := hq.chain
  obtain ⟨hht, hndt⟩ := List.nodup_cons.mp hq.nodup
  have hflags : ∀ p, q.queued p = true ↔ p ∈ t ++ [h] := by
    intro p
    rw [hq.queued_iff p]
    simp [or_comm]
  have hnd : (t ++ [h]).Nodup := by
    rw [List.nodup_append]
    refine ⟨hndt, by simp, ?_⟩
    intro a ha b hb he
    have : b = h := by simpa using hb
    exact hht (this ▸ he ▸ ha)
  rcases List.eq_nil_or_concat' t with rfl | ⟨t', e, rfl⟩
  · -- one cell: nothing moves
    have htail : q.tail = some h := by simpa using hq.tail_eq
    have hrot : q.rotate = q := by simp [rotate, hhead, htail]
    rw [hrot]
    exact hq
  · have htail : q.tail = some e := by
      rw [hq.tail_eq, List.getLast?_cons]
      simp
    have hne : h ≠ e := fun he => hht (by simp [he])
    have hrot : q.rotate = { q with
        head := q.next h, tail := some h,
        next := Function.update (Function.update q.next h none) e (some h) } := by
      simp [rotate, hhead, htail, hne]
    rw [hrot]
    refine ⟨?_, hnd, by simp, hflags⟩
    exact chain_append_last hndt hht (Function.update_self ..)
      (chain_update_of_notMem hht hchain)

end LinkedQueue

end Agensio.Lib
