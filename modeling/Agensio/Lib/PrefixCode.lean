/-
  Agensio.Lib.PrefixCode — prefix codes read as trees.

  A prefix code is a binary tree with a symbol, or nothing, at each leaf;
  `insert` builds it from the codes.  `walk` reads bits from a node and
  starts again at the root after each symbol, `sub` goes down without
  starting again.

  Bits are lists of booleans, the most significant first.

  Main results:
    * `walk_flatMap` / `walk_codes` — what is read as symbols is their
      codes, and the way down to the node reached;
    * `everywhere_sub` — a property checked on the whole tree.
-/
import Mathlib.Data.List.Basic
import Mathlib.Data.Nat.Bitwise

namespace Agensio.Lib

/-! ## §1. Bits of a number. -/

/-- The low `n` bits of `v`, the most significant first. -/
def bitsOf : Nat → Nat → List Bool
  | 0, _ => []
  | n + 1, v => v.testBit n :: bitsOf n v

theorem bitsOf_succ (n v : Nat) : bitsOf (n + 1) v = v.testBit n :: bitsOf n v := rfl

@[simp] theorem length_bitsOf (n v : Nat) : (bitsOf n v).length = n := by
  induction n with
  | zero => rfl
  | succ n ih => simp [bitsOf, ih]

theorem bitsOf_congr {n v w : Nat} (h : ∀ i < n, v.testBit i = w.testBit i) : bitsOf n v = bitsOf n w := by
  induction n with
  | zero => rfl
  | succ n ih =>
    unfold bitsOf
    rw [h n (Nat.lt_succ_self n), ih fun i hi => h i (Nat.lt_succ_of_lt hi)]

theorem bitsOf_mod {n m : Nat} (v : Nat) (h : n ≤ m) : bitsOf n (v % 2 ^ m) = bitsOf n v := by
  apply bitsOf_congr
  intro i hi
  rw [Nat.testBit_mod_two_pow]
  simp [hi.trans_le h]

/-- The high bits, then the low ones. -/
theorem bitsOf_add (m k v : Nat) : bitsOf (m + k) v = bitsOf m (v >>> k) ++ bitsOf k v := by
  induction m with
  | zero => simp [bitsOf]
  | succ m ih =>
    rw [Nat.succ_add, bitsOf_succ, bitsOf_succ, ih, Nat.testBit_shiftRight, List.cons_append,
      Nat.add_comm k m]

/-- A code written behind what is there already. -/
theorem bitsOf_or_shiftLeft {m k a c : Nat} (hc : c < 2 ^ k) :
    bitsOf (m + k) ((a <<< k) ||| c) = bitsOf m a ++ bitsOf k c := by
  rw [bitsOf_add]
  congr 1
  · apply bitsOf_congr
    intro i _
    have hzero : c.testBit (k + i) = false :=
      Nat.testBit_lt_two_pow (Nat.lt_of_lt_of_le hc (Nat.pow_le_pow_right (by omega) (by omega)))
    rw [Nat.testBit_shiftRight, Nat.testBit_or, Nat.testBit_shiftLeft, hzero, Bool.or_false]
    simp
  · apply bitsOf_congr
    intro i hi
    rw [Nat.testBit_or, Nat.testBit_shiftLeft]
    simp [Nat.not_le.mpr hi]

theorem bitsOf_ones (k : Nat) : bitsOf k (2 ^ k - 1) = List.replicate k true := by
  have h : ∀ j ≤ k, bitsOf j (2 ^ k - 1) = List.replicate j true := by
    intro j
    induction j with
    | zero => exact fun _ => rfl
    | succ j ih =>
      intro hj
      unfold bitsOf
      rw [ih (by omega), Nat.testBit_two_pow_sub_one, decide_eq_true (by omega)]
      rfl
  exact h k (Nat.le_refl k)

/-! ## §2. Trees. -/

/-- A code tree; the inner nodes carry a number by which a table can name them. -/
inductive CodeTree (α : Type) where
  | leaf (symbol : Option α)
  | node (name : Nat) (zero one : CodeTree α)

namespace CodeTree

variable {α : Type}

def name : CodeTree α → Nat
  | .leaf _ => 0
  | .node n _ _ => n

/-- One code more. -/
def insert : CodeTree α → List Bool → α → CodeTree α
  | _, [], a => .leaf (some a)
  | .leaf _, b :: bs, a =>
    if b then .node 0 (.leaf none) (insert (.leaf none) bs a)
    else .node 0 (insert (.leaf none) bs a) (.leaf none)
  | .node n z o, b :: bs, a => if b then .node n z (insert o bs a) else .node n (insert z bs a) o

/-- The inner nodes numbered in preorder, from `k` on. -/
def number : CodeTree α → Nat → CodeTree α × Nat
  | .leaf s, k => (.leaf s, k)
  | .node _ z o, k =>
    let left := number z (k + 1)
    let right := number o left.2
    (.node k left.1 right.1, right.2)

/-- Read bits from `t`; a symbol starts again at the root, a leaf without one is an error. -/
def walk (root : CodeTree α) : CodeTree α → List Bool → Option (List α × CodeTree α)
  | t, [] => some ([], t)
  | .leaf _, _ :: _ => none
  | .node _ z o, b :: bs =>
    match if b then o else z with
    | .leaf none => none
    | .leaf (some a) => (walk root root bs).map fun r => (a :: r.1, r.2)
    | .node n z' o' => walk root (.node n z' o') bs

/-- Go down from `t`. -/
def sub : CodeTree α → List Bool → Option (CodeTree α)
  | t, [] => some t
  | .leaf _, _ :: _ => none
  | .node _ z o, b :: bs => sub (if b then o else z) bs

/-- What a walk gives that ends at this node. -/
def arrive (root : CodeTree α) : CodeTree α → Option (List α × CodeTree α)
  | .leaf none => none
  | .leaf (some a) => some ([a], root)
  | .node n z o => some ([], .node n z o)

/-- The test holds at every node, given the way there. -/
def everywhere (P : List Bool → CodeTree α → Bool) : List Bool → CodeTree α → Bool
  | p, .leaf s => P p (.leaf s)
  | p, .node n z o =>
    P p (.node n z o) && everywhere P (p ++ [false]) z && everywhere P (p ++ [true]) o

variable {root t t' : CodeTree α} {bs : List Bool}

theorem walk_nil (root t : CodeTree α) : walk root t [] = some ([], t) := by
  cases t <;> rfl

theorem sub_nil (t : CodeTree α) : sub t [] = some t := by
  cases t <;> rfl

theorem walk_cons (root z o : CodeTree α) (n : Nat) (b : Bool) (bs : List Bool) :
    walk root (.node n z o) (b :: bs) =
      match if b then o else z with
      | .leaf none => none
      | .leaf (some a) => (walk root root bs).map fun r => (a :: r.1, r.2)
      | .node n z' o' => walk root (.node n z' o') bs := rfl

theorem walk_append (root t : CodeTree α) (xs ys : List Bool) : walk root t (xs ++ ys) =
      (walk root t xs).bind fun r => (walk root r.2 ys).map fun r' => (r.1 ++ r'.1, r'.2) := by
  induction xs generalizing t with
  | nil =>
    cases t with
    | leaf s => simp [walk]
    | node n z o => simp [walk]
  | cons b bs ih =>
    cases t with
    | leaf s => simp [walk]
    | node n z o =>
      rw [List.cons_append, walk_cons, walk_cons]
      cases (if b then o else z) with
      | leaf s =>
        cases s with
        | none => rfl
        | some a =>
          dsimp only
          rw [ih]
          cases walk root root bs with
          | none => rfl
          | some r =>
            simp only [Option.bind_some, Option.map_some, Option.map_map]
            cases walk root r.2 ys <;> rfl
      | node n' z' o' =>
        dsimp only
        exact ih _

/-- Codes one behind the other are read as their symbols. -/
theorem walk_flatMap {root : CodeTree α} {β : Type} {code : β → List Bool} {symbol : β → α}
    (s : List β) (h : ∀ a ∈ s, walk root root (code a) = some ([symbol a], root)) :
    walk root root (s.flatMap code) = some (s.map symbol, root) := by
  induction s with
  | nil =>
    cases root with
    | leaf s => rfl
    | node n z o => rfl
  | cons a s ih =>
    rw [List.flatMap_cons, walk_append, h a (.head _), Option.bind_some,
      ih fun x hx => h x (.tail _ hx)]
    rfl

theorem sub_append (t : CodeTree α) (p q : List Bool) : sub t (p ++ q) = (sub t p).bind (sub · q) := by
  induction p generalizing t with
  | nil =>
    rw [sub_nil]
    rfl
  | cons b p ih =>
    cases t with
    | leaf s => rfl
    | node n z o => exact ih _

theorem everywhere_sub {P : List Bool → CodeTree α → Bool} {p q : List Bool}
    (h : everywhere P p t = true) (hs : sub t q = some t') : P (p ++ q) t' = true := by
  induction q generalizing t p with
  | nil =>
    rw [sub_nil] at hs
    obtain rfl := Option.some.inj hs
    rw [List.append_nil]
    cases t with
    | leaf s => exact h
    | node n z o =>
      unfold everywhere at h
      rw [Bool.and_eq_true, Bool.and_eq_true] at h
      exact h.1.1
  | cons b q ih =>
    cases t with
    | leaf s => simp [sub] at hs
    | node n z o =>
      unfold everywhere at h
      rw [Bool.and_eq_true, Bool.and_eq_true] at h
      rw [List.append_cons]
      cases b with
      | true => exact ih h.2 hs
      | false => exact ih h.1.2 hs

/-- Down to a symbol, or down to an inner node. -/
theorem walk_sub (hne : bs ≠ []) (hs : sub t bs = some t') : walk root t bs = arrive root t' := by
  induction bs generalizing t with
  | nil => exact absurd rfl hne
  | cons b bs ih =>
    cases t with
    | leaf s => simp [sub] at hs
    | node n z o =>
      rw [walk_cons]
      have hs : sub (if b then o else z) bs = some t' := hs
      cases hc : (if b then o else z) with
      | node n' z' o' =>
        rw [hc] at hs
        cases bs with
        | nil =>
          cases hs
          exact walk_nil _ _
        | cons b' bs => exact ih (List.cons_ne_nil b' bs) hs
      | leaf s =>
        rw [hc] at hs
        cases bs with
        | cons b' bs => simp [sub] at hs
        | nil =>
          cases hs
          cases s with
          | none => rfl
          | some a =>
            dsimp only [arrive]
            rw [walk_nil]
            rfl

/-- **What was read.**  The bits are the codes of the symbols and the way down to the node
    reached; `p` is the way to where the walk began. -/
theorem walk_codes {code : α → List Bool} {n : Nat} {z o : CodeTree α} {p : List Bool} {out : List α}
    (hroot : root = .node n z o) (hcode : ∀ c a, sub root c = some (.leaf (some a)) → c = code a)
    {m : Nat} {z₁ o₁ : CodeTree α} (hp : sub root p = some (.node m z₁ o₁))
    (h : walk root (.node m z₁ o₁) bs = some (out, t')) :
    ∃ path m' z' o', p ++ bs = out.flatMap code ++ path ∧ t' = .node m' z' o' ∧ sub root path = some t' := by
  induction bs generalizing p m z₁ o₁ out with
  | nil =>
    cases h
    exact ⟨p, m, z₁, o₁, List.append_nil p, rfl, hp⟩
  | cons b bs ih =>
    rw [walk_cons] at h
    have hchild : sub root (p ++ [b]) = some (if b then o₁ else z₁) := by
      rw [sub_append, hp]
      exact sub_nil _
    rw [List.append_cons]
    cases hc : (if b then o₁ else z₁) with
    | node m' z' o' =>
      rw [hc] at h hchild
      exact ih hchild h
    | leaf s =>
      rw [hc] at h hchild
      cases s with
      | none => simp at h
      | some a =>
        -- a symbol is complete: its code is the way, and the walk is back at the root
        obtain ⟨⟨out', t''⟩, hrest, heq⟩ := Option.map_eq_some_iff.mp h
        cases heq
        have hrest : walk root (.node n z o) bs = some (out', t'') := by rwa [← hroot]
        obtain ⟨path, m', z', o', hbits, ht, hpath⟩ := ih (by rw [sub_nil, hroot]) hrest
        refine ⟨path, m', z', o', ?_, ht, hpath⟩
        rw [hcode _ a hchild, List.flatMap_cons, List.append_assoc, ← hbits]
        rfl

end CodeTree

end Agensio.Lib
