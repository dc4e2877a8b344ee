/-
  Agensio.Lib.FrameStream — frames of a type, a length and a payload.

  A stream of frames read symbol by symbol: the header is held until it
  is complete, the payload is counted down.  What has been read is a list
  of events, so how the stream was split into arrivals cannot matter
  (`feed_append`).  A parser that takes whole headers and runs of payload
  at a time is compared with this one by `feed_header`, `feed_held` and
  `feed_payload`.

  The end of an empty frame is read with the symbol after it.

  `sift` drops the frames of some types from a stream, again symbol by
  symbol, so that a stream and what is left of it can be read side by
  side (`sift_header`, `sift_payload`).
-/
import Mathlib.Data.List.Basic

namespace Agensio.Lib

/-- Reads a frame header off the front: the type, the length of the payload, and the number of
    symbols of the header.  A header is read whatever follows it, and no part of it is one. -/
structure HeaderReader (β τ : Type) where
  read : List β → Option (τ × Nat × Nat)
  read_nil : read [] = none
  le_length : ∀ {p t n k}, read p = some (t, n, k) → 0 < k ∧ k ≤ p.length
  stable : ∀ {p t n k}, read p = some (t, n, k) → ∀ q, read (p.take k ++ q) = some (t, n, k)
  prompt : ∀ {p t n k}, read p = some (t, n, k) → ∀ j, j < k → read (p.take j) = none

variable {β τ : Type}

/-- Where the reader is: in a header of which `held` was read, or in a payload. -/
inductive FrameMode (β τ : Type) where
  | between (held : List β)
  | inside (type : τ) (left : Nat)
  deriving DecidableEq

inductive FrameEvent (β τ : Type) where
  | header (raw : List β) (type : τ) (length : Nat)
  | payload (type : τ) (symbol : β)
  | done (type : τ)

namespace HeaderReader

variable (r : HeaderReader β τ)

/-- One more symbol of a header. -/
def hold (held : List β) (b : β) : FrameMode β τ × List (FrameEvent β τ) :=
  match r.read (held ++ [b]) with
  | none => (.between (held ++ [b]), [])
  | some (t, n, _) => (.inside t n, [.header (held ++ [b]) t n])

def advance : FrameMode β τ → β → FrameMode β τ × List (FrameEvent β τ)
  | .between held, b => r.hold held b
  | .inside t 0, b => ((r.hold [] b).1, .done t :: (r.hold [] b).2)
  | .inside t 1, b => (.between [], [.payload t b, .done t])
  | .inside t (n + 2), b => (.inside t (n + 1), [.payload t b])

def feed : FrameMode β τ → List β → FrameMode β τ × List (FrameEvent β τ)
  | m, [] => (m, [])
  | m, b :: bs => ((feed (r.advance m b).1 bs).1, (r.advance m b).2 ++ (feed (r.advance m b).1 bs).2)

/-- **Splitting.**  Two arrivals are read as one. -/
theorem feed_append (m : FrameMode β τ) (bs bs' : List β) : r.feed m (bs ++ bs') =
      ((r.feed (r.feed m bs).1 bs').1, (r.feed m bs).2 ++ (r.feed (r.feed m bs).1 bs').2) := by
  induction bs generalizing m with
  | nil => simp [feed]
  | cons b bs ih =>
    show (((r.feed (r.advance m b).1 (bs ++ bs'))).1, _ ++ (r.feed (r.advance m b).1 (bs ++ bs')).2) = _
    rw [ih]
    simp [feed]

/-- Symbols that make no header are held. -/
theorem feed_held (held bs : List β) (h : ∀ j, j < bs.length → r.read (held ++ bs.take (j + 1)) = none) :
    r.feed (.between held) bs = (.between (held ++ bs), []) := by
  induction bs generalizing held with
  | nil => simp [feed]
  | cons b bs ih =>
    have hone : r.advance (.between held) b = (.between (held ++ [b]), []) := by
      have h₀ := h 0 (by simp)
      simp only [List.take_succ_cons, List.take_zero] at h₀
      show r.hold held b = _
      unfold hold
      rw [h₀]
    have hrest : ∀ j, j < bs.length → r.read ((held ++ [b]) ++ bs.take (j + 1)) = none := by
      intro j hj
      have hj' := h (j + 1) (by simpa using hj)
      simpa using hj'
    show ((r.feed (r.advance (.between held) b).1 bs).1,
      (r.advance (.between held) b).2 ++ (r.feed (r.advance (.between held) b).1 bs).2) = _
    rw [hone, ih _ hrest]
    simp

/-- No part of what holds no header holds one. -/
theorem read_take_none {p : List β} (h : r.read p = none) (j : Nat) : r.read (p.take j) = none := by
  cases hj : r.read (p.take j) with
  | none => rfl
  | some x =>
    obtain ⟨t, n, k⟩ := x
    -- a header in the part would be read in the whole
    have hk := (r.le_length hj).2
    have hst := r.stable hj (p.drop k)
    rw [List.take_take, Nat.min_eq_left, List.take_append_drop, h] at hst
    · simp at hst
    · rw [List.length_take] at hk
      omega

/-- What holds no header yet is held whole. -/
theorem feed_incomplete {bs : List β} (h : r.read bs = none) :
    r.feed (.between []) bs = (.between bs, []) := by
  apply feed_held
  intro j _
  rw [List.nil_append]
  exact r.read_take_none h (j + 1)

variable {n : Nat}

/-- A header read whole is the header read symbol by symbol. -/
theorem feed_header {bs : List β} {t : τ} {k : Nat} (h : r.read bs = some (t, n, k)) :
    r.feed (.between []) bs = ((r.feed (.inside t n) (bs.drop k)).1,
        .header (bs.take k) t n :: (r.feed (.inside t n) (bs.drop k)).2) := by
  obtain ⟨hpos, hk⟩ := r.le_length h
  obtain ⟨j, rfl⟩ : ∃ j, k = j + 1 := ⟨k - 1, by omega⟩
  -- all but the last symbol are held
  have hheld : r.feed (.between []) (bs.take j) = (.between (bs.take j), []) :=
    r.feed_incomplete (r.prompt h j (Nat.lt_succ_self j))
  obtain ⟨b, hb⟩ : ∃ b, bs.drop j = b :: bs.drop (j + 1) := by
    have hlt : j < bs.length := by omega
    exact ⟨bs[j], List.drop_eq_getElem_cons hlt⟩
  have htake : bs.take (j + 1) = bs.take j ++ [b] := by
    have hsplit : bs.take (j + 1) = bs.take j ++ (bs.drop j).take 1 := List.take_add
    rw [hsplit, hb, List.take_succ_cons, List.take_zero]
  have hread : r.read (bs.take j ++ [b]) = some (t, n, j + 1) := by
    rw [← htake]
    have := r.stable h []
    rwa [List.append_nil] at this
  have hlast : r.advance (.between (bs.take j)) b = (.inside t n, [.header (bs.take (j + 1)) t n]) := by
    show r.hold (bs.take j) b = _
    unfold hold
    rw [hread, htake]
  calc r.feed (.between []) bs
      = r.feed (.between []) (bs.take j ++ b :: bs.drop (j + 1)) := by
        rw [← hb, List.take_append_drop]
    _ = _ := by
        rw [feed_append, hheld]
        show ((r.feed (r.advance _ b).1 _).1, [] ++ ((r.advance _ b).2 ++ (r.feed (r.advance _ b).1 _).2)) = _
        rw [hlast]
        rfl

/-- A run of payload that does not end the frame. -/
theorem feed_payload {t : τ} {bs : List β} (h : bs.length < n) :
    r.feed (.inside t n) bs = (.inside t (n - bs.length), bs.map (.payload t)) := by
  induction bs generalizing n with
  | nil => simp [feed]
  | cons b bs ih =>
    obtain ⟨m, rfl⟩ : ∃ m, n = m + 2 := ⟨n - 2, by simp at h; omega⟩
    show ((r.feed (.inside t (m + 1)) bs).1, [.payload t b] ++ (r.feed (.inside t (m + 1)) bs).2) = _
    rw [ih (by simp at h; omega)]
    simp only [List.length_cons, List.map_cons, List.singleton_append, Prod.mk.injEq, and_true]
    congr 1
    omega

/-- A run of payload that ends the frame. -/
theorem feed_payload_done {t : τ} {bs : List β} (h : bs ≠ []) :
    r.feed (.inside t bs.length) bs = (.between [], bs.map (.payload t) ++ [.done t]) := by
  induction bs with
  | nil => exact absurd rfl h
  | cons b bs ih =>
    cases bs with
    | nil => rfl
    | cons c cs =>
      show ((r.feed (.inside t (c :: cs).length) (c :: cs)).1,
        [.payload t b] ++ (r.feed (.inside t (c :: cs).length) (c :: cs)).2) = _
      rw [ih (by simp)]
      simp

/-- The types seen through `f`. -/
def map {σ : Type} (f : τ → σ) : HeaderReader β σ where
  read p := (r.read p).map fun x => (f x.1, x.2)
  read_nil := by rw [r.read_nil]; rfl
  le_length := by
    intro p t n k h
    obtain ⟨⟨t', n', k'⟩, hread, heq⟩ := Option.map_eq_some_iff.mp h
    simp only [Prod.mk.injEq] at heq
    obtain ⟨-, rfl, rfl⟩ := heq
    exact r.le_length hread
  stable := by
    intro p t n k h q
    obtain ⟨⟨t', n', k'⟩, hread, heq⟩ := Option.map_eq_some_iff.mp h
    simp only [Prod.mk.injEq] at heq
    obtain ⟨rfl, rfl, rfl⟩ := heq
    rw [r.stable hread q]
    rfl
  prompt := by
    intro p t n k h j hj
    obtain ⟨⟨t', n', k'⟩, hread, heq⟩ := Option.map_eq_some_iff.mp h
    simp only [Prod.mk.injEq] at heq
    obtain ⟨-, rfl, rfl⟩ := heq
    rw [r.prompt hread j hj]
    rfl

end HeaderReader

/-! ## Dropping frames. -/

/-- The symbols of a frame that is kept. -/
def FrameEvent.kept : FrameEvent β Bool → List β
  | .header raw true _ => raw
  | .payload true b => [b]
  | _ => []

/-- An empty frame that is being left is left. -/
def FrameMode.norm : FrameMode β τ → FrameMode β τ
  | .inside _ 0 => .between []
  | m => m

namespace HeaderReader

variable (r : HeaderReader β Bool)

/-- The symbols of the frames that are kept, as far as their headers are complete. -/
def sift (m : FrameMode β Bool) (bs : List β) : FrameMode β Bool × List β :=
  ((r.feed m bs).1, (r.feed m bs).2.flatMap FrameEvent.kept)

theorem sift_nil (m : FrameMode β Bool) : r.sift m [] = (m, []) := rfl

theorem sift_append (m : FrameMode β Bool) (bs bs' : List β) : r.sift m (bs ++ bs') =
      ((r.sift (r.sift m bs).1 bs').1, (r.sift m bs).2 ++ (r.sift (r.sift m bs).1 bs').2) := by
  unfold sift
  rw [feed_append, List.flatMap_append]

theorem sift_incomplete {bs : List β} (h : r.read bs = none) :
    r.sift (.between []) bs = (.between bs, []) := by
  unfold sift
  rw [r.feed_incomplete h]
  rfl

theorem sift_header {bs : List β} {t : Bool} {n k : Nat} (h : r.read bs = some (t, n, k)) :
    r.sift (.between []) bs = ((r.sift (.inside t n) (bs.drop k)).1,
        (if t then bs.take k else []) ++ (r.sift (.inside t n) (bs.drop k)).2) := by
  unfold sift
  rw [r.feed_header h, List.flatMap_cons]
  cases t <;> rfl

/-- Where an empty frame is left makes no difference. -/
theorem sift_norm (m : FrameMode β Bool) (bs : List β) : (r.sift m bs).2 = (r.sift m.norm bs).2 ∧
      (r.sift m bs).1.norm = (r.sift m.norm bs).1.norm := by
  cases m with
  | between held => exact ⟨rfl, rfl⟩
  | inside t n =>
    cases n with
    | succ n => exact ⟨rfl, rfl⟩
    | zero =>
      cases bs with
      | nil => exact ⟨rfl, rfl⟩
      | cons b bs =>
        unfold sift
        show (((r.advance (.inside t 0) b).2 ++ _).flatMap _ = _) ∧ _
        refine ⟨?_, rfl⟩
        show ((FrameEvent.done t :: (r.hold [] b).2) ++ _).flatMap _ = _
        rw [List.cons_append, List.flatMap_cons]
        rfl

theorem flatMap_kept_payload (t : Bool) (bs : List β) :
    (bs.map (FrameEvent.payload t)).flatMap FrameEvent.kept = if t then bs else [] := by
  induction bs with
  | nil => cases t <;> rfl
  | cons b bs ih =>
    rw [List.map_cons, List.flatMap_cons, ih]
    cases t <;> rfl

/-- A run of payload is kept or dropped as a whole. -/
theorem sift_payload (t : Bool) {n k : Nat} {l : List β} (hk : k ≤ n) (hlen : k ≤ l.length) :
    (r.sift (.inside t n) l).2 =
        (if t then l.take k else []) ++ (r.sift (.inside t (n - k)) (l.drop k)).2 ∧
      (r.sift (.inside t n) l).1.norm = (r.sift (.inside t (n - k)) (l.drop k)).1.norm := by
  have htake : (l.take k).length = k := by
    rw [List.length_take]
    omega
  have hsplit := r.sift_append (.inside t n) (l.take k) (l.drop k)
  rw [List.take_append_drop] at hsplit
  -- the run alone
  have hrun : (r.sift (.inside t n) (l.take k)).2 = (if t then l.take k else []) ∧
      (r.sift (.inside t n) (l.take k)).1.norm = (FrameMode.inside t (n - k)).norm := by
    rcases Nat.lt_or_ge k n with hlt | hge
    · unfold sift
      rw [r.feed_payload (by omega), htake]
      exact ⟨flatMap_kept_payload t _, rfl⟩
    · obtain rfl : k = n := by omega
      cases hz : k with
      | zero => cases t <;> exact ⟨rfl, rfl⟩
      | succ j =>
        have hne : l.take k ≠ [] := by
          intro hnil
          rw [hnil] at htake
          rw [← htake] at hz
          simp at hz
        rw [← hz]
        have hfeed := r.feed_payload_done (t := t) hne
        rw [htake] at hfeed
        unfold sift
        rw [hfeed, List.flatMap_append, flatMap_kept_payload, Nat.sub_self]
        refine ⟨?_, rfl⟩
        show _ ++ [] = _
        rw [List.append_nil]
  obtain ⟨hout, hmode⟩ := hrun
  rw [hsplit]
  dsimp only
  have h₁ := r.sift_norm (r.sift (.inside t n) (l.take k)).1 (l.drop k)
  have h₂ := r.sift_norm (.inside t (n - k)) (l.drop k)
  rw [hmode] at h₁
  exact ⟨by rw [hout, h₁.1, ← h₂.1], h₁.2.trans h₂.2.symm⟩

end HeaderReader

end Agensio.Lib
