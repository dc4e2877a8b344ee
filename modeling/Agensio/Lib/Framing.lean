/-
  Agensio.Lib.Framing — messages on a byte stream.

  A receiver keeps the bytes it has not consumed and reads messages off
  their front until one is incomplete (`frames`).  If a whole message is
  read whatever follows it, and a message cut short is waited for, then
  it does not matter how the stream is split: after every delivery the
  receiver has acted on a prefix of the messages sent, and what it keeps
  is the beginning of the next one (`frames_spec`).

  Of bytes that need not be an encoding the same holds with the loop
  itself on the other side: arrival by arrival it ends where it ends on
  all of them at once (`drain_arrivals`), if the reader is `Steady`.
-/
import Mathlib.Data.List.Basic
import Mathlib.Data.List.Induction

namespace Agensio.Lib

/-! ## §1. Prefixes. -/

/-- A prefix of `a ++ b` is cut inside `a` or behind it. -/
theorem prefix_append_cases {β : Type} {p a b : List β} (h : p <+: a ++ b) :
    p <+: a ∧ p ≠ a ∨ ∃ q, p = a ++ q ∧ q <+: b := by
  rcases Nat.lt_or_ge p.length a.length with hlt | hge
  · left
    refine ⟨List.prefix_of_prefix_length_le h (List.prefix_append a b) (Nat.le_of_lt hlt), ?_⟩
    rintro rfl
    exact Nat.lt_irrefl _ hlt
  · right
    obtain ⟨q, rfl⟩ := List.prefix_of_prefix_length_le (List.prefix_append a b) h hge
    exact ⟨q, rfl, (List.prefix_append_right_inj a).mp h⟩

/-! ## §2. The receiver's loop. -/

/-- What reading one message can come to. -/
inductive Outcome (σ β : Type) where
  | incomplete
  | failed
  | done (state : σ) (rest : List β)

variable {σ β μ : Type}

/-- Read messages while they are complete: the state reached and the bytes kept. -/
def frames (next : σ → List β → Outcome σ β) : Nat → σ → List β → Option (σ × List β)
  | 0, s, bs => some (s, bs)
  | fuel + 1, s, bs =>
    if bs.length = 0 then some (s, bs)
    else
      match next s bs with
      | .incomplete => some (s, bs)
      | .failed => none
      | .done s' rest => frames next fuel s' rest

/-- Each of the messages can be acted on in its turn. -/
def AllOk (ok : σ → μ → Prop) (act : σ → μ → σ) : σ → List μ → Prop
  | _, [] => True
  | s, m :: ms => ok s m ∧ AllOk ok act (act s m) ms

/-- The bytes kept: nothing, or the beginning of the next message. -/
def Waiting (enc : μ → List β) (kept : List β) : List μ → Prop
  | [] => kept = []
  | m :: _ => kept <+: enc m ∧ kept ≠ enc m

section Spec

variable {next : σ → List β → Outcome σ β} {enc : μ → List β} {act : σ → μ → σ}
  {ok : σ → μ → Prop} (henc : ∀ m, enc m ≠ [])
  (hdone : ∀ s m rest, ok s m → next s (enc m ++ rest) = .done (act s m) rest)
  (hcut : ∀ s m p, ok s m → p ≠ [] → p <+: enc m → p ≠ enc m → next s p = .incomplete)

include henc hdone hcut in
/-- **Splitting does not matter.**  Of bytes that begin the encoding of `ms` the receiver acts on
    the whole messages and keeps the cut one. -/
theorem frames_spec (fuel : Nat) {s : σ} {ms : List μ} {bs : List β} (hok : AllOk ok act s ms)
    (hpre : bs <+: ms.flatMap enc) (hfuel : bs.length ≤ fuel) :
    ∃ ms₁ ms₂ kept, ms = ms₁ ++ ms₂ ∧ bs = ms₁.flatMap enc ++ kept ∧ Waiting enc kept ms₂ ∧
      frames next fuel s bs = some (ms₁.foldl act s, kept) := by
  -- the fuel bounds the bytes, each message takes at least one of them
  induction fuel generalizing s ms bs with
  | zero =>
    obtain rfl : bs = [] := List.length_eq_zero_iff.mp (Nat.le_zero.mp hfuel)
    refine ⟨[], ms, [], rfl, rfl, ?_, rfl⟩
    cases ms with
    | nil => exact rfl
    | cons m ms => exact ⟨List.nil_prefix, (henc m).symm⟩
  | succ fuel ih =>
    unfold frames
    by_cases hnil : bs.length = 0
    · obtain rfl : bs = [] := List.length_eq_zero_iff.mp hnil
      refine ⟨[], ms, [], rfl, rfl, ?_, if_pos rfl⟩
      cases ms with
      | nil => exact rfl
      | cons m ms => exact ⟨List.nil_prefix, (henc m).symm⟩
    · rw [if_neg hnil]
      cases ms with
      | nil =>
        exact absurd (by rw [List.prefix_nil.mp hpre]; rfl) hnil
      | cons m ms =>
        rw [List.flatMap_cons] at hpre
        rcases prefix_append_cases hpre with ⟨hshort, hne⟩ | ⟨q, rfl, hq⟩
        · -- the first message is not whole
          rw [hcut s m bs hok.1 (fun h => hnil (by rw [h]; rfl)) hshort hne]
          exact ⟨[], m :: ms, bs, rfl, rfl, ⟨hshort, hne⟩, rfl⟩
        · rw [hdone s m q hok.1]
          have hlen : q.length ≤ fuel := by
            have := List.length_pos_iff.mpr (henc m)
            rw [List.length_append] at hfuel
            omega
          obtain ⟨ms₁, ms₂, kept, rfl, rfl, hw, hrun⟩ := ih hok.2 hq hlen
          refine ⟨m :: ms₁, ms₂, kept, rfl, ?_, hw, hrun⟩
          rw [List.flatMap_cons, List.append_assoc]

end Spec

/-- Nothing left on the way: all messages have been acted on. -/
theorem Waiting.eq_nil {enc : μ → List β} {ms : List μ} {kept : List β} (h : Waiting enc kept ms)
    (hall : kept = ms.flatMap enc) : ms = [] := by
  cases ms with
  | nil => rfl
  | cons m ms =>
    have hle : (enc m).length ≤ kept.length := by
      rw [hall, List.flatMap_cons, List.length_append]
      omega
    exact absurd (h.1.eq_of_length (Nat.le_antisymm h.1.length_le hle)) h.2

/-! ## §3. Bytes that need not be an encoding. -/

/-- What the loop leaves: the state, the messages acted on, the bytes kept, and whether it gave up. -/
structure Drained (σ β : Type) where
  state : σ
  applied : List (List β) := []
  kept : List β := []
  failed : Bool := false

/-- `frames`, with the messages it acted on and the state it gave up in. -/
def drain (next : σ → List β → Outcome σ β) : Nat → σ → List β → Drained σ β
  | 0, s, bs => { state := s, kept := bs }
  | fuel + 1, s, bs =>
    if bs.length = 0 then { state := s, kept := bs }
    else
      match next s bs with
      | .incomplete => { state := s, kept := bs }
      | .failed => { state := s, kept := bs, failed := true }
      | .done s' rest =>
        { drain next fuel s' rest with
          applied := bs.take (bs.length - rest.length) :: (drain next fuel s' rest).applied }

/-- The same outcome with more bytes behind it. -/
def Outcome.followed (more : List β) : Outcome σ β → Outcome σ β
  | .incomplete => .incomplete
  | .failed => .failed
  | .done s rest => .done s (rest ++ more)

/-- What is read or refused is so whatever follows it, and reading takes something. -/
structure Steady (next : σ → List β → Outcome σ β) : Prop where
  whole : ∀ {s bs}, next s bs ≠ .incomplete →
    ∀ more, next s (bs ++ more) = (next s bs).followed more
  takes : ∀ {s bs s' rest}, next s bs = .done s' rest → ∃ m, m ≠ [] ∧ bs = m ++ rest

/-- The next bytes arrive behind those kept; after a failure nothing is read. -/
def arrive (next : σ → List β → Outcome σ β) (r : Drained σ β) (piece : List β) : Drained σ β :=
  if r.failed then { r with kept := r.kept ++ piece }
  else
    let r' := drain next (r.kept ++ piece).length r.state (r.kept ++ piece)
    { r' with applied := r.applied ++ r'.applied }

/-- The arrivals one after the other. -/
def arrivals (next : σ → List β → Outcome σ β) (s : σ) (pieces : List (List β)) : Drained σ β :=
  pieces.foldl (arrive next) { state := s }

/-- The messages `ms` acted on, each where the one before it ended, until `rest` is left. -/
inductive Reads (next : σ → List β → Outcome σ β) : σ → List β → List (List β) → σ → List β → Prop where
  | refl (s : σ) (bs : List β) : Reads next s bs [] s bs
  | step {s s' s'' : σ} {m rest rest' : List β} {ms : List (List β)}
      (h : next s (m ++ rest) = .done s' rest) (hrest : Reads next s' rest ms s'' rest') :
      Reads next s (m ++ rest) (m :: ms) s'' rest'

/-- The messages and what is left are the bytes. -/
theorem Reads.split {next : σ → List β → Outcome σ β} {s s' : σ} {bs rest : List β}
    {ms : List (List β)} (h : Reads next s bs ms s' rest) : ms.flatten ++ rest = bs := by
  induction h with
  | refl s bs => rfl
  | step _ _ ih => rw [List.flatten_cons, List.append_assoc, ih]

/-- Nothing was acted on yet, or the first message was. -/
theorem Reads.head {next : σ → List β → Outcome σ β} {s s' : σ} {bs rest : List β}
    {ms : List (List β)} (h : Reads next s bs ms s' rest) :
    rest = bs ∨ ∃ s₁ bs₁ ms₁, next s bs = .done s₁ bs₁ ∧ Reads next s₁ bs₁ ms₁ s' rest := by
  cases h with
  | refl => exact .inl rfl
  | step hnext hrest => exact .inr ⟨_, _, _, hnext, hrest⟩

section Steady

variable {next : σ → List β → Outcome σ β} (hsteady : Steady next)

include hsteady

theorem Reads.append {s s' : σ} {bs rest : List β} {ms : List (List β)}
    (h : Reads next s bs ms s' rest) (more : List β) : Reads next s (bs ++ more) ms s' (rest ++ more) := by
  induction h with
  | refl s bs => exact .refl s (bs ++ more)
  | step hnext _ ih =>
    rw [List.append_assoc]
    refine .step ?_ ih
    rw [← List.append_assoc, hsteady.whole (by simp [hnext]), hnext]
    rfl

theorem Steady.shorter {s s' : σ} {bs rest : List β} (h : next s bs = .done s' rest) :
    rest.length < bs.length := by
  obtain ⟨m, hm, rfl⟩ := hsteady.takes h
  have := List.length_pos_iff.mpr hm
  rw [List.length_append]
  omega

/-- The length of the bytes is fuel enough. -/
theorem drain_fuel {n n' : Nat} {s : σ} {bs : List β} (hn : bs.length ≤ n) (hn' : bs.length ≤ n') :
    drain next n s bs = drain next n' s bs := by
  induction n generalizing n' s bs with
  | zero =>
    obtain rfl : bs = [] := List.length_eq_zero_iff.mp (Nat.le_zero.mp hn)
    cases n' <;> rfl
  | succ n ih =>
    cases n' with
    | zero =>
      obtain rfl : bs = [] := List.length_eq_zero_iff.mp (Nat.le_zero.mp hn')
      rfl
    | succ n' =>
      unfold drain
      by_cases hnil : bs.length = 0
      · rw [if_pos hnil, if_pos hnil]
      rw [if_neg hnil, if_neg hnil]
      cases hnext : next s bs with
      | incomplete => rfl
      | failed => rfl
      | done s' rest =>
        have hlt := hsteady.shorter hnext
        dsimp only
        rw [ih (by omega) (by omega : rest.length ≤ n')]

/-- The loop acts on the messages it lists, each once. -/
theorem drain_reads (fuel : Nat) (s : σ) (bs : List β) :
    Reads next s bs (drain next fuel s bs).applied (drain next fuel s bs).state
      (drain next fuel s bs).kept := by
  induction fuel generalizing s bs with
  | zero => exact .refl s bs
  | succ fuel ih =>
    unfold drain
    by_cases hnil : bs.length = 0
    · rw [if_pos hnil]
      exact .refl s bs
    rw [if_neg hnil]
    cases hnext : next s bs with
    | incomplete => exact .refl s bs
    | failed => exact .refl s bs
    | done s' rest =>
      obtain ⟨m, -, rfl⟩ := hsteady.takes hnext
      have htaken : (m ++ rest).take ((m ++ rest).length - rest.length) = m := by
        rw [List.length_append, Nat.add_sub_cancel, List.take_left]
      dsimp only
      rw [htaken]
      exact .step hnext (ih s' rest)

/-- What is kept holds no whole message. -/
theorem drain_kept {fuel : Nat} {s : σ} {bs : List β} (hf : bs.length ≤ fuel)
    (h : (drain next fuel s bs).failed = false) : (drain next fuel s bs).kept = [] ∨
      next (drain next fuel s bs).state (drain next fuel s bs).kept = .incomplete := by
  induction fuel generalizing s bs with
  | zero => exact .inl (List.length_eq_zero_iff.mp (Nat.le_zero.mp hf))
  | succ fuel ih =>
    unfold drain at h ⊢
    by_cases hnil : bs.length = 0
    · rw [if_pos hnil]
      exact .inl (List.length_eq_zero_iff.mp hnil)
    rw [if_neg hnil] at h ⊢
    cases hnext : next s bs with
    | incomplete => exact .inr hnext
    | failed =>
      rw [hnext] at h
      simp at h
    | done s' rest =>
      rw [hnext] at h
      have hlt := hsteady.shorter hnext
      exact ih (by omega) h

/-- **One cut.**  Reading on behind what was kept is reading the whole. -/
theorem drain_append (fuel : Nat) {s : σ} {bs : List β} (more : List β) (hf : bs.length ≤ fuel) :
    drain next (bs ++ more).length s (bs ++ more) = arrive next (drain next fuel s bs) more := by
  induction fuel generalizing s bs with
  | zero =>
    obtain rfl : bs = [] := List.length_eq_zero_iff.mp (Nat.le_zero.mp hf)
    rfl
  | succ fuel ih =>
    by_cases hnil : bs.length = 0
    · obtain rfl : bs = [] := List.length_eq_zero_iff.mp hnil
      rfl
    have hcons : (bs ++ more).length ≠ 0 := by
      rw [List.length_append]
      omega
    cases hnext : next s bs with
    | incomplete =>
      -- nothing was read: the next arrival is read with all of it in front
      have hkept : drain next (fuel + 1) s bs = { state := s, kept := bs } := by
        rw [drain, if_neg hnil, hnext]
      rw [hkept]
      rfl
    | failed =>
      have hstop : drain next (fuel + 1) s bs = { state := s, kept := bs, failed := true } := by
        rw [drain, if_neg hnil, hnext]
      have hwhole : next s (bs ++ more) = _ := hsteady.whole (by simp [hnext]) more
      rw [hnext] at hwhole
      obtain ⟨n, hn⟩ := Nat.exists_eq_succ_of_ne_zero hcons
      rw [hstop, hn, drain, if_neg hcons, hwhole]
      rfl
    | done s' rest =>
      have hlt := hsteady.shorter hnext
      have hwhole : next s (bs ++ more) = _ := hsteady.whole (by simp [hnext]) more
      rw [hnext] at hwhole
      obtain ⟨n, hn⟩ := Nat.exists_eq_succ_of_ne_zero hcons
      have hrest : drain next (rest ++ more).length s' (rest ++ more) = _ := ih (by omega)
      have hfuel : drain next n s' (rest ++ more) =
          drain next (rest ++ more).length s' (rest ++ more) :=
        drain_fuel hsteady (by rw [List.length_append] at hn ⊢; omega) (Nat.le_refl _)
      have htaken : (bs ++ more).take ((bs ++ more).length - (rest ++ more).length) =
          bs.take (bs.length - rest.length) := by
        rw [List.length_append, List.length_append, Nat.add_sub_add_right,
          List.take_append_of_le_length (Nat.sub_le _ _)]
      rw [hn, drain, if_neg hcons, hwhole]
      show { drain next n s' (rest ++ more) with
        applied := (bs ++ more).take ((bs ++ more).length - (rest ++ more).length) ::
          (drain next n s' (rest ++ more)).applied } = _
      rw [hfuel, hrest, htaken, drain, if_neg hnil, hnext]
      unfold arrive
      dsimp only
      split
      · rfl
      · rfl

/-- **Splitting does not matter.**  Arrival by arrival the loop ends where it ends on the whole. -/
theorem drain_arrivals (s : σ) (pieces : List (List β)) :
    arrivals next s pieces = drain next pieces.flatten.length s pieces.flatten := by
  -- from the last arrival: those before it are one
  induction pieces using List.reverseRecOn with
  | nil => rfl
  | append_singleton pieces piece ih =>
    have hlast : arrivals next s (pieces ++ [piece]) = arrive next (arrivals next s pieces) piece := by
      unfold arrivals
      rw [List.foldl_append]
      rfl
    rw [hlast, ih, List.flatten_append, List.flatten_singleton]
    exact (drain_append hsteady _ piece (Nat.le_refl _)).symm

end Steady

end Agensio.Lib
